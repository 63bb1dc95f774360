import CircuitSketch.Proofs.Expr.Accepting

/-!
# The expressions that can be made

Expressions are made by calls of the checked constructors, and the operands of a call are whatever
earlier calls made, shared or not. The expressions that come about in this way are the well-formed
ones. So a statement about well-formed expressions is one about all that a caller can lay hands on.
-/
namespace CircuitSketch

open Build

/-- A call of a checked constructor. -/
inductive Call
  | const (width : Datum) (value : Int)
  | var (name : String) (width : Datum)
  | hole (width : Datum) (name : Option String)
  | extract (lo hi : Int) (x : Operand)
  | concat (xs : List Operand)
  | zeroExtend (x : Operand) (width : Datum)
  | dupExtend (x : Operand) (width : Datum)
  | list (xs : List Operand)
  | item (x index : Operand)
  | record (entries : List (String × Operand))
  | primitive (module : String) (ports : List (String × Operand)) (outputs : List (String × Datum))
  | output (x : Operand) (key : String)
  | choose (a b selector : Operand)
  | chooseNew (a b : Operand)
  | binary (name : String) (a b : Operand)
  | unary (name : String) (a : Operand)
  | slice (x : Operand) (lo hi : Int)
  | bit (x : Operand) (i : Int)
  | bits (x : Operand)
  | concatBits (xs : List Operand)

namespace Call

/-- What a call is given to make expressions of. -/
def operands : Call → List Operand
  | const .. => []
  | var .. => []
  | hole .. => []
  | extract _ _ x => [x]
  | concat xs => xs
  | zeroExtend x _ => [x]
  | dupExtend x _ => [x]
  | list xs => xs
  | item x index => [x, index]
  | record entries => entries.map (·.2)
  | primitive _ ports _ => ports.map (·.2)
  | output x _ => [x]
  | choose a b selector => [a, b, selector]
  | chooseNew a b => [a, b]
  | binary _ a b => [a, b]
  | unary _ a => [a]
  | slice x _ _ => [x]
  | bit x _ => [x]
  | bits x => [x]
  | concatBits xs => xs

/-- Makes the single expression of a call. -/
def single (made : Build ShapeError Expr) : Build ShapeError (List Operand) := do
  let e ← made
  pure [.expr e]

/-- Makes what is called for. -/
def run : Call → Build ShapeError (List Operand)
  | const width value => single (Checked.const width value)
  | var name width => single (Checked.var name width)
  | hole width name => single (Checked.hole width name)
  | extract lo hi x => single (Checked.extract lo hi x)
  | concat xs => single (Checked.concat xs)
  | zeroExtend x width => single (Checked.zeroExtend x width)
  | dupExtend x width => single (Checked.dupExtend x width)
  | list xs => single (Checked.list xs)
  | item x index => single (Checked.item x index)
  | record entries => single (Checked.record entries)
  | primitive module ports outputs => single (Checked.primitive module ports outputs)
  | output x key => single (Checked.output x key)
  | choose a b selector => single (Checked.choose a b selector)
  | chooseNew a b => single (Checked.chooseNew a b)
  | binary name a b => single (Checked.binary name a b)
  | unary name a => single (Checked.unary name a)
  | slice x lo hi => single (Checked.slice x lo hi)
  | bit x i => single (Checked.bit x i)
  | bits x => do
    let es ← Checked.bits x
    pure (es.map .expr)
  | concatBits xs => do
    let x ← Checked.concatBits xs
    pure [x]

theorem makes_single {made : Build ShapeError Expr} (h : made.Makes Expr.WellFormed) :
    Makes (single made) fun xs => ∀ x ∈ xs, x.WellFormed := by
  refine h.bind fun e he => makes_pure (List.forall_mem_singleton.mpr ?_)
  exact fun f hf => Operand.expr.inj hf ▸ he

/-- A call on well-formed operands makes well-formed ones. -/
theorem makes_run {c : Call} (h : ∀ x ∈ c.operands, x.WellFormed) :
    Makes c.run fun xs => ∀ x ∈ xs, x.WellFormed := by
  cases c with
  | const width value => exact makes_single (Checked.makes_const width value)
  | var name width => exact makes_single (Checked.makes_var name width)
  | hole width name => exact makes_single (Checked.makes_hole width name)
  | extract lo hi x => exact makes_single (Checked.makes_extract lo hi (h x (by simp [operands])))
  | concat xs => exact makes_single (Checked.makes_concat h)
  | zeroExtend x width =>
    exact makes_single (Checked.makes_zeroExtend (h x (by simp [operands])) width)
  | dupExtend x width =>
    exact makes_single (Checked.makes_dupExtend (h x (by simp [operands])) width)
  | list xs => exact makes_single (Checked.makes_list h)
  | item x index =>
    exact makes_single
      (Checked.makes_item (h x (by simp [operands])) (h index (by simp [operands])))
  | record entries =>
    exact makes_single (Checked.makes_record fun p hp => h p.2 (List.mem_map_of_mem hp))
  | primitive module ports outputs =>
    exact makes_single
      (Checked.makes_primitive module outputs fun p hp => h p.2 (List.mem_map_of_mem hp))
  | output x key => exact makes_single (Checked.makes_output (h x (by simp [operands])) key)
  | choose a b selector =>
    exact makes_single (Checked.makes_choose (h a (by simp [operands])) (h b (by simp [operands])))
  | chooseNew a b =>
    exact makes_single
      (Checked.makes_chooseNew (h a (by simp [operands])) (h b (by simp [operands])))
  | binary name a b =>
    exact makes_single
      (Checked.makes_binary name (h a (by simp [operands])) (h b (by simp [operands])))
  | unary name a => exact makes_single (Checked.makes_unary name (h a (by simp [operands])))
  | slice x lo hi => exact makes_single (Checked.makes_slice (h x (by simp [operands])) lo hi)
  | bit x i => exact makes_single (Checked.makes_bit (h x (by simp [operands])) i)
  | bits x =>
    refine (Checked.makes_bits (h x (by simp [operands]))).bind fun es hes => makes_pure ?_
    intro y hy f hf
    obtain ⟨e, he, rfl⟩ := List.mem_map.mp hy
    exact Operand.expr.inj hf ▸ hes e he
  | concatBits xs =>
    exact (Checked.makes_concatBits h).bind fun x hx =>
      makes_pure (List.forall_mem_singleton.mpr hx)

end Call

/-- The expressions that calls make, one call after the other, each of expressions made before. -/
inductive Constructed : Expr → Prop
  | call {c : Call} {next last : Nat} {made : List Operand} {e : Expr}
      (operands : ∀ a, .expr a ∈ c.operands → Constructed a)
      (ran : c.run next = .ok (made, last)) (mem : .expr e ∈ made) : Constructed e

/-- Whatever the checked constructors make is well-formed. -/
theorem Constructed.wellFormed {e : Expr} (h : Constructed e) : e.WellFormed := by
  induction h with
  | call _ ran mem ih =>
    exact Call.makes_run (fun x hx a ha => ih a (ha ▸ hx)) _ _ _ ran _ mem _ rfl

theorem constructed_of_single {c : Call} {made : Build ShapeError Expr} {e : Expr}
    {next last : Nat} (hrun : c.run = Call.single made)
    (operands : ∀ a, .expr a ∈ c.operands → Constructed a) (h : made next = .ok (e, last)) :
    Constructed e := by
  have ran : c.run next = .ok ([.expr e], last) := by
    rw [hrun, Call.single, bind_of_ok h]
    rfl
  exact .call operands ran (by simp)

theorem mem_of_getD_eq_expr {xs : List Operand} {i : Nat} {a : Expr}
    (h : xs.getD i (.datum .null) = .expr a) : .expr a ∈ xs := by
  rw [List.getD_eq_getElem?_getD] at h
  cases hx : xs[i]? with
  | none =>
    rw [hx] at h
    cases h
  | some x =>
    rw [hx] at h
    exact h ▸ List.mem_of_getElem? hx

/-- There is a call that makes an operation of operands, and is given no others. -/
theorem Op.exists_call (op : Op) (xs : List Operand) :
    ∃ c : Call, c.run = Call.single (op.checked xs) ∧
      ∀ a, .expr a ∈ c.operands → .expr a ∈ xs := by
  let x := xs.getD 0 (.datum .null)
  let y := xs.getD 1 (.datum .null)
  have hone : ∀ a, .expr a ∈ [x] → .expr a ∈ xs := fun a ha =>
    mem_of_getD_eq_expr (List.mem_singleton.mp ha).symm
  have htwo : ∀ a, .expr a ∈ [x, y] → .expr a ∈ xs := fun a ha =>
    (List.mem_pair.mp ha).elim (mem_of_getD_eq_expr ·.symm) (mem_of_getD_eq_expr ·.symm)
  have hnamed : ∀ (names : List String) a, .expr a ∈ (names.zip xs).map (·.2) → .expr a ∈ xs :=
    fun names a ha => by
      obtain ⟨p, hp, hpa⟩ := List.mem_map.mp ha
      exact hpa ▸ (List.of_mem_zip hp).2
  cases op with
  | const w v => exact ⟨.const (.int w) v, rfl, by simp [Call.operands]⟩
  | var name w => exact ⟨.var name (.int w), rfl, by simp [Call.operands]⟩
  | extract lo hi => exact ⟨.extract lo hi x, rfl, hone⟩
  | concat => exact ⟨.concat xs, rfl, fun _ ha => ha⟩
  | zeroExtend w => exact ⟨.zeroExtend x (.int w), rfl, hone⟩
  | dupExtend w => exact ⟨.dupExtend x (.int w), rfl, hone⟩
  | list => exact ⟨.list xs, rfl, fun _ ha => ha⟩
  | item p =>
    exact ⟨.item x (.datum p.datum), rfl, fun a ha => hone a (by simpa [Call.operands] using ha)⟩
  | lookup => exact ⟨.item x y, rfl, htwo⟩
  | record keys => exact ⟨.record (keys.zip xs), rfl, hnamed keys⟩
  | primitive module ports outputs =>
    exact ⟨.primitive module (ports.zip xs) (outputs.map fun o => (o.1, .int o.2)), rfl,
      hnamed ports⟩
  | output key => exact ⟨.output x key, rfl, hone⟩
  | binary op => exact ⟨.binary op.name x y, rfl, htwo⟩
  | unary op => exact ⟨.unary op.name x, rfl, hone⟩

/-- An expression can be made if and only if it is well-formed. -/
theorem constructed_iff {e : Expr} : Constructed e ↔ e.WellFormed := by
  refine ⟨Constructed.wellFormed, fun hw => ?_⟩
  have hmade := hw.checked_eq_ok
  induction e using Expr.induction with
  | hole k =>
    exact constructed_of_single (c := .hole (.int k.width) k.name) rfl (by simp [Call.operands])
      hmade
  | node t op s args ih =>
    obtain ⟨-, hargs⟩ := Expr.wellFormed_node.mp hw
    obtain ⟨c, hrun, hmem⟩ := op.exists_call (args.map .expr)
    refine constructed_of_single hrun (fun a ha => ?_) hmade
    obtain ⟨b, hb, hab⟩ := List.mem_map.mp (hmem a ha)
    obtain rfl := Operand.expr.inj hab
    exact ih b hb (hargs b hb) (hargs b hb).checked_eq_ok
  | choose t w a b s iha ihb =>
    obtain ⟨⟨-, -, one⟩, ha, hb⟩ := Expr.wellFormed_choose.mp hw
    have hs : Constructed (.hole s) :=
      constructed_of_single (c := .hole (.int s.width) s.name) rfl (by simp [Call.operands])
        (Checked.hole_eq_ok (by omega) s.name s.tag)
    refine constructed_of_single (c := .choose (.expr a) (.expr b) (.expr (.hole s))) rfl
      (fun x hx => ?_) hmade
    simp only [Call.operands, List.mem_cons, Operand.expr.injEq, List.not_mem_nil, or_false] at hx
    rcases hx with rfl | rfl | rfl
    · exact iha ha ha.checked_eq_ok
    · exact ihb hb hb.checked_eq_ok
    · exact hs

end CircuitSketch
