import CircuitSketch.Proofs.Bits.Reading

/-!
# What the standard primitives compute

The standard primitives as arithmetic on the numbers wired to their ports. A lookup table yields the
bit of its table whose position the inputs spell. The adding carry block yields the sum of its data,
its selections and the carry in; the block of multiplexers and exclusive ors passes a carry on where
a selection is one, which is to add the data to the exclusive or of data and selections.
-/
namespace CircuitSketch

/-- A number and the width of the word that holds it. -/
structure Numeral where
  width : Nat
  value : Nat
deriving DecidableEq, Repr

/-- The number that a word holds. -/
def Word.numeral (bits : List Bool) : Numeral := ⟨bits.length, toNat bits⟩

namespace Primitive

/-- The number wired to a port; the last wire to a port counts. -/
def wired (ports : List (String × Numeral)) (name : String) : Numeral :=
  (ports.reverse.lookup name).getD ⟨0, 0⟩

/-- The position in a table that the first `inputs` inputs spell, the first one lowest. -/
def tablePosition (ports : List (String × Numeral)) (inputs : Nat) : Nat :=
  ((List.range inputs).map fun j => ((wired ports s!"I{j}").value % 2) <<< j).sum

/-- The entry of the table at the position that the inputs spell. -/
def denoteLut (ports : List (String × Numeral)) : List (String × Numeral) :=
  let table := wired ports "INIT"
  [("O", ⟨1, (table.value >>> tablePosition ports (Nat.log2 table.width)) % 2⟩)]

/-- The low bits and the carry of a total of data, selections and carry in. Only the positions that
both ports have take part. -/
def denoteCarry (total : Nat → Nat → Nat → Nat) (ports : List (String × Numeral)) :
    List (String × Numeral) :=
  let di := wired ports "DI"
  let s := wired ports "S"
  let width := min di.width s.width
  let sum := total (di.value % twoPow width) (s.value % twoPow width) ((wired ports "CI").value % 2)
  [("O", ⟨width, sum % twoPow width⟩), ("CO", ⟨1, sum / twoPow width⟩)]

/-- What the standard primitive of a name computes. -/
def denote (module : String) : List (String × Numeral) → List (String × Numeral) :=
  if module = "CARRY_ADD" then denoteCarry fun di s ci => di + s + ci
  else if module = "CARRY_MUXXOR" then denoteCarry fun di s ci => di + (di ^^^ s) + ci
  else denoteLut

/-- Named words as numbers. -/
def numerals (fields : List (String × List Bool)) : List (String × Numeral) :=
  fields.map fun p => (p.1, Word.numeral p.2)

theorem lookup_numerals (fields : List (String × List Bool)) (name : String) :
    (numerals fields).lookup name = (fields.lookup name).map Word.numeral :=
  lookup_map_snd Word.numeral fields name

variable {ports : List (String × List Bool)}

theorem wired_numerals {name : String} {bits : List Bool} (h : port ports name = .ok bits) :
    wired (numerals ports) name = Word.numeral bits := by
  unfold port at h
  have hreverse : (numerals ports).reverse = numerals ports.reverse := by simp [numerals]
  split at h
  · next found hfound =>
    rw [Except.ok.injEq] at h
    rw [wired, hreverse, lookup_numerals, hfound, h]
    rfl
  · cases h

theorem wired_portBit {name : String} {b : Bool} (h : portBit ports name = .ok b) :
    (wired (numerals ports) name).value % 2 = b.toNat := by
  obtain ⟨bits, hp, hb⟩ := bind_eq_ok h
  rw [wired_numerals hp]
  cases bits with
  | nil => cases hb
  | cons x rest =>
    cases hb
    have hx := Bool.toNat_lt b
    simp only [Word.numeral, Word.toNat_cons]
    omega

/-- One position of an adding chain is a full adder. -/
theorem fullAdder (d s c : Bool) :
    (d ^^ s ^^ c).toNat + 2 * (d && s || c && (d ^^ s)).toNat = d.toNat + s.toNat + c.toNat := by
  cases d <;> cases s <;> cases c <;> rfl

theorem length_addChain {β : Type} [BitAlgebra β] (carry : β) (pairs : List (β × β)) :
    (addChain carry pairs).1.length = pairs.length := by
  induction pairs generalizing carry with
  | nil => rfl
  | cons p pairs ih => exact congrArg (· + 1) (ih _)

/-- The sum bits and the carry out of an adding chain hold the sum of its two words and the carry
in. -/
theorem toNat_addChain (carry : Bool) (pairs : List (Bool × Bool)) :
    Word.toNat (addChain carry pairs).1 + twoPow pairs.length * (addChain carry pairs).2.toNat =
      Word.toNat (pairs.map (·.1)) + Word.toNat (pairs.map (·.2)) + carry.toNat := by
  induction pairs generalizing carry with
  | nil => simp [addChain]
  | cons p pairs ih =>
    have hbit := fullAdder p.1 p.2 carry
    have hrest := ih (p.1 && p.2 || carry && (p.1 ^^ p.2))
    have hstep : addChain carry (p :: pairs) =
        ((p.1 ^^ p.2 ^^ carry) :: (addChain (p.1 && p.2 || carry && (p.1 ^^ p.2)) pairs).1,
          (addChain (p.1 && p.2 || carry && (p.1 ^^ p.2)) pairs).2) := rfl
    rw [hstep]
    simp only [Word.toNat_cons, List.map_cons, List.length_cons, twoPow_succ]
    rw [Nat.mul_comm (twoPow pairs.length) 2, Nat.mul_assoc]
    omega

/-- A chain that passes its carry on where a selection is one is an adding chain. -/
theorem muxChain_eq_addChain (carry : Bool) (pairs : List (Bool × Bool)) :
    muxChain carry pairs = addChain carry (pairs.map fun p => (p.1, p.1 ^^ p.2)) := by
  induction pairs generalizing carry with
  | nil => rfl
  | cons p pairs ih =>
    obtain ⟨d, s⟩ := p
    have hnext : BitAlgebra.ite s carry d = (d && (d ^^ s) || carry && (d ^^ (d ^^ s))) := by
      cases d <;> cases s <;> cases carry <;> rfl
    have hsum : (s ^^ carry) = (d ^^ (d ^^ s) ^^ carry) := by
      cases d <;> cases s <;> cases carry <;> rfl
    show ((s ^^ carry) :: (muxChain (BitAlgebra.ite s carry d) pairs).1,
      (muxChain (BitAlgebra.ite s carry d) pairs).2) = _
    rw [hsum, hnext, ih]
    rfl

theorem toNat_map_xor (pairs : List (Bool × Bool)) :
    Word.toNat (pairs.map fun p => p.1 ^^ p.2) =
      Word.toNat (pairs.map (·.1)) ^^^ Word.toNat (pairs.map (·.2)) := by
  apply Nat.eq_of_testBit_eq
  intro i
  rw [Nat.testBit_xor, Word.testBit_toNat, Word.testBit_toNat, Word.testBit_toNat]
  simp only [List.getD_eq_getElem?_getD, List.getElem?_map]
  cases pairs[i]? <;> rfl

theorem map_fst_zip_eq_take (xs ys : List Bool) :
    (xs.zip ys).map (·.1) = xs.take (min xs.length ys.length) := by
  rw [List.zip_eq_zip_take_min]
  exact List.map_fst_zip (by simp)

theorem map_snd_zip_eq_take (xs ys : List Bool) :
    (xs.zip ys).map (·.2) = ys.take (min xs.length ys.length) := by
  rw [List.zip_eq_zip_take_min]
  exact List.map_snd_zip (by simp)

/-- A carry chain computes a total if its sum bits and its carry out hold that total of the two
words and the carry in. -/
theorem denoteCarry_numerals {chain : Bool → List (Bool × Bool) → List Bool × Bool}
    {total : Nat → Nat → Nat → Nat}
    (length : ∀ carry pairs, (chain carry pairs).1.length = pairs.length)
    (sum : ∀ carry pairs,
      Word.toNat (chain carry pairs).1 + twoPow pairs.length * (chain carry pairs).2.toNat =
        total (Word.toNat (pairs.map (·.1))) (Word.toNat (pairs.map (·.2))) carry.toNat)
    {out : List (String × List Bool)} (h : runChain chain ports = .ok out) :
    denoteCarry total (numerals ports) = numerals out := by
  obtain ⟨carry, hc, h⟩ := bind_eq_ok h
  obtain ⟨di, hd, h⟩ := bind_eq_ok h
  obtain ⟨s, hs, hout⟩ := bind_eq_ok h
  cases hout
  have hlen := length carry (di.zip s)
  have hsum := sum carry (di.zip s)
  have hlt := Word.toNat_lt (chain carry (di.zip s)).1
  have hpos := twoPow_pos (min di.length s.length)
  rw [List.length_zip] at hlen hsum
  rw [map_fst_zip_eq_take, map_snd_zip_eq_take, Word.toNat_take, Word.toNat_take] at hsum
  rw [hlen] at hlt
  have hmod : (Word.toNat (chain carry (di.zip s)).1 + twoPow (min di.length s.length) *
      (chain carry (di.zip s)).2.toNat) % twoPow (min di.length s.length) =
      Word.toNat (chain carry (di.zip s)).1 := by
    rw [Nat.add_mul_mod_self_left, Nat.mod_eq_of_lt hlt]
  have hdiv : (Word.toNat (chain carry (di.zip s)).1 + twoPow (min di.length s.length) *
      (chain carry (di.zip s)).2.toNat) / twoPow (min di.length s.length) =
      (chain carry (di.zip s)).2.toNat := by
    rw [Nat.add_mul_div_left _ _ hpos, Nat.div_eq_of_lt hlt, Nat.zero_add]
  show _ = [("O", Word.numeral (chain carry (di.zip s)).1),
    ("CO", Word.numeral [(chain carry (di.zip s)).2])]
  rw [denoteCarry, wired_numerals hd, wired_numerals hs, wired_portBit hc]
  simp only [Word.numeral, ← hsum, hmod, hdiv, hlen]
  rfl

theorem getD_halve (b : Bool) (table : List Bool) (n i : Nat) (hlen : table.length = n * 2) :
    (halve b table).getD i false = table.getD (b.toNat + 2 * i) false := by
  induction n generalizing table i with
  | zero =>
    have hnil : table = [] := List.eq_nil_of_length_eq_zero (by omega)
    subst hnil
    simp [halve]
  | succ n ih =>
    match table with
    | [] =>
      rw [List.length_nil] at hlen
      omega
    | [x] =>
      rw [List.length_singleton] at hlen
      omega
    | low :: high :: rest =>
      simp only [List.length_cons] at hlen
      cases i with
      | zero => cases b <;> simp [halve, BitAlgebra.ite]
      | succ i =>
        have hrest := ih rest i (by omega)
        have hindex : b.toNat + 2 * (i + 1) = b.toNat + 2 * i + 1 + 1 := by omega
        rw [halve, List.getD_cons_succ, hrest, hindex, List.getD_cons_succ, List.getD_cons_succ]

theorem length_halve {β : Type} [BitAlgebra β] (b : β) (table : List β) :
    (halve b table).length = table.length / 2 := by
  fun_induction halve b table with
  | case1 low high rest ih =>
    simp only [List.length_cons, ih]
    omega
  | case2 table h =>
    rcases table with _ | ⟨low, _ | ⟨high, rest⟩⟩
    · simp
    · simp
    · exact (h low high rest rfl).elim

theorem sum_range_shift (f : Nat → Nat) (count : Nat) :
    ((List.range (count + 1)).map fun j => f j <<< j).sum =
      f 0 + 2 * ((List.range count).map fun j => f (j + 1) <<< j).sum := by
  have hshift : ∀ j, f (j + 1) <<< (j + 1) = 2 * (f (j + 1) <<< j) := by
    intro j
    rw [Nat.shiftLeft_succ]
  have hsum : ∀ js : List Nat, (js.map fun j => 2 * (f (j + 1) <<< j)).sum =
      2 * (js.map fun j => f (j + 1) <<< j).sum := by
    intro js
    induction js with
    | nil => rfl
    | cons j js ih =>
      simp only [List.map_cons, List.sum_cons, ih]
      omega
  rw [List.range_succ_eq_map, List.map_cons, List.sum_cons, List.map_map]
  simp only [Function.comp_def, hshift, hsum, Nat.succ_eq_add_one, Nat.shiftLeft_zero]

/-- Reading the inputs of a table leaves the entry at the position that they spell. -/
theorem lutRead_eq {count index : Nat} {table out : List Bool} (hlen : table.length = twoPow count)
    (h : lutRead ports count index table = .ok out) :
    out = [table.getD ((List.range count).map fun j =>
      ((wired (numerals ports) s!"I{index + j}").value % 2) <<< j).sum false] := by
  induction count generalizing index table with
  | zero =>
    rw [lutRead, Except.ok.injEq] at h
    subst h
    obtain ⟨x, rfl⟩ := List.length_eq_one_iff.mp hlen
    rfl
  | succ count ih =>
    obtain ⟨b, hb, hrest⟩ := bind_eq_ok h
    rw [twoPow_succ] at hlen
    have hhalf : (halve b table).length = twoPow count := by rw [length_halve, hlen]; omega
    have hsum := sum_range_shift
      (fun j => (wired (numerals ports) s!"I{index + j}").value % 2) count
    simp only [Nat.add_zero, wired_portBit hb] at hsum
    rw [ih hhalf hrest, getD_halve b table _ _ hlen, hsum]
    simp only [Nat.add_assoc, Nat.add_comm 1]

theorem denoteLut_numerals {out : List (String × List Bool)} (h : runLut ports = .ok out) :
    denoteLut (numerals ports) = numerals out := by
  obtain ⟨table, ht, h⟩ := bind_eq_ok h
  simp only at h
  split at h
  · cases h
  · split at h
    · next hlen =>
      obtain ⟨entries, hr, hout⟩ := bind_eq_ok h
      cases hout
      have hentries := lutRead_eq hlen hr
      simp only [Nat.zero_add] at hentries
      have hbit (b : Bool) : Word.numeral [b] = ⟨1, b.toNat⟩ := by simp [Word.numeral]
      rw [denoteLut, wired_numerals ht, hentries, ← Word.testBit_toNat]
      simp only [numerals, List.map_cons, List.map_nil, hbit, Nat.toNat_testBit,
        ← Nat.shiftRight_eq_div_pow]
      rfl
    · cases h

/-- The name of a standard primitive says which one it is. -/
theorem standard_eq_some {module : String} {p : Primitive} (h : standard module = some p) :
    module = "CARRY_ADD" ∧ p = carryAdd ∨
      module ≠ "CARRY_ADD" ∧ module = "CARRY_MUXXOR" ∧ p = carryMuxXor ∨
        module ≠ "CARRY_ADD" ∧ module ≠ "CARRY_MUXXOR" ∧ p = lut := by
  unfold standard standardModules at h
  rw [List.cons_append, List.lookup_cons, List.cons_append, List.lookup_cons, List.nil_append] at h
  by_cases hadd : module = "CARRY_ADD"
  · rw [beq_iff_eq.mpr hadd] at h
    exact .inl ⟨hadd, (Option.some.inj h).symm⟩
  · rw [beq_false_of_ne hadd] at h
    by_cases hmux : module = "CARRY_MUXXOR"
    · simp only [beq_iff_eq.mpr hmux] at h
      exact .inr (.inl ⟨hadd, hmux, (Option.some.inj h).symm⟩)
    · simp only [beq_false_of_ne hmux] at h
      obtain ⟨k, -, hk⟩ := List.mem_map.mp (mem_of_lookup_eq_some h)
      exact .inr (.inr ⟨hadd, hmux, (Prod.mk.inj hk).2.symm⟩)

/-- Every standard primitive computes what its name says. -/
theorem denote_numerals {module : String} {p : Primitive} {out : List (String × List Bool)}
    (hp : standard module = some p) (h : p.run ports = .ok out) :
    denote module (numerals ports) = numerals out := by
  rcases standard_eq_some hp with ⟨rfl, rfl⟩ | ⟨hadd, rfl, rfl⟩ | ⟨hadd, hmux, rfl⟩
  · rw [denote, if_pos rfl]
    exact denoteCarry_numerals length_addChain toNat_addChain h
  · rw [denote, if_neg hadd, if_pos rfl]
    refine denoteCarry_numerals (fun carry pairs => ?_) (fun carry pairs => ?_) h
    · rw [muxChain_eq_addChain, length_addChain, List.length_map]
    · have hsum := toNat_addChain carry (pairs.map fun p => (p.1, p.1 ^^ p.2))
      simp only [List.map_map, List.length_map, Function.comp_def, toNat_map_xor] at hsum
      rw [muxChain_eq_addChain, hsum]
  · rw [denote, if_neg hadd, if_neg hmux]
    exact denoteLut_numerals h

end Primitive
end CircuitSketch
