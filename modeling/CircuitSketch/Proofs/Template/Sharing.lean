import CircuitSketch.Proofs.Template.Sketch

/-!
# What sketches share

The holes of a sketch of closed inputs are those of its program and those that settle its choices.
The program of a sketch can be handed on, and nothing else is handed on with it: a second sketch
with that program has its own choices, and a sketch with a new program has no hole of an earlier
one.
-/
namespace CircuitSketch.Template

open CircuitSketch.Expr

variable {p : Platform} {xs ys : List Expr} {w next last : Nat} {logarithmic : Bool} {out : Expr}
  {given : Option Program} {s : Program} {k : Hole}

/-- An expression without holes has none that could be met on the way down. -/
theorem not_mem_preorder_of_closed {x : Expr} (closed : x.holes = []) : hole k ∉ x.preorder := by
  intro hk
  have hmem := mem_holes.mpr hk
  rw [closed] at hmem
  cases hmem

namespace SketchSpec

variable (h : SketchSpec p xs w logarithmic given next out s last)
  (closed : ∀ x ∈ xs, x.holes = [])

include h closed

/-- What settles a choice of a sketch was made for that, and programs it only if it was handed in.
-/
theorem of_mem_selectors (hk : k ∈ out.selectors) :
    Chosen (handedHoles given) s.holes next last k := by
  rcases (h.sketched.grown out (by simp)).of_mem_selectors hk with ⟨x, hx, hkx⟩ | hchosen
  · have hmem := mem_holes_of_mem_selectors hkx
    rw [closed x hx] at hmem
    cases hmem
  · exact hchosen

/-- The holes of a sketch are those of its program and those that settle its choices. -/
theorem mem_holes_iff (hneeded : ∀ g ∈ given, g.Needed p xs.length w logarithmic) :
    k ∈ out.holes ↔ k ∈ s.holes ∨ k ∈ out.selectors := by
  constructor
  · intro hk
    rcases (h.sketched.grown out (by simp)).of_mem_holes (mem_holes.mp hk) with
      ⟨x, hx, hkx⟩ | hwired | hchosen
    · exact absurd hkx (not_mem_preorder_of_closed (closed x hx))
    · exact .inl hwired
    · exact .inr hchosen
  · rintro (hk | hk)
    · exact mem_holes.mpr (h.wires hneeded k hk)
    · exact mem_holes_of_mem_selectors hk

/-- A hole of a sketch was handed in with a program, or has been made for the sketch. -/
theorem of_mem_holes (hk : k ∈ out.holes) :
    k ∈ s.holes ∧ k ∈ handedHoles given ∨ next ≤ k.tag ∧ k.tag < last := by
  rcases (h.sketched.grown out (by simp)).source_of_mem_holes hk with ⟨x, hx, hkx⟩ | hwired | hchosen
  · rw [closed x hx] at hkx
    cases hkx
  · exact (h.sketched.issued k hwired).imp_left fun hgiven => ⟨hwired, hgiven⟩
  · exact .inr ⟨hchosen.ge, hchosen.lt⟩

end SketchSpec

/-- No hole of a new program settles a choice. -/
theorem not_mem_selectors_of_sketch {t : TemplateKind} {q : TemplateRequest}
    (hq : q.inputs = xs.map .expr) (fresh : q.given = none)
    (hxs : ∀ x ∈ xs, x.WellFormed ∧ x.holes = [])
    (h : t.sketch p q next = .ok ((out, s), last)) (hk : k ∈ s.holes) : k ∉ out.selectors := by
  intro hselect
  obtain ⟨w, given, -, hgiven, hspec⟩ :=
    sketch_spec hq (fun x hx => (hxs x hx).1) (by simp [fresh]) h
  obtain rfl : given = none := by simpa [fresh] using hgiven
  have hhanded := (hspec.of_mem_selectors (fun x hx => (hxs x hx).2) hselect).given hk
  simp [handedHoles] at hhanded

/-- A sketch with a new program has the holes of that program and the selectors of its choices, and
these are different holes. The program can be handed on to as many inputs for the same width, and is
then the program of the second sketch, which has exactly the holes of that program in common with
the first one. A third sketch with a new program has no hole of either. -/
theorem sketch_shares_program {t : TemplateKind} {count width : Datum} {options : TemplateOptions}
    {n₁ m₁ : Nat} {e₁ : Expr} {s₁ : Program} (hwidth : width.number? = some (w : Int))
    (hxs : ∀ x ∈ xs, x.WellFormed ∧ x.holes = [])
    (hys : ∀ y ∈ ys, y.WellFormed ∧ y.holes = [] ∧ Accepts t.demand w y)
    (length : ys.length = xs.length)
    (h₁ : t.sketch p ⟨xs.map .expr, count, width, none, options⟩ n₁ = .ok ((e₁, s₁), m₁)) :
    (∀ k, k ∈ e₁.holes ↔ k ∈ s₁.holes ∨ k ∈ e₁.selectors) ∧
      (∀ k ∈ s₁.holes, k ∉ e₁.selectors) ∧
        ∀ n₂ ≥ m₁, ∃ e₂ m₂,
          t.sketch p ⟨ys.map .expr, count, width, some (.program s₁), options⟩ n₂ =
            .ok ((e₂, s₁), m₂) ∧
          (∀ k, k ∈ e₁.holes ∧ k ∈ e₂.holes ↔ k ∈ s₁.holes) ∧
          ∀ n₃ ≥ m₂, ∃ e₃ s₃ m₃,
            t.sketch p ⟨ys.map .expr, count, width, none, options⟩ n₃ = .ok ((e₃, s₃), m₃) ∧
            ∀ k ∈ e₃.holes, k ∉ e₁.holes ∧ k ∉ e₂.holes := by
  have hxwf : ∀ x ∈ xs, x.WellFormed := fun x hx => (hxs x hx).1
  have hxclosed : ∀ x ∈ xs, x.holes = [] := fun x hx => (hxs x hx).2
  have hywf : ∀ y ∈ ys, y.WellFormed := fun y hy => (hys y hy).1
  have hyclosed : ∀ y ∈ ys, y.holes = [] := fun y hy => (hys y hy).2.1
  obtain ⟨w₁, given, hcheck, hgiven, hspec₁⟩ := sketch_spec rfl hxwf (by simp) h₁
  obtain rfl : given = none := by simpa using hgiven.symm
  obtain rfl : w₁ = w := by
    obtain ⟨-, hw₁, -⟩ := checkInputs_eq_ok.mp hcheck
    exact Int.ofNat.inj (Option.some.inj (hw₁.symm.trans hwidth))
  have passed := checkInputs_of_accepts hcheck length fun y hy => (hys y hy).2.2
  have hneeded : s₁.Needed p ys.length w₁ options.logarithmic := length ▸ hspec₁.needed (by simp)
  have hnew₁ : ∀ k ∈ e₁.holes, n₁ ≤ k.tag ∧ k.tag < m₁ := fun k hk =>
    (hspec₁.of_mem_holes hxclosed hk).resolve_left (by simp [handedHoles])
  refine ⟨fun k => hspec₁.mem_holes_iff hxclosed (by simp),
    fun k hk => not_mem_selectors_of_sketch rfl rfl hxs h₁ hk, fun n₂ hn₂ => ?_⟩
  obtain ⟨e₂, s₂, m₂, h₂, hkept⟩ := sketch_reusable rfl hxwf rfl h₁ hywf length passed
    (show ∀ g ∈ some s₁, g = s₁ by simp) n₂
  obtain rfl : s₁ = s₂ := (hkept s₁ rfl).symm
  obtain ⟨w₂, given₂, hcheck₂, hgiven₂, hspec₂⟩ := sketch_spec rfl hywf
    (by simpa using hspec₁.complete) h₂
  obtain rfl : given₂ = some s₁ := by simpa using hgiven₂.symm
  obtain rfl := width_of_checkInputs hcheck₂ passed
  have hneeded₂ : ∀ g ∈ some s₁, g.Needed p ys.length w₂ options.logarithmic := by
    simpa using hneeded
  have hle₂ := hspec₂.sketched.le
  have hnew₂ : ∀ k ∈ e₂.holes, k ∈ s₁.holes ∨ n₂ ≤ k.tag ∧ k.tag < m₂ := fun k hk =>
    (hspec₂.of_mem_holes hyclosed hk).imp_left And.left
  have hprogram : ∀ k ∈ s₁.holes, k ∈ e₁.holes := fun k hk =>
    (hspec₁.mem_holes_iff hxclosed (by simp)).mpr (.inl hk)
  refine ⟨e₂, m₂, h₂, fun k => ⟨fun hk => ?_, fun hk => ⟨hprogram k hk, ?_⟩⟩,
    fun n₃ hn₃ => ?_⟩
  · refine (hnew₂ k hk.2).resolve_right fun htag => ?_
    have := hnew₁ k hk.1
    omega
  · exact (hspec₂.mem_holes_iff hyclosed hneeded₂).mpr (.inl hk)
  obtain ⟨e₃, s₃, m₃, h₃, -⟩ := sketch_reusable rfl hxwf rfl h₁ hywf length passed
    (show ∀ g ∈ none, g = s₁ by simp) n₃
  obtain ⟨w₃, given₃, hcheck₃, hgiven₃, hspec₃⟩ := sketch_spec rfl hywf (by simp) h₃
  obtain rfl : given₃ = none := by simpa using hgiven₃.symm
  refine ⟨e₃, s₃, m₃, h₃, fun k hk => ?_⟩
  have htag := (hspec₃.of_mem_holes hyclosed hk).resolve_left (by simp [handedHoles])
  constructor
  · intro hk₁
    have := hnew₁ k hk₁
    omega
  · intro hk₂
    rcases hnew₂ k hk₂ with hk₁ | htag₂
    · have := hnew₁ k (hprogram k hk₁)
      omega
    · omega

theorem sketch_shares_program_multiplication :
    ∃ e₁ s₁ m₁ e₂ m₂,
      TemplateKind.multiplication.sketch .xilinxUltrascale
        ⟨[input 0 "a" 2, input 1 "b" 2].map .expr, .int 2, .int 2, none, ⟨true, false, .null⟩⟩ 4 =
          .ok ((e₁, s₁), m₁) ∧
      TemplateKind.multiplication.sketch .xilinxUltrascale
        ⟨[input 2 "c" 2, input 3 "d" 2].map .expr, .int 2, .int 2, some (.program s₁),
          ⟨true, false, .null⟩⟩ m₁ = .ok ((e₂, s₁), m₂) ∧
      ∀ k, k ∈ e₁.holes ∧ k ∈ e₂.holes ↔ k ∈ s₁.holes := by
  obtain ⟨⟨⟨e₁, s₁⟩, m₁⟩, h₁⟩ : ∃ r, TemplateKind.multiplication.sketch .xilinxUltrascale
      ⟨[input 0 "a" 2, input 1 "b" 2].map .expr, .int 2, .int 2, none, ⟨true, false, .null⟩⟩ 4 =
        .ok r := Build.exists_of_isSome (by decide +kernel)
  have hxs : ∀ x ∈ [input 0 "a" 2, input 1 "b" 2], x.WellFormed ∧ x.holes = [] := by
    simp [wellFormed_input, holes_input]
  have hfits : ∀ t name, Accepts TemplateKind.multiplication.demand 2 (input t name 2) :=
    fun t name => ⟨rfl, le_rfl, fun _ => rfl⟩
  have hys : ∀ y ∈ [input 2 "c" 2, input 3 "d" 2],
      y.WellFormed ∧ y.holes = [] ∧ Accepts TemplateKind.multiplication.demand 2 y := by
    simp [wellFormed_input, holes_input, hfits]
  obtain ⟨-, -, hagain⟩ := sketch_shares_program rfl hxs hys rfl h₁
  obtain ⟨e₂, m₂, h₂, hshared, -⟩ := hagain m₁ le_rfl
  exact ⟨e₁, s₁, m₁, e₂, m₂, h₁, h₂, hshared⟩
end CircuitSketch.Template
