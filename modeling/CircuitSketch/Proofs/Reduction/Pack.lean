import CircuitSketch.Proofs.Reduction.LutRow
import CircuitSketch.Proofs.Reduction.Window

/-!
# Packed rows

A packed row reads every bit of the rows through one of its windows. The windows need a pad exactly
where the last one is not full, and the pad is then wired into that one.
-/
namespace CircuitSketch

open CircuitSketch.Expr Build

/-- The tables of a row are complete and its pad is a single bit. -/
structure RowProgram.Complete (r : RowProgram) : Prop where
  luts : ∀ l ∈ r.luts, l.Complete
  pad : ∀ h ∈ r.pad, h.width = 1

/-- There is a pad only if windows of a size do not fill a length. -/
def RowProgram.Needed (r : RowProgram) (length window : Nat) : Prop :=
  r.pad.isSome → length % window ≠ 0

/-- The holes that the lookup table of a window is wired to: the pad only where the rows do not fill
the window. -/
def LutProgram.wiredAt (l : LutProgram) (pad : Option Hole) (length window k : Nat) : List Hole :=
  l.table ++ if length < (k + 1) * window then pad.toList else []

theorem RowProgram.wiredAt_subset {r : RowProgram} {l : LutProgram} (hl : l ∈ r.luts)
    (length window k : Nat) : l.wiredAt r.pad length window k ⊆ r.holes := by
  refine List.append_subset.mpr ⟨fun e he => ?_, ?_⟩
  · exact List.mem_append_left _ (List.mem_flatMap.mpr ⟨l, hl, he⟩)
  · split
    · exact List.subset_append_right _ _
    · exact List.nil_subset _

theorem RowProgram.Complete.ones {r : RowProgram} (h : r.Complete) : ∀ k ∈ r.holes, k.width = 1 := by
  intro k hk
  rcases List.mem_append.mp hk with hk | hk
  · obtain ⟨l, hl, hkl⟩ := List.mem_flatMap.mp hk
    exact (h.luts l hl).ones k hkl
  · exact h.pad k (Option.mem_toList.mp hk)

/-- Every table of a row pools the bits that it reads, and the pad counts nothing. -/
structure RowProgram.PooledBy (r : RowProgram) (τ : Hole → Bool) (op : Bool → Bool → Bool)
    (e : Bool) : Prop where
  luts : ∀ l ∈ r.luts, l.Computes τ fun bits => bits.foldr op e
  pad : ∀ k ∈ r.pad, τ k = e

namespace Row

variable {p : Platform} {rows : List (List Expr)} {given : Option RowProgram} {share even : Bool}
  {next last : Nat} {outs : List Expr} {r : RowProgram}

/-- Where the pad comes from: the one handed in, or a new one if there is need for it. -/
inductive PadIssued (length window next : Nat) : Option Hole → Option Hole → Nat → Prop
  | again {h : Hole} : PadIssued length window next (some h) (some h) next
  | full (all : length % window = 0) : PadIssued length window next none none next
  | new (part : length % window ≠ 0) :
      PadIssued length window next none (some ⟨next, 1, none⟩) (next + 1)

theorem padFor_eq_ok {length window t : Nat} {given pad : Option Hole} :
    padFor length window given next = .ok (pad, t) ↔ PadIssued length window next given pad t := by
  constructor
  · intro h
    cases given with
    | some h' =>
      cases h
      exact .again
    | none =>
      simp only [padFor] at h
      split at h
      · next hall =>
        cases h
        exact .full hall
      · next hpart =>
        cases h
        exact .new hpart
  · intro h
    cases h with
    | again => rfl
    | full all =>
      simp only [padFor, if_pos all]
      rfl
    | new part =>
      simp only [padFor, if_neg part]
      rfl

/-- The lookup tables of all windows, placed with one program or with one for each. -/
inductive Placed (p : Platform) (luts : List LutProgram) (windows : List (List Expr))
    (pad : Option Hole) (t : Nat) : Bool → List Expr → RowProgram → Nat → Prop
  | shared {outs : List Expr} {program : Option LutProgram} {last : Nat}
      (placed : placeShared p luts.head? windows t = .ok ((outs, program), last)) :
      Placed p luts windows pad t true outs ⟨program.toList, pad⟩ last
  | separate {outs : List Expr} {programs : List LutProgram} {last : Nat}
      (placed : placeSeparate p luts windows t = .ok ((outs, programs), last)) :
      Placed p luts windows pad t false outs ⟨programs, pad⟩ last

/-- The windows of rows. -/
def windowsOf (rows : List (List Expr)) (window : Nat) (pad : Option Hole) : List (List Expr) :=
  (List.range (windowCount (rows.headD []).length window)).map fun k =>
    windowBits rows window k (pad.map Expr.hole).toList

/-- The programs handed in for the windows of a row. -/
def handed (given : Option RowProgram) : List LutProgram := (given.map RowProgram.luts).getD []

/-- Rows that can be packed with windows of a size that can be counted up to, and with the programs
handed in. -/
structure Packable (p : Platform) (rows : List (List Expr)) (given : Option RowProgram)
    (share even : Bool) (window : Count) : Prop where
  size : p.window rows.length even = .ok window
  shortens : ¬ (rows.length = 1 ∧ window.value < 2 ∧ 1 < (rows.headD []).length)
  fits : share = false → handed given ≠ [] →
    (handed given).length = windowCount (rows.headD []).length window.value
  plain : window.pointed = false

/-- When checked rows are packed, and into what. -/
theorem packBits_eq_ok : packBits p rows given share even next = .ok ((outs, r), last) ↔
    ∃ window t, Packable p rows given share even window ∧
      PadIssued (rows.headD []).length window.value next (given.bind RowProgram.pad) r.pad t ∧
        Placed p (handed given) (windowsOf rows window.value r.pad) r.pad t share outs r last := by
  constructor
  · intro h
    rw [packBits] at h
    obtain ⟨window, _, hrequest, h⟩ := of_bind h
    obtain ⟨hwindow, rfl⟩ := of_lift hrequest
    split at h
    · cases h
    · next hshortens =>
      simp only at h
      split at h
      · cases h
      · next hfits =>
        obtain ⟨hplain, h⟩ := Count.of_checkPlain h
        obtain ⟨pad, t, hpad, h⟩ := of_bind h
        have hissued := padFor_eq_ok.mp hpad
        have hpackable : Packable p rows given share even window := by
          refine ⟨hwindow, hshortens, fun hshare hne => ?_, hplain⟩
          have hempty : (handed given).isEmpty = false := by simpa using hne
          simpa [handed, hshare, show ((given.map RowProgram.luts).getD []).isEmpty = false
            from hempty] using hfits
        cases share with
        | true =>
          obtain ⟨⟨outs', program⟩, t', hplaced, h⟩ := of_bind h
          cases h
          exact ⟨window, t, hpackable, hissued, .shared hplaced⟩
        | false =>
          obtain ⟨⟨outs', programs⟩, t', hplaced, h⟩ := of_bind h
          cases h
          exact ⟨window, t, hpackable, hissued, .separate hplaced⟩
  · rintro ⟨window, t, hpackable, hissued, hplaced⟩
    have hfits : ¬ (!(handed given).isEmpty && !share && decide ((handed given).length ≠
        windowCount (rows.headD []).length window.value)) = true := by
      cases hempty : (handed given).isEmpty with
      | true => simp
      | false =>
        cases hshare : share with
        | true => simp
        | false => simpa using hpackable.fits hshare (by simpa using hempty)
    rw [packBits, bind_of_ok (lift_of_ok hpackable.size), if_neg hpackable.shortens]
    rw [handed] at hfits
    simp only
    rw [if_neg hfits, bind_of_ok (Count.lift_checkPlain hpackable.plain next),
      bind_of_ok (padFor_eq_ok.mpr hissued)]
    obtain ⟨luts, pad⟩ := r
    cases hplaced with
    | shared placed =>
      exact bind_of_ok (f := fun q => pure (q.1, (⟨q.2.toList, _⟩ : RowProgram))) placed
    | separate placed =>
      exact bind_of_ok (f := fun q => pure (q.1, (⟨q.2, _⟩ : RowProgram))) placed

theorem window_pos {n : Int} {window : Count} (h : p.window n even = .ok window) :
    0 < window.value := by
  rw [Platform.window] at h
  generalize (if even = true ∧ Int.fdiv p.maxLut n > 1 ∧ Int.fdiv p.maxLut n % 2 ≠ 0 then
    Int.fdiv p.maxLut n - 1 else Int.fdiv p.maxLut n) = size at h
  split at h
  · cases h
  · cases h
    simp only
    omega

/-- Rows of single bits, at least one of them, all of one length above zero. -/
structure Even (length : Nat) (rows : List (List Expr)) : Prop where
  pos : 0 < length
  ne : rows ≠ []
  same : ∀ row ∈ rows, row.length = length
  bits : ∀ row ∈ rows, ∀ x ∈ row, x.shape = .word 1

variable {length : Nat}

theorem Even.headD (h : Even length rows) : (rows.headD []).length = length := by
  obtain ⟨row, rest, rfl⟩ := List.exists_cons_of_ne_nil h.ne
  exact h.same row (by simp)

/-- Bits of rows that are interpreted as numbers evaluate to the bits of these numbers. -/
theorem Even.eval_of_interpret (h : Even length rows) {env : Valuation} {σ : Assignment}
    {modules : ModuleTable} {vals : List (List Bool)}
    (wellFormed : ∀ row ∈ rows, ∀ x ∈ row, x.WellFormed)
    (hvals : List.Forall₂ (List.Forall₂ fun x b => x.interpret env σ modules = .ok b.toNat) rows
      vals) :
    List.Forall₂ (List.Forall₂ fun x b => eval (.concrete env σ modules) x = .ok (.word [b])) rows
      vals :=
  forall₂_of_mem hvals fun row hrow _ hbits =>
    eval_bits_of_interpret (wellFormed row hrow) (h.bits row hrow) hbits

/-- What packed rows are: a row of lookup tables over the windows. `used` are the programs of the
single windows. -/
structure PackSpec (length : Nat) (rows : List (List Expr)) (given : Option RowProgram)
    (share : Bool) (window next : Nat) (outs : List Expr) (r : RowProgram)
    (used : List LutProgram) (last : Nat) : Prop where
  pos : 0 < window
  complete : r.Complete
  length_eq : outs.length = windowCount length window
  shape : ∀ o ∈ outs, o.shape = .word 1
  used_eq : if share then ∃ l, r.luts = [l] ∧ used = List.replicate outs.length l
    else used = r.luts
  inputs_eq : List.Forall₂ (fun w l => l.inputs = w.length) (windowsOf rows window r.pad) used
  outputs : List.Forall₂ (fun w o => Platform.LutOutput w o.2 o.1) (windowsOf rows window r.pad)
    (outs.zip used)
  padded : length % window ≠ 0 → r.pad.isSome
  sketched : Sketched rows.flatten ((given.map RowProgram.holes).getD []) r.holes next last outs
  uses : ∀ x ∈ rows.flatten, x ∈ preorderAll outs
  needed : (∀ g ∈ given, g.Needed length window) → r.Needed length window
  wires : (∀ g ∈ given, g.Needed length window) → ∀ k ∈ r.holes, .hole k ∈ preorderAll outs

theorem PadIssued.padded {length window t : Nat} {given pad : Option Hole}
    (h : PadIssued length window next given pad t) (part : length % window ≠ 0) : pad.isSome := by
  cases h with
  | again => rfl
  | full all => exact absurd all part
  | new => rfl

theorem PadIssued.needed {length window t : Nat} {given pad : Option Hole}
    (h : PadIssued length window next given pad t)
    (hgiven : given.isSome → length % window ≠ 0) : pad.isSome → length % window ≠ 0 := by
  cases h with
  | again => exact hgiven
  | full all => simp
  | new part => exact fun _ => part

theorem PadIssued.width {length window t : Nat} {given pad : Option Hole}
    (h : PadIssued length window next given pad t) (hgiven : ∀ g ∈ given, g.width = 1) :
    ∀ k ∈ pad, k.width = 1 := by
  cases h with
  | again => exact hgiven
  | full all => simp
  | new part => simp

/-- The bits of the rows and the pad are there before the tables are placed. -/
theorem PadIssued.sketched {length window t : Nat} {given pad : Option Hole} {xs : List Expr}
    (h : PadIssued length window next given pad t) (hpad : ∀ k ∈ pad, k.width = 1) :
    Sketched xs given.toList pad.toList next t (xs ++ (pad.map Expr.hole).toList) := by
  have hgrown : ∀ y ∈ xs ++ (pad.map Expr.hole).toList,
      y.Grown (· ∈ xs) (· ∈ pad.toList) (Chosen given.toList pad.toList next t) := by
    intro y hy
    rcases List.mem_append.mp hy with hy | hy
    · exact .operand hy
    · rw [Option.mem_toList, Option.map_eq_some_iff] at hy
      obtain ⟨k, hk, rfl⟩ := hy
      exact .wire (Option.mem_toList.mpr hk) (hpad k hk)
  cases h with
  | again => exact ⟨le_rfl, fun _ hk => .inl hk, hgrown⟩
  | full all => exact ⟨le_rfl, by simp, hgrown⟩
  | new part => exact ⟨by omega, by simp, hgrown⟩

/-- A row of lookup tables over the windows of rows of single bits. -/
theorem Placed.row {luts : List LutProgram} {windows : List (List Expr)} {pad : Option Hole}
    {t : Nat} (hne : windows ≠ []) (hluts : ∀ l ∈ luts, l.Complete)
    (h : Placed p luts windows pad t share outs r last) :
    ∃ used, LutRow windows (luts.flatMap LutProgram.table) t outs used last ∧ r.pad = pad ∧
      (if share then ∃ l, r.luts = [l] ∧ used = List.replicate outs.length l else used = r.luts) ∧
        (∀ l ∈ r.luts, l ∈ used) ∧
        ∀ k, k ∈ used.flatMap LutProgram.table ↔ k ∈ r.luts.flatMap LutProgram.table := by
  cases h with
  | shared placed =>
    have hhead : ∀ g ∈ luts.head?, g.Complete := fun g hg => hluts g (List.mem_of_head? hg)
    obtain ⟨l, rfl, -, hrow⟩ := placeShared_spec hne hhead placed
    refine ⟨_, hrow.weaken ?_, rfl, ?_, ?_, fun k => ?_⟩
    · cases luts <;> simp
    · rw [if_pos rfl]
      exact ⟨l, rfl, by rw [hrow.length]⟩
    · simpa using hne
    · rw [LutRow.mem_shared hne]
      simp
  | separate placed =>
    exact ⟨_, placeSeparate_spec hluts placed, rfl, by simp, fun _ h => h, fun _ => Iff.rfl⟩

theorem windowsOf_ne {window : Nat} {pad : Option Hole} (hw : 0 < window)
    (h : Even length rows) : windowsOf rows window pad ≠ [] := by
  have hle : length ≤ windowCount length window * window := le_windowCount_mul hw
  have hpos := h.pos
  have hcount : windowCount length window ≠ 0 := by
    intro hzero
    rw [hzero] at hle
    omega
  rw [windowsOf, h.headD]
  simpa using hcount

theorem mem_windows {window : Nat} {pad : Option Hole} {x : Expr} :
    x ∈ (windowsOf rows window pad).flatten ↔ ∃ k < windowCount (rows.headD []).length window,
      x ∈ windowOf rows window k (pad.map Expr.hole).toList := by
  simp [windowsOf, windowBits_eq]

/-- Every bit of the rows is in a window. -/
theorem mem_windows_of_mem {window : Nat} {pad : Option Hole} (hw : 0 < window)
    (h : Even length rows) {x : Expr} (hx : x ∈ rows.flatten) :
    x ∈ (windowsOf rows window pad).flatten := by
  obtain ⟨row, hrow, hx⟩ := List.mem_flatten.mp hx
  have hall := flatMap_slices row window (windowCount length window)
  rw [List.take_of_length_le ((h.same row hrow).le.trans (le_windowCount_mul hw))] at hall
  rw [← hall] at hx
  obtain ⟨k, hk, hx⟩ := List.mem_flatMap.mp hx
  rw [mem_windows, h.headD]
  exact ⟨k, List.mem_range.mp hk, List.mem_flatMap.mpr ⟨row, hrow, List.mem_append_left _ hx⟩⟩

/-- The pad is in a window that the rows do not fill. -/
theorem pad_mem_windowOf {α : Type} {rows : List (List α)} {window k : Nat} {x : α} (ne : rows ≠ [])
    (same : ∀ row ∈ rows, row.length = length) (hw : 0 < window)
    (part : length < (k + 1) * window) : x ∈ windowOf rows window k [x] := by
  obtain ⟨row, rest, rfl⟩ := List.exists_cons_of_ne_nil ne
  have hrow := same row (by simp)
  rw [Nat.succ_mul] at part
  have hitems : ((row.drop (k * window)).take window).length < window := by
    rw [List.length_take, List.length_drop, hrow]
    omega
  refine List.mem_flatMap.mpr ⟨row, by simp, List.mem_append_right _ (List.mem_flatten.mpr
    ⟨[x], List.mem_replicate.mpr ⟨by omega, rfl⟩, List.mem_singleton_self _⟩)⟩

/-- The pad is in the last window if that is not full. -/
theorem pad_mem_windows {window : Nat} {k : Hole} (hw : 0 < window) (h : Even length rows)
    (part : length % window ≠ 0) : .hole k ∈ (windowsOf rows window (some k)).flatten := by
  have hdiv := Nat.div_add_mod' length window
  have hmod := Nat.mod_lt length hw
  rw [mem_windows, h.headD]
  refine ⟨length / window, (lt_windowCount_iff hw).mpr (by omega), ?_⟩
  exact pad_mem_windowOf h.ne h.same hw (by rw [Nat.succ_mul]; omega)

/-- The bits of a window have the values of the rows' bits, and of the pad where it is wired. -/
theorem eval_windowOf {window k : Nat} {pad : Option Hole} {c : Context Bool} {τ : Hole → Bool}
    {vals : List (List Bool)} (heven : Even length rows)
    (hpad : length < (k + 1) * window → ∀ e ∈ pad, Expr.eval c (.hole e) = .ok (.word [τ e]))
    (hvals : List.Forall₂ (List.Forall₂ fun x b => Expr.eval c x = .ok (.word [b])) rows vals) :
    List.Forall₂ (fun x b => Expr.eval c x = .ok (.word [b]))
      (windowOf rows window k (pad.map Expr.hole).toList)
      (windowOf vals window k (pad.map τ).toList) := by
  rcases Nat.lt_or_ge length ((k + 1) * window) with hpart | hfull
  · refine forall₂_windowOf hvals ?_
    cases pad with
    | none => exact .nil
    | some e => exact .cons (hpad hpart e rfl) .nil
  · have hrows : windowOf rows window k (pad.map Expr.hole).toList = windowOf rows window k [] :=
      windowOf_eq_of_full _ _ fun row hrow => by rwa [heven.same row hrow]
    have hbits : windowOf vals window k (pad.map τ).toList = windowOf vals window k [] := by
      refine windowOf_eq_of_full _ _ fun bits hmem => ?_
      obtain ⟨row, hrow, hrel⟩ := exists_of_forall₂_right hvals hmem
      rwa [← hrel.length_eq, heven.same row hrow]
    rw [hrows, hbits]
    exact forall₂_windowOf hvals .nil

theorem packBits_spec (heven : Even length rows) (hgiven : ∀ g ∈ given, g.Complete)
    (h : packBits p rows given share even next = .ok ((outs, r), last)) :
    ∃ window used, p.window rows.length even = .ok window ∧
      PackSpec length rows given share window.value next outs r used last := by
  obtain ⟨window, t, hpackable, hissued, hplaced⟩ := packBits_eq_ok.mp h
  rw [heven.headD] at hissued
  have hw := window_pos hpackable.size
  have hluts : ∀ l ∈ handed given, l.Complete := by
    cases given with
    | none => simp [handed]
    | some g => exact (hgiven g rfl).luts
  have hpadGiven : ∀ k ∈ given.bind RowProgram.pad, k.width = 1 := by
    cases given with
    | none => simp
    | some g => exact (hgiven g rfl).pad
  have hpad := hissued.width hpadGiven
  obtain ⟨used, hrow, -, hused, hall, hmem⟩ := hplaced.row (windowsOf_ne hw heven) hluts
  have hlen : outs.length = windowCount length window.value := by
    rw [hrow.length, windowsOf, heven.headD, List.length_map, List.length_range]
  have hcomplete : ∀ l ∈ r.luts, l.Complete := fun l hl => hrow.complete l (hall l hl)
  have hneeded : (∀ g ∈ given, g.Needed length window.value) → r.Needed length window.value := by
    refine fun hg => hissued.needed ?_
    cases given with
    | none => simp
    | some g => exact hg g rfl
  refine ⟨window, used, hpackable.size, hw, ⟨hcomplete, hpad⟩, hlen, hrow.shape, hused,
    hrow.inputs_eq, hrow.outputs, hissued.padded, ?_, ?_, hneeded, ?_⟩
  · refine (hissued.sketched hpad).step hrow.sketched ?_ ?_ ?_ (List.Subset.refl _) ?_ ?_
    · cases given <;> simp [RowProgram.holes]
    · cases given <;> simp [handed, RowProgram.holes]
    · intro k
      rw [hmem, RowProgram.holes, List.mem_append, or_comm]
    · intro x hx
      obtain ⟨k, -, hx⟩ := mem_windows.mp hx
      rcases mem_windowOf hx with hx | hx <;> simp [hx]
    · exact fun x hx => by simp [hx]
  · exact fun x hx => hrow.uses x (mem_windows_of_mem hw heven hx)
  · intro hg k hk
    rcases List.mem_append.mp hk with hk | hk
    · exact hrow.wires k ((hmem k).mpr hk)
    · have hsome : r.pad = some k := Option.mem_toList.mp hk
      have hpart : length % window.value ≠ 0 := hneeded hg (by rw [hsome]; rfl)
      refine hrow.uses _ ?_
      rw [hsome]
      exact pad_mem_windows hw heven hpart

theorem PackSpec.length_used {window : Nat} {used : List LutProgram}
    (h : PackSpec length rows given share window next outs r used last)
    (heven : Even length rows) : used.length = windowCount length window := by
  rw [← h.inputs_eq.length_eq, windowsOf, heven.headD, List.length_map, List.length_range]

theorem PackSpec.outs_ne {window : Nat} {used : List LutProgram}
    (h : PackSpec length rows given share window next outs r used last)
    (heven : Even length rows) : outs ≠ [] := by
  obtain ⟨row, rest, rfl⟩ := List.exists_cons_of_ne_nil heven.ne
  have hrow : 0 < row.length := heven.same row (by simp) ▸ heven.pos
  obtain ⟨y, hy, -⟩ := mem_preorderAll.mp
    (h.uses row[0] (List.mem_flatten.mpr ⟨row, by simp, List.getElem_mem hrow⟩))
  exact List.ne_nil_of_mem hy

theorem PackSpec.mem_luts {window : Nat} {used : List LutProgram}
    (h : PackSpec length rows given share window next outs r used last) {l : LutProgram}
    (hl : l ∈ used) : l ∈ r.luts := by
  have hused := h.used_eq
  cases share with
  | true =>
    obtain ⟨l', hluts, hreplicate⟩ := hused
    rw [hreplicate] at hl
    rw [hluts, (List.mem_replicate.mp hl).2]
    exact List.mem_singleton_self _
  | false => exact (show used = r.luts from hused) ▸ hl

theorem PackSpec.length_luts {window : Nat} {used : List LutProgram}
    (h : PackSpec length rows given share window next outs r used last)
    (heven : Even length rows) : r.luts.length = if share then 1 else outs.length := by
  have hused := h.used_eq
  cases share with
  | true =>
    obtain ⟨l, hluts, -⟩ := hused
    simp [hluts]
  | false =>
    obtain rfl : used = r.luts := hused
    simp [h.length_used heven, h.length_eq]

/-- Every table of a row is the table of one of its windows. -/
theorem PackSpec.mem_used {window : Nat} {used : List LutProgram}
    (h : PackSpec length rows given share window next outs r used last) (heven : Even length rows)
    {l : LutProgram} (hl : l ∈ r.luts) : l ∈ used := by
  have hused := h.used_eq
  cases share with
  | true =>
    obtain ⟨l', hluts, hreplicate⟩ := hused
    rw [hluts, List.mem_singleton] at hl
    rw [hreplicate, hl, List.mem_replicate]
    exact ⟨(List.length_pos_iff.mpr (h.outs_ne heven)).ne', rfl⟩
  | false => exact (show used = r.luts from hused) ▸ hl

/-- A window has a bit for every input of its table. -/
theorem PackSpec.length_windowOf {window k : Nat} {used : List LutProgram}
    (h : PackSpec length rows given share window next outs r used last) (τ : Hole → Bool)
    {R : Expr → Bool → Prop} {vals : List (List Bool)}
    (hvals : List.Forall₂ (List.Forall₂ R) rows vals) (hk : k < used.length) :
    ((windowOf vals window k (r.pad.map τ).toList).length : Int) = used[k].inputs := by
  have hpads : List.Forall₂ (fun _ _ => True) (r.pad.map Expr.hole).toList
      (r.pad.map τ).toList := by
    cases r.pad with
    | none => exact .nil
    | some k => exact .cons trivial .nil
  have hlen : (windowOf rows window k (r.pad.map Expr.hole).toList).length =
      (windowOf vals window k (r.pad.map τ).toList).length :=
    (forall₂_windowOf (hvals.imp fun _ _ hrow => hrow.imp fun _ _ _ => trivial) hpads).length_eq
  have hinputs := h.inputs_eq.get (h.inputs_eq.length_eq.symm ▸ hk) hk
  rw [← hlen]
  simpa [windowsOf, windowBits_eq] using hinputs.symm

theorem PackSpec.lutOutput {window k : Nat} {used : List LutProgram} {out : Expr} {l : LutProgram}
    (h : PackSpec length rows given share window next outs r used last)
    (hout : outs[k]? = some out) (hl : used[k]? = some l) :
    Platform.LutOutput (windowOf rows window k (r.pad.map Expr.hole).toList) l out := by
  obtain ⟨hk, rfl⟩ := List.getElem?_eq_some_iff.mp hout
  obtain ⟨hk', rfl⟩ := List.getElem?_eq_some_iff.mp hl
  have houtput := h.outputs.get (h.inputs_eq.length_eq.symm ▸ hk') (by simpa using ⟨hk, hk'⟩)
  simpa [windowsOf, windowBits_eq] using houtput

/-- The output of a window is what its table has for its bits. -/
theorem PackSpec.eval_window {window k : Nat} {used : List LutProgram} {out : Expr} {l : LutProgram}
    (h : PackSpec length rows given share window next outs r used last) (heven : Even length rows)
    (hout : outs[k]? = some out) (hl : used[k]? = some l) {c : Context Bool} {τ : Hole → Bool}
    (hc : c.Settles τ (l.wiredAt r.pad length window k)) {vals : List (List Bool)}
    (hvals : List.Forall₂ (List.Forall₂ fun x b => Expr.eval c x = .ok (.word [b])) rows vals) :
    Expr.eval c out = .ok (.word [l.read τ (windowOf vals window k (r.pad.map τ).toList)]) := by
  refine (h.lutOutput hout hl).eval_of_settles (hc.mono (List.subset_append_left _ _)) ?_
  refine eval_windowOf heven (fun part e he => hc.eval_hole (List.mem_append_right _ ?_)) hvals
  rw [if_pos part]
  exact Option.mem_toList.mpr he

theorem PackSpec.eval {window : Nat} {used : List LutProgram}
    (h : PackSpec length rows given share window next outs r used last) (heven : Even length rows)
    {c : Context Bool} {τ : Hole → Bool} (hc : c.Settles τ r.holes)
    {vals : List (List Bool)}
    (hvals : List.Forall₂ (List.Forall₂ fun x b => Expr.eval c x = .ok (.word [b])) rows vals) :
    List.Forall₂ (fun o b => Expr.eval c o = .ok (.word [b])) outs
      (List.zipWith (fun l k => l.read τ (windowOf vals window k (r.pad.map τ).toList)) used
        (List.range (windowCount length window))) := by
  have hlen := h.length_used heven
  refine List.forall₂_iff_get.mpr ⟨by simp [hlen, h.length_eq], fun k hk _ => ?_⟩
  have hkw : k < windowCount length window := h.length_eq ▸ hk
  have hl : used[k]? = some (used.get ⟨k, hlen.symm ▸ hkw⟩) := by simp
  have hwired := RowProgram.wiredAt_subset (h.mem_luts (List.mem_of_getElem? hl)) length window k
  simpa using h.eval_window heven (List.getElem?_eq_getElem hk) hl (hc.mono hwired) hvals

/-- Rows whose tables have the entries of one function yield what this function makes of each
window. -/
theorem PackSpec.eval_computed {window : Nat} {used : List LutProgram}
    (h : PackSpec length rows given share window next outs r used last) (heven : Even length rows)
    {f : List Bool → Bool} {c : Context Bool} {τ : Hole → Bool}
    (hc : c.Settles τ r.holes) (hr : ∀ l ∈ r.luts, l.Computes τ f)
    {vals : List (List Bool)}
    (hvals : List.Forall₂ (List.Forall₂ fun x b => Expr.eval c x = .ok (.word [b])) rows vals) :
    List.Forall₂ (fun o b => Expr.eval c o = .ok (.word [b])) outs
      ((List.range (windowCount length window)).map
        fun k => f (windowOf vals window k (r.pad.map τ).toList)) := by
  have hlen := h.length_used heven
  have hbits : List.zipWith (fun l k => l.read τ (windowOf vals window k (r.pad.map τ).toList)) used
      (List.range (windowCount length window)) = (List.range (windowCount length window)).map
        fun k => f (windowOf vals window k (r.pad.map τ).toList) := by
    refine List.ext_getElem (by simp [hlen]) fun k h1 h2 => ?_
    have hk : k < used.length := by simp at h1; omega
    simp only [List.getElem_zipWith, List.getElem_range, List.getElem_map]
    exact hr _ (h.mem_luts (List.getElem_mem hk)) _ (h.length_windowOf τ hvals hk)
  exact hbits ▸ h.eval heven hc hvals

/-- Rows whose tables pool the bits that they read pool all bits of the rows. -/
theorem PackSpec.eval_pooled {window : Nat} {used : List LutProgram}
    (h : PackSpec length rows given share window next outs r used last) (heven : Even length rows)
    {op : Bool → Bool → Bool} {e : Bool} (hop : Pools op e) {c : Context Bool} {τ : Hole → Bool}
    (hc : c.Settles τ r.holes) (hr : r.PooledBy τ op e) {vals : List (List Bool)}
    (hvals : List.Forall₂ (List.Forall₂ fun x b => Expr.eval c x = .ok (.word [b])) rows vals) :
    ∃ bits, List.Forall₂ (fun o b => Expr.eval c o = .ok (.word [b])) outs bits ∧
      bits.foldr op e = vals.flatten.foldr op e := by
  refine ⟨_, h.eval_computed heven hc hr.luts hvals, ?_⟩
  refine foldr_windows hop (fun b hb => ?_) fun row hrow => ?_
  · rw [Option.mem_toList, Option.map_eq_some_iff] at hb
    obtain ⟨k, hk, rfl⟩ := hb
    exact hr.pad k hk
  · obtain ⟨row', hrow', hrel⟩ := exists_of_forall₂_right hvals hrow
    rw [← hrel.length_eq, heven.same row' hrow']
    exact le_windowCount_mul h.pos

end Row
end CircuitSketch
