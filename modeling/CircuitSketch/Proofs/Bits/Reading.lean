import CircuitSketch.Bits.Primitive
import CircuitSketch.Proofs.Bits.Word
import CircuitSketch.Proofs.Lookup

/-!
# Readings of a bit algebra

A reading takes the bits of one algebra to those of another and respects the operations. Every
primitive commutes with every reading: running it and then reading its outputs is running it on the
read inputs.
-/
namespace CircuitSketch

theorem bind_eq_ok {ε α β : Type} {x : Except ε α} {f : α → Except ε β} {b : β}
    (h : (x >>= f) = .ok b) : ∃ a, x = .ok a ∧ f a = .ok b := by
  cases x with
  | error e => cases h
  | ok a => exact ⟨a, rfl, h⟩

section Words

variable {β γ : Type} {f : β → γ}

/-- Named words read bit by bit. -/
def readWords (f : β → γ) (fields : List (String × List β)) : List (String × List γ) :=
  fields.map fun p => (p.1, p.2.map f)

theorem lookup_readWords (fields : List (String × List β)) (name : String) :
    (readWords f fields).lookup name = (fields.lookup name).map (List.map f) :=
  lookup_map_snd (List.map f) fields name

theorem readWords_zip (names : List String) (words : List (List β)) :
    readWords f (names.zip words) = names.zip (words.map (List.map f)) := by
  rw [readWords, List.zip_map_right]
  rfl

namespace Primitive

variable {ports : List (String × List β)}

theorem port_read {name : String} {bits : List β} (h : port ports name = .ok bits) :
    port (readWords f ports) name = .ok (bits.map f) := by
  unfold port at h ⊢
  have hreverse : (readWords f ports).reverse = readWords f ports.reverse := by simp [readWords]
  rw [hreverse, lookup_readWords]
  split at h
  · next found hfound =>
    rw [Except.ok.injEq] at h
    simp [hfound, h]
  · cases h

theorem portBit_read {name : String} {b : β} (h : portBit ports name = .ok b) :
    portBit (readWords f ports) name = .ok (f b) := by
  obtain ⟨bits, hp, hb⟩ := bind_eq_ok h
  rw [portBit, port_read hp]
  cases bits with
  | nil => cases hb
  | cons x rest =>
    cases hb
    rfl

theorem runChain_read {chain : β → List (β × β) → List β × β}
    {chain' : γ → List (γ × γ) → List γ × γ}
    (hchain : ∀ carry pairs, chain' (f carry) (pairs.map (Prod.map f f)) =
      ((chain carry pairs).1.map f, f (chain carry pairs).2))
    {out : List (String × List β)} (h : runChain chain ports = .ok out) :
    runChain chain' (readWords f ports) = .ok (readWords f out) := by
  obtain ⟨carry, hc, h⟩ := bind_eq_ok h
  obtain ⟨di, hd, h⟩ := bind_eq_ok h
  obtain ⟨s, hs, hout⟩ := bind_eq_ok h
  cases hout
  have hzip := hchain carry (di.zip s)
  rw [← List.zip_map] at hzip
  rw [runChain, portBit_read hc, port_read hd, port_read hs]
  simp only [bind, Except.bind, hzip]
  rfl

end Primitive

end Words

variable {β γ : Type} [BitAlgebra β] [BitAlgebra γ]

/-- A map between algebras that respects the operations and agrees with what is known to be
constant. -/
structure IsReading (f : β → γ) : Prop where
  const : ∀ b, f (BitAlgebra.const b) = BitAlgebra.const b
  constant : ∀ {x b}, BitAlgebra.constant? x = some b → BitAlgebra.constant? (f x) = some b
  not : ∀ x, f (BitAlgebra.not x) = BitAlgebra.not (f x)
  and : ∀ x y, f (BitAlgebra.and x y) = BitAlgebra.and (f x) (f y)
  or : ∀ x y, f (BitAlgebra.or x y) = BitAlgebra.or (f x) (f y)
  xor : ∀ x y, f (BitAlgebra.xor x y) = BitAlgebra.xor (f x) (f y)
  ite : ∀ c t e, f (BitAlgebra.ite c t e) = BitAlgebra.ite (f c) (f t) (f e)

variable {f : β → γ} {ports : List (String × List β)}

namespace IsReading

theorem map_constants (hf : IsReading f) (bits : List Bool) :
    (BitAlgebra.constants bits).map f = BitAlgebra.constants bits := by
  simp [BitAlgebra.constants, hf.const]

theorem constants?_map (hf : IsReading f) {bits : List β} {bs : List Bool}
    (h : BitAlgebra.constants? bits = some bs) : BitAlgebra.constants? (bits.map f) = some bs := by
  induction bits generalizing bs with
  | nil => exact h
  | cons x bits ih =>
    simp only [BitAlgebra.constants?, List.mapM_cons, Option.bind_eq_bind,
      Option.bind_eq_some_iff, Option.pure_def, Option.some.injEq] at h
    obtain ⟨b, hb, rest, hrest, rfl⟩ := h
    have hmap := ih hrest
    rw [BitAlgebra.constants?] at hmap
    simp [BitAlgebra.constants?, hf.constant hb, hmap]

theorem map_select (hf : IsReading f) (c : β) (x y : List β) :
    (BitAlgebra.select c x y).map f = BitAlgebra.select (f c) (x.map f) (y.map f) := by
  simp only [BitAlgebra.select, List.map_zipWith, List.zipWith_map, hf.ite]

end IsReading

theorem constants?_bool (bits : List Bool) : BitAlgebra.constants? bits = some bits := by
  induction bits with
  | nil => rfl
  | cons b bits ih =>
    rw [BitAlgebra.constants?] at ih ⊢
    rw [List.mapM_cons, ih]
    rfl

@[simp] theorem constants_bool (bits : List Bool) : BitAlgebra.constants bits = bits :=
  List.map_id bits

/-- A word has the lowest bits of a number exactly when it stands for what these bits stand for. -/
theorem all_testBit_iff {bits : List Bool} {n : Nat} :
    (bits.zipIdx.all fun b => b.1 == n.testBit b.2) ↔
      Word.toNat bits = n % twoPow bits.length := by
  have hall : (bits.zipIdx.all fun b => b.1 == n.testBit b.2) ↔
      ∀ i (hi : i < bits.length), bits[i] = n.testBit i := by
    rw [List.all_eq_true]
    constructor
    · intro h i hi
      have hmem : (bits[i], i) ∈ bits.zipIdx := List.mk_mem_zipIdx_iff_getElem?.mpr (by simp [hi])
      simpa using h _ hmem
    · rintro h ⟨b, i⟩ hmem
      obtain ⟨hi, hb⟩ := List.getElem?_eq_some_iff.mp (List.mk_mem_zipIdx_iff_getElem?.mp hmem)
      simp [← hb, h i hi]
  rw [hall]
  constructor
  · intro h
    apply Nat.eq_of_testBit_eq
    intro i
    rw [Word.testBit_toNat, twoPow_eq, Nat.testBit_mod_two_pow, List.getD_eq_getElem?_getD]
    by_cases hi : i < bits.length
    · simp [hi, h i hi]
    · simp [hi]
  · intro h i hi
    have hbit : (Word.toNat bits).testBit i = (n % twoPow bits.length).testBit i := by rw [h]
    rw [Word.testBit_toNat, twoPow_eq, Nat.testBit_mod_two_pow, List.getD_eq_getElem?_getD] at hbit
    simpa [hi] using hbit

/-- Demanding bit after bit that it is the bit of a number at its place. -/
theorem IsReading.foldl_testBit {f : β → Bool} (hf : IsReading f) (n : Nat)
    (bits : List (β × Nat)) (demand : β) :
    f (bits.foldl (fun demand b => BitAlgebra.and demand
        (if n.testBit b.2 then b.1 else BitAlgebra.not b.1)) demand) =
      (f demand && bits.all fun b => f b.1 == n.testBit b.2) := by
  induction bits generalizing demand with
  | nil => simp
  | cons b bits ih =>
    have hand : ∀ x y, f (BitAlgebra.and x y) = (f x && f y) := hf.and
    have hnot : ∀ x, f (BitAlgebra.not x) = !f x := hf.not
    rw [List.foldl_cons, ih, hand, List.all_cons, Bool.and_assoc]
    by_cases h : n.testBit b.2
    · simp [h]
    · simp [h, hnot]

/-- Bits meet a demand and have the lowest bits of a number. -/
theorem IsReading.foldl_testBit_iff {f : β → Bool} (hf : IsReading f) (n : Nat) (bits : List β)
    (demand : β) :
    f (bits.zipIdx.foldl (fun demand b => BitAlgebra.and demand
        (if n.testBit b.2 then b.1 else BitAlgebra.not b.1)) demand) ↔
      f demand ∧ Word.toNat (bits.map f) = n % twoPow bits.length := by
  have hall := @all_testBit_iff (bits.map f) n
  rw [List.length_map, List.zipIdx_map, List.all_map] at hall
  rw [hf.foldl_testBit, Bool.and_eq_true, ← hall]
  rfl

/-- Selecting between words of one length takes one of them. -/
theorem select_bool (c : Bool) {x y : List Bool} (h : x.length = y.length) :
    BitAlgebra.select c x y = if c then y else x := by
  apply List.ext_getElem
  · cases c <;> simp [BitAlgebra.select, h]
  · intro i h1 h2
    cases c <;> simp [BitAlgebra.select, BitAlgebra.ite]

namespace Primitive

theorem map_halve (hf : IsReading f) (select : β) (table : List β) :
    (halve select table).map f = halve (f select) (table.map f) := by
  fun_induction halve select table with
  | case1 low high rest ih =>
    rw [List.map_cons, hf.ite, ih]
    rfl
  | case2 table h =>
    rcases table with _ | ⟨low, _ | ⟨high, rest⟩⟩
    · rfl
    · rfl
    · exact (h low high rest rfl).elim

theorem lutRead_read (hf : IsReading f) {count index : Nat} {table out : List β}
    (h : lutRead ports count index table = .ok out) :
    lutRead (readWords f ports) count index (table.map f) = .ok (out.map f) := by
  induction count generalizing index table with
  | zero =>
    rw [lutRead, Except.ok.injEq] at h
    rw [lutRead, h]
  | succ count ih =>
    obtain ⟨select, hs, hrest⟩ := bind_eq_ok h
    have hread := ih hrest
    rw [map_halve hf] at hread
    rw [lutRead, portBit_read hs]
    exact hread

theorem runLut_read (hf : IsReading f) {out : List (String × List β)}
    (h : runLut ports = .ok out) : runLut (readWords f ports) = .ok (readWords f out) := by
  obtain ⟨table, ht, h⟩ := bind_eq_ok h
  simp only at h
  split at h
  · cases h
  · next hne =>
    split at h
    · next hlen =>
      obtain ⟨entries, hr, hout⟩ := bind_eq_ok h
      cases hout
      rw [runLut, port_read ht]
      simp only [bind, Except.bind, List.isEmpty_map, List.length_map]
      rw [if_neg hne, if_pos hlen, lutRead_read hf hr]
      rfl
    · cases h

theorem addChain_read (hf : IsReading f) (carry : β) (pairs : List (β × β)) :
    addChain (f carry) (pairs.map (Prod.map f f)) =
      ((addChain carry pairs).1.map f, f (addChain carry pairs).2) := by
  induction pairs generalizing carry with
  | nil => rfl
  | cons p pairs ih =>
    have hstep := ih (BitAlgebra.or (BitAlgebra.and p.1 p.2)
      (BitAlgebra.and carry (BitAlgebra.xor p.1 p.2)))
    rw [hf.or, hf.and, hf.and, hf.xor] at hstep
    simp only [addChain, List.map_cons, hf.xor]
    exact congrArg (fun r : List γ × γ =>
      (BitAlgebra.xor (BitAlgebra.xor (f p.1) (f p.2)) (f carry) :: r.1, r.2)) hstep

theorem muxChain_read (hf : IsReading f) (carry : β) (pairs : List (β × β)) :
    muxChain (f carry) (pairs.map (Prod.map f f)) =
      ((muxChain carry pairs).1.map f, f (muxChain carry pairs).2) := by
  induction pairs generalizing carry with
  | nil => rfl
  | cons p pairs ih =>
    have hstep := ih (BitAlgebra.ite p.2 carry p.1)
    rw [hf.ite] at hstep
    simp only [muxChain, List.map_cons, hf.xor]
    exact congrArg (fun r : List γ × γ => (BitAlgebra.xor (f p.2) (f carry) :: r.1, r.2)) hstep

theorem gateBit_read (hf : IsReading f) {g : Gate} {b : β} (h : gateBit ports g = .ok b) :
    gateBit (readWords f ports) g = .ok (f b) := by
  induction g generalizing b with
  | const c =>
    rw [gateBit, Except.ok.injEq] at h
    rw [gateBit, ← h, hf.const]
  | wire port position =>
    obtain ⟨bits, hp, hb⟩ := bind_eq_ok h
    split at hb
    · next x hx =>
      rw [Except.ok.injEq] at hb
      rw [gateBit, port_read hp]
      simp only [bind, Except.bind, List.getElem?_map, hx, hb, Option.map_some]
    · cases hb
  | not g ih =>
    obtain ⟨x, hx, hb⟩ := bind_eq_ok h
    cases hb
    rw [gateBit, ih hx, hf.not]
    rfl
  | and g g' ih ih' =>
    obtain ⟨x, hx, h⟩ := bind_eq_ok h
    obtain ⟨y, hy, hb⟩ := bind_eq_ok h
    cases hb
    rw [gateBit, ih hx, ih' hy, hf.and]
    rfl
  | or g g' ih ih' =>
    obtain ⟨x, hx, h⟩ := bind_eq_ok h
    obtain ⟨y, hy, hb⟩ := bind_eq_ok h
    cases hb
    rw [gateBit, ih hx, ih' hy, hf.or]
    rfl
  | xor g g' ih ih' =>
    obtain ⟨x, hx, h⟩ := bind_eq_ok h
    obtain ⟨y, hy, hb⟩ := bind_eq_ok h
    cases hb
    rw [gateBit, ih hx, ih' hy, hf.xor]
    rfl
  | ite c t e ihc iht ihe =>
    obtain ⟨s, hs, h⟩ := bind_eq_ok h
    obtain ⟨x, hx, h⟩ := bind_eq_ok h
    obtain ⟨y, hy, hb⟩ := bind_eq_ok h
    cases hb
    rw [gateBit, ihc hs, iht hx, ihe hy, hf.ite]
    rfl

theorem mapM_gateBit_read (hf : IsReading f) {gates : List Gate} {bits : List β}
    (h : gates.mapM (gateBit ports) = .ok bits) :
    gates.mapM (gateBit (readWords f ports)) = .ok (bits.map f) := by
  induction gates generalizing bits with
  | nil =>
    cases h
    rfl
  | cons g gates ih =>
    rw [List.mapM_cons] at h ⊢
    obtain ⟨b, hb, h⟩ := bind_eq_ok h
    obtain ⟨rest, hrest, hbits⟩ := bind_eq_ok h
    cases hbits
    rw [gateBit_read hf hb, ih hrest]
    rfl

theorem gateWords_read (hf : IsReading f) {outputs : List (String × List Gate)}
    {out : List (String × List β)} (h : gateWords ports outputs = .ok out) :
    gateWords (readWords f ports) outputs = .ok (readWords f out) := by
  induction outputs generalizing out with
  | nil =>
    cases h
    rfl
  | cons o outputs ih =>
    obtain ⟨bits, hb, h⟩ := bind_eq_ok h
    obtain ⟨rest, hrest, hout⟩ := bind_eq_ok h
    cases hout
    rw [gateWords, mapM_gateBit_read hf hb, ih hrest]
    rfl

theorem runNetwork_read (hf : IsReading f) {gates : Network} {out : List (String × List β)}
    (h : runNetwork gates ports = .ok out) :
    runNetwork gates (readWords f ports) = .ok (readWords f out) := by
  obtain ⟨outputs, ho, hout⟩ := bind_eq_ok h
  have hwidths : (readWords f ports).map (fun p => (p.1, p.2.length)) =
      ports.map fun p => (p.1, p.2.length) := by simp [readWords]
  rw [runNetwork, hwidths, ho]
  exact gateWords_read hf hout

/-- Running a primitive and reading what it produces is running it on what is read. -/
theorem run_read (hf : IsReading f) (p : Primitive) {out : List (String × List β)}
    (h : p.run ports = .ok out) : p.run (readWords f ports) = .ok (readWords f out) := by
  cases p with
  | lut => exact runLut_read hf h
  | carryAdd => exact runChain_read (addChain_read hf) h
  | carryMuxXor => exact runChain_read (muxChain_read hf) h
  | network gates => exact runNetwork_read hf h

end Primitive
end CircuitSketch
