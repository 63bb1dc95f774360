import CircuitSketch.Proofs.Bits.Word
import CircuitSketch.Proofs.Evaluation.Operator

/-!
# Moving the bits of a word

A word is moved up or down by a distance, and a fill bit takes the places that are left. Moves add
up, and one that reaches the width leaves nothing but the fill. The shifts of numbers are moves of
their words.
-/
namespace CircuitSketch.Word

variable {down fill : Bool} {bits : List Bool} {k m i : Nat}

/-- The bit at a position after the bits of a word have been moved by `k`. -/
def movedBit (down fill : Bool) (bits : List Bool) (k i : Nat) : Bool :=
  if down then bits.getD (i + k) fill
  else if k ≤ i then bits.getD (i - k) fill
  else fill

/-- A word of the same length with its bits moved by `k`. -/
def moved (down fill : Bool) (bits : List Bool) (k : Nat) : List Bool :=
  (List.range bits.length).map (movedBit down fill bits k)

@[simp] theorem length_moved : (moved down fill bits k).length = bits.length := by simp [moved]

theorem getD_moved {b : Bool} (h : i < bits.length) :
    (moved down fill bits k).getD i b = movedBit down fill bits k i := by
  simp [moved, List.getD_eq_getElem?_getD, h]

theorem getD_of_le {b : Bool} (h : bits.length ≤ i) : bits.getD i b = b := by
  rw [List.getD_eq_getElem?_getD, List.getElem?_eq_none h, Option.getD_none]

@[simp] theorem moved_zero : moved down fill bits 0 = bits := by
  refine List.ext_getElem length_moved fun i h1 h2 => ?_
  cases down <;> simp [moved, movedBit, List.getD_eq_getElem?_getD, h2]

/-- Moves add up. -/
theorem moved_moved : moved down fill (moved down fill bits k) m = moved down fill bits (k + m) := by
  refine List.ext_getElem (by simp) fun i h1 h2 => ?_
  have hi : i < bits.length := by simpa using h2
  simp only [moved, List.getElem_map, List.getElem_range]
  rw [← moved]
  cases down with
  | true =>
    simp only [movedBit, if_true]
    by_cases h : i + m < bits.length
    · rw [getD_moved h, movedBit, if_pos rfl, Nat.add_assoc, Nat.add_comm m]
    · rw [getD_of_le (by rw [length_moved]; omega), getD_of_le (by omega)]
  | false =>
    simp only [movedBit, Bool.false_eq_true, if_false]
    by_cases h : m ≤ i
    · rw [if_pos h, getD_moved (by omega), movedBit, if_neg Bool.false_ne_true, Nat.sub_sub,
        Nat.add_comm m]
      exact if_congr (by omega) rfl rfl
    · rw [if_neg h, if_neg (by omega)]

/-- A move that reaches the width leaves nothing but the fill. -/
theorem moved_of_le (h : bits.length ≤ k) :
    moved down fill bits k = List.replicate bits.length fill := by
  refine List.eq_replicate_iff.mpr ⟨length_moved, fun b hb => ?_⟩
  obtain ⟨i, hi, rfl⟩ := List.mem_map.mp hb
  have hlt := List.mem_range.mp hi
  cases down with
  | true => rw [movedBit, if_pos rfl, getD_of_le (by omega)]
  | false => rw [movedBit, if_neg Bool.false_ne_true, if_neg (by omega)]

/-- A word and a bit vector with the same bits stand for the same number. -/
theorem toNat_eq_toNat {w : Nat} (hlen : bits.length = w) (r : BitVec w)
    (h : ∀ i, i < w → bits.getD i false = r.getLsbD i) : toNat bits = r.toNat := by
  refine Nat.eq_of_testBit_eq fun i => ?_
  rw [testBit_toNat, BitVec.testBit_toNat]
  by_cases hi : i < w
  · exact h i hi
  · rw [getD_of_le (by omega), BitVec.getLsbD_of_ge r i (by omega)]

/-- The fill and the direction of a shift: whether the sign is filled in, and whether the bits move
down. -/
def shiftMode? : BinaryOp → Option (Bool × Bool)
  | .shl => some (false, false)
  | .lshr => some (false, true)
  | .ashr => some (true, true)
  | _ => none

/-- A shift of numbers moves the bits of the first one. -/
theorem toNat_moved {op : BinaryOp} {signed down : Bool} (hop : shiftMode? op = some (signed, down))
    {xs : List Bool} {y : Nat} (hy : y < twoPow xs.length) :
    toNat (moved down (signed && xs.getD (xs.length - 1) false) xs y) =
      op.apply xs.length (toNat xs) y := by
  obtain ⟨x, hx⟩ : ∃ x, x = BitVec.ofNat xs.length (toNat xs) := ⟨_, rfl⟩
  have hbit : ∀ i, x.getLsbD i = xs.getD i false := fun i => by
    rw [hx, BitVec.getLsbD_ofNat, testBit_toNat]
    by_cases h : i < xs.length
    · rw [decide_eq_true h, Bool.true_and]
    · rw [decide_eq_false h, Bool.false_and, getD_of_le (by omega)]
  have hmsb : x.msb = xs.getD (xs.length - 1) false := by
    rw [BitVec.msb_eq_getLsbD_last, hbit]
  rw [op.apply_eq_denote (toNat_lt xs) hy]
  cases op with
  | shl =>
    cases hop
    refine toNat_eq_toNat length_moved _ fun i hi => ?_
    rw [getD_moved hi, ← hx, BitVec.getLsbD_shiftLeft, hbit, movedBit, decide_eq_true hi]
    by_cases h : y ≤ i
    · simp [h]
    · simp [h, Nat.lt_of_not_le h]
  | lshr =>
    cases hop
    refine toNat_eq_toNat length_moved _ fun i hi => ?_
    rw [getD_moved hi, ← hx, BitVec.getLsbD_ushiftRight, hbit, movedBit, if_pos rfl, Nat.add_comm]
    rfl
  | ashr =>
    cases hop
    refine toNat_eq_toNat length_moved _ fun i hi => ?_
    rw [getD_moved hi, ← hx, BitVec.getLsbD_sshiftRight, hbit, hmsb, movedBit, if_pos rfl,
      Bool.true_and, Nat.add_comm]
    by_cases h : y + i < xs.length
    · simp [h, hi, List.getD_eq_getElem?_getD]
    · rw [if_neg h, getD_of_le (i := y + i) (by omega)]
      simp [hi]
  | _ => cases hop

/-- Whether a stage of a shift is selected: by its bit of the amount, or the last one by any of the
bits from there on. -/
def stageSelected (amount : List Bool) (stage : Nat) (last : Bool) : Bool :=
  if last then (amount.drop stage).foldr or false else amount.getD stage false

/-- The word after the stages of a shift from one on, `stages` of them. -/
def staged (down fill : Bool) (amount : List Bool) : (stages stage : Nat) → List Bool → List Bool
  | 0, _, row => row
  | stages + 1, stage, row =>
    staged down fill amount stages (stage + 1)
      (if stageSelected amount stage (stages == 0) then moved down fill row (twoPow stage) else row)

theorem foldr_or (bits : List Bool) : bits.foldr or false = decide (toNat bits ≠ 0) := by
  induction bits with
  | nil => rfl
  | cons b bits ih =>
    rw [List.foldr_cons, ih, toNat_cons]
    cases b <;> simp

theorem stageSelected_last (amount : List Bool) (stage : Nat) :
    stageSelected amount stage true = decide (twoPow stage ≤ toNat amount) := by
  have hpos := twoPow_pos stage
  rw [stageSelected, if_pos rfl, foldr_or, toNat_drop, decide_eq_decide, ne_eq, Nat.div_eq_zero_iff]
  omega

/-- The part of the amount that the stages up to one have used. -/
theorem mod_twoPow_succ (amount : List Bool) (stage : Nat) :
    toNat amount % twoPow (stage + 1) =
      toNat amount % twoPow stage + if amount.getD stage false then twoPow stage else 0 := by
  rw [twoPow_eq, Nat.mod_pow_succ, ← testBit_toNat, Nat.testBit_eq_decide_div_mod_eq, ← twoPow_eq]
  rcases Nat.mod_two_eq_zero_or_one (toNat amount / twoPow stage) with h | h
  · simp [h]
  · simp [h]

/-- The stages move a word by the amount if the last distance reaches the width, and also if there
is a stage for every bit. -/
theorem staged_eq_moved {amount : List Bool} {n : Nat} (hlen : amount.length = bits.length)
    (enough : n + 1 = bits.length ∨ bits.length ≤ twoPow n) :
    staged down fill amount (n + 1) 0 bits = moved down fill bits (toNat amount) := by
  suffices h : ∀ stages stage, stage + stages = n →
      staged down fill amount (stages + 1) stage
        (moved down fill bits (toNat amount % twoPow stage)) =
          moved down fill bits (toNat amount) by
    have hstart := h n 0 (Nat.zero_add n)
    rwa [show toNat amount % twoPow 0 = 0 from Nat.mod_one _, moved_zero] at hstart
  intro stages
  induction stages with
  | zero =>
    intro stage hstage
    obtain rfl : stage = n := hstage
    rw [staged, staged, beq_self_eq_true, stageSelected_last]
    by_cases hlt : toNat amount < twoPow stage
    · rw [Nat.mod_eq_of_lt hlt, if_neg (by simpa using hlt)]
    · rw [if_pos (by simpa using Nat.le_of_not_lt hlt), moved_moved]
      rcases enough with hn | hreach
      · -- every bit has a stage, so the last distance is taken at most once
        have hbound := toNat_lt amount
        rw [hlen, ← hn, twoPow_succ] at hbound
        rw [Nat.mod_eq_sub_mod (Nat.le_of_not_lt hlt), Nat.mod_eq_of_lt (by omega),
          Nat.sub_add_cancel (Nat.le_of_not_lt hlt)]
      · rw [moved_of_le (by omega), moved_of_le (by omega)]
  | succ stages ih =>
    intro stage hstage
    have hnext := ih (stage + 1) (by omega)
    rw [mod_twoPow_succ] at hnext
    rw [staged, show (stages + 1 == 0) = false from rfl, stageSelected, if_neg Bool.false_ne_true]
    by_cases h : amount.getD stage false = true
    · rw [if_pos h, ← moved_moved] at hnext
      rwa [if_pos h]
    · rw [if_neg h, Nat.add_zero] at hnext
      rwa [if_neg h]

end CircuitSketch.Word
