import CircuitSketch.Proofs.Bits.Primitive

/-!
# Primitives as they are wired

A lookup table with all of its inputs and its table wired, and a block of a carry chain with its
three ports wired, run over every bit algebra. What they yield is stated here for the words on the
ports, and over truth values as the entry that the inputs spell and as the bits of a chain.
-/
namespace CircuitSketch.Primitive

variable {β : Type}

theorem port_of_mem {ports : List (String × List β)} (nodup : (ports.map (·.1)).Nodup)
    {name : String} {bits : List β} (h : (name, bits) ∈ ports) : port ports name = .ok bits := by
  have hreverse : (ports.reverse.map (·.1)).Nodup := by
    rw [List.map_reverse]
    exact List.nodup_reverse.mpr nodup
  have hfound : ports.reverse.lookup name = some bits :=
    lookup_of_mem hreverse (List.mem_reverse.mpr h)
  rw [port, hfound]

theorem portBit_of_mem {ports : List (String × List β)} (nodup : (ports.map (·.1)).Nodup)
    {name : String} {b : β} {rest : List β} (h : (name, b :: rest) ∈ ports) :
    portBit ports name = .ok b := by
  rw [portBit, port_of_mem nodup h]
  rfl

/-- The name of an input of a lookup table. -/
def inputName (i : Nat) : String := s!"I{i}"

theorem toList_inputName (i : Nat) : (inputName i).toList = 'I' :: Nat.toDigits 10 i := by
  simp only [inputName, String.toList_append, Nat.toString_eq_ofList_toDigits,
    String.toList_ofList]
  rfl

theorem inputName_injective : Function.Injective inputName := by
  intro i j h
  have hlist := congrArg String.toList h
  rw [toList_inputName, toList_inputName, List.cons.injEq] at hlist
  have hdigits := congrArg (fun ds => Nat.ofDigitChars 10 ds 0) hlist.2
  simpa using hdigits

/-- No input is named like the table. -/
theorem inputName_ne_init (i : Nat) : inputName i ≠ "INIT" := by
  intro h
  have hlist := congrArg String.toList h
  rw [toList_inputName] at hlist
  have hdigits : Nat.toDigits 10 i = ['N', 'I', 'T'] := (List.cons.inj hlist).2
  have hdigit : 'N'.isDigit := Nat.isDigit_of_mem_toDigits (by decide) (by decide)
    (hdigits ▸ List.mem_cons_self : 'N' ∈ Nat.toDigits 10 i)
  exact absurd hdigit (by decide)

/-- The ports of a lookup table with `size` inputs. -/
def lutPorts (size : Nat) : List String := (List.range size).map inputName ++ ["INIT"]

theorem nodup_lutPorts (size : Nat) : (lutPorts size).Nodup := by
  refine List.nodup_append.mpr ⟨List.nodup_range.map inputName_injective, by simp, ?_⟩
  intro a ha b hb hab
  obtain ⟨i, -, rfl⟩ := List.mem_map.mp ha
  rw [List.mem_singleton] at hb
  exact inputName_ne_init i (hab.trans hb)

/-- A block of a carry chain runs on its three ports. -/
theorem runChain_wired (chain : β → List (β × β) → List β × β) (carry : β) (di s : List β) :
    runChain chain (["CI", "DI", "S"].zip [[carry], di, s]) =
      .ok [("O", (chain carry (di.zip s)).1), ("CO", [(chain carry (di.zip s)).2])] := by
  have hci : portBit (["CI", "DI", "S"].zip [[carry], di, s]) "CI" = .ok carry := rfl
  have hdi : port (["CI", "DI", "S"].zip [[carry], di, s]) "DI" = .ok di := rfl
  have hs : port (["CI", "DI", "S"].zip [[carry], di, s]) "S" = .ok s := rfl
  rw [runChain, hci, hdi, hs]
  rfl

variable [BitAlgebra β] {ports : List (String × List β)}

/-- Reading inputs halves the table once for each of them. -/
theorem lutRead_of_inputs {bits : List β} {index : Nat} {table : List β}
    (h : ∀ j (hj : j < bits.length), portBit ports (inputName (index + j)) = .ok bits[j]) :
    lutRead ports bits.length index table = .ok (bits.foldl (fun t b => halve b t) table) := by
  induction bits generalizing index table with
  | nil => rfl
  | cons b bits ih =>
    have hfirst : portBit ports s!"I{index}" = .ok b := h 0 (by simp)
    rw [List.length_cons, lutRead, hfirst]
    refine ih fun j hj => ?_
    have hnext := h (j + 1) (by simpa using hj)
    rwa [show index + (j + 1) = index + 1 + j by omega] at hnext

theorem length_foldl_halve {bits table : List β} (h : table.length = twoPow bits.length) :
    (bits.foldl (fun t b => halve b t) table).length = 1 := by
  induction bits generalizing table with
  | nil => exact h
  | cons b bits ih =>
    rw [List.length_cons, twoPow_succ] at h
    refine ih ?_
    rw [length_halve, h]
    omega

/-- Halving by all inputs leaves the entry that they spell. -/
theorem foldl_halve {bits table : List Bool} (h : table.length = twoPow bits.length) :
    bits.foldl (fun t b => halve b t) table = [table.getD (Word.toNat bits) false] := by
  induction bits generalizing table with
  | nil =>
    obtain ⟨x, rfl⟩ := List.length_eq_one_iff.mp h
    rfl
  | cons b bits ih =>
    rw [List.length_cons, twoPow_succ] at h
    have hhalf : (halve b table).length = twoPow bits.length := by
      rw [length_halve, h]
      omega
    rw [List.foldl_cons, ih hhalf, getD_halve b table _ _ h, Word.toNat_cons]

/-- A lookup table runs on one bit for each input and a full table. -/
theorem runLut_wired {bits table : List β} (h : table.length = twoPow bits.length) :
    runLut ((lutPorts bits.length).zip (bits.map (fun b => [b]) ++ [table])) =
      .ok [("O", bits.foldl (fun t b => halve b t) table)] := by
  have hlen : (lutPorts bits.length).length = (bits.map (fun b => [b]) ++ [table]).length := by
    simp [lutPorts]
  have hnames : (((lutPorts bits.length).zip (bits.map (fun b => [b]) ++ [table])).map
      (·.1)).Nodup := by
    rw [List.map_fst_zip hlen.le]
    exact nodup_lutPorts _
  have hports : (lutPorts bits.length).zip (bits.map (fun b => [b]) ++ [table]) =
      ((List.range bits.length).map inputName).zip (bits.map fun b => [b]) ++
        [("INIT", table)] := by
    rw [lutPorts, List.zip_append (by simp)]
    rfl
  have htable : port ((lutPorts bits.length).zip (bits.map (fun b => [b]) ++ [table])) "INIT" =
      .ok table := port_of_mem hnames (by simp [hports])
  have hinputs : ∀ j (hj : j < bits.length), portBit
      ((lutPorts bits.length).zip (bits.map (fun b => [b]) ++ [table])) (inputName (0 + j)) =
        .ok bits[j] := by
    intro j hj
    have hmem : (inputName (0 + j), [bits[j]]) ∈
        (lutPorts bits.length).zip (bits.map (fun b => [b]) ++ [table]) := by
      rw [hports, List.mem_append]
      exact .inl (List.mem_iff_getElem.mpr ⟨j, by simpa using hj, by simp⟩)
    exact portBit_of_mem hnames hmem
  have hpos := twoPow_pos bits.length
  have hne : table.isEmpty = false := by
    rw [List.isEmpty_eq_false_iff_exists_mem]
    exact List.exists_mem_of_length_pos (by omega)
  have hlog : Nat.log2 table.length = bits.length := by rw [h, twoPow_eq, Nat.log2_two_pow]
  rw [runLut, htable]
  simp only [bind, Except.bind, hne, hlog, if_pos h, Bool.false_eq_true, if_false]
  rw [lutRead_of_inputs hinputs]

theorem length_muxChain (carry : β) (pairs : List (β × β)) :
    (muxChain carry pairs).1.length = pairs.length := by
  induction pairs generalizing carry with
  | nil => rfl
  | cons p pairs ih => exact congrArg (· + 1) (ih _)

theorem addChain_append (carry : β) (low high : List (β × β)) :
    addChain carry (low ++ high) =
      ((addChain carry low).1 ++ (addChain (addChain carry low).2 high).1,
        (addChain (addChain carry low).2 high).2) := by
  induction low generalizing carry with
  | nil => rfl
  | cons p low ih => simp only [List.cons_append, addChain, ih]

theorem muxChain_append (carry : β) (low high : List (β × β)) :
    muxChain carry (low ++ high) =
      ((muxChain carry low).1 ++ (muxChain (muxChain carry low).2 high).1,
        (muxChain (muxChain carry low).2 high).2) := by
  induction low generalizing carry with
  | nil => rfl
  | cons p low ih => simp only [List.cons_append, muxChain, ih]

/-- The module of a lookup table with one to eight inputs is a lookup table. -/
theorem standard_lut {size : Nat} (pos : 1 ≤ size) (le : size ≤ 8) :
    standard s!"LUT{size}" = some .lut := by
  obtain ⟨k, rfl⟩ : ∃ k, size = k + 1 := ⟨size - 1, by omega⟩
  have hnames : (standardModules.map (·.1)).Nodup := by decide
  have hrange : k ∈ List.range largestLut := by
    rw [List.mem_range, largestLut]
    omega
  have hmem : (s!"LUT{k + 1}", lut) ∈ standardModules :=
    List.mem_append_right _ (List.mem_map.mpr ⟨k, hrange, rfl⟩)
  exact lookup_of_mem hnames hmem

end CircuitSketch.Primitive
