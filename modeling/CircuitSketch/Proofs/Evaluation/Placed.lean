import CircuitSketch.Evaluation.Basic
import CircuitSketch.Proofs.Bits.Wiring

/-!
# When a placed primitive runs

A standard primitive runs when the ports that it reads are wired and, in the case of a lookup table,
when the word for its table has a power of two of bits, with an input wired for each factor of two.
Only the widths of the wired words matter, and they also decide the widths of what is produced.
-/
namespace CircuitSketch.Primitive

/-- The width of the word that is wired to a port; the last wire to a port counts. -/
def wiredWidth? (ports : List (String × Nat)) (name : String) : Option Nat :=
  ports.reverse.lookup name

/-- A lookup table is wired in full, and nothing but its one output of one bit is asked for. -/
structure LutWired (ports outputs : List (String × Nat)) (inputs : Nat) : Prop where
  table : wiredWidth? ports "INIT" = some (twoPow inputs)
  input : ∀ i < inputs, (wiredWidth? ports (inputName i)).isSome
  output : ∀ o ∈ outputs, o = ("O", 1)

/-- A carry block is wired in full, and nothing is asked for but its sum bits, as many as its two
words have in common, and its carry out. -/
structure CarryWired (ports outputs : List (String × Nat)) (di s : Nat) : Prop where
  carry : (wiredWidth? ports "CI").isSome
  data : wiredWidth? ports "DI" = some di
  selection : wiredWidth? ports "S" = some s
  output : ∀ o ∈ outputs, o = ("O", min di s) ∨ o = ("CO", 1)

/-- A primitive is wired so that it runs and produces the outputs that are asked for. This is said
of the standard primitives only, and a network of gates is none of them. -/
def Wired (ports outputs : List (String × Nat)) : Primitive → Prop
  | lut => ∃ inputs, LutWired ports outputs inputs
  | carryAdd | carryMuxXor => ∃ di s, CarryWired ports outputs di s
  | network _ => False

variable {β : Type}

/-- The widths of the words that are wired to ports. -/
def widths (ports : List (String × List β)) : List (String × Nat) :=
  ports.map fun p => (p.1, p.2.length)

variable {ports : List (String × List β)}

theorem wiredWidth?_widths (name : String) :
    wiredWidth? (widths ports) name = (ports.reverse.lookup name).map List.length := by
  rw [wiredWidth?, widths, ← List.map_reverse, lookup_map_snd]

theorem wiredWidth?_eq_some_iff {name : String} {w : Nat} :
    wiredWidth? (widths ports) name = some w ↔
      ∃ bits, port ports name = .ok bits ∧ bits.length = w := by
  rw [wiredWidth?_widths, Option.map_eq_some_iff]
  unfold port
  cases ports.reverse.lookup name <;> simp

/-- The lowest bit of a port can be read as soon as a word is wired to it. -/
theorem wiredWidth?_isSome_iff (pos : ∀ p ∈ ports, p.2 ≠ []) {name : String} :
    (wiredWidth? (widths ports) name).isSome ↔ ∃ b, portBit ports name = .ok b := by
  rw [Option.isSome_iff_exists]
  constructor
  · rintro ⟨w, hw⟩
    obtain ⟨bits, hbits, -⟩ := wiredWidth?_eq_some_iff.mp hw
    have hmem : (name, bits) ∈ ports := by
      unfold port at hbits
      split at hbits
      · next found hfound =>
        cases hbits
        exact List.mem_reverse.mp (mem_of_lookup_eq_some hfound)
      · cases hbits
    obtain ⟨b, rest, rfl⟩ := List.exists_cons_of_ne_nil (pos _ hmem)
    refine ⟨b, ?_⟩
    rw [portBit, hbits]
    rfl
  · rintro ⟨b, hb⟩
    obtain ⟨bits, hbits, -⟩ := bind_eq_ok hb
    exact ⟨bits.length, wiredWidth?_eq_some_iff.mpr ⟨bits, hbits, rfl⟩⟩

theorem produces_entry {entries : List β} (one : entries.length = 1) (o : String × Nat) :
    produces [("O", entries)] o ↔ o = ("O", 1) := by
  obtain ⟨name, w⟩ := o
  by_cases hname : name = "O"
  · simpa [produces, hname, one] using eq_comm
  · simp [produces, List.lookup_cons, beq_false_of_ne hname, hname]

theorem produces_chain (sums : List β) (out : β) (o : String × Nat) :
    produces [("O", sums), ("CO", [out])] o ↔ o = ("O", sums.length) ∨ o = ("CO", 1) := by
  obtain ⟨name, w⟩ := o
  by_cases hsum : name = "O"
  · simpa [produces, hsum] using eq_comm
  · by_cases hout : name = "CO"
    · simpa [produces, List.lookup_cons, hout] using eq_comm
    · simp [produces, List.lookup_cons, beq_false_of_ne hsum, beq_false_of_ne hout, hsum, hout]

/-- A carry block runs and produces what is asked for exactly when it is wired in full. -/
theorem runChain_iff {chain : β → List (β × β) → List β × β}
    (length : ∀ carry pairs, (chain carry pairs).1.length = pairs.length)
    (pos : ∀ p ∈ ports, p.2 ≠ []) (outputs : List (String × Nat)) :
    (∃ fields, runChain chain ports = .ok fields ∧ ∀ o ∈ outputs, produces fields o) ↔
      ∃ di s, CarryWired (widths ports) outputs di s := by
  constructor
  · rintro ⟨fields, hrun, hproduced⟩
    obtain ⟨carry, hcarry, hrun⟩ := bind_eq_ok hrun
    obtain ⟨di, hdi, hrun⟩ := bind_eq_ok hrun
    obtain ⟨s, hs, hout⟩ := bind_eq_ok hrun
    cases hout
    refine ⟨di.length, s.length, (wiredWidth?_isSome_iff pos).mpr ⟨carry, hcarry⟩,
      wiredWidth?_eq_some_iff.mpr ⟨di, hdi, rfl⟩, wiredWidth?_eq_some_iff.mpr ⟨s, hs, rfl⟩,
      fun o ho => ?_⟩
    have ho := (produces_chain _ _ o).mp (hproduced o ho)
    rwa [length, List.length_zip] at ho
  · rintro ⟨_, _, hcarry, hdi, hs, houtput⟩
    obtain ⟨carry, hcarry⟩ := (wiredWidth?_isSome_iff pos).mp hcarry
    obtain ⟨di, hport, rfl⟩ := wiredWidth?_eq_some_iff.mp hdi
    obtain ⟨s, hport', rfl⟩ := wiredWidth?_eq_some_iff.mp hs
    refine ⟨[("O", (chain carry (di.zip s)).1), ("CO", [(chain carry (di.zip s)).2])], ?_,
      fun o ho => ?_⟩
    · rw [runChain, hcarry, hport, hport']
      rfl
    · rw [produces_chain, length, List.length_zip]
      exact houtput o ho

variable [BitAlgebra β]

/-- Reading a table takes a bit for each of its inputs and leaves one entry. -/
theorem lutRead_eq_ok {count index : Nat} {table out : List β}
    (hlen : table.length = twoPow count) (h : lutRead ports count index table = .ok out) :
    (∀ j < count, ∃ b, portBit ports (inputName (index + j)) = .ok b) ∧ out.length = 1 := by
  induction count generalizing index table with
  | zero =>
    rw [lutRead, Except.ok.injEq] at h
    exact ⟨by simp, h ▸ hlen⟩
  | succ count ih =>
    obtain ⟨b, hb, hrest⟩ := bind_eq_ok h
    rw [twoPow_succ] at hlen
    have hhalf : (halve b table).length = twoPow count := by rw [length_halve, hlen]; omega
    obtain ⟨hread, hout⟩ := ih hhalf hrest
    refine ⟨fun j hj => ?_, hout⟩
    cases j with
    | zero => exact ⟨b, hb⟩
    | succ j =>
      obtain ⟨c, hc⟩ := hread j (by omega)
      exact ⟨c, by rwa [show index + (j + 1) = index + 1 + j by omega]⟩

/-- A table can be read when a bit can be read for each of its inputs. -/
theorem exists_lutRead (count index : Nat) (table : List β)
    (h : ∀ j < count, ∃ b, portBit ports (inputName (index + j)) = .ok b) :
    ∃ out, lutRead ports count index table = .ok out := by
  induction count generalizing index table with
  | zero => exact ⟨table, rfl⟩
  | succ count ih =>
    obtain ⟨b, hb⟩ : ∃ b, portBit ports s!"I{index}" = .ok b := h 0 (by omega)
    rw [lutRead, hb]
    refine ih (index + 1) (halve b table) fun j hj => ?_
    have hnext := h (j + 1) (by omega)
    rwa [show index + (j + 1) = index + 1 + j by omega] at hnext

/-- A lookup table runs and produces what is asked for exactly when it is wired in full. -/
theorem runLut_iff (pos : ∀ p ∈ ports, p.2 ≠ []) (outputs : List (String × Nat)) :
    (∃ fields, runLut ports = .ok fields ∧ ∀ o ∈ outputs, produces fields o) ↔
      ∃ inputs, LutWired (widths ports) outputs inputs := by
  constructor
  · rintro ⟨fields, hrun, hproduced⟩
    obtain ⟨table, htable, hrun⟩ := bind_eq_ok hrun
    simp only at hrun
    split at hrun
    · cases hrun
    · split at hrun
      · next hlen =>
        obtain ⟨entries, hread, hout⟩ := bind_eq_ok hrun
        cases hout
        obtain ⟨hinputs, hone⟩ := lutRead_eq_ok hlen hread
        refine ⟨_, wiredWidth?_eq_some_iff.mpr ⟨table, htable, hlen⟩, fun i hi => ?_, fun o ho =>
          (produces_entry hone o).mp (hproduced o ho)⟩
        rw [wiredWidth?_isSome_iff pos]
        simpa using hinputs i hi
      · cases hrun
  · rintro ⟨inputs, htable, hinputs, houtput⟩
    obtain ⟨table, htable, hlen⟩ := wiredWidth?_eq_some_iff.mp htable
    have hlog : Nat.log2 table.length = inputs := by rw [hlen, twoPow_eq, Nat.log2_two_pow]
    have hne : table.isEmpty = false := by
      have hpos := twoPow_pos inputs
      rw [List.isEmpty_eq_false_iff_exists_mem]
      exact List.exists_mem_of_length_pos (by omega)
    obtain ⟨entries, hread⟩ := exists_lutRead inputs 0 table fun j hj => by
      rw [Nat.zero_add]
      exact (wiredWidth?_isSome_iff pos).mp (hinputs j hj)
    refine ⟨[("O", entries)], ?_, fun o ho =>
      (produces_entry (lutRead_eq_ok hlen hread).2 o).mpr (houtput o ho)⟩
    rw [runLut, htable]
    simp only [bind, Except.bind, hne, hlog, if_pos hlen, hread, Bool.false_eq_true, if_false]

/-- A standard primitive runs and produces what is asked for exactly when it is wired in full. -/
theorem run_iff {module : String} {p : Primitive} (known : standard module = some p)
    (pos : ∀ q ∈ ports, q.2 ≠ []) (outputs : List (String × Nat)) :
    (∃ fields, p.run ports = .ok fields ∧ ∀ o ∈ outputs, produces fields o) ↔
      p.Wired (widths ports) outputs := by
  rcases standard_eq_some known with ⟨-, rfl⟩ | ⟨-, -, rfl⟩ | ⟨-, -, rfl⟩
  · exact runChain_iff length_addChain pos outputs
  · exact runChain_iff length_muxChain pos outputs
  · exact runLut_iff pos outputs

end CircuitSketch.Primitive
