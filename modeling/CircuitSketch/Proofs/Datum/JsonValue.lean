import CircuitSketch.Datum.Basic
import Mathlib.Data.List.Nodup

/-!
# JSON values

The data that a JSON text stands for: nothing in them is shared, every number with a point is a
proper fraction, and the keys of an object are texts, each of them there once. What is found at a
key is therefore the one value that stands there.
-/
namespace CircuitSketch

namespace Text

theorem charOf?_toNat (c : Char) : charOf? c.toNat = some c := by
  have hvalid : c.toNat.isValidChar := c.valid
  rw [charOf?, dif_pos hvalid, Option.some.injEq]
  have hchar := Char.ofNat_toNat c
  rwa [Char.ofNat, dif_pos hvalid] at hchar

/-- The characters of a text are found from their code points. -/
theorem ofPoints?_points (s : String) : ofPoints? (points s) = some s := by
  have hchars : (s.toList.map Char.toNat).mapM charOf? = some s.toList := by
    induction s.toList with
    | nil => rfl
    | cons c cs ih => simp [List.mapM_cons, charOf?_toNat, ih]
  rw [ofPoints?, points, hchars, Option.map_some, String.ofList_toList]

@[simp] theorem ofPoints_points (s : String) : ofPoints (points s) = s := by
  simp [ofPoints, points, Function.comp_def, charOf?_toNat]

end Text

/-- A fraction that is a number, but not a whole one. -/
def Fraction.IsProper (x : Fraction) : Prop :=
  (∃ negative m e, x = .finite negative m e) ∧ x.whole? = none

namespace Datum

/-- A text, or a torn one that has a code point without a character. -/
inductive IsText : Datum → Prop
  | text (s : String) : IsText (text s)
  | torn {ps : List Nat} (unpaired : Text.ofPoints? ps = none) : IsText (torn ps)

/-- A JSON value. -/
inductive IsJson : Datum → Prop
  | null : IsJson null
  | bool (b : Bool) : IsJson (bool b)
  | int (n : Int) : IsJson (int n)
  | fraction {x : Fraction} (proper : x.IsProper) : IsJson (fraction x)
  | text {d : Datum} (text : d.IsText) : IsJson d
  | list {items : List Datum} (items_json : ∀ d ∈ items, IsJson d) : IsJson (list items)
  | object {entries : List (Datum × Datum)} (keys : ∀ e ∈ entries, e.1.IsText)
      (distinct : (entries.map (·.1)).Nodup) (values : ∀ e ∈ entries, IsJson e.2) :
      IsJson (object entries)

theorem IsJson.bare_eq {d : Datum} (json : d.IsJson) : d.bare = d := by
  cases json with
  | text text => cases text <;> rfl
  | _ => rfl

/-- The entries of a JSON object have keys of their own. -/
theorem IsJson.of_object {entries : List (Datum × Datum)} (json : (Datum.object entries).IsJson) :
    (entries.map (·.1)).Nodup ∧ ∀ e ∈ entries, e.2.IsJson := by
  cases json with
  | text text => cases text
  | object _ distinct values => exact ⟨distinct, values⟩

section Entries

variable {entries : List (Datum × Datum)} {key : String} {d : Datum}

/-- What is found at a key stands there, and nothing else does. -/
theorem field?_eq_some_iff (distinct : (entries.map (·.1)).Nodup) :
    field? entries key = some d ↔ (text key, d) ∈ entries := by
  induction entries with
  | nil => simp [field?]
  | cons e entries ih =>
    obtain ⟨he, hrest⟩ := List.nodup_cons.mp distinct
    obtain ⟨k, x⟩ := e
    by_cases hk : k = text key
    · subst hk
      have hnot : (text key, d) ∉ entries := fun hmem => he (List.mem_map_of_mem (f := (·.1)) hmem)
      simp [field?, hnot, eq_comm]
    · have hskip : field? ((k, x) :: entries) key = field? entries key := by
        rw [field?, List.findSome?_cons]
        cases k with
        | text s => simp [field?, show s ≠ key from fun h => hk (congrArg text h)]
        | _ => rfl
      have hne : (text key, d) ≠ (k, x) := fun h => hk (congrArg Prod.fst h).symm
      rw [hskip, ih hrest, List.mem_cons, or_iff_right hne]

theorem field?_eq_none_iff (distinct : (entries.map (·.1)).Nodup) :
    field? entries key = none ↔ ∀ d, (text key, d) ∉ entries := by
  rw [Option.eq_none_iff_forall_ne_some]
  exact forall_congr' fun d => not_congr (field?_eq_some_iff distinct)

/-- Every entry is at one of some keys, and holds a value that is allowed there. -/
def EntriesIn (rules : List (String × (Datum → Prop))) (entries : List (Datum × Datum)) : Prop :=
  ∀ e ∈ entries, ∃ r ∈ rules, e.1 = text r.1 ∧ r.2 e.2

/-- The keys and the values can be looked at apart. -/
theorem entriesIn_iff {rules : List (String × (Datum → Prop))} (names : (rules.map (·.1)).Nodup) :
    EntriesIn rules entries ↔
      (∀ e ∈ entries, ∃ name ∈ rules.map (·.1), e.1 = text name) ∧
        ∀ r ∈ rules, ∀ d, (text r.1, d) ∈ entries → r.2 d := by
  constructor
  · intro h
    refine ⟨fun e he => ?_, fun r hr d hd => ?_⟩
    · obtain ⟨r, hr, hkey, -⟩ := h e he
      exact ⟨r.1, List.mem_map_of_mem hr, hkey⟩
    · obtain ⟨r', hr', hkey, hallowed⟩ := h _ hd
      have hname : r.1 = r'.1 := by injection hkey
      rwa [List.inj_on_of_nodup_map names hr hr' hname]
  · rintro ⟨hkeys, hvalues⟩ e he
    obtain ⟨name, hname, hkey⟩ := hkeys e he
    obtain ⟨r, hr, rfl⟩ := List.mem_map.mp hname
    exact ⟨r, hr, hkey, hvalues r hr e.2 (hkey ▸ he)⟩

end Entries

end Datum
end CircuitSketch
