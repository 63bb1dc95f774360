import CircuitSketch.Platform.Load
import CircuitSketch.Proofs.Interface.Lut
import CircuitSketch.Proofs.Platform.Reading

/-!
# The data that describe a platform

A JSON value describes a platform when it is an object with a name and with sizes of lookup tables
that differ and lie between one and eight; it may have a description, and it may say how
multiplexers and carry chains are built, or that there are none. Such a value is accepted, and no
other one is. What it leaves out is as on the generic platform.
-/
namespace CircuitSketch

namespace Datum

/-- A text out of some names. -/
def IsOneOf (names : List String) (d : Datum) : Prop := ∃ name ∈ names, d = .text name

/-- A list of whole numbers from one to eight, at least one of them and none of them twice. -/
def IsSizeList (d : Datum) : Prop :=
  ∃ ns : List Int, d = .list (ns.map .int) ∧ ns ≠ [] ∧ ns.Nodup ∧ ∀ n ∈ ns, 1 ≤ n ∧ n ≤ 8

/-- Nothing, or an object whose entries are as they have to be. -/
def IsSection (rules : List (String × (Datum → Prop))) (d : Datum) : Prop :=
  d = .null ∨ ∃ fields, d = .object fields ∧ EntriesIn rules fields

/-- What says how multiplexers are built. -/
def IsMux : Datum → Prop := IsSection [("style", IsOneOf ["lut", "native"])]

/-- What says how carry chains are built. -/
def IsCarry : Datum → Prop :=
  IsSection [("style", IsOneOf ["adder", "mux_xor"]),
    ("chunk_width", fun d => ∃ n, d = .int n ∧ 1 ≤ n)]

/-- What may be said about a platform. -/
def platformRules : List (String × (Datum → Prop)) :=
  [("name", IsText), ("description", IsText), ("lut_sizes", IsSizeList), ("mux", IsMux),
    ("carry", IsCarry)]

/-- What describes a platform: its name and its sizes are not left out. -/
def IsPlatform (d : Datum) : Prop :=
  ∃ entries, d = .object entries ∧ EntriesIn platformRules entries ∧
    (∃ x, (.text "name", x) ∈ entries) ∧ ∃ x, (.text "lut_sizes", x) ∈ entries

end Datum

namespace Reading

open Datum (IsText IsOneOf IsSizeList IsSection IsMux IsCarry IsPlatform EntriesIn entriesIn_iff)

/-- The sizes of a list in order, with no point in any of them. -/
def SizesMean (d : Datum) (l : List LutSize) : Prop :=
  ∃ (ns : List Int) (sizes : List Nat), d = .list (ns.map .int) ∧ (sizes.map Nat.cast).Perm ns ∧
    sizes.Pairwise (· < ·) ∧ l.map LutSize.count = sizes.map .plain

/-- Nothing, where there is nothing, or else what the entries of an object mean. -/
def SectionMeans {α : Type} (means : List (Datum × Datum) → α → Prop) (d : Datum)
    (m : Option α) : Prop :=
  (d = .null ∧ m = none) ∨ ∃ fields x, d = .object fields ∧ m = some x ∧ means fields x

/-- Multiplexers have a style that may be left out. -/
def MuxMeans : Datum → Option MuxStyle → Prop :=
  SectionMeans fun fields style => Gives fields "style" (fun x s => x = .text s.name) .lut style

/-- A carry chain has a style and a width that may be left out. -/
def CarryMeans : Datum → Option CarryUnit → Prop :=
  SectionMeans fun fields unit =>
    Gives fields "style" (fun x s => x = .text s.name) .adder unit.style ∧
      Gives fields "chunk_width" (fun x c => ∃ n : Nat, x = .int n ∧ c = .plain n) (.plain 8)
        unit.chunk

/-- The platform that the entries of an object describe. -/
structure Describes (entries : List (Datum × Datum)) (p : Platform) : Prop where
  name : ∀ s, (.text "name", .text s) ∈ entries → p.name = s
  sizes : ∀ d, (.text "lut_sizes", d) ∈ entries → SizesMean d p.lutSizes
  mux : Gives entries "mux" MuxMeans (some .lut) p.mux
  carry : Gives entries "carry" CarryMeans (some { style := .adder, chunk := .plain 8 }) p.carry

theorem lutSizes_eq_ok {path : List PathStep} {ds : List Datum}
    {l : { l : List LutSize // l ≠ [] }} :
    lutSizes path (.list ds) = .ok l ↔ ∃ ls, items lutSize path 0 ds = .ok ls ∧ ls ≠ [] ∧
      Datum.distinct ds = true ∧ l.1 = ls.mergeSort fun a b => decide (a.value ≤ b.value) := by
  have hbare : (Datum.list ds).bare = .list ds := rfl
  obtain ⟨l, hl⟩ := l
  rw [lutSizes, hbare]
  simp only
  cases hitems : items lutSize path 0 ds with
  | error fs => cases Datum.distinct ds <;> simp [both, fault]
  | ok ls =>
    cases Datum.distinct ds with
    | false => simp [both, fault]
    | true => cases ls <;> simp [both, fault, eq_comm]

theorem of_items_lutSize {path : List PathStep} {n : Nat} {ds : List Datum} {ls : List LutSize}
    (json : ∀ d ∈ ds, d.IsJson) (h : items lutSize path n ds = .ok ls) :
    ds = (ls.map fun s => (s.value : Int)).map .int ∧ ∀ s ∈ ls, s.count = .plain s.value := by
  have hitems := reads_lutSize.of_items json h
  clear h json
  induction hitems with
  | nil => simp
  | cons hd _ ih =>
    obtain ⟨rfl, hcount⟩ := hd
    obtain ⟨rfl, hcounts⟩ := ih
    exact ⟨rfl, List.forall_mem_cons.mpr ⟨hcount, hcounts⟩⟩

/-- A list of sizes is read exactly if it is not empty, has no size twice, and every size is from 1
to 8. -/
theorem exists_lutSizes_iff {path : List PathStep} {ds : List Datum} (json : ∀ d ∈ ds, d.IsJson) :
    (∃ l, lutSizes path (.list ds) = .ok l) ↔ IsSizeList (.list ds) := by
  constructor
  · rintro ⟨l, hl⟩
    obtain ⟨ls, hitems, hne, hdistinct, -⟩ := lutSizes_eq_ok.mp hl
    obtain ⟨rfl, -⟩ := of_items_lutSize json hitems
    refine ⟨_, rfl, by simpa using hne, (Datum.represents_int.distinct_iff _).mp hdistinct, ?_⟩
    intro n hn
    obtain ⟨s, -, rfl⟩ := List.mem_map.mp hn
    have hone : 1 ≤ s.value := s.one_le
    have height : s.value ≤ 8 := s.le_eight
    omega
  · rintro ⟨ns, hds, hne, hnodup, hbounds⟩
    cases hds
    have hall : ∀ d ∈ ns.map Datum.int, ∃ n, d = .int n ∧ 1 ≤ n ∧ n ≤ 8 :=
      List.forall_mem_map.mpr fun n hn => ⟨n, rfl, hbounds n hn⟩
    obtain ⟨ls, hitems⟩ := (reads_lutSize.exists_items_iff json).mpr hall
    have hlength := (reads_lutSize.of_items json hitems).length_eq
    have hls : ls ≠ [] := by
      rintro rfl
      exact hne (by simpa using hlength)
    have hsorted : (ls.mergeSort fun a b => decide (a.value ≤ b.value)) ≠ [] := by
      rw [← List.length_pos_iff, List.length_mergeSort, List.length_pos_iff]
      exact hls
    exact ⟨⟨_, hsorted⟩, lutSizes_eq_ok.mpr
      ⟨ls, hitems, hls, (Datum.represents_int.distinct_iff ns).mpr hnodup, rfl⟩⟩

/-- The sizes that are read are those of the list, in ascending order. -/
theorem sizesMean_of_lutSizes {path : List PathStep} {ds : List Datum}
    {l : { l : List LutSize // l ≠ [] }} (json : ∀ d ∈ ds, d.IsJson)
    (h : lutSizes path (.list ds) = .ok l) : SizesMean (.list ds) l.1 := by
  obtain ⟨ls, hitems, -, hdistinct, hl⟩ := lutSizes_eq_ok.mp h
  obtain ⟨rfl, hcounts⟩ := of_items_lutSize json hitems
  have hperm : l.1.Perm ls := hl ▸ List.mergeSort_perm ls _
  refine ⟨_, l.1.map LutSize.value, rfl, ?_, ?_, ?_⟩
  · rw [List.map_map]
    exact hperm.map fun s => (s.value : Int)
  · have hle : l.1.Pairwise fun a b => decide (a.value ≤ b.value) = true := by
      rw [hl]
      exact List.pairwise_mergeSort
        (fun a b c hab hbc => by simp only [decide_eq_true_eq] at *; omega)
        (fun a b => by simp only [Bool.or_eq_true, decide_eq_true_eq]; omega) ls
    have hnodup : (l.1.map fun s => (s.value : Int)).Nodup :=
      (hperm.map _).nodup_iff.mpr ((Datum.represents_int.distinct_iff _).mp hdistinct)
    refine List.pairwise_map.mpr ((hle.and (List.pairwise_map.mp hnodup)).imp fun {a b} h => ?_)
    obtain ⟨hle, hne⟩ := h
    simp only [decide_eq_true_eq] at hle
    omega
  · rw [List.map_map]
    exact List.map_congr_left fun s hs => hcounts s (hperm.subset hs)

theorem reads_lutSizes : Reads lutSizes IsSizeList fun d l => SizesMean d l.1 where
  accepts path d json := by
    cases json with
    | list json => exact exists_lutSizes_iff json
    | text text => cases text <;> simp [lutSizes, Datum.bare, fault_ne_ok, IsSizeList]
    | _ => simp [lutSizes, Datum.bare, fault_ne_ok, IsSizeList]
  yields json h := by
    cases json with
    | list json => exact sizesMean_of_lutSizes json h
    | text text => cases text <;> cases h
    | _ => cases h

/-- A style is accepted by its name. -/
theorem reads_style {α : Type} (choices : List (String × α)) (name : α → String)
    (names : ∀ c ∈ choices, c.1 = name c.2) :
    Reads (named choices) (IsOneOf (choices.map (·.1))) fun d s => d = .text (name s) where
  accepts := (reads_named choices).accepts
  yields json h := by
    obtain ⟨given, rfl, hmem⟩ := (reads_named choices).yields json h
    exact congrArg Datum.text (names _ hmem)

/-- A reader that takes nothing or an object is described by what it does with the entries. -/
theorem reads_section {α : Type} {read : List PathStep → Datum → Reading (Option α)}
    {rules : List (String × (Datum → Prop))} {means : List (Datum × Datum) → α → Prop}
    (null : ∀ path, read path .null = .ok none)
    (kinds : ∀ {path d x}, read path d = .ok x → d.bare = .null ∨ ∃ fields, d.bare = .object fields)
    (accepts : ∀ path {fields : List (Datum × Datum)}, (fields.map (·.1)).Nodup →
      (∀ e ∈ fields, e.2.IsJson) →
      ((∃ x, read path (.object fields) = .ok x) ↔ EntriesIn rules fields))
    (yields : ∀ {path} {fields : List (Datum × Datum)} {m}, (fields.map (·.1)).Nodup →
      (∀ e ∈ fields, e.2.IsJson) → read path (.object fields) = .ok m →
      ∃ x, m = some x ∧ means fields x) :
    Reads read (IsSection rules) (SectionMeans means) where
  accepts path d json := by
    constructor
    · rintro ⟨m, hm⟩
      have hkinds := kinds hm
      rw [json.bare_eq] at hkinds
      rcases hkinds with rfl | ⟨fields, rfl⟩
      · exact .inl rfl
      · obtain ⟨distinct, values⟩ := json.of_object
        exact .inr ⟨fields, rfl, (accepts path distinct values).mp ⟨m, hm⟩⟩
    · rintro (rfl | ⟨fields, rfl, hfields⟩)
      · exact ⟨none, null path⟩
      · obtain ⟨distinct, values⟩ := json.of_object
        exact (accepts path distinct values).mpr hfields
  yields {path d m} json hm := by
    have hkinds := kinds hm
    rw [json.bare_eq] at hkinds
    rcases hkinds with rfl | ⟨fields, rfl⟩
    · exact .inl ⟨rfl, Except.ok.inj (hm.symm.trans (null path))⟩
    · obtain ⟨distinct, values⟩ := json.of_object
      obtain ⟨x, rfl, hx⟩ := yields distinct values hm
      exact .inr ⟨fields, x, rfl, rfl, hx⟩

theorem reads_mux : Reads mux IsMux MuxMeans := by
  have hstyle := reads_style [("lut", MuxStyle.lut), ("native", .native)] MuxStyle.name (by decide)
  refine reads_section (fun _ => rfl) ?_ ?_ ?_
  · intro path d m hm
    rw [mux] at hm
    split at hm
    · next h => exact .inl h
    · next fields h => exact .inr ⟨fields, h⟩
    · cases hm
  · intro path fields distinct values
    have hbare : (Datum.object fields).bare = .object fields := rfl
    rw [mux, hbare, exists_map_iff, exists_both_iff, hstyle.exists_optional_iff distinct values,
      onlyKeys_iff, entriesIn_iff (by decide)]
    simp [and_comm]
  · intro path fields m distinct values hm
    obtain ⟨⟨style, u⟩, hboth, rfl⟩ := map_eq_ok.mp hm
    obtain ⟨hread, -⟩ := both_eq_ok.mp hboth
    exact ⟨style, rfl, hstyle.of_optional distinct values hread⟩

theorem reads_carry : Reads carry IsCarry CarryMeans := by
  have hstyle := reads_style [("adder", CarryStyle.adder), ("mux_xor", .muxXor)] CarryStyle.name
    (by decide)
  refine reads_section (fun _ => rfl) ?_ ?_ ?_
  · intro path d c hc
    rw [carry] at hc
    split at hc
    · next h => exact .inl h
    · next fields h => exact .inr ⟨fields, h⟩
    · cases hc
  · intro path fields distinct values
    have hbare : (Datum.object fields).bare = .object fields := rfl
    rw [carry, hbare, exists_map_iff, exists_both_iff, exists_both_iff,
      hstyle.exists_optional_iff distinct values,
      reads_chunk.exists_optional_iff distinct values, onlyKeys_iff, entriesIn_iff (by decide)]
    simp [and_comm, and_assoc]
  · intro path fields c distinct values hc
    obtain ⟨⟨style, width, u⟩, hboth, rfl⟩ := map_eq_ok.mp hc
    obtain ⟨hread, hboth⟩ := both_eq_ok.mp hboth
    obtain ⟨hwidth, -⟩ := both_eq_ok.mp hboth
    obtain ⟨hgiven, habsent⟩ := reads_chunk.of_optional distinct values hwidth
    exact ⟨_, rfl, hstyle.of_optional distinct values hread, hgiven,
      fun hnone => congrArg Subtype.val (habsent hnone)⟩

theorem platform_accepts {d : Datum} (json : d.IsJson) :
    (∃ p, platform d = .ok p) ↔ d.IsPlatform := by
  cases json with
  | @object entries keys distinct values =>
    have hbare : (Datum.object entries).bare = .object entries := rfl
    rw [platform, hbare]
    simp only [exists_map_iff, exists_both_iff, onlyKeys_iff,
      reads_text.exists_required_iff distinct values,
      reads_lutSizes.exists_required_iff distinct values,
      reads_text.exists_optional_iff distinct values, reads_mux.exists_optional_iff distinct values,
      reads_carry.exists_optional_iff distinct values]
    have hnames : (Datum.platformRules.map (·.1)).Nodup := by decide
    simp only [IsPlatform, Datum.object.injEq, exists_eq_left', entriesIn_iff hnames]
    simp only [Datum.platformRules, List.map_cons, List.map_nil, List.forall_mem_cons,
      List.not_mem_nil, false_imp_iff, implies_true, and_true]
    -- both sides now ask the same of each entry, in another order
    tauto
  | text text => cases text <;> simp [platform, Datum.bare, fault_ne_ok, IsPlatform]
  | _ => simp [platform, Datum.bare, fault_ne_ok, IsPlatform]

theorem describes_of_platform {d : Datum} {p : Platform} (json : d.IsJson)
    (h : platform d = .ok p) : ∃ entries, d = .object entries ∧ Describes entries p := by
  cases json with
  | @object entries keys distinct values =>
    obtain ⟨⟨name, sizes, description, m, c, u⟩, hboth, rfl⟩ := map_eq_ok.mp h
    obtain ⟨hname, hboth⟩ := both_eq_ok.mp hboth
    obtain ⟨hsizes, hboth⟩ := both_eq_ok.mp hboth
    obtain ⟨-, hboth⟩ := both_eq_ok.mp hboth
    obtain ⟨hmux, hboth⟩ := both_eq_ok.mp hboth
    obtain ⟨hcarry, -⟩ := both_eq_ok.mp hboth
    refine ⟨entries, rfl, fun s hs => ?_,
      fun x hx => reads_lutSizes.of_required distinct values hsizes x hx,
      reads_mux.of_optional distinct values hmux, reads_carry.of_optional distinct values hcarry⟩
    exact reads_text.of_required distinct values hname _ hs s rfl
  | text text => cases text <;> cases h
  | _ => cases h

theorem SizesMean.plain {d : Datum} {l : List LutSize} (h : SizesMean d l) {s : LutSize}
    (hs : s ∈ l) : s.count.pointed = false := by
  obtain ⟨-, sizes, -, -, -, hcounts⟩ := h
  obtain ⟨n, -, hn⟩ := List.mem_map.mp (hcounts ▸ List.mem_map_of_mem hs)
  rw [← hn]
  rfl

theorem CarryMeans.plain {d : Datum} {carry : Option CarryUnit} (h : CarryMeans d carry)
    {unit : CarryUnit} (hunit : unit ∈ carry) : unit.chunk.pointed = false := by
  obtain ⟨-, rfl⟩ | ⟨fields, unit', -, rfl, -, hchunk⟩ := h
  · cases hunit
  · obtain rfl := Option.some.inj hunit
    refine hchunk.elim (P := fun c => c.pointed = false) rfl ?_
    rintro _ c ⟨n, -, hn⟩
    rw [hn]
    rfl

/-- A platform that is described by its sizes has no number with a point. -/
theorem Describes.plain {entries : List (Datum × Datum)} {p : Platform} (h : Describes entries p)
    (sized : ∃ d, (.text "lut_sizes", d) ∈ entries) : p.Plain := by
  obtain ⟨d, hd⟩ := sized
  have hcarry := h.carry.elim (P := fun c => ∀ unit ∈ c, unit.chunk.pointed = false)
    (by rintro unit ⟨rfl⟩; rfl) fun d c hc unit hunit => hc.plain hunit
  exact ⟨fun s hs => (h.sizes d hd).plain hs, hcarry⟩

end Reading

namespace Platform

open Reading (Describes)

/-- A JSON value that describes a platform yields the platform that it describes. Any other value is
refused, because it breaks a rule, or because the message would have to show a number that is too
great to be written. -/
theorem ofSource_validates {d : Datum} (json : d.IsJson) (source : String) :
    (d.IsPlatform → ∃ p, ofSource source d = .ok p ∧
      ∃ entries, d = .object entries ∧ Describes entries p) ∧
    (¬ d.IsPlatform → (∃ rule, ofSource source d = .error (.invalid source rule)) ∨
      ofSource source d = .error (.unwritable .tooGreat)) := by
  rw [← Reading.platform_accepts json]
  constructor
  · rintro ⟨p, hp⟩
    exact ⟨p, by rw [ofSource, hp], Reading.describes_of_platform json hp⟩
  · intro hrefused
    rw [ofSource]
    cases hd : Reading.platform d with
    | ok p => exact absurd ⟨p, hd⟩ hrefused
    | error fs =>
      simp only
      split
      · exact .inl ⟨_, rfl⟩
      · exact .inr rfl

/-- A platform that a JSON value describes has no number with a point, so requests can count up to
all of its numbers. -/
theorem plain_of_ofSource {d : Datum} (json : d.IsJson) {source : String} {p : Platform}
    (h : ofSource source d = .ok p) : p.Plain := by
  have hp : Reading.platform d = .ok p := by
    rw [ofSource] at h
    split at h
    · next hd =>
      cases h
      exact hd
    · split at h <;> cases h
  obtain ⟨entries, rfl, hdescribes⟩ := Reading.describes_of_platform json hp
  obtain ⟨entries', heq, -, -, sized⟩ := (Reading.platform_accepts json).mp ⟨p, hp⟩
  obtain rfl := Datum.object.inj heq
  exact hdescribes.plain sized

/-- A platform without multiplexers, whose carry chain is given by its width alone. -/
theorem ofSource_validates_tiny :
    let entries : List (Datum × Datum) :=
      [(.text "carry", .object [(.text "chunk_width", .int 4)]),
        (.text "lut_sizes", .list [.int 3, .int 2]), (.text "mux", .null),
        (.text "name", .text "tiny")]
    (Datum.object entries).IsJson ∧ (Datum.object entries).IsPlatform ∧
      ∃ p, ofSource "tiny.yaml" (.object entries) = .ok p ∧ p.name = "tiny" ∧ p.mux = none ∧
        ∃ unit, p.carry = some unit ∧ unit.style = .adder ∧ unit.chunk = .plain 4 := by
  intro entries
  have htext (s : String) : (Datum.text s).IsText := .text s
  have hjson : (Datum.object entries).IsJson := by
    have hwidth : (Datum.object [(.text "chunk_width", .int 4)]).IsJson :=
      .object (by simp [htext]) (by simp) (by simp [Datum.IsJson.int])
    have hsizes : (Datum.list [.int 3, .int 2]).IsJson := .list (by simp [Datum.IsJson.int])
    exact .object (by simp [entries, htext]) (by simp [entries])
      (by simp [entries, hwidth, hsizes, Datum.IsJson.null, Datum.IsJson.text (htext "tiny")])
  have hplatform : (Datum.object entries).IsPlatform := by
    have hwidth : (Datum.object [(.text "chunk_width", .int 4)]).IsCarry := by
      simp [Datum.IsCarry, Datum.IsSection, Datum.EntriesIn]
    have hmux : Datum.null.IsMux := .inl rfl
    have hsizes : (Datum.list [.int 3, .int 2]).IsSizeList := ⟨[3, 2], rfl, by simp⟩
    have hentries : Datum.EntriesIn Datum.platformRules entries := by
      simp [entries, Datum.EntriesIn, Datum.platformRules, htext, hwidth, hmux, hsizes]
    exact ⟨entries, rfl, hentries, ⟨.text "tiny", by simp [entries]⟩,
      ⟨.list [.int 3, .int 2], by simp [entries]⟩⟩
  obtain ⟨p, hp, _, hentries, hdescribes⟩ := (ofSource_validates hjson "tiny.yaml").1 hplatform
  cases hentries
  refine ⟨hjson, hplatform, p, hp, hdescribes.name "tiny" (by simp [entries]), ?_, ?_⟩
  · rcases hdescribes.mux.given .null (by simp [entries]) with ⟨-, hnone⟩ | ⟨_, _, hd, -⟩
    · exact hnone
    · cases hd
  · rcases hdescribes.carry.given _ List.mem_cons_self with
      ⟨hd, -⟩ | ⟨_, unit, hd, hunit, hstyle, hwidth⟩
    · cases hd
    · cases hd
      obtain ⟨n, hn, hchunk⟩ := hwidth.given (.int 4) List.mem_cons_self
      have hfour : n = 4 := by injection hn with hn; omega
      exact ⟨unit, hunit, hstyle.absent (by simp), hfour ▸ hchunk⟩

end Platform
end CircuitSketch
