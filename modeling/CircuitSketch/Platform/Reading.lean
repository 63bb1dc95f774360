import CircuitSketch.Datum.Distinct
import CircuitSketch.Datum.Literal
import CircuitSketch.Platform.Basic

/-!
# Platforms from plain data

Reading a platform yields the platform or every rule that the data break. One of those is reported:
the one with the shortest path into the data, of these the one with the greatest path, and of these
the first.
-/
namespace CircuitSketch

/-- A step into data: to the value at a key, or to an item of a list. -/
inductive PathStep
  | key (name : String)
  | position (n : Nat)
deriving DecidableEq, Repr

/-- The order of steps: keys by code points, positions by number, and keys after positions. -/
def PathStep.lt : PathStep → PathStep → Bool
  | key a, key b => decide (a < b)
  | position m, position n => decide (m < n)
  | position _, key _ => true
  | key _, position _ => false

/-- Lexicographic order of paths. -/
def pathLt : List PathStep → List PathStep → Bool
  | [], [] => false
  | [], _ :: _ => true
  | _ :: _, [] => false
  | a :: as, b :: bs => a.lt b || (a == b && pathLt as bs)

/-- A rule that data break. -/
inductive Rule
  | required (key : String)
  | kind (given : Datum) (expected : List String)
  | nonEmpty (given : Datum)
  | distinct (given : Datum)
  | atMost (given : Datum) (bound : Int)
  | atLeast (given : Datum) (bound : Int)
  | oneOf (given : Datum) (names : List String)
  | onlyKeys (unexpected : List Datum)

/-- The message of a broken rule. -/
def Rule.message : Rule → String
  | required key => Text.quoted key ++ " is a required property"
  | kind given expected =>
    given.literal ++ " is not of type " ++ ", ".intercalate (expected.map Text.quoted)
  | nonEmpty given => given.literal ++ " should be non-empty"
  | distinct given => given.literal ++ " has non-unique elements"
  | atMost given bound => given.literal ++ s!" is greater than the maximum of {bound}"
  | atLeast given bound => given.literal ++ s!" is less than the minimum of {bound}"
  | oneOf given names => given.literal ++ " is not one of " ++ Text.nameList names
  | onlyKeys unexpected =>
    "Additional properties are not allowed (" ++ ", ".intercalate (unexpected.map Datum.literal) ++
      (if unexpected.length = 1 then " was unexpected)" else " were unexpected)")

/-- The numbers that the message of a broken rule shows. -/
def Rule.numbers : Rule → List Int
  | required _ => []
  | kind given _ => given.numbers
  | nonEmpty given => given.numbers
  | distinct given => given.numbers
  | atMost given _ => given.numbers
  | atLeast given _ => given.numbers
  | oneOf given _ => given.numbers
  | onlyKeys unexpected => unexpected.flatMap Datum.numbers

/-- A broken rule and where it is broken. -/
structure Fault where
  path : List PathStep
  rule : Rule

namespace Fault

/-- Whether a fault is reported rather than one that was found before it. -/
def outranks (new old : Fault) : Bool :=
  if new.path.length = old.path.length then pathLt old.path new.path
  else decide (new.path.length < old.path.length)

end Fault

/-- The faults of some data, of which there is at least one. -/
structure Faults where
  first : Fault
  rest : List Fault

namespace Faults

/-- The fault that is reported. -/
def reported (fs : Faults) : Fault :=
  fs.rest.foldl (fun best f => if f.outranks best then f else best) fs.first

/-- The numbers that the messages of all faults show. -/
def numbers (fs : Faults) : List Int := (fs.first :: fs.rest).flatMap fun f => f.rule.numbers

/-- All of the faults of two collections. -/
def append (fs gs : Faults) : Faults := ⟨fs.first, fs.rest ++ gs.first :: gs.rest⟩

end Faults

/-- A value, or every rule that the data break. -/
abbrev Reading := Except Faults

namespace Reading

/-- One broken rule. -/
def fault {α : Type} (path : List PathStep) (rule : Rule) : Reading α :=
  .error ⟨⟨path, rule⟩, []⟩

/-- Both values, or the faults of both. -/
def both {α β : Type} (a : Reading α) (b : Reading β) : Reading (α × β) :=
  match a, b with
  | .ok x, .ok y => .ok (x, y)
  | .error fs, .ok _ => .error fs
  | .ok _, .error gs => .error gs
  | .error fs, .error gs => .error (fs.append gs)

/-- A text. -/
def text (path : List PathStep) (d : Datum) : Reading String :=
  match d.bare.points? with
  | some ps => .ok (Text.ofPoints ps)
  | none => fault path (.kind d ["string"])

/-- A text out of a list of names that stand for values. -/
def named {α : Type} (choices : List (String × α)) (path : List PathStep) (d : Datum) :
    Reading α :=
  match d.bare.points? with
  | some ps =>
    match Text.ofPoints? ps >>= fun s => choices.lookup s with
    | some x => .ok x
    | none => fault path (.oneOf d (choices.map (·.1)))
  | none => fault path (.kind d ["string"])

/-- The whole number that a datum is, and whether it is written with a point. -/
def whole? (d : Datum) : Option (Int × Bool) :=
  match d.bare with
  | .int n => some (n, false)
  | .fraction x => x.whole?.map fun n => (n, true)
  | _ => none

/-- A whole number within bounds. -/
def lutSize (path : List PathStep) (d : Datum) : Reading LutSize :=
  match whole? d with
  | some (n, pointed) =>
    if n < 1 then fault path (.atLeast d 1)
    else if h : 1 ≤ n.toNat ∧ n.toNat ≤ 8 then .ok ⟨⟨n.toNat, pointed⟩, h.1, h.2⟩
    else fault path (.atMost d 8)
  | none => fault path (.kind d ["integer"])

/-- A whole number above zero. -/
def chunk (path : List PathStep) (d : Datum) : Reading { c : Count // 0 < c.value } :=
  match whole? d with
  | some (n, pointed) =>
    if h : 0 < n.toNat then .ok ⟨⟨n.toNat, pointed⟩, h⟩ else fault path (.atLeast d 1)
  | none => fault path (.kind d ["integer"])

/-- Every item of a list, from a position on. -/
def items {α : Type} (read : List PathStep → Datum → Reading α) (path : List PathStep) :
    Nat → List Datum → Reading (List α)
  | _, [] => .ok []
  | n, d :: rest =>
    (both (read (path ++ [.position n]) d) (items read path (n + 1) rest)).map
      fun r => r.1 :: r.2

/-- A list of different lookup table sizes, at least one. -/
def lutSizes (path : List PathStep) (d : Datum) : Reading { l : List LutSize // l ≠ [] } :=
  match d.bare with
  | .list ds =>
    let distinct : Reading Unit :=
      if Datum.distinct ds then .ok () else fault path (.distinct d)
    match both (items lutSize path 0 ds) distinct with
    | .ok (n :: ns, ()) =>
      .ok ⟨(n :: ns).mergeSort fun a b => decide (a.value ≤ b.value), by
        intro h
        have := congrArg List.length h
        simp [List.length_mergeSort] at this⟩
    | .ok ([], ()) => fault path (.nonEmpty d)
    | .error fs => .error fs
  | _ => fault path (.kind d ["array"])

/-- The value at a key that has to be there. -/
def required {α : Type} (read : List PathStep → Datum → Reading α) (path : List PathStep)
    (entries : List (Datum × Datum)) (key : String) : Reading α :=
  match Datum.field? entries key with
  | some d => read (path ++ [.key key]) d
  | none => fault path (.required key)

/-- The value at a key, or a default. -/
def optional {α : Type} (read : List PathStep → Datum → Reading α) (path : List PathStep)
    (entries : List (Datum × Datum)) (key : String) (default : α) : Reading α :=
  match Datum.field? entries key with
  | some d => read (path ++ [.key key]) d
  | none => .ok default

/-- Whether a key is listed before another: by its text, and a text itself before other keys that
read the same. -/
def listedBefore (a b : Datum) : Bool :=
  let (ps, qs) := (a.displayPoints, b.displayPoints)
  decide (ps < qs) || (ps == qs && decide (a.literal ≤ b.literal))

/-- No keys but the expected ones. -/
def onlyKeys (path : List PathStep) (entries : List (Datum × Datum)) (expected : List String) :
    Reading Unit :=
  let known : Datum → Bool
    | .text s => expected.contains s
    | _ => false
  match ((entries.map (·.1)).filter fun key => !known key).mergeSort listedBefore with
  | [] => .ok ()
  | unexpected => fault path (.onlyKeys unexpected)

/-- How multiplexers are built, or nothing where there are none. -/
def mux (path : List PathStep) (d : Datum) : Reading (Option MuxStyle) :=
  match d.bare with
  | .null => .ok none
  | .object entries =>
    (both (optional (named [("lut", MuxStyle.lut), ("native", .native)]) path entries "style" .lut)
      (onlyKeys path entries ["style"])).map fun r => some r.1
  | _ => fault path (.kind d ["object", "null"])

/-- The carry chain, or nothing where there is none. -/
def carry (path : List PathStep) (d : Datum) : Reading (Option CarryUnit) :=
  match d.bare with
  | .null => .ok none
  | .object entries =>
    let style :=
      optional (named [("adder", CarryStyle.adder), ("mux_xor", .muxXor)]) path entries "style"
        .adder
    let width := optional chunk path entries "chunk_width" ⟨.plain 8, Nat.succ_pos 7⟩
    (both style (both width (onlyKeys path entries ["style", "chunk_width"]))).map
      fun r => some ⟨r.1, r.2.1.1, r.2.1.2⟩
  | _ => fault path (.kind d ["object", "null"])

/-- A platform. A section that is absent is the one of the generic platform. -/
def platform (d : Datum) : Reading Platform :=
  match d.bare with
  | .object entries =>
    let name := required text [] entries "name"
    let sizes := required lutSizes [] entries "lut_sizes"
    let description := optional text [] entries "description" ""
    let muxes := optional mux [] entries "mux" Platform.generic.mux
    let carries := optional carry [] entries "carry" Platform.generic.carry
    let keys := onlyKeys [] entries ["name", "description", "lut_sizes", "mux", "carry"]
    (both name (both sizes (both description (both muxes (both carries keys))))).map fun r =>
      { name := r.1, lutSizes := r.2.1.1, mux := r.2.2.2.1, carry := r.2.2.2.2.1,
        lutSizes_ne_nil := r.2.1.2 }
  | _ => fault [] (.kind d ["object"])

end Reading
end CircuitSketch
