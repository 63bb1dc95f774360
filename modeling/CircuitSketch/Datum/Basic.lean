import CircuitSketch.Calendar.Date
import CircuitSketch.Fraction.Shortest
import CircuitSketch.Text.Points

/-!
# Plain data

Configurations, and the arguments of a request that may turn out to be of the wrong kind, are plain
data: nothing, truth values, numbers, texts, dates, and collections of such data.

A part of some data may stand in several places, and even inside itself. Such a part carries a mark,
the same in all of its places. Data that hold themselves are unfolded only as far as it takes to
show them.
-/
namespace CircuitSketch

/-- Plain data. A torn text has code points without a character. An object keeps its entries in the
order they were given, and its keys are data as well; the members of a set are in the order in which
they are shown. -/
inductive Datum
  | null
  | bool (b : Bool)
  | int (n : Int)
  | fraction (x : Fraction)
  | text (s : String)
  | torn (points : List Nat)
  | bytes (contents : List Nat)
  | date (d : Date)
  | list (items : List Datum)
  | pair (first second : Datum)
  | set (members : List Datum)
  | object (entries : List (Datum × Datum))
  | shared (mark : Nat) (d : Datum)
deriving Inhabited

namespace Datum

/-- A datum without its mark. -/
def bare : Datum → Datum
  | shared _ d => d.bare
  | d => d

/-- The mark of a datum that stands in several places. -/
def mark? : Datum → Option Nat
  | shared mark _ => some mark
  | _ => none

/-- The mark of the undefined fraction, which is the same one wherever it is written down. -/
def undefinedMark : Nat := 0

/-- The undefined fraction as it is written down. -/
def undefined : Datum := shared undefinedMark (fraction .undefined)

/-- The name of the kind of a datum. -/
def kind : Datum → String
  | null => "NoneType"
  | bool _ => "bool"
  | int _ => "int"
  | fraction _ => "float"
  | text _ => "str"
  | torn _ => "str"
  | bytes _ => "bytes"
  | date d => d.kind
  | list _ => "list"
  | pair _ _ => "tuple"
  | set _ => "set"
  | object _ => "dict"
  | shared _ d => d.kind

/-- A width or a count: a whole number above zero. A truth value is not one. -/
def positive? : Datum → Option Nat
  | int n => if 1 ≤ n then some n.toNat else none
  | _ => none

theorem positive?_int (n : Nat) (h : 1 ≤ n) : positive? (int n) = some n := by
  have : (1 : Int) ≤ n := by omega
  simp [positive?, this]

theorem positive?_eq_some {d : Datum} {n : Nat} (h : positive? d = some n) :
    d = int n ∧ 1 ≤ n := by
  cases d with
  | int m =>
    simp only [positive?] at h
    split at h
    · simp only [Option.some.injEq] at h
      exact ⟨congrArg int (by omega), by omega⟩
    · simp at h
  | _ => simp [positive?] at h

/-- The number that a datum counts as where truth values stand for zero and one. -/
def number? : Datum → Option Int
  | int n => some n
  | bool b => some (if b then 1 else 0)
  | _ => none

/-- The size of a number or of a truth value, by which they are compared with each other. -/
def magnitude? : Datum → Option Fraction
  | fraction x => some x
  | d => d.number?.map Fraction.ofInt

/-- The code points of a text. -/
def points? : Datum → Option (List Nat)
  | text s => some (Text.points s)
  | torn ps => some ps
  | _ => none

/-- The text of some code points. -/
def ofPoints (ps : List Nat) : Datum :=
  match Text.ofPoints? ps with
  | some s => text s
  | none => torn ps

/-- The value at a key of an object. -/
def field? (entries : List (Datum × Datum)) (key : String) : Option Datum :=
  entries.findSome? fun
    | (text s, d) => if s = key then some d else none
    | _ => none

end Datum
end CircuitSketch
