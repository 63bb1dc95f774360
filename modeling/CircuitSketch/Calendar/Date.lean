/-!
# Days and points in time

A day of the calendar in use today, extended to the years from one on, or a point in time on a day.
A point in time may name its zone; the zone is an offset from the world's time in seconds.

Two points in time with zones are compared as instants, two without zones by what they say. A point
in time with a zone has no order among those without one, and neither has a day among points in
time.
-/
namespace CircuitSketch

/-- A time of day. -/
structure TimeOfDay where
  hour : Nat
  minute : Nat
  second : Nat
  micro : Nat
  zone : Option Int
deriving DecidableEq, Repr

/-- A day, or a point in time. -/
structure Date where
  year : Nat
  month : Nat
  day : Nat
  time : Option TimeOfDay
deriving DecidableEq, Repr

/-- Why a day, a time or a time zone does not exist. -/
inductive CalendarFault
  | year (given : Nat)
  | month
  | day
  | hour
  | minute
  | second
  | zone (offset : Int)
deriving DecidableEq, Repr

/-- A span of time, given in seconds, in days and seconds. -/
def spanText (seconds : Int) : String :=
  let days := Int.fdiv seconds 86400
  let rest := Int.fmod seconds 86400
  let parts :=
    (if days = 0 then [] else ["days=" ++ toString days]) ++
      (if rest = 0 then [] else ["seconds=" ++ toString rest])
  "datetime.timedelta(" ++ (if parts.isEmpty then "0" else ", ".intercalate parts) ++ ")"

/-- The message of a point in time that does not exist. -/
def CalendarFault.message : CalendarFault → String
  | year given => s!"year {given} is out of range"
  | month => "month must be in 1..12"
  | day => "day is out of range for month"
  | hour => "hour must be in 0..23"
  | minute => "minute must be in 0..59"
  | second => "second must be in 0..59"
  | zone offset =>
    "offset must be a timedelta strictly between -timedelta(hours=24) and " ++
      "timedelta(hours=24), not " ++ spanText offset ++ "."

namespace Date

/-- Whether a year has a day more than others. -/
def isLeap (year : Nat) : Bool := year % 4 = 0 && (year % 100 ≠ 0 || year % 400 = 0)

/-- The number of days of a month. -/
def monthLength (year month : Nat) : Nat :=
  if month = 2 then if isLeap year then 29 else 28
  else if month = 4 ∨ month = 6 ∨ month = 9 ∨ month = 11 then 30
  else 31

/-- The first thing about a date that does not exist. -/
def fault? (d : Date) : Option CalendarFault :=
  let zone := d.time >>= TimeOfDay.zone
  if zone.any fun offset => decide (86400 ≤ offset.natAbs) then zone.map .zone
  else if d.year < 1 then some (.year d.year)
  else if d.month < 1 ∨ 12 < d.month then some .month
  else if d.day < 1 ∨ monthLength d.year d.month < d.day then some .day
  else
    match d.time with
    | none => none
    | some t =>
      if 23 < t.hour then some .hour
      else if 59 < t.minute then some .minute
      else if 59 < t.second then some .second
      else none

/-- The number of days up to a date, from the beginning of the year one. -/
def dayNumber (d : Date) : Nat :=
  let years := d.year - 1
  let months := (List.range' 1 (d.month - 1)).foldl (fun n m => n + monthLength d.year m) 0
  365 * years + years / 4 - years / 100 + years / 400 + months + d.day

/-- The number of millionths of a second up to a date, as its zone counts them. -/
def localMicros (d : Date) : Nat :=
  let t := d.time.getD ⟨0, 0, 0, 0, none⟩
  (((d.dayNumber * 24 + t.hour) * 60 + t.minute) * 60 + t.second) * 1000000 + t.micro

/-- The zone of a point in time. -/
def zone? (d : Date) : Option Int := d.time >>= TimeOfDay.zone

/-- Where a date stands among the dates that it has an order with. -/
def position (d : Date) : Int := d.localMicros - d.zone?.getD 0 * 1000000

/-- Whether two dates have an order. -/
def comparable (a b : Date) : Bool :=
  a.time.isSome == b.time.isSome && a.zone?.isSome == b.zone?.isSome

/-- Whether two dates are the same day or the same instant. -/
def same (a b : Date) : Bool := comparable a b && a.position == b.position

/-- Whether a date comes before another, if they have an order. -/
def before? (a b : Date) : Option Bool :=
  if comparable a b then some (decide (a.position < b.position)) else none

/-- The name of the kind of a date. -/
def kind (d : Date) : String := if d.time.isSome then "datetime" else "date"

/-- A number with zeros in front up to a width. -/
def padded (width n : Nat) : String :=
  let digits := toString n
  String.ofList (List.replicate (width - digits.length) '0') ++ digits

/-- A time zone as a literal. -/
def zoneLiteral (offset : Int) : String :=
  if offset = 0 then "datetime.timezone.utc" else "datetime.timezone(" ++ spanText offset ++ ")"

/-- A date as a literal. Seconds are left out where they are zero. -/
def literal (d : Date) : String :=
  let day := [d.year, d.month, d.day]
  match d.time with
  | none => "datetime.date(" ++ ", ".intercalate (day.map toString) ++ ")"
  | some t =>
    let parts :=
      if t.micro ≠ 0 then [t.hour, t.minute, t.second, t.micro]
      else if t.second ≠ 0 then [t.hour, t.minute, t.second]
      else [t.hour, t.minute]
    let zone := match t.zone with
      | some offset => ", tzinfo=" ++ zoneLiteral offset
      | none => ""
    "datetime.datetime(" ++ ", ".intercalate ((day ++ parts).map toString) ++ zone ++ ")"

/-- An offset from the world's time as it stands in a sentence. -/
def offsetText (offset : Int) : String :=
  let minutes := offset.natAbs / 60
  (if offset < 0 then "-" else "+") ++ padded 2 (minutes / 60) ++ ":" ++ padded 2 (minutes % 60)

/-- A date as it stands in a sentence. -/
def spoken (d : Date) : String :=
  let day := padded 4 d.year ++ "-" ++ padded 2 d.month ++ "-" ++ padded 2 d.day
  match d.time with
  | none => day
  | some t =>
    day ++ " " ++ padded 2 t.hour ++ ":" ++ padded 2 t.minute ++ ":" ++ padded 2 t.second ++
      (if t.micro = 0 then "" else "." ++ padded 6 t.micro) ++
      (match t.zone with
        | some offset => offsetText offset
        | none => "")

end Date
end CircuitSketch
