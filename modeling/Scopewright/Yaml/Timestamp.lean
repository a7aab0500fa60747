import Scopewright.Text.Class

/-! # Timestamps

A timestamp is a date, optionally with a time of day and an offset from UTC
(`Yaml.Timestamp.ofText?`).  It stands for a second of the calendar (`Timestamp.seconds`) and is
shown as a date of UTC (`Timestamp.shown`). -/

namespace Scopewright
namespace Yaml

/-- A date, a time of day, and the minutes by which it is ahead of UTC. -/
structure Timestamp where
  year : Nat
  month : Nat
  day : Nat
  hour : Nat
  minute : Nat
  second : Nat
  ahead : Int
deriving DecidableEq, Repr, Inhabited

namespace Timestamp

/-! ### Reading -/

/-- A run of at least `least` and at most `most` digits, and what follows it. -/
def digits? (least most : Nat) (t : Text) : Option (Nat × Text) :=
  let run := t.takeWhile CodeUnit.isDigit
  if least ≤ run.length ∧ run.length ≤ most then
    some (Text.natValue run 10, t.drop run.length)
  else none

/-- What follows a unit. -/
def after? (c : CodeUnit) (t : Text) : Option Text :=
  match t with
  | d :: r => if d = c then some r else none
  | [] => none

/-- A space or a tab. -/
def isGap (c : CodeUnit) : Bool := decide (c = ' ') || decide (c = '\t')

/-- The minutes that an offset stands for; small numbers are hours. -/
def minutes (n : Int) : Int := if n.natAbs < 30 then n * 60 else n

/-- An offset of hours and, behind a colon, minutes. -/
def offset? (sign : Int) (t : Text) : Option Int := do
  let (hours, r) ← digits? 1 2 t
  if t.length - r.length = 2 && decide (30 ≤ hours) then none
  else if r.isEmpty then some (minutes (sign * hours))
  else
    let (more, r) ← digits? 2 2 (← after? ':' r)
    if r.isEmpty then some (minutes (sign * (hours * 60 + more))) else none

/-- The zone at the end of a timestamp: nothing, the letter for UTC, or an offset. -/
def zone? (t : Text) : Option Int :=
  if t.isEmpty then some 0
  else match t.dropWhile isGap with
    | [] => none
    | c :: r =>
      if c = 'Z' then (if r.isEmpty then some 0 else none)
      else if c = '+' then offset? 1 r
      else if c = '-' then offset? (-1) r
      else none

/-- What follows the fraction of a second, if there is one. -/
def afterFraction? (t : Text) : Option Text :=
  match after? '.' t with
  | none => some t
  | some r =>
    let run := r.takeWhile CodeUnit.isDigit
    if run.isEmpty then none else some (r.drop run.length)

/-- What follows the mark between a date and a time. -/
def afterMark? (t : Text) : Option Text :=
  match t with
  | [] => none
  | c :: r =>
    if c = 't' ∨ c = 'T' then some r
    else if isGap c then some (r.dropWhile isGap)
    else none

/-- The timestamp that a text is. -/
def ofText? (t : Text) : Option Timestamp := do
  let (year, r) ← digits? 4 4 t
  let (month, r) ← digits? 1 2 (← after? '-' r)
  let (day, r) ← digits? 1 2 (← after? '-' r)
  if r.isEmpty then return ⟨year, month, day, 0, 0, 0, 0⟩
  let (hour, r) ← digits? 1 2 (← afterMark? r)
  let (minute, r) ← digits? 1 2 (← after? ':' r)
  let (second, r) ← digits? 1 2 (← after? ':' r)
  return ⟨year, month, day, hour, minute, second, ← zone? (← afterFraction? r)⟩

/-! ### The calendar -/

/-- The number of days from the first of January 1970 to the first of a month, months counted from
zero. -/
def monthStart (year : Int) (month : Nat) : Int :=
  let y : Int := if month < 2 then year - 1 else year
  let era := y.fdiv 400
  let inEra := y - era * 400
  let inYear : Int := (153 * ((month + 10) % 12 : Nat) + 2) / 5
  era * 146097 + inEra * 365 + inEra / 4 - inEra / 100 + inYear - 719468

/-- Years of two digits are those of the last century. -/
def fullYear (year : Nat) : Int := if year < 100 then year + 1900 else year

/-- The seconds from the beginning of 1970 in UTC; months, days and hours beyond their range run
on. -/
def seconds (t : Timestamp) : Int :=
  let months : Int := (t.month : Int) - 1
  let days := monthStart (fullYear t.year + months.fdiv 12) (months.fmod 12).toNat + t.day - 1
  days * 86400 + t.hour * 3600 + t.minute * 60 + t.second - t.ahead * 60

/-- Year, month from zero and day of the month of a number of days from 1970. -/
def civil (days : Int) : Int × Nat × Nat :=
  let z := days + 719468
  let era := z.fdiv 146097
  let inEra := (z - era * 146097).toNat
  let y := (inEra - inEra / 1460 + inEra / 36524 - inEra / 146096) / 365
  let inYear := inEra - (365 * y + y / 4 - y / 100)
  let shifted := (5 * inYear + 2) / 153
  let day := inYear - (153 * shifted + 2) / 5 + 1
  let month := (shifted + 2) % 12
  ((y : Int) + era * 400 + (if month < 2 then 1 else 0), month, day)

/-- The names of the days, from the first of January 1970 on. -/
def dayNames : List Text := ["Thu", "Fri", "Sat", "Sun", "Mon", "Tue", "Wed"]

/-- The names of the months. -/
def monthNames : List Text :=
  ["Jan", "Feb", "Mar", "Apr", "May", "Jun", "Jul", "Aug", "Sep", "Oct", "Nov", "Dec"]

/-- A number with at least so many digits. -/
def padded (width n : Nat) : Text :=
  let ds := Text.ofNat n
  List.replicate (width - ds.length) (CodeUnit.ofBasic '0') ++ ds

/-- A timestamp as a date of UTC. -/
def shown (t : Timestamp) : Text :=
  let s := t.seconds
  let days := s.fdiv 86400
  let time := (s.fmod 86400).toNat
  let (year, month, day) := civil days
  let clock := Text.join ":" [padded 2 (time / 3600), padded 2 (time / 60 % 60), padded 2 (time % 60)]
  Text.join " " [dayNames.getD (days.fmod 7).toNat [], monthNames.getD month [], padded 2 day,
    padded 4 year.toNat, clock, "GMT+0000 (Coordinated Universal Time)"]

end Timestamp
end Yaml
end Scopewright
