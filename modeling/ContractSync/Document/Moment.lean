import ContractSync.Decimal.Shortest

/-!
# Dates and times of day

A moment is a calendar day, or a day with a time and perhaps an offset from universal time. `iso`
writes it with a `T` between day and time, `spaced` with a blank.
-/

namespace ContractSync.Document

open ContractSync.Decimal (padded)

/-- A calendar day. -/
structure Day where
  year : Nat
  month : Nat
  day : Nat
  deriving DecidableEq, Repr

/-- A time of day; `offset` is the distance from universal time in seconds. -/
structure Clock where
  hour : Nat
  minute : Nat
  second : Nat
  micro : Nat
  offset : Option Int
  deriving DecidableEq, Repr

/-- A day, or a day with a time. -/
structure Moment where
  day : Day
  clock : Option Clock
  deriving DecidableEq, Repr

namespace Day

/-- The day as `YYYY-MM-DD`. -/
def iso (d : Day) : String := s!"{padded 4 d.year}-{padded 2 d.month}-{padded 2 d.day}"

/-- The year has a leap day. -/
def isLeap (year : Nat) : Bool := year % 4 == 0 && (year % 100 != 0 || year % 400 == 0)

/-- The number of days of a month. -/
def monthLength (year month : Nat) : Nat :=
  if month = 2 then if isLeap year then 29 else 28
  else if month = 4 ∨ month = 6 ∨ month = 9 ∨ month = 11 then 30
  else 31

/-- The day exists in the calendar. -/
def isValid (d : Day) : Bool :=
  1 ≤ d.year && d.year ≤ 9999 && 1 ≤ d.month && d.month ≤ 12 && 1 ≤ d.day
    && d.day ≤ monthLength d.year d.month

end Day

namespace Clock

/-- An offset as `+HH:MM`, with seconds if there are any. -/
def offsetText (offset : Int) : String :=
  let size := offset.natAbs
  let seconds := if size % 60 = 0 then "" else ":" ++ padded 2 (size % 60)
  (if offset < 0 then "-" else "+") ++ padded 2 (size / 3600) ++ ":"
    ++ padded 2 (size / 60 % 60) ++ seconds

/-- The time as `HH:MM:SS`, with six places and the offset where present. -/
def iso (c : Clock) : String :=
  let micro := if c.micro = 0 then "" else "." ++ padded 6 c.micro
  s!"{padded 2 c.hour}:{padded 2 c.minute}:{padded 2 c.second}" ++ micro
    ++ (c.offset.map offsetText).getD ""

/-- The time exists on a clock. -/
def isValid (c : Clock) : Bool := c.hour < 24 && c.minute < 60 && c.second < 60

end Clock

namespace Moment

/-- The moment with `sep` between day and time. -/
def written (m : Moment) (sep : String) : String :=
  match m.clock with
  | none => m.day.iso
  | some clock => m.day.iso ++ sep ++ clock.iso

/-- The moment with a `T` between day and time. -/
def iso (m : Moment) : String := m.written "T"

/-- The moment with a blank between day and time. -/
def spaced (m : Moment) : String := m.written " "

/-- The constructor form of an offset, as nested values show it. -/
def offsetLiteral (offset : Int) : String :=
  if offset = 0 then "datetime.timezone.utc"
  else
    let days := Int.fdiv offset 86400
    let seconds := offset - days * 86400
    let parts := (if days = 0 then [] else [s!"days={days}"])
      ++ (if seconds = 0 then [] else [s!"seconds={seconds}"])
    "datetime.timezone(datetime.timedelta(" ++ ", ".intercalate parts ++ "))"

/-- The constructor form of a moment, as nested values show it. -/
def literal (m : Moment) : String :=
  let day := s!"{m.day.year}, {m.day.month}, {m.day.day}"
  match m.clock with
  | none => s!"datetime.date({day})"
  | some c =>
    let tail := if c.micro ≠ 0 then s!", {c.second}, {c.micro}"
      else if c.second ≠ 0 then s!", {c.second}" else ""
    let zone := (c.offset.map fun o => ", tzinfo=" ++ offsetLiteral o).getD ""
    s!"datetime.datetime({day}, {c.hour}, {c.minute}" ++ tail ++ zone ++ ")"

/-- Seconds since the start of the calendar's era, used to compare moments with offsets. -/
def instant (day : Day) (clock : Clock) : Int :=
  let months := (List.range (day.month - 1)).map fun m => Day.monthLength day.year (m + 1)
  let years := day.year - 1
  let days := years * 365 + years / 4 - years / 100 + years / 400 + months.foldr (· + ·) 0 + day.day
  ((days * 86400 + clock.hour * 3600 + clock.minute * 60 + clock.second : Nat) : Int)
    - clock.offset.getD 0

/-- The two denote the same day, or the same point in time. -/
def same (a b : Moment) : Bool :=
  match a.clock, b.clock with
  | none, none => a.day == b.day
  | some c, some d =>
    c.offset.isSome == d.offset.isSome && instant a.day c == instant b.day d
      && c.micro == d.micro
  | _, _ => false

end Moment

end ContractSync.Document
