/-!
# EvmToolchain.Calendar

Calendar days and moments of a day, as far as settings may hold them. A moment
may tell how far its clock is ahead of universal time; only moments that both
tell it, or both do not, can be compared.
-/

namespace EvmToolchain

/-- A day of the calendar. -/
structure Day where
  year : Nat
  month : Nat
  day : Nat
  deriving Repr, DecidableEq

namespace Day

/-- Whether a year has a day more than others. -/
def isLeap (year : Nat) : Bool := year % 4 == 0 && (year % 100 != 0 || year % 400 == 0)

/-- The number of days of a month. -/
def monthLength (year month : Nat) : Nat :=
  match month with
  | 2 => if isLeap year then 29 else 28
  | 4 | 6 | 9 | 11 => 30
  | _ => 31

/-- Whether the calendar has the day. Years have at most four digits. -/
def isValid (d : Day) : Bool :=
  1 ≤ d.year && d.year ≤ 9999 && 1 ≤ d.month && d.month ≤ 12 && 1 ≤ d.day
    && d.day ≤ monthLength d.year d.month

/-- The number of days from the start of the calendar to a day. -/
def ordinal (d : Day) : Nat :=
  let y := d.year - 1
  let months := (List.range (d.month - 1)).map fun m => monthLength d.year (m + 1)
  365 * y + y / 4 - y / 100 + y / 400 + months.foldl (· + ·) 0 + d.day

instance : ToString Day where
  toString d :=
    "datetime.date(" ++ ", ".intercalate ([d.year, d.month, d.day].map toString) ++ ")"

end Day

/-- A time of a day. -/
structure Moment where
  day : Day
  hour : Nat
  minute : Nat
  second : Nat
  microsecond : Nat
  /-- How many minutes the clock is ahead of universal time. -/
  ahead : Option Int
  deriving Repr, DecidableEq

namespace Moment

/-- Whether there is such a day and such a time of it. A clock is less than a
day ahead or behind. -/
def isValid (m : Moment) : Bool :=
  m.day.isValid && m.hour < 24 && m.minute < 60 && m.second < 60
    && m.ahead.all fun a => a.natAbs < 24 * 60

/-- The number of microseconds from the start of the calendar to a moment. -/
def instant (m : Moment) : Int :=
  let minutes : Int := ((m.day.ordinal * 24 + m.hour) * 60 + m.minute : Nat) - m.ahead.getD 0
  (minutes * 60 + m.second) * 1000000 + m.microsecond

/-- Whether two moments can be compared. -/
def isComparable (a b : Moment) : Bool := a.ahead.isSome == b.ahead.isSome

/-- The text of how far a clock is ahead. -/
def aheadText (minutes : Int) : String :=
  if minutes = 0 then "datetime.timezone.utc"
  else
    let seconds := toString (Int.fmod minutes (24 * 60) * 60)
    let parts := if minutes < 0 then "days=-1, seconds=" ++ seconds else "seconds=" ++ seconds
    "datetime.timezone(datetime.timedelta(" ++ parts ++ "))"

/-- The numbers of a moment. Seconds and microseconds are left out if they are
zero. -/
def numbers (m : Moment) : List Nat :=
  [m.day.year, m.day.month, m.day.day, m.hour, m.minute]
    ++ (if m.microsecond ≠ 0 then [m.second, m.microsecond]
      else if m.second ≠ 0 then [m.second] else [])

instance : ToString Moment where
  toString m :=
    "datetime.datetime(" ++ ", ".intercalate (m.numbers.map toString)
      ++ (match m.ahead with
        | some minutes => ", tzinfo=" ++ aheadText minutes
        | none => "")
      ++ ")"

end Moment

end EvmToolchain
