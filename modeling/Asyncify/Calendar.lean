import Asyncify.Text.Quoted

/-! Days and times of day. -/
namespace Asyncify

def isLeapYear (year : Nat) : Bool := year % 4 = 0 && (year % 100 ≠ 0 || year % 400 = 0)

/-- The lengths of the months of a year. -/
def monthLengths (year : Nat) : List Nat :=
  [31, if isLeapYear year then 29 else 28, 31, 30, 31, 30, 31, 31, 30, 31, 30, 31]

/-- A day of the calendar. -/
structure Day where
  year : Nat
  month : Nat
  day : Nat
  year_le : 1 ≤ year ∧ year ≤ 9999
  month_le : 1 ≤ month ∧ month ≤ 12
  day_le : 1 ≤ day ∧ day ≤ (monthLengths year).getD (month - 1) 0
  deriving DecidableEq

namespace Day

/-- The day with these numbers, if there is one. -/
def of? (year month day : Nat) : Option Day :=
  if h : (1 ≤ year ∧ year ≤ 9999) ∧ (1 ≤ month ∧ month ≤ 12) ∧
      1 ≤ day ∧ day ≤ (monthLengths year).getD (month - 1) 0 then
    some ⟨year, month, day, h.1, h.2.1, h.2.2⟩
  else none

/-- Days are counted from the first day of year one. -/
def number (d : Day) : Nat :=
  let years := d.year - 1
  365 * years + years / 4 - years / 100 + years / 400 +
    ((monthLengths d.year).take (d.month - 1)).foldl (· + ·) 0 + d.day

example : (of? 2020 1 2).map number = some 737426 ∧ of? 2019 2 29 = none := by decide

def text (d : Day) : String :=
  String.ofList (Text.digits 10 4 d.year ++ '-' :: Text.digits 10 2 d.month ++
    '-' :: Text.digits 10 2 d.day)

end Day

/-- A time of a day. `ahead` is by how many minutes its clock is ahead of universal time, where that
is known. -/
structure Moment where
  day : Day
  hour : Nat
  minute : Nat
  second : Nat
  micro : Nat
  ahead : Option Int
  time_lt : hour < 24 ∧ minute < 60 ∧ second < 60 ∧ micro < 1000000
  ahead_lt : ∀ a ∈ ahead, -1440 < a ∧ a < 1440

namespace Moment

/-- The moment with these numbers, if there is one. -/
def of? (day : Day) (hour minute second micro : Nat) (ahead : Option Int) : Option Moment :=
  if h : (hour < 24 ∧ minute < 60 ∧ second < 60 ∧ micro < 1000000) ∧
      ∀ a ∈ ahead, -1440 < a ∧ a < 1440 then
    some ⟨day, hour, minute, second, micro, ahead, h.1, h.2⟩
  else none

/-- Microseconds are counted in universal time, or on the moment's own clock if it is not known by
how much that is ahead. -/
def count (m : Moment) : Int :=
  let minutes : Int := (m.day.number * 24 + m.hour) * 60 + m.minute - m.ahead.getD 0
  (minutes * 60 + m.second) * 1000000 + m.micro

def aheadText (minutes : Int) : List Char :=
  (if minutes < 0 then '-' else '+') :: Text.digits 10 2 (minutes.natAbs / 60) ++
    ':' :: Text.digits 10 2 (minutes.natAbs % 60)

def text (m : Moment) : String :=
  m.day.text ++ String.ofList
    (' ' :: Text.digits 10 2 m.hour ++ ':' :: Text.digits 10 2 m.minute ++
      ':' :: Text.digits 10 2 m.second ++
      (if m.micro = 0 then [] else '.' :: Text.digits 10 6 m.micro) ++
      (m.ahead.map aheadText).getD [])

end Moment
end Asyncify
