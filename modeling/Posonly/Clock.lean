import Posonly.Text.Basic

/-!
# Times

A time is a number of milliseconds since the start of the year 1970. It is written as a date and a
time of day in the calendar that has a leap day every fourth year, but for the full centuries that
400 does not divide.
-/

namespace Posonly.Clock

structure Date where
  year : Nat
  month : Nat
  day : Nat
deriving DecidableEq, Repr

def isLeap (year : Nat) : Bool := year % 4 == 0 && (year % 100 != 0 || year % 400 == 0)

def yearLength (year : Nat) : Nat := if isLeap year then 366 else 365

def monthLengths (year : Nat) : List Nat :=
  [31, if isLeap year then 29 else 28, 31, 30, 31, 30, 31, 31, 30, 31, 30, 31]

/-- The month and day that lie so many days after the first day of a month. -/
def dateIn (year month days : Nat) : List Nat → Date
  | [] => ⟨year, month, days + 1⟩
  | length :: rest =>
    if days < length then ⟨year, month, days + 1⟩ else dateIn year (month + 1) (days - length) rest

/-- The date that lies so many days after the first day of a year. No year has fewer than 365 days,
so the days are years enough to look through. -/
def dateAfter : Nat → Nat → Nat → Date
  | 0, year, days => dateIn year 1 days (monthLengths year)
  | fuel + 1, year, days =>
    if days < yearLength year then dateIn year 1 days (monthLengths year)
    else dateAfter fuel (year + 1) (days - yearLength year)

/-- A number in so many digits at least. -/
def padded (digits n : Nat) : Text :=
  let t := Text.ofNat n
  List.replicate (digits - t.length) 0x30 ++ t

def text (milliseconds : Nat) : Text :=
  let seconds := milliseconds / 1000
  let days := seconds / 86400
  let date := dateAfter days 1970 days
  padded 4 date.year ++ "-" ++ padded 2 date.month ++ "-" ++ padded 2 date.day ++ "T" ++
    padded 2 (seconds / 3600 % 24) ++ ":" ++ padded 2 (seconds / 60 % 60) ++ ":" ++
    padded 2 (seconds % 60) ++ "." ++ padded 3 (milliseconds % 1000) ++ "Z"

end Posonly.Clock
