import UniformTree.Text.Decimal
import UniformTree.Toml.Scan
/-!
# Dates and times in TOML text

A date, a time, or both with a letter or a space between them; a time after a date may have an
offset. They must exist in the calendar and on the clock, where a minute may have 61 seconds.
-/

namespace UniformTree.Toml

open Text (isDigit valueOf)

/-- Two digits whose value lies in a range, and the text after them. -/
def twoDigits (least greatest : Nat) : Reader Nat
  | a :: b :: s =>
    let n := valueOf [a, b]
    if isDigit a && isDigit b && least ≤ n && n ≤ greatest then some (n, s) else none
  | _ => none

/-- A year with a leap day. -/
def isLeap (year : Nat) : Bool := year % 4 == 0 && (year % 100 != 0 || year % 400 == 0)

/-- The number of days of a month. -/
def daysIn (year month : Nat) : Nat :=
  if month = 2 then (if isLeap year then 29 else 28)
  else if month = 4 ∨ month = 6 ∨ month = 9 ∨ month = 11 then 30
  else 31

/-- A date stands here, or something that can only be a wrong one. -/
def beginsDate : List Char → Bool
  | a :: b :: c :: d :: '-' :: _ => [a, b, c, d].all isDigit
  | _ => false

/-- A time stands here, or something that can only be a wrong one. -/
def beginsTime : List Char → Bool
  | a :: b :: ':' :: _ => isDigit a && isDigit b
  | _ => false

/-- The text after a date. -/
def date? (s : List Char) : Option (List Char) :=
  match twoDigits 1 12 (s.drop 5) with
  | some (month, '-' :: r) =>
    (twoDigits 1 (daysIn (valueOf (s.take 4)) month) r).map (·.2)
  | _ => none

/-- The text after the fraction of a second, if one stands here. -/
def skipFraction : List Char → List Char
  | '.' :: c :: s => if isDigit c then s.dropWhile isDigit else '.' :: c :: s
  | s => s

/-- The text after a time. -/
def time? (s : List Char) : Option (List Char) :=
  match twoDigits 0 23 s with
  | some (_, ':' :: r) =>
    match twoDigits 0 59 r with
    | some (_, ':' :: r) => (twoDigits 0 60 r).map fun second => skipFraction second.2
    | _ => none
  | _ => none

/-- The text after an offset, if one stands here. -/
def offset? : List Char → Option (List Char)
  | 'Z' :: s | 'z' :: s => some s
  | '+' :: s | '-' :: s =>
    match twoDigits 0 23 s with
    | some (_, ':' :: r) => (twoDigits 0 59 r).map (·.2)
    | _ => none
  | s => some s

/-- What may stand between a date and a time. -/
def isBetween (c : Char) : Bool := c == 'T' || c == 't' || c == ' '

/-- The text after the time of a date, if it has one. -/
def timeOfDate? : List Char → Option (List Char)
  | c :: s => if isBetween c && beginsTime s then (time? s).bind offset? else some (c :: s)
  | [] => some []

/-- The text after a date, a time or both. -/
def moment? (s : List Char) : Option (List Char) :=
  if beginsDate s then (date? s).bind timeOfDate? else time? s

end UniformTree.Toml
