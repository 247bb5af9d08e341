import UniformTree.Text.Binary64
import UniformTree.Text.Decimal
import UniformTree.Text.Hex
import UniformTree.Toml.Scan
import UniformTree.Toml.Table
/-!
# Numbers in TOML text

Integers of 64 bits and floats. Single underscores may stand between digits.
-/

namespace UniformTree.Toml

open Text (isDigit valueOf)

/-- Digits after a digit, without the underscores between them. -/
def moreDigits (ok : Char → Bool) : Reader (List Char)
  | [] => some ([], [])
  | ['_'] => none
  | '_' :: c :: s => if ok c then (moreDigits ok s).map fun (ds, r) => (c :: ds, r) else none
  | c :: s =>
    if ok c then (moreDigits ok s).map fun (ds, r) => (c :: ds, r) else some ([], c :: s)

/-- Digits, at least one. -/
def someDigits (ok : Char → Bool) : Reader (List Char)
  | c :: s => if ok c then (moreDigits ok s).map fun (ds, r) => (c :: ds, r) else none
  | [] => none

/-- Decimal digits that do not begin with a zero, unless it is the only one. -/
def wholeDigits : Reader (List Char)
  | '0' :: s => some (['0'], s)
  | s => someDigits isDigit s

/-- Integers reach from the negative of this number up to it, without it. -/
def integerLimit : Nat := UInt64.size / 2

/-- The integer of a sign and a size, if it is in range. -/
def integer? (negative : Bool) (size : Nat) : Option Value :=
  if negative then (if size ≤ integerLimit then some (.integer (-size)) else none)
  else if size < integerLimit then some (.integer size)
  else none

/-- A float. It must not be too great; it may be too small, below zero too. -/
def float? (negative : Bool) (digits : List Char) (exponent : Int) : Option Value :=
  if !negative && Text.overflows (valueOf digits) exponent then none else some .float

/-- The exponent of a float after its letter. -/
def exponent? (s : List Char) : Option (Int × List Char) :=
  match s with
  | '-' :: r => (someDigits isDigit r).map fun (ds, r) => (-(valueOf ds : Int), r)
  | '+' :: r => (someDigits isDigit r).map fun (ds, r) => ((valueOf ds : Int), r)
  | r => (someDigits isDigit r).map fun (ds, r) => ((valueOf ds : Int), r)

/-- The exponent of a float, zero if there is none. -/
def exponentOrZero? : Reader Int
  | 'e' :: s | 'E' :: s => exponent? s
  | s => some (0, s)

/-- A decimal number after its sign. -/
def decimal? (negative : Bool) (s : List Char) : Option (Value × List Char) := do
  let (whole, r) ← wholeDigits s
  match r with
  | '.' :: r =>
    let (fraction, r) ← someDigits isDigit r
    let (exponent, r) ← exponentOrZero? r
    return (← float? negative (whole ++ fraction) (exponent - fraction.length), r)
  | 'e' :: _ | 'E' :: _ =>
    let (exponent, r) ← exponentOrZero? r
    return (← float? negative whole exponent, r)
  | r => return (← integer? negative (valueOf whole), r)

/-- The number that digits to a base denote. -/
def valueIn (base : Nat) (digits : List Char) : Nat :=
  digits.foldl (fun n d => n * base + (Text.hexValue? d).getD 0) 0

/-- A digit to a base of at most sixteen. -/
def isDigitIn (base : Nat) (c : Char) : Bool := (Text.hexValue? c).any (· < base)

/-- An integer to a base, after the letter of its base. -/
def radix? (base : Nat) (s : List Char) : Option (Value × List Char) := do
  let (digits, r) ← someDigits (isDigitIn base) s
  return (← integer? false (valueIn base digits), r)

/-- A number after its sign: a decimal one, or one of those that have no digits. -/
def signed? (negative : Bool) (s : List Char) : Option (Value × List Char) :=
  match s with
  | 'i' :: r => (word? "nf".toList r).map (.float, ·)
  | 'n' :: r => (word? "an".toList r).map (.float, ·)
  | r => decimal? negative r

/-- A number. -/
def number? : Reader Value
  | '+' :: s => signed? false s
  | '-' :: s => signed? true s
  | '0' :: 'x' :: s => radix? 16 s
  | '0' :: 'o' :: s => radix? 8 s
  | '0' :: 'b' :: s => radix? 2 s
  | s => signed? false s

end UniformTree.Toml
