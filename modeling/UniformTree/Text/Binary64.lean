/-!
# The range of binary64

Whether a number still has a finite binary64 value. Numbers are taken exactly; only what has been
rounded on the way is rounded here too.
-/

namespace UniformTree.Text

/-- From here on the nearest binary64 value is infinite: halfway between the greatest finite one
and the next power of two. -/
def binary64Limit : Nat := Nat.pow 2 1024 - Nat.pow 2 970

/-- A number rounded to 53 binary digits, a half to the even neighbour. -/
def round53 (n : Nat) : Nat :=
  let drop := n.log2 + 1 - 53
  let unit := Nat.pow 2 drop
  let low := n / unit
  let rest := n % unit
  if 2 * rest < unit || (2 * rest == unit && low % 2 == 0) then low * unit else (low + 1) * unit

/-- The number `significand * 10 ^ exponent` has no finite value nearest to it. -/
def overflows (significand : Nat) (exponent : Int) : Bool :=
  if significand = 0 then false
  else
    let places := significand.log2 / 3 + 1
    match exponent with
    | .ofNat e => if 400 < e then true else binary64Limit ≤ significand * Nat.pow 10 e
    | .negSucc e =>
      if places < e then false else binary64Limit * Nat.pow 10 (e + 1) ≤ significand

/-- The product of a significand of 64 bits and a power of ten is infinite when both are rounded
first and the product is rounded again. -/
def productOverflows (significand : Nat) (exponent : Int) : Bool :=
  match exponent with
  | .ofNat e =>
    if significand = 0 then false
    else if 308 < e then true
    else binary64Limit ≤ round53 significand * round53 (Nat.pow 10 e)
  | .negSucc _ => false

end UniformTree.Text
