import UniformTree.Json.Skip
/-!
# Objects, arrays and single values

The parts of JSON text that a reader of a particular form is put together from. What an array or an
object holds is a parameter; `depth` is how many more brackets may be opened, counted so that the
last one is refused.
-/

namespace UniformTree.Json

/-! ## Separators -/

/-- The next key of an object and the text after it, or the text after the closing brace. -/
def nextKey (first : Bool) (s : List Char) : Except Refusal (Option (List Char) × List Char) :=
  let key (s : List Char) : Except Refusal (Option (List Char) × List Char) :=
    match s with
    | [] => .error .truncated
    | '"' :: r => do
      let (k, r) ← string r
      return (some k, r)
    | _ => .error .malformed
  match skipSpace s with
  | [] => .error .truncated
  | '\x7d' :: r => .ok (none, r)
  | ',' :: r => if first then .error .malformed else key (skipSpace r)
  | r => if first then key r else .error .malformed

/-- Whether an array has one more element, and the text from it on, or from the closing bracket. -/
def nextElement (first : Bool) (s : List Char) : Except Refusal (Bool × List Char) :=
  match skipSpace s with
  | [] => .error .truncated
  | ']' :: r => .ok (false, ']' :: r)
  | ',' :: r =>
    if first then .ok (true, ',' :: r)
    else
      match skipSpace r with
      | [] => .error .truncated
      | ']' :: _ => .error .malformed
      | r => .ok (true, r)
  | r => if first then .ok (true, r) else .error .malformed

/-- The text after the closing bracket of an array. -/
def closeArray (s : List Char) : Except Refusal (List Char) :=
  match skipSpace s with
  | [] => .error .truncated
  | ']' :: r => .ok r
  | _ => .error .malformed

/-! ## Loops -/

/-- The members of an object after its opening brace, each added to what came before it. -/
def members {σ : Type} (member : List Char → σ → Reader σ) (first : Bool) (acc : σ)
    (s : List Char) : Except Refusal (σ × List Char) :=
  match nextKey first s with
  | .error f => .error f
  | .ok (none, r) => .ok (acc, r)
  | .ok (some key, r) =>
    match member key acc r with
    | .error f => .error f
    | .ok (acc, r) =>
      if r.length < s.length then members member false acc r else .error .malformed
termination_by s.length

/-- The elements of an array after its opening bracket, up to the closing one. -/
def elements {α : Type} (element : Reader α) (first : Bool) (s : List Char) :
    Except Refusal (List α × List Char) :=
  match nextElement first s with
  | .error f => .error f
  | .ok (false, r) => do return ([], ← closeArray r)
  | .ok (true, r) =>
    match element r with
    | .error f => .error f
    | .ok (x, r) =>
      if r.length < s.length then do
        let (xs, r) ← elements element false r
        return (x :: xs, r)
      else .error .malformed
termination_by s.length

/-! ## Values -/

/-- The fault of a value that has not the form that was asked for: it is read as far as it takes to
see that it is JSON. -/
def wrongForm (s : List Char) : Refusal :=
  let after (r : Except Refusal (List Char)) : Refusal :=
    match r with
    | .error f => f
    | .ok _ => .mismatch
  match s with
  | 'n' :: r => after (word "ull".toList r)
  | 't' :: r => after (word "rue".toList r)
  | 'f' :: r => after (word "alse".toList r)
  | '"' :: r => after ((string r).map (·.2))
  | '-' :: r => after ((number true r).map (·.2))
  | '[' :: _ | '\x7b' :: _ => .mismatch
  | c :: r => if Text.isDigit c then after ((number false (c :: r)).map (·.2)) else .malformed
  | [] => .truncated

/-- A string. -/
def readString (s : List Char) : Except Refusal (List Char × List Char) :=
  match skipSpace s with
  | '"' :: r => string r
  | r => .error (wrongForm r)

/-- A natural number of 32 bits. -/
def readUInt32 (s : List Char) : Except Refusal (UInt32 × List Char) :=
  match skipSpace s with
  | [] => .error .truncated
  | c :: r =>
    if Text.isDigit c then
      match number false (c :: r) with
      | .error f => .error f
      | .ok (.natural n, r) => if n < UInt32.size then .ok (UInt32.ofNat n, r) else .error .mismatch
      | .ok (.other, _) => .error .mismatch
    else .error (wrongForm (c :: r))

/-- The word `null`. -/
def readNull (s : List Char) : Except Refusal (List Char) :=
  match skipSpace s with
  | 'n' :: r => word "ull".toList r
  | r => .error (wrongForm r)

end UniformTree.Json
