/-!
# Reading bytes as text, whatever they are

Bytes are read as UTF-8. Where they are not UTF-8, each longest run that could still have begun a
character becomes one U+FFFD, and reading goes on after it.
-/

namespace UniformTree.Text

/-- What stands in for bytes that are no character. -/
def replacement : Char := '\uFFFD'

/-- A byte that continues a character. -/
def isContinuation (b : UInt8) : Bool := 0x80 ≤ b && b ≤ 0xBF

/-- How many bytes follow a leading byte and what the first of them may be; a byte that leads no
sequence gives `none`. The bounds leave out overlong forms, surrogates and values past U+10FFFF. -/
def leading (b : UInt8) : Option (Nat × UInt8 × UInt8) :=
  if 0xC2 ≤ b && b ≤ 0xDF then some (1, 0x80, 0xBF)
  else if b == 0xE0 then some (2, 0xA0, 0xBF)
  else if b == 0xED then some (2, 0x80, 0x9F)
  else if 0xE1 ≤ b && b ≤ 0xEF then some (2, 0x80, 0xBF)
  else if b == 0xF0 then some (3, 0x90, 0xBF)
  else if 0xF1 ≤ b && b ≤ 0xF3 then some (3, 0x80, 0xBF)
  else if b == 0xF4 then some (3, 0x80, 0x8F)
  else none

/-- The payload of a continuation byte. -/
def low (b : UInt8) : Nat := b.toNat % 0x40

/-- The characters of a byte string, with U+FFFD where there is none. -/
def decodeLossy : List UInt8 → List Char
  | [] => []
  | b :: r =>
    if b < 0x80 then Char.ofNat b.toNat :: decodeLossy r
    else match leading b, r with
      | some (len, lo, hi), c :: r =>
        if c < lo || hi < c then replacement :: decodeLossy (c :: r)
        else if len == 1 then Char.ofNat (b.toNat % 0x20 * 0x40 + low c) :: decodeLossy r
        else match r with
          | d :: r =>
            if !isContinuation d then replacement :: decodeLossy (d :: r)
            else if len == 2 then
              Char.ofNat ((b.toNat % 0x10 * 0x40 + low c) * 0x40 + low d) :: decodeLossy r
            else match r with
              | e :: r =>
                if !isContinuation e then replacement :: decodeLossy (e :: r)
                else Char.ofNat (((b.toNat % 0x08 * 0x40 + low c) * 0x40 + low d) * 0x40 + low e)
                  :: decodeLossy r
              | [] => [replacement]
          | [] => [replacement]
      | some _, [] => [replacement]
      | none, r => replacement :: decodeLossy r

/-- The text of a byte string, with U+FFFD where it is not UTF-8. -/
def ofBytesLossy (bytes : List UInt8) : String := String.ofList (decodeLossy bytes)

/-- The text of a byte string that is UTF-8. -/
def ofBytes? (bytes : List UInt8) : Option String := String.fromUTF8? ⟨bytes.toArray⟩

end UniformTree.Text
