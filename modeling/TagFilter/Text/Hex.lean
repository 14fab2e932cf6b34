import TagFilter.Text.Quoted

/-! # Hexadecimal bytes

Bytes are written as two lower-case digits each. Reading takes digits of either
case. An odd number of digits is refused before any digit is looked at, and
otherwise the first byte that is no digit is named with its position.
-/
namespace TagFilter.Text

inductive HexError where
  | oddLength
  | badDigit (byte : UInt8) (position : Nat)
  deriving DecidableEq, Repr

/-- A bad digit is shown as the character whose code point the byte is. -/
def HexError.message : HexError → String
  | .oddLength => "Odd number of digits"
  | .badDigit byte position =>
    "Invalid character " ++ Quoted.char (Char.ofNat byte.toNat) ++ " at position " ++
      toString position

namespace Hex

def digitValue? (byte : UInt8) : Option UInt8 :=
  if 48 ≤ byte ∧ byte ≤ 57 then some (byte - 48)
  else if 97 ≤ byte ∧ byte ≤ 102 then some (byte - 87)
  else if 65 ≤ byte ∧ byte ≤ 70 then some (byte - 55)
  else none

def digitAt (byte : UInt8) (position : Nat) : Except HexError UInt8 :=
  match digitValue? byte with
  | some value => .ok value
  | none => .error (.badDigit byte position)

def decodeFrom (position : Nat) : List UInt8 → Except HexError (List UInt8)
  | high :: low :: rest => do
    let h ← digitAt high position
    let l ← digitAt low (position + 1)
    let bytes ← decodeFrom (position + 2) rest
    return (h <<< 4 ||| l) :: bytes
  | _ => .ok []

def decode (digits : List UInt8) : Except HexError (List UInt8) :=
  if digits.length % 2 = 1 then .error .oddLength else decodeFrom 0 digits

def digit (value : UInt8) : Char :=
  if value < 10 then Char.ofNat (48 + value.toNat) else Char.ofNat (87 + value.toNat)

def encode (bytes : List UInt8) : List Char :=
  bytes.flatMap fun (byte : UInt8) => [digit (byte >>> 4), digit (byte &&& 15)]

end Hex
end TagFilter.Text
