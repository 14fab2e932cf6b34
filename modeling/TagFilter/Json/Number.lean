import TagFilter.Decimal.Literal
import TagFilter.Json.Value

/-! # Numbers in JSON

A natural number is written with digits alone. A real number is read from as
many leading digits as fit sixty-four bits, rounded to a double, and scaled by
one power of ten, so its last bit need not be the nearest one. A number past the
largest double is refused.
-/
namespace TagFilter.Json

/-- The first number that does not fit sixty-four bits. -/
def wordLimit : Nat := 0x10000000000000000

/-- A natural number below a limit. -/
def natural? (limit : Nat) (literal : List Char) : Option Nat :=
  if literal ≠ [] ∧ literal.all Decimal.isDigit then
    let value := Decimal.natOfDigits literal
    if value < limit then some value else none
  else none

/-- Digits gathered so far, and the power of ten they are to be scaled by. -/
structure Significand where
  value : Nat
  exponent : Int
  deriving DecidableEq, Repr

namespace Significand

/-- Digits before the point: once one does not fit, the others only scale. -/
def addWhole (s : Significand) : List Char → Significand
  | [] => s
  | digit :: rest =>
    let value := 10 * s.value + (digit.toNat - 48)
    if value < wordLimit then addWhole ⟨value, s.exponent⟩ rest
    else ⟨s.value, s.exponent + (rest.length + 1 : Nat)⟩

/-- Digits after the point: once one does not fit, the others are dropped. -/
def addPart (s : Significand) : List Char → Significand
  | [] => s
  | digit :: rest =>
    let value := 10 * s.value + (digit.toNat - 48)
    if value < wordLimit then addPart ⟨value, s.exponent - 1⟩ rest else s

end Significand

def powerOfTen (exponent : Nat) : Float := Float.ofScientific 1 false exponent

/-- Scales by a power of ten, in steps that a double can hold. Two steps down
turn every number into zero. -/
def scale? (value : Float) (exponent : Int) : Nat → Option Float
  | 0 => some value
  | steps + 1 =>
    if exponent.natAbs ≤ 308 then
      if 0 ≤ exponent then
        let scaled := value * powerOfTen exponent.natAbs
        if scaled.isInf then none else some scaled
      else some (value / powerOfTen exponent.natAbs)
    else if value == 0 then some value
    else if 0 ≤ exponent then none
    else scale? (value / powerOfTen 308) (exponent + 308) steps

/-- The largest exponent that is counted; beyond it only its sign matters. -/
def exponentLimit : Nat := 0x80000000

/-- A literal without its sign. -/
def unsignedReal? (literal : List Char) : Option Float :=
  let whole := literal.takeWhile Decimal.isDigit
  let rest := literal.dropWhile Decimal.isDigit
  let (part, rest) := match rest with
    | '.' :: tail => (tail.takeWhile Decimal.isDigit, tail.dropWhile Decimal.isDigit)
    | tail => ([], tail)
  let significand := (Significand.addWhole ⟨0, 0⟩ whole).addPart part
  let (negative, digits) := Decimal.splitSign (rest.drop 1)
  let exponent := Decimal.natOfDigits digits
  let value := Float.ofNat significand.value
  if exponentLimit ≤ exponent then
    if significand.value ≠ 0 ∧ !negative then none else some 0
  else
    scale? value (significand.exponent + if negative then -(exponent : Int) else exponent) 4

def real? (literal : List Char) : Option Float :=
  match literal with
  | '-' :: unsigned => (unsignedReal? unsigned).map fun value => -value
  | unsigned => unsignedReal? unsigned

end TagFilter.Json
