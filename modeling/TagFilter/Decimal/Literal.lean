import TagFilter.Weight

/-! # Reading numbers

A numeral has an optional sign, digits with an optional point, at least one
digit on either side of it, and an optional exponent. In any letter case the
words `inf`, `infinity` and `nan` stand for themselves. The value is the double
nearest to the numeral, and a tie goes to the even one.
-/
namespace TagFilter.Decimal

inductive LiteralFault where
  | empty
  | malformed
  deriving DecidableEq, Repr

def LiteralFault.message : LiteralFault → String
  | .empty => "cannot parse float from empty string"
  | .malformed => "invalid float literal"

def isDigit (c : Char) : Bool := '0' ≤ c && c ≤ '9'

def natOfDigits (digits : List Char) : Nat :=
  digits.foldl (fun value c => 10 * value + (c.toNat - 48)) 0

/-- An optional sign, and what follows it. -/
def splitSign : List Char → Bool × List Char
  | '-' :: rest => (true, rest)
  | '+' :: rest => (false, rest)
  | text => (false, text)

/-- The exponent that ends a numeral, zero when there is none. -/
def exponent? : List Char → Option Int
  | [] => some 0
  | mark :: rest =>
    let (negative, digits) := splitSign rest
    if (mark = 'e' ∨ mark = 'E') ∧ digits ≠ [] ∧ digits.all isDigit then
      some (if negative then -(natOfDigits digits : Int) else natOfDigits digits)
    else none

/-- The double nearest to `digits * 10 ^ exponent`. Past the ends of the range
the result does not depend on how large the exponent is. -/
def nearest (digits : Nat) (exponent : Int) : Weight :=
  let leading : Int := (Nat.toDigits 10 digits).length + exponent
  if digits = 0 ∨ leading < -400 then Weight.zero
  else if 400 < leading then Weight.infinity
  else Weight.ofFloat (Float.ofScientific digits (exponent < 0) exponent.natAbs)

def ofNumeral? (text : List Char) : Option Weight :=
  let whole := text.takeWhile isDigit
  let afterWhole := text.dropWhile isDigit
  let (part, rest) := match afterWhole with
    | '.' :: tail => (tail.takeWhile isDigit, tail.dropWhile isDigit)
    | tail => ([], tail)
  if whole = [] ∧ part = [] then none
  else (exponent? rest).map fun exponent =>
    nearest (natOfDigits (whole ++ part)) (exponent - part.length)

def ofWord? (text : List Char) : Option Weight :=
  let word := text.map Char.toLower
  if word = ['i', 'n', 'f'] ∨ word = ['i', 'n', 'f', 'i', 'n', 'i', 't', 'y'] then
    some Weight.infinity
  else if word = ['n', 'a', 'n'] then some ⟨0x7FF8000000000000⟩
  else none

def readLiteral (text : List Char) : Except LiteralFault Weight :=
  if text = [] then .error .empty
  else
    let (negative, unsigned) := splitSign text
    match ofWord? unsigned <|> ofNumeral? unsigned with
    | some value => .ok (if negative then value.negate else value)
    | none => .error .malformed

end TagFilter.Decimal
