import TagFilter.Decimal.Shortest

/-! # Numbers as text

A finite number is written with its shortest digits: positionally, with at least
one digit after the point, as long as its leading digit stands between the fifth
place after the point and the sixteenth before it, and with a signed exponent
otherwise.
-/
namespace TagFilter.Decimal

/-- The range of exponents of the leading digit that are written positionally. -/
structure NumberStyle where
  least : Int
  greatest : Int

def reportStyle : NumberStyle := ⟨-5, 15⟩

def zeros (count : Nat) : List Char := List.replicate count '0'

def positional (digits : List Char) (exponent : Int) : List Char :=
  let leading : Int := digits.length + exponent
  if 0 ≤ exponent then digits ++ zeros exponent.toNat ++ ['.', '0']
  else if 0 < leading then digits.take leading.toNat ++ ['.'] ++ digits.drop leading.toNat
  else ['0', '.'] ++ zeros (-leading).toNat ++ digits

def exponential (digits : List Char) (leading : Int) : List Char :=
  let mantissa := match digits with
    | first :: second :: rest => first :: '.' :: second :: rest
    | single => single
  let sign := if leading < 0 then '-' else '+'
  mantissa ++ ['e', sign] ++ Nat.toDigits 10 leading.natAbs

/-- The text of a finite weight. -/
def render (style : NumberStyle) (w : Weight) : List Char :=
  let sign := if w.isNegative then ['-'] else []
  if w.units = 0 then sign ++ ['0', '.', '0']
  else
    let s := shortest w
    let digits := Nat.toDigits 10 s.digits
    let leading : Int := digits.length + s.exponent - 1
    sign ++ if style.least ≤ leading ∧ leading ≤ style.greatest then
      positional digits s.exponent else exponential digits leading

end TagFilter.Decimal
