import TagFilter.Weight

/-! # Shortest decimals

The decimal with the fewest digits that still reads back as a given finite,
non-zero weight; of several with that many digits the nearest, and of two
equally near ones the one with an even last digit. All comparisons are made
between whole numbers: the weight is `units * 2 ^ -1074`.
-/
namespace TagFilter.Decimal

def tenTo (power : Nat) : Nat := Nat.pow 10 power

/-- The number one in quarter units. -/
def quarterUnits : Nat := 1 <<< 1076

/-- The number `digits * 10 ^ exponent`. -/
structure Scaled where
  digits : Nat
  exponent : Int
  deriving DecidableEq, Repr

/-- A weight and its rounding interval, in quarter units: everything from
`value - below` to `value + above` reads back as the weight, the ends included
when `closed`. -/
structure Interval where
  value : Nat
  below : Nat
  above : Nat
  closed : Bool
  deriving Repr

def Interval.of (w : Weight) : Interval where
  value := 4 * w.units
  below := if w.fraction = 0 ∧ 1 < w.exponent then 1 <<< (w.exponent - 1) else
    2 <<< (w.exponent - 1)
  above := 2 <<< (w.exponent - 1)
  closed := w.fraction % 2 = 0

/-- Whether `digits * 10 ^ exponent` lies in the interval. -/
def Interval.contains (i : Interval) (s : Scaled) : Bool :=
  let grid := s.digits * tenTo s.exponent.toNat * quarterUnits
  let scale := tenTo (-s.exponent).toNat
  let low := (i.value - i.below) * scale
  let high := (i.value + i.above) * scale
  if i.closed then low ≤ grid && grid ≤ high else low < grid && grid < high

/-- The distance of `digits * 10 ^ exponent` from the value, for comparing
decimals of one exponent. -/
def Interval.distance (i : Interval) (s : Scaled) : Nat :=
  let grid := s.digits * tenTo s.exponent.toNat * quarterUnits
  let value := i.value * tenTo (-s.exponent).toNat
  (grid - value) + (value - grid)

/-- The better of the two neighbours of the value among the multiples of
`10 ^ exponent`, if one of them reads back. -/
def Interval.onGrid (i : Interval) (exponent : Int) : Option Scaled :=
  let floor := i.value * tenTo (-exponent).toNat / (tenTo exponent.toNat * quarterUnits)
  let lower : Scaled := ⟨floor, exponent⟩
  let upper : Scaled := ⟨floor + 1, exponent⟩
  match i.contains lower, i.contains upper with
  | true, true =>
    if i.distance lower < i.distance upper then some lower
    else if i.distance upper < i.distance lower then some upper
    else if floor % 2 = 0 then some lower else some upper
  | true, false => some lower
  | false, true => some upper
  | false, false => none

/-- How often a number below one has to be multiplied by ten to reach one. -/
def leadingPlaces (value : Nat) : Nat → Nat
  | 0 => 0
  | steps + 1 => if quarterUnits ≤ value then 0 else leadingPlaces (value * 10) steps + 1

/-- The least `e` with the value below `10 ^ e`. -/
def Interval.magnitude (i : Interval) : Int :=
  let whole := i.value >>> 1076
  if whole = 0 then 1 - (leadingPlaces i.value 400 : Int)
  else (Nat.toDigits 10 whole).length

/-- Tries grids with more and more digits. Seventeen always suffice. -/
def Interval.search (i : Interval) (digits : Nat) : Nat → Scaled
  | 0 => ⟨0, 0⟩
  | steps + 1 =>
    match i.onGrid (i.magnitude - digits) with
    | some found => found
    | none => i.search (digits + 1) steps

/-- The neighbour above may be the next power of ten, which has a digit to spare. -/
def Scaled.carried (s : Scaled) : Scaled :=
  if s.digits = 10 then ⟨1, s.exponent + 1⟩ else s

def shortest (w : Weight) : Scaled := ((Interval.of w).search 1 17).carried

end TagFilter.Decimal
