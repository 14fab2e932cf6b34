/-! # Weights

A weight is a double-precision number, kept as its sixty-four bits so that two
weights are equal exactly when they are stored alike. Finite weights are whole
multiples of `2 ^ -1074`; a sum is formed exactly in these units and rounded
once, to the nearest double and on a tie to the even one. `rank` orders all
weights totally: negative NaNs, minus infinity, the numbers with `-0` below `0`,
infinity, positive NaNs.
-/
namespace TagFilter

structure Weight where
  bits : UInt64
  deriving DecidableEq, Repr

namespace Weight

def ofFloat (value : Float) : Weight := ⟨value.toBits⟩

def toFloat (w : Weight) : Float := Float.ofBits w.bits

def zero : Weight := ⟨0⟩
def negZero : Weight := ⟨0x8000000000000000⟩
def infinity : Weight := ⟨0x7FF0000000000000⟩
/-- The result of adding infinities of opposite signs. -/
def undefined : Weight := ⟨0xFFF8000000000000⟩

instance : Inhabited Weight := ⟨zero⟩

/-- The place value of the sign. -/
def signUnit : Nat := 0x8000000000000000

/-- The number of fractions to one exponent. -/
def fractionCount : Nat := 0x10000000000000

def isNegative (w : Weight) : Bool := signUnit ≤ w.bits.toNat

/-- The bits below the sign. -/
def absolute (w : Weight) : Nat := w.bits.toNat % signUnit

def exponent (w : Weight) : Nat := w.absolute / fractionCount

def fraction (w : Weight) : Nat := w.absolute % fractionCount

def isNaN (w : Weight) : Bool := infinity.absolute < w.absolute

def isInfinite (w : Weight) : Bool := w.absolute == infinity.absolute

def isFinite (w : Weight) : Bool := w.absolute < infinity.absolute

/-- The absolute value of a finite weight in units of `2 ^ -1074`. -/
def units (w : Weight) : Nat :=
  if w.exponent = 0 then w.fraction else (fractionCount + w.fraction) <<< (w.exponent - 1)

def signedUnits (w : Weight) : Int := if w.isNegative then -(w.units : Int) else w.units

/-- The bits, without a sign, of the double nearest to a number of units. -/
def nearestAbsolute (units : Nat) : Nat :=
  let shift := units.log2 - 52
  let kept := units >>> shift
  let step := 1 <<< shift
  let dropped := units % step
  let roundsUp := step < 2 * dropped ∨ (2 * dropped = step ∧ kept % 2 = 1)
  let rounded := if shift ≠ 0 ∧ roundsUp then kept + 1 else kept
  min (shift * fractionCount + rounded) infinity.absolute

def ofSigned (negative : Bool) (absolute : Nat) : Weight :=
  ⟨UInt64.ofNat (absolute + if negative then signUnit else 0)⟩

def ofUnits (units : Int) : Weight := ofSigned (units < 0) (nearestAbsolute units.natAbs)

def quiet (w : Weight) : Weight := ⟨w.bits ||| 0x0008000000000000⟩

def addFinite (a b : Weight) : Weight :=
  let sum := a.signedUnits + b.signedUnits
  if sum = 0 then if a.isNegative ∧ b.isNegative then negZero else zero
  else ofUnits sum

def add (a b : Weight) : Weight :=
  if a.isNaN then a.quiet
  else if b.isNaN then b.quiet
  else if a.isInfinite then
    if b.isInfinite ∧ a.isNegative ≠ b.isNegative then undefined else a
  else if b.isInfinite then b
  else addFinite a b

instance : Add Weight := ⟨add⟩

def negate (w : Weight) : Weight := ⟨w.bits ^^^ 0x8000000000000000⟩

/-- Numeric equality: a NaN equals nothing, and zero equals its negative. -/
def equals (a b : Weight) : Bool :=
  !a.isNaN && !b.isNaN && (a = b || (a.absolute = 0 && b.absolute = 0))

/-- The place of a weight in the total order. -/
def rank (w : Weight) : Int :=
  if w.isNegative then -(w.absolute : Int) - 1 else w.absolute

theorem rank_injective {a b : Weight} (h : a.rank = b.rank) : a = b := by
  have la := a.bits.toNat_lt
  have lb := b.bits.toNat_lt
  have key : a.bits.toNat = b.bits.toNat := by
    simp only [rank, isNegative, absolute, decide_eq_true_eq] at h
    split at h <;> split at h <;> simp only [signUnit] at * <;> omega
  cases a; cases b
  simpa [← UInt64.toNat_inj] using key

end Weight
end TagFilter
