/-! # Patterns and identifiers

A pattern is a text. The digits `0` and `1` fix one bit each; every other
character leaves the bits it stands over open, one bit for each byte it takes in
UTF-8. Patterns are ordered lexicographically by code point.

An identifier is a string of bytes. Its bits are numbered from the most
significant bit of the first byte. The number of a bit is a machine word, and a sum
of such numbers wraps around.
-/
namespace TagFilter

abbrev Pattern := List Char

/-- What a pattern asks of one bit. -/
inductive Symbol where
  | zero
  | one
  | any
  deriving DecidableEq, Repr

namespace Pattern

def symbolsOf (c : Char) : List Symbol :=
  if c = '0' then [.zero] else if c = '1' then [.one] else List.replicate c.utf8Size .any

def symbols (p : Pattern) : List Symbol := p.flatMap symbolsOf

/-- The number of bits a pattern stands over. -/
def size : Pattern → Nat
  | [] => 0
  | c :: rest => c.utf8Size + size rest

@[simp] theorem length_symbols (p : Pattern) : (symbols p).length = size p := by
  induction p with
  | nil => rfl
  | cons c rest ih =>
    have one : (symbolsOf c).length = c.utf8Size := by
      unfold symbolsOf
      split
      · rename_i h; subst h; rfl
      · split
        · rename_i h; subst h; rfl
        · simp
    simp [symbols, size, List.flatMap_cons, one] at ih ⊢
    omega

/-- The text without its first bits, or none when the cut falls inside a
character or after the end. -/
def dropSize? : Pattern → Nat → Option Pattern
  | p, 0 => some p
  | [], _ + 1 => none
  | c :: rest, n + 1 => if c.utf8Size ≤ n + 1 then dropSize? rest (n + 1 - c.utf8Size) else none

/-- Which way a pattern continues: only the digit `1` turns to ones. -/
def turnsToOne (p : Pattern) : Bool := p.head? = some '1'

def commonPrefix : Pattern → Pattern → Pattern
  | a :: p, b :: q => if a = b then a :: commonPrefix p q else []
  | _, _ => []

def smaller (p q : Pattern) : Pattern := if q < p then q else p

def larger (p q : Pattern) : Pattern := if q < p then p else q

/-- The longest text all patterns start with. Only the first and the last of
them in lexicographic order have to be compared. -/
def longestCommonPrefix : List Pattern → Pattern
  | [] => []
  | p :: rest => commonPrefix (rest.foldl smaller p) (rest.foldl larger p)

/-- Whether a character may stand in a pattern: a digit, or where wildcards are
allowed the letter `x`. -/
def isAllowed (wildcards : Bool) (c : Char) : Bool :=
  c = '0' || c = '1' || (wildcards && c = 'x')

/-- The first character that may not stand in a pattern, and its position. -/
def firstRefused (wildcards : Bool) (p : Pattern) : Option (Char × Nat) :=
  p.zipIdx.find? fun (c, _) => !isAllowed wildcards c

end Pattern

/-- A sum of positions as a word holds it. A word has sixty-four bits, which is enough to
count the bits that any memory holds; only to count more of them would it be wider. -/
def wrapped (bits position : Nat) : Nat := position % max UInt64.size (bits + 1)

variable {bits position : Nat}

/-- A position among the bits at hand, or just past them, does not wrap. -/
theorem wrapped_of_le (h : position ≤ bits) : wrapped bits position = position := by
  apply Nat.mod_eq_of_lt
  omega

theorem wrapped_eq_mod (h : bits < UInt64.size) :
    wrapped bits position = position % UInt64.size := by
  rw [wrapped, Nat.max_eq_left h]

abbrev Identifier := List UInt8

namespace Identifier

/-- The bit at a position, none past the end. -/
def bitAt (id : Identifier) (position : Nat) : Option Bool :=
  id[position / 8]?.map fun byte => byte.toNat.testBit (7 - position % 8)

theorem bitAt_isSome_iff {id : Identifier} :
    (id.bitAt position).isSome ↔ position < 8 * id.length := by
  have bounds : position / 8 < id.length ↔ position < 8 * id.length := by omega
  rw [← bounds, bitAt, Option.isSome_map]
  by_cases h : position / 8 < id.length <;> simp [h]

end Identifier
end TagFilter
