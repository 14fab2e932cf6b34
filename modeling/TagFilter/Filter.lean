import TagFilter.Error
import TagFilter.Pattern

/-! # Filters

A filter is a pattern placed at a bit offset, stored as bytes: where the mask
has a zero bit, an identifier must have the bit of the value byte. Wildcards and
the padding up to whole bytes have ones in both. `encode` lays a pattern out in
this way, and `accepts` compares an identifier byte by byte.
-/
namespace TagFilter

structure Filter where
  pattern : Pattern
  offset : Nat
  firstByte : Nat
  values : List UInt8
  masks : List UInt8
  deriving DecidableEq, Repr, Inhabited

/-- The byte with the given bits, most significant first. -/
def packByte (bit : Nat → Bool) : UInt8 :=
  UInt8.ofNat ((List.range 8).foldl (fun value i => 2 * value + (bit i).toNat) 0)

namespace Filter

/-- What a pattern asks of the bit at a position counted from the first byte it
touches. -/
def symbolAt (symbols : List Symbol) (lead position : Nat) : Symbol :=
  if position < lead then .any else symbols[position - lead]?.getD .any

/-- The number of bytes that `size` bits touch when they start `lead` bits into
a byte. -/
def byteCount (lead size : Nat) : Nat := (lead + size + 7) / 8

def encode (pattern : Pattern) (offset : Nat) : Filter :=
  let lead := offset % 8
  let symbols := pattern.symbols
  let bytes := List.range (byteCount lead symbols.length)
  { pattern, offset
    firstByte := offset / 8
    values := bytes.map fun i => packByte fun j => symbolAt symbols lead (8 * i + j) ≠ .zero
    masks := bytes.map fun i => packByte fun j => symbolAt symbols lead (8 * i + j) = .any }

/-- Encodes a pattern of digits and the wildcard `x`. -/
def parse (pattern : Pattern) (offset : Nat) : Except FilterError Filter := do
  pattern.validate true
  return encode pattern offset

def size (f : Filter) : Nat := f.pattern.size

/-- The position just past the last bit of the pattern. -/
def endOffset (f : Filter) : Nat := (f.offset + f.size) % UInt64.size

/-- The same position, among the bits of an identifier. -/
def endIn (f : Filter) (id : Identifier) : Nat := wrapped (8 * id.length) (f.offset + f.size)

theorem endIn_eq_endOffset {f : Filter} {id : Identifier} (h : 8 * id.length < UInt64.size) :
    f.endIn id = f.endOffset := wrapped_eq_mod h

def byteSize (f : Filter) : Nat := f.values.length

/-- The index just past the last byte the filter touches. -/
def byteEnd (f : Filter) : Nat := f.firstByte + f.byteSize

/-- Whether an identifier has all the bytes of the filter and the bits it asks for. -/
def accepts (f : Filter) (id : Identifier) : Bool :=
  decide (f.byteEnd ≤ id.length) &&
    (((id.drop f.firstByte).zip f.values).zip f.masks).all fun ((byte, value), mask) =>
      (byte ||| mask) ^^^ value == 0

def covers (f : Filter) (index : Nat) : Bool := f.firstByte ≤ index && index < f.byteEnd

/-- The value and mask bytes at an absolute byte index. -/
def byteAt? (f : Filter) (index : Nat) : Option (UInt8 × UInt8) :=
  if f.covers index then
    match f.values[index - f.firstByte]?, f.masks[index - f.firstByte]? with
    | some value, some mask => some (value, mask)
    | _, _ => none
  else none

/-- A transparent filter asks nothing of any bit. -/
def isTransparent (f : Filter) : Bool := f.masks.all (· == 0xFF)

def display (f : Filter) : String :=
  String.ofList f.pattern ++ "(" ++ toString f.offset ++ " " ++ toString f.size ++ ")"

@[simp] theorem pattern_encode (p : Pattern) (offset : Nat) :
    (encode p offset).pattern = p := rfl

@[simp] theorem offset_encode (p : Pattern) (offset : Nat) :
    (encode p offset).offset = offset := rfl

@[simp] theorem byteSize_encode (p : Pattern) (offset : Nat) :
    (encode p offset).byteSize = byteCount (offset % 8) p.size := by
  simp [encode, byteSize]

end Filter
end TagFilter
