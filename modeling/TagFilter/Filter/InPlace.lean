import TagFilter.Filter
import TagFilter.Text.Utf8

/-! # Encoding in place

The bytes of a filter can be written where they lie: values and masks begin as ones
throughout, and one pass over the stored bytes of the pattern clears the bits that the
digits fix. The digit `0` clears the bit of both, the digit `1` that of the mask alone,
and any other byte leaves both as they are.
-/
namespace TagFilter.Filter

/-- The value and mask bytes of a filter while it is written. -/
structure Content where
  values : List UInt8
  masks : List UInt8
  deriving DecidableEq, Repr

/-- Clears the bit at a position counted from the first byte. -/
def clearBit (bytes : List UInt8) (position : Nat) : List UInt8 :=
  bytes.modify (position / 8) fun byte => byte &&& ~~~(0x80 >>> UInt8.ofNat (position % 8))

namespace Content

def blank (count : Nat) : Content := ⟨List.replicate count 0xFF, List.replicate count 0xFF⟩

def write (content : Content) (position : Nat) (byte : UInt8) : Content :=
  if byte = '0'.toUInt8 then
    ⟨clearBit content.values position, clearBit content.masks position⟩
  else if byte = '1'.toUInt8 then ⟨content.values, clearBit content.masks position⟩
  else content

/-- Writes bytes one after the other, the first one at the position `lead`. -/
def writeAll (content : Content) (lead : Nat) (stored : List UInt8) : Content :=
  stored.zipIdx.foldl (fun content (byte, i) => content.write (lead + i) byte) content

end Content

def encodeInPlace (pattern : Pattern) (offset : Nat) : Filter :=
  let lead := offset % 8
  let stored := Text.Utf8.encode (String.ofList pattern)
  let content := (Content.blank (byteCount lead stored.length)).writeAll lead stored
  { pattern, offset
    firstByte := offset / 8
    values := content.values
    masks := content.masks }

end TagFilter.Filter
