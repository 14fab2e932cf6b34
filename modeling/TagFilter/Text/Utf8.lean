/-! # Text as bytes

Texts are stored in UTF-8. Reading back accepts exactly the byte strings that
some text is stored as. The fault of any other byte string is where its longest
well-formed prefix ends, and how many bytes there begin a character that cannot
be completed.
-/
namespace TagFilter.Text

/-- Where well-formed text ends, and the length of the faulty sequence that
follows, or none when the bytes just stop too early. -/
structure Utf8Fault where
  validUpTo : Nat
  faulty : Option Nat
  deriving DecidableEq, Repr

def Utf8Fault.message (fault : Utf8Fault) : String :=
  match fault.faulty with
  | some count =>
    "invalid utf-8 sequence of " ++ toString count ++ " bytes from index " ++
      toString fault.validUpTo
  | none => "incomplete utf-8 byte sequence from index " ++ toString fault.validUpTo

namespace Utf8

def encode (text : String) : List UInt8 := text.toUTF8.data.toList

/-- The ranges of the bytes that must follow a first byte, or none when no
character starts with it. -/
def continuations (first : UInt8) : Option (List (UInt8 × UInt8)) :=
  let any : UInt8 × UInt8 := (0x80, 0xBF)
  if first < 0x80 then some []
  else if first < 0xC2 then none
  else if first < 0xE0 then some [any]
  else if first = 0xE0 then some [(0xA0, 0xBF), any]
  else if first = 0xED then some [(0x80, 0x9F), any]
  else if first < 0xF0 then some [any, any]
  else if first = 0xF0 then some [(0x90, 0xBF), any, any]
  else if first < 0xF4 then some [any, any, any]
  else if first = 0xF4 then some [(0x80, 0x8F), any, any]
  else none

/-- Follows the expected ranges; `taken` bytes of the character are read. -/
def follow (taken : Nat) : List (UInt8 × UInt8) → List UInt8 → Except (Option Nat) Nat
  | [], _ => .ok taken
  | _ :: _, [] => .error none
  | (low, high) :: ranges, byte :: rest =>
    if low ≤ byte ∧ byte ≤ high then follow (taken + 1) ranges rest
    else .error (some taken)

/-- The fault of a byte string, if it has one. The first argument counts down
and starts no lower than the number of bytes. -/
def faultFrom : Nat → Nat → List UInt8 → Option Utf8Fault
  | 0, _, _ => none
  | _ + 1, _, [] => none
  | steps + 1, index, first :: rest =>
    match continuations first with
    | none => some ⟨index, some 1⟩
    | some ranges =>
      match follow 1 ranges rest with
      | .error faulty => some ⟨index, faulty⟩
      | .ok width => faultFrom steps (index + width) (rest.drop (width - 1))

def fault (bytes : List UInt8) : Utf8Fault :=
  (faultFrom bytes.length 0 bytes).getD ⟨bytes.length, none⟩

def decode (bytes : List UInt8) : Except Utf8Fault String :=
  match String.fromUTF8? ⟨bytes.toArray⟩ with
  | some text => .ok text
  | none => .error (fault bytes)

theorem encode_of_decode {bytes : List UInt8} {text : String} (h : decode bytes = .ok text) :
    encode text = bytes := by
  unfold decode at h
  split at h
  · rename_i found heq
    simp only [String.fromUTF8?] at heq
    split at heq
    · simp only [Option.some.injEq] at heq
      cases h
      subst heq
      simp [encode, String.fromUTF8]
    · simp at heq
  · simp at h

theorem decode_encode (text : String) : decode (encode text) = .ok text := by
  have valid : String.fromUTF8? ⟨text.toUTF8.data.toList.toArray⟩ = some text := by
    simp [String.fromUTF8?, String.fromUTF8, text.isValidUTF8]
  unfold decode encode
  rw [valid]

theorem decode_eq_ok_iff {bytes : List UInt8} {text : String} :
    decode bytes = .ok text ↔ bytes = encode text :=
  ⟨fun h => (encode_of_decode h).symm, fun h => h ▸ decode_encode text⟩

theorem encode_ofList (text : List Char) :
    encode (String.ofList text) = text.flatMap String.utf8EncodeChar := by
  rw [encode, String.toUTF8_eq_toByteArray, String.toByteArray_ofList, List.utf8Encode,
    List.data_toByteArray]

/-- A character below `128` is stored as its code, and any other in bytes from `128` on. -/
theorem utf8EncodeChar_cases (c : Char) :
    (c.toNat < 128 ∧ String.utf8EncodeChar c = [UInt8.ofNat c.toNat]) ∨
      (128 ≤ c.toNat ∧ ∀ byte ∈ String.utf8EncodeChar c, 128 ≤ byte.toNat) := by
  have hlarge {n : Nat} (hn : n < 256) (h : 128 ≤ n) : 128 ≤ (UInt8.ofNat n).toNat := by
    have htoNat : (UInt8.ofNat n).toNat = n := UInt8.toNat_ofNat_of_lt hn
    rwa [htoNat]
  simp only [String.utf8EncodeChar, Char.toNat]
  split
  · exact .inl ⟨by omega, rfl⟩
  · refine .inr ⟨by omega, fun byte hbyte => ?_⟩
    split at hbyte
    · simp only [List.mem_cons, List.not_mem_nil, or_false] at hbyte
      rcases hbyte with rfl | rfl <;> exact hlarge (by omega) (by omega)
    · split at hbyte
      · simp only [List.mem_cons, List.not_mem_nil, or_false] at hbyte
        rcases hbyte with rfl | rfl | rfl <;> exact hlarge (by omega) (by omega)
      · simp only [List.mem_cons, List.not_mem_nil, or_false] at hbyte
        rcases hbyte with rfl | rfl | rfl | rfl <;> exact hlarge (by omega) (by omega)

end Utf8
end TagFilter.Text
