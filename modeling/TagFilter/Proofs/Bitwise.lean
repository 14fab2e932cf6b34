import TagFilter.Proofs.Acceptance
import TagFilter.Proofs.Digits
import TagFilter.Text.Utf8

/-! # Matching bit by bit

A pattern as it is stored has one byte for each bit that it stands over: the two digits fix
the bit and every other byte leaves it open. A filter accepts an identifier that has all
these bits and the fixed ones as they are written.
-/
namespace TagFilter
open Pattern

namespace Symbol

variable {bit bit' : Bool} {byte : UInt8}

def ofBit (bit : Bool) : Symbol := if bit then .one else .zero

/-- What a byte of a stored pattern asks of its bit. -/
def ofByte (byte : UInt8) : Symbol :=
  if byte = (digit false).toUInt8 then ofBit false
  else if byte = (digit true).toUInt8 then ofBit true
  else .any

theorem ofByte_eq (byte : UInt8) : ofByte byte =
    if byte = '0'.toUInt8 then .zero else if byte = '1'.toUInt8 then .one else .any := rfl

theorem eq_any_or_ofBit (s : Symbol) : s = .any ∨ ∃ bit, s = ofBit bit := by
  cases s with
  | zero => exact .inr ⟨false, rfl⟩
  | one => exact .inr ⟨true, rfl⟩
  | any => exact .inl rfl

theorem ofByte_eq_ofBit_iff : ofByte byte = ofBit bit ↔ byte = (digit bit).toUInt8 := by
  constructor
  · intro h
    unfold ofByte at h
    split at h
    · cases bit with
      | false => assumption
      | true => cases h
    · split at h
      · cases bit with
        | false => cases h
        | true => assumption
      · cases bit <;> cases h
  · rintro rfl
    cases bit <;> rfl

theorem admits_ofBit_iff : (ofBit bit).admits bit' = true ↔ bit' = bit := by
  cases bit <;> cases bit' <;> decide

end Symbol

namespace Pattern

variable {c : Char}

/-- The bytes that a pattern is stored as. -/
def bytes (p : Pattern) : List UInt8 := Text.Utf8.encode (String.ofList p)

theorem bytes_eq (p : Pattern) : p.bytes = p.flatMap String.utf8EncodeChar :=
  Text.Utf8.encode_ofList p

/-- A byte of a character that is no digit is no digit: it is the code of another character
or not below `128`. -/
theorem ofByte_of_mem (hzero : c ≠ '0') (hone : c ≠ '1') {byte : UInt8}
    (hmem : byte ∈ String.utf8EncodeChar c) : Symbol.ofByte byte = .any := by
  have hother (h : byte.toNat ≠ 48 ∧ byte.toNat ≠ 49) : Symbol.ofByte byte = .any := by
    unfold Symbol.ofByte
    rw [if_neg fun heq => h.1 (congrArg UInt8.toNat heq),
      if_neg fun heq => h.2 (congrArg UInt8.toNat heq)]
  apply hother
  rcases Text.Utf8.utf8EncodeChar_cases c with ⟨hsmall, heq⟩ | ⟨-, hlarge⟩
  · rw [heq, List.mem_singleton] at hmem
    have htoNat : byte.toNat = c.toNat := by
      rw [hmem]
      exact UInt8.toNat_ofNat_of_lt (hsmall.trans (by decide))
    rw [htoNat]
    exact ⟨fun h => hzero (Char.toNat_inj.mp h), fun h => hone (Char.toNat_inj.mp h)⟩
  · have hbyte := hlarge byte hmem
    omega

theorem symbolsOf_eq (c : Char) : symbolsOf c = (String.utf8EncodeChar c).map Symbol.ofByte := by
  unfold symbolsOf
  split
  · rename_i hzero
    subst hzero
    rfl
  · rename_i hzero
    split
    · rename_i hone
      subst hone
      rfl
    · rename_i hone
      refine (List.eq_replicate_iff.mpr ⟨?_, ?_⟩).symm
      · rw [List.length_map, String.length_utf8EncodeChar]
      · exact List.forall_mem_map.mpr fun _ => ofByte_of_mem hzero hone

/-- A pattern asks of its bits what its bytes say, one by one. -/
theorem symbols_eq_bytes (p : Pattern) : p.symbols = p.bytes.map Symbol.ofByte := by
  rw [bytes_eq, symbols, List.map_flatMap]
  exact List.flatMap_congr fun c _ => symbolsOf_eq c

theorem length_bytes (p : Pattern) : p.bytes.length = p.size := by
  rw [← length_symbols, symbols_eq_bytes, List.length_map]

theorem getElem?_symbols_iff {p : Pattern} {i : Nat} {bit : Bool} :
    p.symbols[i]? = some (.ofBit bit) ↔ p.bytes[i]? = some (digit bit).toUInt8 := by
  rw [symbols_eq_bytes, List.getElem?_map, Option.map_eq_some_iff]
  constructor
  · rintro ⟨byte, hbyte, hbit⟩
    rw [hbyte, Symbol.ofByte_eq_ofBit_iff.mp hbit]
  · exact fun h => ⟨_, h, Symbol.ofByte_eq_ofBit_iff.mpr rfl⟩

end Pattern

namespace Filter

theorem accepts_bytes_iff (p : Pattern) (offset : Nat) (id : Identifier) :
    (encode p offset).accepts id = true ↔ offset + p.bytes.length ≤ 8 * id.length ∧
      ∀ i bit, p.bytes[i]? = some (digit bit).toUInt8 → id.bitAt (offset + i) = some bit := by
  rw [accepts_encode_iff, length_bytes]
  refine and_congr_right fun hlength => ⟨fun h i bit hbyte => ?_, fun h i s bit hs hbit => ?_⟩
  · have hs := getElem?_symbols_iff.mpr hbyte
    have hi : i < p.size := by
      rw [← length_bytes]
      exact (List.getElem?_eq_some_iff.mp hbyte).1
    obtain ⟨bit', hbit'⟩ := Option.isSome_iff_exists.mp
      (Identifier.bitAt_isSome_iff.mpr (by omega : offset + i < 8 * id.length))
    rw [hbit', Symbol.admits_ofBit_iff.mp (h i _ bit' hs hbit')]
  · rcases s.eq_any_or_ofBit with rfl | ⟨bit', rfl⟩
    · rfl
    · have hwritten := h i bit' (getElem?_symbols_iff.mp hs)
      exact Symbol.admits_ofBit_iff.mpr (Option.some.inj (hbit.symm.trans hwritten))

/-- An identifier is accepted if it reaches to the end of the pattern and has every fixed bit
as it is written. So open bits still have to be there, and the bits around the pattern have
no say. -/
theorem accepts_iff_bitwise (p : Pattern) (offset : Nat) (id : Identifier) :
    ((encode p offset).accepts id = true ↔ offset + p.bytes.length ≤ 8 * id.length ∧
      ∀ i bit, p.bytes[i]? = some (digit bit).toUInt8 → id.bitAt (offset + i) = some bit) ∧
    ∀ id' : Identifier, id'.length = id.length →
      (∀ i < p.bytes.length, id'.bitAt (offset + i) = id.bitAt (offset + i)) →
      (encode p offset).accepts id' = (encode p offset).accepts id := by
  refine ⟨accepts_bytes_iff p offset id, fun id' hlength hsame => ?_⟩
  rw [Bool.eq_iff_iff, accepts_bytes_iff, accepts_bytes_iff, hlength]
  refine and_congr_right fun _ => forall₂_congr fun i bit => ?_
  refine imp_congr_right fun hbyte => ?_
  rw [hsame i (List.getElem?_eq_some_iff.mp hbyte).1]

/-- Two digits around a wildcard of two bytes, across the end of the first byte. -/
example : (encode ['1', 'é', '0'] 6).accepts [0x02, 0xBF] = true ∧
    (encode ['1', 'é', '0'] 6).accepts [0x02] = false := by decide

end Filter
end TagFilter
