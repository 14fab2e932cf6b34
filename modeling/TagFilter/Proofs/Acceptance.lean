import Mathlib.Algebra.Group.Nat.Defs
import Mathlib.Data.List.Basic
import TagFilter.Filter

/-! # What a filter accepts

The bytes of an encoded filter compare an identifier with the symbols of its
pattern bit by bit. Wildcards ask only that the identifier has the bit, and the
padding up to whole bytes asks nothing at all.
-/
namespace TagFilter

def Symbol.admits : Symbol → Bool → Bool
  | .zero, bit => !bit
  | .one, bit => bit
  | .any, _ => true

/-- Bits in the order they are written, as a number. -/
def packed (bit : Nat → Bool) (n : Nat) : Nat :=
  (List.range n).foldl (fun value i => 2 * value + (bit i).toNat) 0

theorem packed_succ (bit : Nat → Bool) (n : Nat) :
    packed bit (n + 1) = 2 * packed bit n + (bit n).toNat := by
  simp [packed, List.range_succ, List.foldl_append]

theorem packed_lt (bit : Nat → Bool) (n : Nat) : packed bit n < 2 ^ n := by
  induction n with
  | zero => simp [packed]
  | succ n ih =>
    have hbit := Bool.toNat_le (bit n)
    rw [packed_succ, Nat.pow_succ]
    omega

theorem testBit_packed (bit : Nat → Bool) {n j : Nat} (hj : j < n) :
    (packed bit n).testBit (n - 1 - j) = bit j := by
  induction n with
  | zero => omega
  | succ n ih =>
    rw [packed_succ]
    rcases Nat.lt_or_eq_of_le (Nat.le_of_lt_succ hj) with hj | rfl
    · obtain ⟨k, hk⟩ : ∃ k, n + 1 - 1 - j = k + 1 := ⟨n - 1 - j, by omega⟩
      have hk' : k = n - 1 - j := by omega
      rw [hk, Nat.testBit_succ, ← ih hj, hk']
      congr 1
      have hbit := Bool.toNat_le (bit n)
      omega
    · rw [Nat.add_sub_cancel, Nat.sub_self, Nat.testBit_zero]
      cases bit j <;> simp [Nat.add_mod]

theorem testBit_packByte (bit : Nat → Bool) {j : Nat} (hj : j < 8) :
    (packByte bit).toNat.testBit (7 - j) = bit j := by
  have hlt : packed bit 8 < 256 := packed_lt bit 8
  have hp : (packByte bit).toNat = packed bit 8 := by
    rw [packByte, UInt8.toNat_ofNat']
    exact Nat.mod_eq_of_lt hlt
  rw [hp]
  exact testBit_packed bit hj

/-- A byte is given by its eight bits. -/
theorem byte_ext {a b : UInt8}
    (h : ∀ j < 8, a.toNat.testBit (7 - j) = b.toNat.testBit (7 - j)) : a = b := by
  apply UInt8.toNat_inj.mp
  apply Nat.eq_of_testBit_eq
  intro i
  by_cases hi : i < 8
  · have hj := h (7 - i) (by omega)
    rwa [show 7 - (7 - i) = i by omega] at hj
  · have hhigh (byte : UInt8) : byte.toNat.testBit i = false :=
      Nat.testBit_lt_two_pow (Nat.lt_of_lt_of_le byte.toNat_lt
        (Nat.pow_le_pow_right (by decide) (Nat.le_of_not_lt hi)))
    rw [hhigh, hhigh]

theorem byte_eq_zero_iff (b : UInt8) : b = 0 ↔ ∀ j < 8, b.toNat.testBit (7 - j) = false := by
  constructor
  · rintro rfl j _
    simp
  · intro h
    apply byte_ext
    intro j hj
    rw [h j hj]
    simp

namespace Filter

section
variable {symbols : List Symbol} {lead position : Nat}

theorem symbolAt_before (h : position < lead) : symbolAt symbols lead position = .any := if_pos h

theorem symbolAt_add (symbols : List Symbol) (lead i : Nat) :
    symbolAt symbols lead (lead + i) = symbols[i]?.getD .any := by
  rw [symbolAt, if_neg (by omega), Nat.add_sub_cancel_left]

theorem symbolAt_past (h : lead + symbols.length ≤ position) :
    symbolAt symbols lead position = .any := by
  obtain ⟨i, rfl⟩ := Nat.exists_eq_add_of_le (Nat.le_of_add_right_le h)
  rw [symbolAt_add, List.getElem?_eq_none (by omega), Option.getD_none]

end

theorem compare_byte_iff (byte : UInt8) (symbol : Nat → Symbol) :
    ((byte ||| packByte fun j => symbol j = .any) ^^^ packByte fun j => symbol j ≠ .zero) = 0 ↔
      ∀ j < 8, (symbol j).admits (byte.toNat.testBit (7 - j)) = true := by
  rw [byte_eq_zero_iff]
  refine forall_congr' fun j => forall_congr' fun hj => ?_
  rw [UInt8.toNat_xor, UInt8.toNat_or, Nat.testBit_xor, Nat.testBit_or, testBit_packByte _ hj,
    testBit_packByte _ hj]
  cases symbol j <;> simp [Symbol.admits]

theorem byteEnd_encode_le_iff (p : Pattern) (offset n : Nat) :
    (encode p offset).byteEnd ≤ n ↔ offset + p.size ≤ 8 * n := by
  simp only [byteEnd, byteSize_encode, byteCount]
  simp only [encode]
  omega

theorem all_zip_range_iff (bytes : Identifier) (n : Nat) (hn : n ≤ bytes.length)
    (values masks : Nat → UInt8) (test : (UInt8 × UInt8) × UInt8 → Bool) :
    (((bytes.zip ((List.range n).map values)).zip ((List.range n).map masks)).all test = true) ↔
      ∀ i byte, i < n → bytes[i]? = some byte → test ((byte, values i), masks i) = true := by
  rw [List.all_eq_true, List.forall_mem_iff_forall_getElem]
  constructor
  · intro h i byte hi hbyte
    obtain ⟨hib, rfl⟩ := List.getElem?_eq_some_iff.mp hbyte
    have hi' : i < ((bytes.zip ((List.range n).map values)).zip
        ((List.range n).map masks)).length := by
      simp only [List.length_zip, List.length_map, List.length_range]
      omega
    simpa using h i hi'
  · intro h i hi
    have hin : i < n := by
      simp only [List.length_zip, List.length_map, List.length_range] at hi
      omega
    simpa using h i _ hin (List.getElem?_eq_getElem (by omega))

/-- Filters accept by positions: each one that a pattern stands over asks for a bit, and the
identifier has to reach to the end of the pattern. -/
theorem accepts_encode_iff (p : Pattern) (offset : Nat) (id : Identifier) :
    (encode p offset).accepts id = true ↔ offset + p.size ≤ 8 * id.length ∧
      ∀ i s bit, p.symbols[i]? = some s → id.bitAt (offset + i) = some bit →
        s.admits bit = true := by
  rw [accepts, Bool.and_eq_true, decide_eq_true_iff, byteEnd_encode_le_iff]
  apply and_congr_right
  intro hlen
  have hcount : byteCount (offset % 8) p.size ≤ (id.drop (offset / 8)).length := by
    simp only [byteCount, List.length_drop]
    omega
  simp only [encode, Pattern.length_symbols]
  rw [all_zip_range_iff _ _ hcount]
  simp only [beq_iff_eq, compare_byte_iff, List.getElem?_drop]
  constructor
  · intro h i s bit hs hbit
    have hi : i < p.size := by
      rw [← Pattern.length_symbols]
      exact (List.getElem?_eq_some_iff.mp hs).1
    simp only [Identifier.bitAt, Option.map_eq_some_iff] at hbit
    obtain ⟨byte, hbyte, rfl⟩ := hbit
    have hk := h ((offset % 8 + i) / 8) byte (by simp only [byteCount]; omega)
      (by rw [← hbyte]; congr 1; omega) ((offset % 8 + i) % 8) (by omega)
    rw [Nat.div_add_mod, symbolAt_add, hs, Option.getD_some] at hk
    rw [show (offset + i) % 8 = (offset % 8 + i) % 8 by omega]
    exact hk
  · intro h i byte hi hbyte j hj
    unfold symbolAt
    split
    · rfl
    · rename_i hlead
      cases hs : p.symbols[8 * i + j - offset % 8]? with
      | none => rfl
      | some s =>
        apply h (8 * i + j - offset % 8) s _ hs
        simp only [Identifier.bitAt, Option.map_eq_some_iff]
        refine ⟨byte, ?_, ?_⟩
        · rw [← hbyte]
          congr 1
          omega
        · congr 2
          omega

/-- A filter that accepts an identifier ends among its bits, and so does not wrap. -/
theorem endIn_encode_of_accepts {p : Pattern} {offset : Nat} {id : Identifier}
    (h : (encode p offset).accepts id = true) : (encode p offset).endIn id = offset + p.size := by
  obtain ⟨hbits, -⟩ := (accepts_encode_iff p offset id).mp h
  rw [endIn, size, pattern_encode, offset_encode]
  exact wrapped_of_le hbits

end Filter
end TagFilter
