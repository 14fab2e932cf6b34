import Mathlib.Data.Char
import TagFilter.Proofs.Related
import TagFilter.Text.Hex
import TagFilter.Text.Utf8

/-! # Hexadecimal texts

A byte has two nibbles, each with its digit. A text decodes to some bytes if its digits, in
either case, are the ones that the bytes are written with, and it decodes to nothing if
their number is odd or one of its characters is no digit.
-/
namespace TagFilter.Text.Hex

def nibbles (bytes : List UInt8) : List UInt8 :=
  bytes.flatMap fun (byte : UInt8) => [byte >>> 4, byte &&& 15]

/-- The characters that stand for a nibble. -/
def digits : List Char :=
  ['0', '1', '2', '3', '4', '5', '6', '7', '8', '9', 'a', 'b', 'c', 'd', 'e', 'f',
    'A', 'B', 'C', 'D', 'E', 'F']

variable {bytes : List UInt8} {values : List UInt8} {text : List Char} {c : Char}

theorem forall_byte {P : UInt8 → Prop} (h : ∀ n < 256, P (UInt8.ofNat n)) (byte : UInt8) :
    P byte := by
  have hbyte := h byte.toNat byte.toNat_lt
  rwa [UInt8.ofNat_toNat] at hbyte

theorem nibbles_cons (byte : UInt8) (bytes : List UInt8) :
    nibbles (byte :: bytes) = byte >>> 4 :: (byte &&& 15) :: nibbles bytes := rfl

theorem encode_eq (bytes : List UInt8) : encode bytes = (nibbles bytes).map digit := by
  simp [encode, nibbles, List.map_flatMap]

theorem length_nibbles (bytes : List UInt8) : (nibbles bytes).length = 2 * bytes.length := by
  induction bytes with
  | nil => rfl
  | cons byte bytes ih =>
    simp only [nibbles_cons, List.length_cons, ih]
    omega

theorem join_nibbles (byte : UInt8) : (byte >>> 4) <<< 4 ||| (byte &&& 15) = byte := by
  apply forall_byte (P := fun byte => (byte >>> 4) <<< 4 ||| (byte &&& 15) = byte)
  decide +kernel

theorem nibbles_lt : ∀ value ∈ nibbles bytes, value.toNat < 16 := by
  have hbyte : ∀ byte : UInt8, (byte >>> 4).toNat < 16 ∧ (byte &&& 15).toNat < 16 := by
    apply forall_byte
    decide +kernel
  simp only [nibbles, List.mem_flatMap, List.mem_cons, List.not_mem_nil, or_false]
  rintro value ⟨byte, -, rfl | rfl⟩
  · exact (hbyte byte).1
  · exact (hbyte byte).2

theorem nibbles_join {high low : UInt8} (hhigh : high.toNat < 16) (hlow : low.toNat < 16) :
    (high <<< 4 ||| low) >>> 4 = high ∧ (high <<< 4 ||| low) &&& 15 = low := by
  have hall : ∀ h < 16, ∀ l < 16,
      (UInt8.ofNat h <<< 4 ||| UInt8.ofNat l) >>> 4 = UInt8.ofNat h ∧
        (UInt8.ofNat h <<< 4 ||| UInt8.ofNat l) &&& 15 = UInt8.ofNat l := by
    decide +kernel
  have hpair := hall high.toNat hhigh low.toNat hlow
  rwa [UInt8.ofNat_toNat, UInt8.ofNat_toNat] at hpair

theorem exists_nibbles_eq : ∀ values : List UInt8, values.length % 2 = 0 →
    (∀ value ∈ values, value.toNat < 16) → ∃ bytes, nibbles bytes = values
  | [], _, _ => ⟨[], rfl⟩
  | [_], hlength, _ => by simp at hlength
  | high :: low :: rest, hlength, hvalues => by
    simp only [List.length_cons, List.forall_mem_cons] at hlength hvalues
    obtain ⟨hhigh, hlow, hrest⟩ := hvalues
    obtain ⟨bytes, hbytes⟩ := exists_nibbles_eq rest (by omega) hrest
    obtain ⟨hh, hl⟩ := nibbles_join hhigh hlow
    exact ⟨(high <<< 4 ||| low) :: bytes, by rw [nibbles_cons, hh, hl, hbytes]⟩

theorem digitValue?_lt {byte value : UInt8} (h : digitValue? byte = some value) :
    value.toNat < 16 := by
  have hall : ∀ byte, ∀ value ∈ digitValue? byte, value.toNat < 16 := by
    apply forall_byte
    decide +kernel
  exact hall byte value h

theorem digitAt_eq_ok_iff {byte value : UInt8} {position : Nat} :
    digitAt byte position = .ok value ↔ digitValue? byte = some value := by
  unfold digitAt
  cases digitValue? byte <;> simp

/-- Digits make up the bytes whose nibbles they stand for. -/
theorem decodeFrom_eq_ok_iff (position : Nat) {written : List UInt8}
    (heven : written.length % 2 = 0) : decodeFrom position written = .ok bytes ↔
      written.map digitValue? = (nibbles bytes).map some := by
  induction position, written using decodeFrom.induct generalizing bytes with
  | case1 position high low rest ih =>
    have hrest : rest.length % 2 = 0 := by
      simp only [List.length_cons] at heven
      omega
    simp only [decodeFrom, bind_eq_ok_iff, pure_eq_ok_iff, digitAt_eq_ok_iff, ih hrest,
      List.map_cons]
    constructor
    · rintro ⟨h, hhigh, l, hlow, more, hmore, rfl⟩
      obtain ⟨hh, hl⟩ := nibbles_join (digitValue?_lt hhigh) (digitValue?_lt hlow)
      rw [nibbles_cons, hh, hl, hhigh, hlow, hmore]
      rfl
    · intro h
      cases bytes with
      | nil => cases h
      | cons byte bytes =>
        simp only [nibbles_cons, List.map_cons, List.cons.injEq] at h
        obtain ⟨hhigh, hlow, hmore⟩ := h
        exact ⟨_, hhigh, _, hlow, bytes, hmore, by rw [join_nibbles]⟩
  | case2 written position hshort =>
    match written, hshort with
    | [], _ => cases bytes <;> simp [decodeFrom, nibbles]
    | [_], _ => simp at heven
    | high :: low :: rest, hshort => exact absurd rfl (hshort high low rest)

theorem decode_eq_ok_iff {written : List UInt8} : decode written = .ok bytes ↔
    written.map digitValue? = (nibbles bytes).map some := by
  unfold decode
  split
  · rename_i hodd
    simp only [reduceCtorEq, false_iff]
    intro h
    have hlength := congrArg List.length h
    rw [List.length_map, List.length_map, length_nibbles] at hlength
    omega
  · exact decodeFrom_eq_ok_iff 0 (by omega)

theorem digit_inj {value value' : UInt8} (h : value.toNat < 16) (h' : value'.toNat < 16)
    (heq : digit value = digit value') : value = value' := by
  have hall : ∀ n < 16, ∀ m < 16, digit (UInt8.ofNat n) = digit (UInt8.ofNat m) → n = m := by
    decide +kernel
  apply UInt8.toNat_inj.mp
  apply hall _ h _ h'
  rwa [UInt8.ofNat_toNat, UInt8.ofNat_toNat]

theorem map_toLower_encode (bytes : List UInt8) :
    (encode bytes).map Char.toLower = encode bytes := by
  have hdigit : ∀ value : UInt8, value.toNat < 16 → (digit value).toLower = digit value := by
    apply forall_byte
    decide +kernel
  rw [encode_eq, List.map_map]
  exact List.map_congr_left fun value hvalue => hdigit value (nibbles_lt value hvalue)

theorem encode_eq_nil_iff : encode bytes = [] ↔ bytes = [] := by
  rw [← List.length_eq_zero_iff, encode_eq, List.length_map, length_nibbles,
    ← List.length_eq_zero_iff]
  omega

/-- What a character that is stored in one byte stands for. -/
theorem ascii_cases (n : Nat) (hn : n < 128) :
    (Char.ofNat n ∈ digits ∧ ∃ value < 16, digitValue? (UInt8.ofNat n) = some (UInt8.ofNat value) ∧
      (Char.ofNat n).toLower = digit (UInt8.ofNat value)) ∨
    (Char.ofNat n ∉ digits ∧ digitValue? (UInt8.ofNat n) = none ∧
      ∀ value < 16, (Char.ofNat n).toLower ≠ digit (UInt8.ofNat value)) := by
  revert n
  decide +kernel

/-- A character is a digit and is stored in one byte that stands for its value, or it is
none and neither are its bytes. -/
theorem digit_cases (c : Char) :
    (c ∈ digits ∧ ∃ byte value, String.utf8EncodeChar c = [byte] ∧
      digitValue? byte = some value ∧ value.toNat < 16 ∧ c.toLower = digit value) ∨
    (c ∉ digits ∧ (∀ byte ∈ String.utf8EncodeChar c, digitValue? byte = none) ∧
      ∀ value : UInt8, value.toNat < 16 → c.toLower ≠ digit value) := by
  rcases Utf8.utf8EncodeChar_cases c with ⟨hsmall, heq⟩ | ⟨hlarge, hbytes⟩
  · have hc := ascii_cases c.toNat hsmall
    rw [Char.ofNat_toNat] at hc
    rcases hc with ⟨hmem, value, hvalue, hdigit, hlower⟩ | ⟨hmem, hdigit, hlower⟩
    · have htoNat : (UInt8.ofNat value).toNat = value :=
        UInt8.toNat_ofNat_of_lt (Nat.lt_trans hvalue (by decide))
      have hlt : (UInt8.ofNat value).toNat < 16 := by rwa [htoNat]
      exact .inl ⟨hmem, _, _, heq, hdigit, hlt, hlower⟩
    · refine .inr ⟨hmem, ?_, fun value hvalue => ?_⟩
      · simpa only [heq, List.forall_mem_singleton] using hdigit
      · have hne := hlower value.toNat hvalue
        rwa [UInt8.ofNat_toNat] at hne
  · have hdigits : ∀ d ∈ digits, d.toNat < 128 := by simp [digits]
    have hnone : ∀ byte : UInt8, 128 ≤ byte.toNat → digitValue? byte = none := by
      apply forall_byte
      decide +kernel
    have hsmall : ∀ value : UInt8, value.toNat < 16 → (digit value).toNat < 128 := by
      apply forall_byte
      decide +kernel
    refine .inr ⟨fun hmem => ?_, fun byte hbyte => hnone byte (hbytes byte hbyte), ?_⟩
    · have := hdigits c hmem
      omega
    · intro value hvalue heq
      have hlower : c.toLower = c := by
        unfold Char.toLower
        apply dif_neg
        rintro ⟨-, hupper⟩
        have hle : c.toNat ≤ 90 := hupper
        omega
      have hlt := hsmall value hvalue
      rw [← heq, hlower] at hlt
      omega

theorem map_digitValue?_eq_iff (hvalues : ∀ value ∈ values, value.toNat < 16) :
    (text.flatMap String.utf8EncodeChar).map digitValue? = values.map some ↔
      text.map Char.toLower = values.map digit := by
  induction text generalizing values with
  | nil => cases values <;> simp
  | cons c text ih =>
    cases values with
    | nil => simp [String.utf8EncodeChar_ne_nil]
    | cons value values =>
      obtain ⟨hvalue, hrest⟩ := List.forall_mem_cons.mp hvalues
      rw [List.flatMap_cons, List.map_append, List.map_cons, List.map_cons, List.map_cons]
      rcases digit_cases c with ⟨-, byte, value', heq, hdigit, hvalue', hlower⟩ | ⟨-, hbytes, hlower⟩
      · have hsame : value' = value ↔ digit value' = digit value :=
          ⟨congrArg digit, digit_inj hvalue' hvalue⟩
        simp only [heq, hdigit, hlower, List.map_cons, List.map_nil, List.cons_append,
          List.nil_append, List.cons.injEq, Option.some.injEq, ih hrest, hsame]
      · obtain ⟨byte, more, heq⟩ := List.exists_cons_of_ne_nil (String.utf8EncodeChar_ne_nil (c := c))
        have hnone : digitValue? byte = none := hbytes byte (heq ▸ List.mem_cons_self)
        simp [heq, hnone, hlower value hvalue]

/-- A text decodes to the bytes that are written as it is in lower case. -/
theorem decode_ofList_eq_ok_iff :
    decode (Utf8.encode (String.ofList text)) = .ok bytes ↔ text.map Char.toLower = encode bytes := by
  rw [decode_eq_ok_iff, Utf8.encode_ofList, encode_eq]
  exact map_digitValue?_eq_iff nibbles_lt

theorem mem_digits_iff : c ∈ digits ↔ ∃ value : UInt8, value.toNat < 16 ∧ c.toLower = digit value := by
  rcases digit_cases c with ⟨hc, byte, value, -, -, hvalue, hlower⟩ | ⟨hc, -, hlower⟩
  · exact iff_of_true hc ⟨value, hvalue, hlower⟩
  · exact iff_of_false hc fun ⟨value, hvalue, heq⟩ => hlower value hvalue heq

/-- The texts that some bytes are written as, in either case. -/
theorem exists_encode_eq_iff : (∃ bytes, text.map Char.toLower = encode bytes) ↔
    text.length % 2 = 0 ∧ ∀ c ∈ text, c ∈ digits := by
  constructor
  · rintro ⟨bytes, hbytes⟩
    rw [encode_eq] at hbytes
    constructor
    · have hlength := congrArg List.length hbytes
      simp only [List.length_map, length_nibbles] at hlength
      omega
    · intro c hc
      have hmem : c.toLower ∈ (nibbles bytes).map digit := hbytes ▸ List.mem_map_of_mem hc
      obtain ⟨value, hvalue, hdigit⟩ := List.mem_map.mp hmem
      exact mem_digits_iff.mpr ⟨value, nibbles_lt value hvalue, hdigit.symm⟩
  · rintro ⟨hlength, hdigits⟩
    have hvalues : ∀ c ∈ text, ∃ value : UInt8, value.toNat < 16 ∧ c.toLower = digit value :=
      fun c hc => mem_digits_iff.mp (hdigits c hc)
    choose! value hvalue hlower using hvalues
    obtain ⟨bytes, hbytes⟩ := exists_nibbles_eq (text.map value)
      (by rwa [List.length_map]) (List.forall_mem_map.mpr hvalue)
    refine ⟨bytes, ?_⟩
    rw [encode_eq, hbytes, List.map_map]
    exact List.map_congr_left hlower

end TagFilter.Text.Hex
