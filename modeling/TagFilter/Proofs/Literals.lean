import Mathlib.Data.List.TakeWhile
import TagFilter.Decimal.Literal

/-! # Texts that are read as numbers

A literal is a word or a numeral with an optional sign. A numeral has digits on at least
one side of a point that may be left out after them, and an optional exponent, which is a
letter and digits with an optional sign. Reading gives a number for exactly these texts.
-/
namespace TagFilter.Decimal

variable {P : List Char → Prop} {text whole part rest : List Char}

def Digits (text : List Char) : Prop := ∀ c ∈ text, isDigit c = true

/-- Texts with an optional sign in front. -/
inductive Signed (P : List Char → Prop) : List Char → Prop where
  | bare {text : List Char} (h : P text) : Signed P text
  | plus {text : List Char} (h : P text) : Signed P ('+' :: text)
  | minus {text : List Char} (h : P text) : Signed P ('-' :: text)

/-- Digits with an optional point. -/
inductive Mantissa : List Char → Prop where
  | whole {whole : List Char} (h : Digits whole) (hne : whole ≠ []) : Mantissa whole
  | point {whole part : List Char} (hwhole : Digits whole) (hpart : Digits part)
    (hne : whole ≠ [] ∨ part ≠ []) : Mantissa (whole ++ '.' :: part)

/-- An exponent, or nothing. -/
inductive Exponent : List Char → Prop where
  | absent : Exponent []
  | present {mark : Char} {text : List Char} (hmark : mark = 'e' ∨ mark = 'E')
    (h : Signed (fun digits => digits ≠ [] ∧ Digits digits) text) : Exponent (mark :: text)

def IsNumeral (text : List Char) : Prop :=
  ∃ mantissa exponent, text = mantissa ++ exponent ∧ Mantissa mantissa ∧ Exponent exponent

/-- The words that stand for themselves, in any letter case. -/
def IsWord (text : List Char) : Prop :=
  text.map Char.toLower ∈ ["inf".toList, "infinity".toList, "nan".toList]

def IsLiteral : List Char → Prop := Signed fun text => IsWord text ∨ IsNumeral text

def Unsigned (text : List Char) : Prop := text.head? ≠ some '+' ∧ text.head? ≠ some '-'

theorem splitSign_of_unsigned (h : Unsigned text) : splitSign text = (false, text) := by
  obtain ⟨hplus, hminus⟩ := h
  unfold splitSign
  split
  · exact absurd rfl hminus
  · exact absurd rfl hplus
  · rfl

theorem signed_iff (hunsigned : ∀ text, P text → Unsigned text) :
    Signed P text ↔ P (splitSign text).2 := by
  constructor
  · intro h
    cases h with
    | bare h => rwa [splitSign_of_unsigned (hunsigned _ h)]
    | plus h | minus h => exact h
  · intro h
    unfold splitSign at h
    split at h
    · exact .minus h
    · exact .plus h
    · exact .bare h

theorem unsigned_of_digits (h : Digits text) : Unsigned text := by
  constructor
  · intro hhead
    exact absurd (h '+' (List.mem_of_head? hhead)) (by decide)
  · intro hhead
    exact absurd (h '-' (List.mem_of_head? hhead)) (by decide)

theorem unsigned_of_isWord (h : IsWord text) : Unsigned text := by
  have hsign (c : Char) (hc : text.head? = some c) : c.toLower = 'i' ∨ c.toLower = 'n' := by
    have hlower : (text.map Char.toLower).head? = some c.toLower := by
      rw [List.head?_map, hc, Option.map_some]
    simp only [IsWord, List.mem_cons, List.not_mem_nil, or_false] at h
    rcases h with h | h | h <;> rw [h] at hlower
    · exact .inl (Option.some.inj hlower).symm
    · exact .inl (Option.some.inj hlower).symm
    · exact .inr (Option.some.inj hlower).symm
  exact ⟨fun hc => absurd (hsign '+' hc) (by decide), fun hc => absurd (hsign '-' hc) (by decide)⟩

theorem unsigned_of_isNumeral (h : IsNumeral text) : Unsigned text := by
  obtain ⟨mantissa, exponent, rfl, hmantissa, -⟩ := h
  have hsign (c : Char) (hc : (mantissa ++ exponent).head? = some c) : isDigit c ∨ c = '.' := by
    cases hmantissa with
    | whole hwhole hne =>
      obtain ⟨d, whole, rfl⟩ := List.exists_cons_of_ne_nil hne
      exact .inl (hwhole c (Option.some.inj hc ▸ List.mem_cons_self))
    | @point whole part hwhole _ _ =>
      cases whole with
      | nil => exact .inr (Option.some.inj hc).symm
      | cons d whole => exact .inl (hwhole c (Option.some.inj hc ▸ List.mem_cons_self))
  exact ⟨fun hc => absurd (hsign '+' hc) (by decide), fun hc => absurd (hsign '-' hc) (by decide)⟩

theorem exponent?_isSome_iff : (exponent? text).isSome ↔ Exponent text := by
  cases text with
  | nil => exact iff_of_true rfl .absent
  | cons mark rest =>
    have hsigned : Signed (fun digits => digits ≠ [] ∧ Digits digits) rest ↔
        (splitSign rest).2 ≠ [] ∧ (splitSign rest).2.all isDigit := by
      rw [signed_iff fun digits h => unsigned_of_digits h.2, List.all_eq_true, Digits]
    simp only [exponent?]
    constructor
    · intro h
      split at h
      · rename_i hexponent
        exact .present hexponent.1 (hsigned.mpr hexponent.2)
      · cases h
    · intro h
      cases h with
      | present hmark hexponent =>
        rw [if_pos ⟨hmark, hsigned.mp hexponent⟩]
        rfl

/-- An exponent does not go on with what is in front of it. -/
theorem head?_exponent (h : Exponent text) (c : Char) (hc : text.head? = some c) :
    isDigit c = false ∧ c ≠ '.' := by
  cases h with
  | absent => cases hc
  | present hmark _ =>
    obtain rfl := Option.some.inj hc
    rcases hmark with rfl | rfl <;> decide

theorem takeWhile_digits (hdigits : Digits whole)
    (hrest : ∀ c, rest.head? = some c → isDigit c = false) :
    (whole ++ rest).takeWhile isDigit = whole ∧ (whole ++ rest).dropWhile isDigit = rest := by
  rw [List.takeWhile_append_of_pos hdigits, List.dropWhile_append_of_pos hdigits]
  cases rest with
  | nil => exact ⟨List.append_nil whole, rfl⟩
  | cons c rest => simp [hrest c rfl]

theorem ofNumeral?_isSome_of_isNumeral (h : IsNumeral text) : (ofNumeral? text).isSome := by
  obtain ⟨mantissa, exponent, rfl, hmantissa, hexponent⟩ := h
  have hsome := exponent?_isSome_iff.mpr hexponent
  have hhead := head?_exponent hexponent
  unfold ofNumeral?
  cases hmantissa with
  | whole hwhole hne =>
    obtain ⟨htake, hdrop⟩ := takeWhile_digits hwhole fun c hc => (hhead c hc).1
    simp only [htake, hdrop]
    split
    · rename_i tail
      exact absurd rfl (hhead '.' rfl).2
    · simpa [hne] using hsome
  | @point whole part hwhole hpart hne =>
    have hpoint : ∀ c, ('.' :: (part ++ exponent)).head? = some c → isDigit c = false := by
      rintro c hc
      obtain rfl := Option.some.inj hc
      rfl
    obtain ⟨htake, hdrop⟩ := takeWhile_digits hwhole hpoint
    obtain ⟨htake', hdrop'⟩ := takeWhile_digits hpart fun c hc => (hhead c hc).1
    rw [List.append_assoc, List.cons_append]
    simp only [htake, hdrop, htake', hdrop']
    rw [if_neg (not_and_or.mpr hne), Option.isSome_map]
    exact hsome

theorem isNumeral_of_isSome (h : (ofNumeral? text).isSome) : IsNumeral text := by
  have htext := List.takeWhile_append_dropWhile (p := isDigit) (l := text)
  have hwhole : Digits (text.takeWhile isDigit) := fun c hc => List.mem_takeWhile_imp hc
  simp only [ofNumeral?] at h
  -- Whether there is a point after the first digits.
  split at h <;> split at h
  · cases h
  · rename_i tail htail hne
    have hpart : Digits (tail.takeWhile isDigit) := fun c hc => List.mem_takeWhile_imp hc
    have hsplit := List.takeWhile_append_dropWhile (p := isDigit) (l := tail)
    rw [Option.isSome_map, exponent?_isSome_iff] at h
    refine ⟨_, _, ?_, .point hwhole hpart (not_and_or.mp hne), h⟩
    rw [List.append_assoc, List.cons_append, hsplit, ← htail, htext]
  · cases h
  · rename_i hne
    rw [Option.isSome_map, exponent?_isSome_iff] at h
    exact ⟨_, _, htext.symm, .whole hwhole fun hnil => hne ⟨hnil, rfl⟩, h⟩

theorem ofNumeral?_isSome_iff : (ofNumeral? text).isSome ↔ IsNumeral text :=
  ⟨isNumeral_of_isSome, ofNumeral?_isSome_of_isNumeral⟩

theorem ofWord?_isSome_iff : (ofWord? text).isSome ↔ IsWord text := by
  simp only [ofWord?, IsWord, List.mem_cons, List.not_mem_nil, or_false]
  split
  · rename_i h
    exact iff_of_true rfl (h.imp_right .inl)
  · split
    · rename_i h
      exact iff_of_true rfl (.inr (.inr h))
    · rename_i hinf hnan
      refine iff_of_false (by simp) ?_
      rintro (h | h | h)
      · exact hinf (.inl h)
      · exact hinf (.inr h)
      · exact hnan h

theorem isLiteral_iff : IsLiteral text ↔
    (ofWord? (splitSign text).2 <|> ofNumeral? (splitSign text).2).isSome := by
  have hunsigned : ∀ text, IsWord text ∨ IsNumeral text → Unsigned text := by
    rintro text (h | h)
    · exact unsigned_of_isWord h
    · exact unsigned_of_isNumeral h
  rw [IsLiteral, signed_iff hunsigned, ← ofWord?_isSome_iff, ← ofNumeral?_isSome_iff,
    Option.orElse_eq_orElse, Option.orElse_eq_or, Option.isSome_or, Bool.or_eq_true]

theorem not_isLiteral_nil : ¬ IsLiteral [] := by
  rw [isLiteral_iff]
  decide

theorem readLiteral_eq_error_iff {fault : LiteralFault} : readLiteral text = .error fault ↔
    ¬ IsLiteral text ∧ fault = if text = [] then .empty else .malformed := by
  by_cases hnil : text = []
  · subst hnil
    rw [readLiteral, if_pos rfl, if_pos rfl, Except.error.injEq, eq_comm]
    exact (and_iff_right not_isLiteral_nil).symm
  · rw [isLiteral_iff]
    simp only [readLiteral, hnil, if_false]
    cases ofWord? (splitSign text).2 <|> ofNumeral? (splitSign text).2 with
    | some value => simp
    | none => simpa using eq_comm

/-- A text is read as a number if and only if it is a literal. -/
theorem exists_readLiteral_eq_ok_iff : (∃ value, readLiteral text = .ok value) ↔ IsLiteral text := by
  cases hread : readLiteral text with
  | ok value =>
    refine iff_of_true ⟨value, rfl⟩ (by_contra fun hnot => ?_)
    have herror := readLiteral_eq_error_iff.mpr ⟨hnot, rfl⟩
    rw [hread] at herror
    cases herror
  | error fault => exact iff_of_false nofun (readLiteral_eq_error_iff.mp hread).1

end TagFilter.Decimal
