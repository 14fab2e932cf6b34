import Mathlib.Data.Char
import Mathlib.Data.List.Lex
import TagFilter.Proofs.Acceptance

/-! # Patterns of digits

The digits an identifier writes out as, and the patterns that fix every bit they
stand over. Such a pattern is accepted exactly where it is written in the
identifier. The lexicographic order puts a pattern before all that extend it.
-/
namespace TagFilter
namespace Pattern

def digit (bit : Bool) : Char := if bit then '1' else '0'

def Digital (p : Pattern) : Prop := ∀ c ∈ p, c = '0' ∨ c = '1'

-- searched along the pattern: characters could be enumerated as well, but are too many
instance : DecidablePred Digital := List.decidableBAll fun c => c = '0' ∨ c = '1'

@[simp] theorem digit_inj {a b : Bool} : digit a = digit b ↔ a = b := by
  cases a <;> cases b <;> simp [digit]

theorem digital_append {p q : Pattern} : Digital (p ++ q) ↔ Digital p ∧ Digital q := by
  simp only [Digital, List.mem_append]
  exact ⟨fun h => ⟨fun c hc => h c (.inl hc), fun c hc => h c (.inr hc)⟩,
    fun h c hc => hc.elim (h.1 c) (h.2 c)⟩

theorem Digital.of_isPrefix {p q : Pattern} (hq : Digital q) (h : p <+: q) : Digital p :=
  fun c hc => hq c (h.subset hc)

theorem Digital.head {p : Pattern} {c : Char} (hp : Digital (c :: p)) : c = '0' ∨ c = '1' :=
  hp c (by simp)

theorem Digital.size_eq {p : Pattern} (hp : Digital p) : p.size = p.length := by
  induction p with
  | nil => rfl
  | cons c p ih =>
    have hc : c.utf8Size = 1 := by rcases hp.head with rfl | rfl <;> rfl
    have hrest := ih (fun d hd => hp d (by simp [hd]))
    simp only [size, hc, hrest, List.length_cons]
    omega

theorem dropSize?_append (p q : Pattern) : dropSize? (p ++ q) p.size = some q := by
  induction p with
  | nil => cases q <;> rfl
  | cons c p ih =>
    obtain ⟨n, hn⟩ : ∃ n, c.utf8Size + size p = n + 1 :=
      ⟨c.utf8Size + size p - 1, by have := c.utf8Size_pos; omega⟩
    rw [size, hn, List.cons_append, dropSize?, if_pos (by omega), ← hn, Nat.add_sub_cancel_left]
    exact ih

theorem Digital.turnsToOne_iff {p : Pattern} : p.turnsToOne = true ↔ ['1'] <+: p := by
  cases p with
  | nil => simp [turnsToOne]
  | cons c p => simp [turnsToOne, List.cons_prefix_cons, eq_comm]

theorem Digital.turnsToZero_iff {p : Pattern} (hp : Digital p) :
    p ≠ [] ∧ p.turnsToOne = false ↔ ['0'] <+: p := by
  cases p with
  | nil => simp
  | cons c p => rcases hp.head with rfl | rfl <;> simp [turnsToOne, List.cons_prefix_cons]

theorem Digital.turns {p : Pattern} (hp : Digital p) (hne : p ≠ []) :
    [digit p.turnsToOne] <+: p := by
  cases p with
  | nil => exact absurd rfl hne
  | cons c p => rcases hp.head with rfl | rfl <;> simp [turnsToOne, digit, List.cons_prefix_cons]

theorem append_lt_append_iff {p q r : Pattern} : p ++ q < p ++ r ↔ q < r := by
  induction p with
  | nil => rfl
  | cons c p ih => simp [ih]

theorem not_lt_of_isPrefix {p q : Pattern} (h : p <+: q) : ¬ q < p := List.IsPrefix.le h

/-- Of the prefixes of one pattern the smaller is the shorter. -/
theorem length_lt_of_lt {p q r : Pattern} (hp : p <+: r) (hq : q <+: r) (h : p < q) :
    p.length < q.length := by
  by_contra hle
  have hqp := List.prefix_of_prefix_length_le hq hp (Nat.le_of_not_lt hle)
  exact not_lt_of_isPrefix hqp h

end Pattern

namespace Identifier

def bits (id : Identifier) : Pattern :=
  (List.range (8 * id.length)).map fun i => Pattern.digit (id.bitAt i = some true)

@[simp] theorem length_bits (id : Identifier) : id.bits.length = 8 * id.length := by simp [bits]

theorem getElem?_bits (id : Identifier) (i : Nat) :
    id.bits[i]? = (id.bitAt i).map Pattern.digit := by
  by_cases hi : i < 8 * id.length
  · obtain ⟨bit, hbit⟩ := Option.isSome_iff_exists.mp (bitAt_isSome_iff.mpr hi)
    simp [bits, hi, hbit]
  · have hnone : id.bitAt i = none := by
      rw [← Option.not_isSome_iff_eq_none, bitAt_isSome_iff]
      exact hi
    rw [hnone, Option.map_none, List.getElem?_eq_none (by simpa using hi)]

end Identifier

namespace Pattern

theorem symbols_digital {p : Pattern} (hp : p.Digital) :
    p.symbols = p.map fun c => if c = '0' then .zero else .one := by
  induction p with
  | nil => rfl
  | cons c p ih =>
    have hrest := ih (fun d hd => hp d (by simp [hd]))
    have hc : symbolsOf c = [if c = '0' then .zero else .one] := by
      rcases hp.head with rfl | rfl <;> rfl
    simp only [symbols, List.flatMap_cons, hc, List.map_cons, List.singleton_append] at hrest ⊢
    rw [hrest]

end Pattern

namespace Filter

theorem admits_digit {c : Char} (hc : c = '0' ∨ c = '1') (bit : Bool) :
    (if c = '0' then Symbol.zero else Symbol.one).admits bit = true ↔ Pattern.digit bit = c := by
  rcases hc with rfl | rfl <;> cases bit <;> simp [Symbol.admits, Pattern.digit]

theorem accepts_digital_iff {p : Pattern} (hp : p.Digital) (offset : Nat) (id : Identifier) :
    (encode p offset).accepts id = true ↔
      offset + p.length ≤ id.bits.length ∧ p <+: id.bits.drop offset := by
  rw [accepts_encode_iff, hp.size_eq, Identifier.length_bits, Pattern.symbols_digital hp]
  apply and_congr_right
  intro hlen
  rw [List.prefix_iff_getElem?]
  have hbit : ∀ i < p.length, ∃ bit, id.bitAt (offset + i) = some bit := fun i hi =>
    Option.isSome_iff_exists.mp (Identifier.bitAt_isSome_iff.mpr (by omega))
  constructor
  · intro h i hi
    obtain ⟨bit, hb⟩ := hbit i hi
    have hs := h i _ bit (by rw [List.getElem?_map, List.getElem?_eq_getElem hi]; rfl) hb
    rw [admits_digit (hp _ (List.getElem_mem hi))] at hs
    simp [Identifier.getElem?_bits, hb, hs]
  · intro h i s bit hs hb
    simp only [List.getElem?_map, Option.map_eq_some_iff] at hs
    obtain ⟨c, hc, rfl⟩ := hs
    obtain ⟨hi, rfl⟩ := List.getElem?_eq_some_iff.mp hc
    rw [admits_digit (hp _ (List.getElem_mem hi))]
    have hd := h i hi
    simpa [Identifier.getElem?_bits, hb] using hd

/-- Past the offset only the pattern decides: its length is part of it. -/
theorem accepts_iff_isPrefix {p : Pattern} (hp : p.Digital) {offset : Nat} {id : Identifier}
    (hoffset : offset ≤ id.bits.length) :
    (encode p offset).accepts id = true ↔ p <+: id.bits.drop offset := by
  rw [accepts_digital_iff hp]
  apply and_iff_right_of_imp
  intro hpre
  have hle := hpre.length_le
  rw [List.length_drop] at hle
  omega

end Filter

theorem Identifier.bitAt_eq_some_iff (id : Identifier) (i : Nat) (bit : Bool) :
    id.bitAt i = some bit ↔ [Pattern.digit bit] <+: id.bits.drop i := by
  have hhead : [Pattern.digit bit] <+: id.bits.drop i ↔
      (id.bits.drop i).head? = some (Pattern.digit bit) := by
    cases id.bits.drop i <;> simp [List.cons_prefix_cons, eq_comm]
  rw [hhead, List.head?_drop, getElem?_bits, Option.map_eq_some_iff]
  simp

end TagFilter
