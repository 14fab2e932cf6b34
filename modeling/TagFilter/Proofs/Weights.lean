import Mathlib.Algebra.Order.BigOperators.Group.List
import Mathlib.Algebra.Order.Ring.Nat
import Mathlib.Tactic.Ring
import TagFilter.Weight

/-! # Whole weights

Whole numbers up to `2 ^ 53` are weights, their sums are exact as long as they
stay below that, and their order is the order of the numbers.
-/
namespace TagFilter.Weight

def places : Nat := 1074

def unitsOfOne : Nat := 2 ^ places

theorem unitsOfOne_pos : 0 < unitsOfOne := Nat.two_pow_pos places

def ofNat (n : Nat) : Weight := ofUnits (n * unitsOfOne : Nat)

def limit : Nat := 2 ^ 53

variable {a b k m n s : Nat}

theorem fractionCount_eq : fractionCount = 2 ^ 52 := by decide

/-- A number of units with as many digits as a fraction has is not rounded. -/
theorem nearestAbsolute_mul (hm : fractionCount ≤ m) (hm' : m < 2 * fractionCount) (s : Nat) :
    nearestAbsolute (m * 2 ^ s) = min (s * fractionCount + m) infinity.absolute := by
  have hpos : 0 < 2 ^ s := Nat.two_pow_pos s
  have hlog : (m * 2 ^ s).log2 = 52 + s := by
    rw [fractionCount_eq] at hm hm'
    have hne : m * 2 ^ s ≠ 0 := Nat.mul_ne_zero (by omega) (by omega)
    rw [Nat.log2_eq_iff hne, Nat.pow_add, show 52 + s + 1 = 53 + s by omega, Nat.pow_add]
    exact ⟨Nat.mul_le_mul_right _ hm, Nat.mul_lt_mul_of_pos_right (by omega) hpos⟩
  have hshift : (m * 2 ^ s).log2 - 52 = s := by omega
  have hkept : (m * 2 ^ s) >>> s = m := by
    rw [Nat.shiftRight_eq_div_pow, Nat.mul_div_cancel _ hpos]
  have hdropped : m * 2 ^ s % 1 <<< s = 0 := by
    rw [Nat.one_shiftLeft, Nat.mul_mod_left]
  have hstep : 1 <<< s = 2 ^ s := Nat.one_shiftLeft s
  unfold nearestAbsolute
  simp only [hshift, hkept, hdropped]
  rw [if_neg (by omega)]

/-- A number with its digits moved to where a fraction has them. -/
structure Normal (n m s : Nat) : Prop where
  units : n * unitsOfOne = m * 2 ^ s
  lower : fractionCount ≤ m
  upper : m < 2 * fractionCount
  shift : s ≤ places + 1

theorem exists_normal (hpos : 0 < n) (hn : n ≤ limit) : ∃ m s, Normal n m s := by
  have hscale (k : Nat) (hk : k ≤ places) : n * unitsOfOne = n * 2 ^ k * 2 ^ (places - k) := by
    rw [unitsOfOne, Nat.mul_assoc, ← Nat.pow_add, Nat.add_sub_of_le hk]
  have hplaces : places = 1074 := rfl
  have hne : n ≠ 0 := Nat.ne_of_gt hpos
  obtain ⟨hlow, hhigh⟩ := (Nat.log2_eq_iff hne).mp rfl
  rcases Nat.lt_or_ge n.log2 53 with hlog | hlog
  · refine ⟨n * 2 ^ (52 - n.log2), places - (52 - n.log2), hscale _ (by omega), ?_, ?_, by omega⟩
    · calc fractionCount = 2 ^ n.log2 * 2 ^ (52 - n.log2) := by
            rw [← Nat.pow_add, fractionCount_eq, Nat.add_sub_of_le (by omega)]
        _ ≤ n * 2 ^ (52 - n.log2) := Nat.mul_le_mul_right _ hlow
    · calc n * 2 ^ (52 - n.log2) < 2 ^ (n.log2 + 1) * 2 ^ (52 - n.log2) :=
            Nat.mul_lt_mul_of_pos_right hhigh (Nat.two_pow_pos _)
        _ = 2 * fractionCount := by
            rw [← Nat.pow_add, fractionCount_eq, ← Nat.pow_succ']
            congr 1
            omega
  · have hexact : n = 2 ^ 53 := by
      have hmono := Nat.pow_le_pow_right (n := 2) (by omega) hlog
      exact Nat.le_antisymm hn (Nat.le_trans hmono hlow)
    have hunits : 2 ^ 53 * unitsOfOne = 2 ^ 52 * 2 ^ (places + 1) := by
      rw [unitsOfOne, Nat.pow_succ 2 52, Nat.pow_succ 2 places, Nat.mul_assoc, Nat.mul_comm 2]
    rw [← hexact, ← fractionCount_eq] at hunits
    exact ⟨fractionCount, places + 1, hunits, Nat.le_refl _, by decide, Nat.le_refl _⟩

namespace Normal

theorem bits_lt_infinity (h : Normal n m s) : s * fractionCount + m < infinity.absolute := by
  have hinf : infinity.absolute = 2047 * fractionCount := by decide
  have hle := Nat.mul_le_mul_right fractionCount h.shift
  have hupper := h.upper
  have hplaces : places = 1074 := rfl
  rw [hplaces] at hle
  omega

theorem nearestAbsolute (h : Normal n m s) :
    nearestAbsolute (n * unitsOfOne) = s * fractionCount + m := by
  rw [h.units, nearestAbsolute_mul h.lower h.upper]
  exact Nat.min_eq_left (Nat.le_of_lt h.bits_lt_infinity)

theorem toNat_bits (h : Normal n m s) : (ofNat n).bits.toNat = s * fractionCount + m := by
  have hbits : (ofNat n).bits = UInt64.ofNat (s * fractionCount + m) := by
    have hpositive : ¬ ((n * unitsOfOne : Nat) : Int) < 0 := Int.not_lt.mpr (Int.natCast_nonneg _)
    rw [ofNat, ofUnits, Int.natAbs_natCast, h.nearestAbsolute, ofSigned,
      decide_eq_false hpositive, if_neg Bool.false_ne_true, Nat.add_zero]
  have hinf : infinity.absolute < 2 ^ 64 := by decide
  rw [hbits, UInt64.toNat_ofNat']
  exact Nat.mod_eq_of_lt (h.bits_lt_infinity.trans hinf)

end Normal

theorem ofNat_zero : ofNat 0 = zero := by
  rw [ofNat, Nat.zero_mul]
  decide

theorem bits_ofNat_lt (hn : n ≤ limit) : (ofNat n).bits.toNat < infinity.absolute := by
  rcases Nat.eq_zero_or_pos n with rfl | hpos
  · rw [ofNat_zero]
    decide
  · obtain ⟨m, s, h⟩ := exists_normal hpos hn
    rw [h.toNat_bits]
    exact h.bits_lt_infinity

theorem infinity_lt_signUnit : infinity.absolute < signUnit := by decide

theorem isNegative_ofNat (hn : n ≤ limit) : (ofNat n).isNegative = false := by
  rw [isNegative, decide_eq_false_iff_not, Nat.not_le]
  exact (bits_ofNat_lt hn).trans infinity_lt_signUnit

theorem absolute_ofNat (hn : n ≤ limit) : (ofNat n).absolute = (ofNat n).bits.toNat :=
  Nat.mod_eq_of_lt ((bits_ofNat_lt hn).trans infinity_lt_signUnit)

theorem Normal.units_eq (h : Normal n m s) (hn : n ≤ limit) :
    (ofNat n).units = n * unitsOfOne := by
  obtain ⟨hunits, hlower, hupper, -⟩ := id h
  have hpos : 0 < fractionCount := by decide
  have habsolute : (ofNat n).absolute = s * fractionCount + m := by
    rw [absolute_ofNat hn, h.toNat_bits]
  obtain ⟨f, rfl⟩ := Nat.exists_eq_add_of_le hlower
  have hexponent : (ofNat n).exponent = s + 1 := by
    rw [exponent, habsolute]
    refine Nat.div_eq_of_lt_le ?_ ?_
    · rw [Nat.add_mul]
      omega
    · rw [Nat.add_mul, Nat.add_mul]
      omega
  have hfraction : (ofNat n).fraction = f := by
    rw [fraction, habsolute, ← Nat.add_assoc, ← Nat.succ_mul, Nat.mul_comm, Nat.mul_add_mod]
    exact Nat.mod_eq_of_lt (by omega)
  rw [Weight.units, hexponent, hfraction, if_neg (by omega), Nat.add_sub_cancel, hunits,
    Nat.shiftLeft_eq]

theorem signedUnits_ofNat (hn : n ≤ limit) : (ofNat n).signedUnits = (n * unitsOfOne : Nat) := by
  rw [signedUnits, isNegative_ofNat hn]
  rcases Nat.eq_zero_or_pos n with rfl | hpos
  · rw [ofNat_zero, Nat.zero_mul]
    decide
  · obtain ⟨m, s, h⟩ := exists_normal hpos hn
    rw [h.units_eq hn]
    rfl

theorem isFinite_ofNat (hn : n ≤ limit) : (ofNat n).isFinite = true := by
  rw [isFinite, decide_eq_true_eq, absolute_ofNat hn]
  exact bits_ofNat_lt hn

theorem add_of_finite {v w : Weight} (hv : v.isFinite = true) (hw : w.isFinite = true) :
    v + w = addFinite v w := by
  simp only [isFinite, decide_eq_true_eq] at hv hw
  show add v w = addFinite v w
  have hv' : v.isNaN = false := by simp only [isNaN, decide_eq_false_iff_not]; omega
  have hw' : w.isNaN = false := by simp only [isNaN, decide_eq_false_iff_not]; omega
  have hv'' : v.isInfinite = false := by simp only [isInfinite, beq_eq_false_iff_ne]; omega
  have hw'' : w.isInfinite = false := by simp only [isInfinite, beq_eq_false_iff_ne]; omega
  rw [add, if_neg (by simp [hv']), if_neg (by simp [hw']), if_neg (by simp [hv'']),
    if_neg (by simp [hw''])]

theorem ofNat_add (ha : a ≤ limit) (hb : b ≤ limit) : ofNat a + ofNat b = ofNat (a + b) := by
  rw [add_of_finite (isFinite_ofNat ha) (isFinite_ofNat hb), addFinite, signedUnits_ofNat ha,
    signedUnits_ofNat hb, isNegative_ofNat ha, ← Int.natCast_add, ← Nat.add_mul]
  split
  · next hsum =>
    have hnone : a + b = 0 := by
      have hunits : (a + b) * unitsOfOne = 0 := Int.natCast_eq_zero.mp hsum
      exact (Nat.mul_eq_zero.mp hunits).resolve_right (Nat.ne_of_gt unitsOfOne_pos)
    rw [hnone, ofNat_zero, if_neg (by simp)]
  · rfl

/-- The sum of no weights, to which a first weight is added. -/
theorem negZero_add_ofNat (hb : b ≤ limit) : negZero + ofNat b = ofNat b := by
  have hzero : negZero.signedUnits = 0 := by decide
  rw [add_of_finite (by decide) (isFinite_ofNat hb), addFinite, signedUnits_ofNat hb, hzero,
    isNegative_ofNat hb, Int.zero_add]
  split
  · next hsum =>
    have hunits : b * unitsOfOne = 0 := Int.natCast_eq_zero.mp hsum
    have hnone : b = 0 := (Nat.mul_eq_zero.mp hunits).resolve_right (Nat.ne_of_gt unitsOfOne_pos)
    rw [hnone, ofNat_zero, if_neg (by simp)]
  · rfl

theorem ofNat_add_negZero (ha : a ≤ limit) : ofNat a + negZero = ofNat a := by
  have hzero : negZero.signedUnits = 0 := by decide
  rw [add_of_finite (isFinite_ofNat ha) (by decide), addFinite, signedUnits_ofNat ha, hzero,
    isNegative_ofNat ha, Int.add_zero]
  split
  · next hsum =>
    have hunits : a * unitsOfOne = 0 := Int.natCast_eq_zero.mp hsum
    have hnone : a = 0 := (Nat.mul_eq_zero.mp hunits).resolve_right (Nat.ne_of_gt unitsOfOne_pos)
    rw [hnone, ofNat_zero, if_neg (by simp)]
  · rfl

theorem rank_ofNat (hn : n ≤ limit) : (ofNat n).rank = (ofNat n).bits.toNat := by
  rw [rank, isNegative_ofNat hn, absolute_ofNat hn]
  rfl

/-- Of two numbers the smaller has no more places, and with as many places fewer units. -/
theorem bits_lt_bits (hab : a < b) (hb : b ≤ limit) :
    (ofNat a).bits.toNat < (ofNat b).bits.toNat := by
  obtain ⟨m', s', h'⟩ := exists_normal (by omega) hb
  rw [h'.toNat_bits]
  have hfc : 0 < fractionCount := by decide
  rcases Nat.eq_zero_or_pos a with rfl | hpos
  · have hnone : (ofNat 0).bits.toNat = 0 := by
      rw [ofNat_zero]
      rfl
    have hlower := h'.lower
    omega
  · obtain ⟨m, s, h⟩ := exists_normal hpos (by omega)
    rw [h.toNat_bits]
    have hunits : m * 2 ^ s < m' * 2 ^ s' := by
      rw [← h.units, ← h'.units]
      exact Nat.mul_lt_mul_of_pos_right hab unitsOfOne_pos
    obtain hs | rfl | hs := Nat.lt_trichotomy s s'
    · have hle := Nat.mul_le_mul_right fractionCount (Nat.succ_le_of_lt hs)
      have hupper := h.upper
      have hlower' := h'.lower
      rw [Nat.succ_mul] at hle
      omega
    · have hlt : m < m' := Nat.lt_of_mul_lt_mul_right hunits
      omega
    · exfalso
      have hlower := h.lower
      have hupper' := h'.upper
      have hle : m' * 2 ^ s' ≤ m * 2 ^ s := by
        calc m' * 2 ^ s' ≤ 2 * m * 2 ^ s' := Nat.mul_le_mul_right _ (by omega)
          _ = m * 2 ^ (s' + 1) := by ring
          _ ≤ m * 2 ^ s := Nat.mul_le_mul_left _ (Nat.pow_le_pow_right Nat.two_pos hs)
      exact Nat.not_lt.mpr hle hunits

theorem rank_ofNat_lt (ha : a ≤ limit) (hb : b ≤ limit) :
    (ofNat a).rank < (ofNat b).rank ↔ a < b := by
  rw [rank_ofNat ha, rank_ofNat hb, Int.ofNat_lt]
  constructor
  · intro h
    by_contra hle
    obtain hlt | heq := Nat.lt_or_eq_of_le (Nat.le_of_not_lt hle)
    · exact Nat.lt_asymm h (bits_lt_bits hlt ha)
    · rw [heq] at h
      exact Nat.lt_irrefl _ h
  · intro h
    exact bits_lt_bits h hb

theorem ofNat_inj (ha : a ≤ limit) (hb : b ≤ limit) : ofNat a = ofNat b ↔ a = b := by
  constructor
  · intro h
    have hnot := rank_ofNat_lt ha hb
    have hnot' := rank_ofNat_lt hb ha
    rw [h] at hnot hnot'
    have hirrefl := Int.lt_irrefl (ofNat b).rank
    omega
  · intro h
    rw [h]

def whole (w : Weight) : Nat := w.units / unitsOfOne

theorem whole_ofNat (hn : n ≤ limit) : (ofNat n).whole = n := by
  have hunits : (ofNat n).units = n * unitsOfOne := by
    have hsigned := signedUnits_ofNat hn
    rw [signedUnits, isNegative_ofNat hn, if_neg Bool.false_ne_true] at hsigned
    exact Int.ofNat_inj.mp hsigned
  rw [whole, hunits, Nat.mul_div_cancel _ unitsOfOne_pos]

def total (weights : List Weight) : Nat := (weights.map whole).sum

/-- Whole numbers that can be summed exactly. -/
structure Exact (weights : List Weight) : Prop where
  each : ∀ w ∈ weights, w = ofNat w.whole
  small : total weights ≤ limit

instance : DecidablePred Exact := fun weights =>
  decidable_of_iff ((∀ w ∈ weights, w = ofNat w.whole) ∧ total weights ≤ limit)
    ⟨fun h => ⟨h.1, h.2⟩, fun h => ⟨h.each, h.small⟩⟩

variable {w : Weight} {weights weights' : List Weight}

@[simp] theorem total_nil : total [] = 0 := rfl

@[simp] theorem total_cons (w : Weight) (weights : List Weight) :
    total (w :: weights) = w.whole + total weights := rfl

@[simp] theorem total_append (weights weights' : List Weight) :
    total (weights ++ weights') = total weights + total weights' := by
  simp [total]

theorem total_perm (h : weights.Perm weights') : total weights = total weights' :=
  (h.map whole).sum_nat

theorem total_sublist (h : weights.Sublist weights') : total weights ≤ total weights' :=
  List.Sublist.sum_le_sum (h.map whole) (fun _ _ => Nat.zero_le _)

theorem Exact.of_perm (h : Exact weights) (hperm : weights.Perm weights') : Exact weights' :=
  ⟨fun w hw => h.each w (hperm.symm.subset hw), total_perm hperm ▸ h.small⟩

theorem Exact.sublist (h : Exact weights') (hsub : weights.Sublist weights') : Exact weights :=
  ⟨fun w hw => h.each w (hsub.subset hw), (total_sublist hsub).trans h.small⟩

/-- The same weights with some of zero put in. -/
structure Padded (weights weights' : List Weight) : Prop where
  mem : ∀ w ∈ weights', w = zero ∨ w ∈ weights
  total : total weights' = total weights

theorem whole_zero : zero.whole = 0 := by
  rw [← ofNat_zero, whole_ofNat (Nat.zero_le _)]

theorem Padded.refl (weights : List Weight) : Padded weights weights :=
  ⟨fun _ hw => .inr hw, rfl⟩

theorem Padded.zero_cons (hperm : weights'.Perm (zero :: weights)) : Padded weights weights' := by
  refine ⟨fun w hw => List.mem_cons.mp (hperm.subset hw), ?_⟩
  rw [total_perm hperm, total_cons, whole_zero, Nat.zero_add]

theorem Padded.append {more more' : List Weight} (h : Padded weights weights')
    (h' : Padded more more') : Padded (weights ++ more) (weights' ++ more') := by
  refine ⟨?_, by rw [total_append, total_append, h.total, h'.total]⟩
  intro w hw
  rcases List.mem_append.mp hw with hw | hw
  · exact (h.mem w hw).imp_right (List.mem_append_left _)
  · exact (h'.mem w hw).imp_right (List.mem_append_right _)

theorem Exact.padded (h : Exact weights) (hpadded : Padded weights weights') : Exact weights' := by
  refine ⟨?_, hpadded.total ▸ h.small⟩
  intro w hw
  obtain rfl | hw := hpadded.mem w hw
  · rw [whole_zero, ofNat_zero]
  · exact h.each w hw

end TagFilter.Weight
