import TagFilter.Engine.SortedList
import TagFilter.Proofs.Table

/-! # The sorted list as a table

The list of a sorted table has its entries in the same order. Halving finds the
place of a pattern in it, so that adding and deleting give the list of the
changed table, entry for entry.
-/
namespace TagFilter.SortedList
open Table OrderedMap

def ofTable (m : Table) : SortedList := m.map fun e => ⟨e.2, Filter.encode e.1 0⟩

variable {m : Table} {p : Pattern} {u : String}

/-- What halving keeps: the place sought is not before the stretch and not after it. -/
structure Within (order : Nat → Ordering) (total size base : Nat) : Prop where
  pos : 0 < size
  fits : base + size ≤ total
  start : base = 0 ∨ order base ≠ .gt
  above : ∀ i, base + size ≤ i → i < total → order i = .gt

theorem Within.half {order : Nat → Ordering} {total size base : Nat}
    (mono : ∀ i j, i < j → j < total → order i = .gt → order j = .gt)
    (h : Within order total size base) (hsize : ¬ size ≤ 1) :
    Within order total (size - size / 2)
      (if order (base + size / 2) = .gt then base else base + size / 2) := by
  obtain ⟨hpos, hfits, hstart, habove⟩ := h
  split
  · rename_i hgt
    refine ⟨by omega, by omega, hstart, ?_⟩
    intro i hi hlt
    by_cases heq : i = base + size / 2
    · rw [heq]
      exact hgt
    · exact mono _ i (by omega) hlt hgt
  · rename_i hgt
    exact ⟨by omega, by omega, .inr hgt, fun i hi hlt => habove i (by omega) hlt⟩

/-- With at least as many steps as places, halving ends at one place. -/
theorem Within.bisect {order : Nat → Ordering} {total steps size base : Nat}
    (mono : ∀ i j, i < j → j < total → order i = .gt → order j = .gt)
    (h : Within order total size base) (hsteps : size ≤ steps) :
    Within order total 1 (bisect order steps size base) := by
  induction steps generalizing size base with
  | zero =>
    have hpos := h.pos
    omega
  | succ steps ih =>
    rw [SortedList.bisect]
    split
    · rename_i hsize
      have hpos := h.pos
      have hone : size = 1 := by omega
      exact hone ▸ h
    · rename_i hsize
      exact ih (h.half mono hsize) (by omega)

theorem orderAt_ofTable {i : Nat} (hi : i < m.length) (p : Pattern) :
    m[i].1 < p ∧ orderAt (ofTable m) p i = .lt ∨ m[i].1 = p ∧ orderAt (ofTable m) p i = .eq ∨
      p < m[i].1 ∧ orderAt (ofTable m) p i = .gt := by
  rcases lt_trichotomy m[i].1 p with hlt | heq | hgt
  · exact .inl ⟨hlt, by simp [orderAt, ofTable, hi, hlt]⟩
  · exact .inr (.inl ⟨heq, by simp [orderAt, ofTable, hi, heq]⟩)
  · exact .inr (.inr ⟨hgt, by simp [orderAt, ofTable, hi, lt_asymm hgt, ne_of_gt hgt]⟩)

theorem orderAt_eq_gt_iff {i : Nat} (hi : i < m.length) :
    orderAt (ofTable m) p i = .gt ↔ p < m[i].1 := by
  rcases orderAt_ofTable hi p with ⟨hlt, h⟩ | ⟨heq, h⟩ | ⟨hgt, h⟩
  · simp [h, lt_asymm hlt]
  · simp [h, heq]
  · simp [h, hgt]

/-- A table cut where a pattern is, or would be. -/
def Cut (m : Table) (p : Pattern) : Place → Prop
  | .found i => ∃ a v b, m = a ++ (p, v) :: b ∧ a.length = i
  | .absent i => ∃ a b, m = a ++ b ∧ a.length = i ∧ (∀ e ∈ a, e.1 < p) ∧ ∀ e ∈ b, p < e.1

theorem lt_around (h : Sorted m) {i : Nat} (hi : i < m.length) :
    (∀ e ∈ m.take i, e.1 < m[i].1) ∧ ∀ e ∈ m.drop (i + 1), m[i].1 < e.1 := by
  have hsplit := List.take_append_drop i m
  rw [List.drop_eq_getElem_cons hi] at hsplit
  rw [Sorted, ← hsplit, List.pairwise_append, List.pairwise_cons] at h
  exact ⟨fun e he => h.2.2 e he _ List.mem_cons_self, h.2.1.1⟩

theorem cut_place (h : Sorted m) (p : Pattern) : Cut m p (place (ofTable m) p) := by
  by_cases hnil : m = []
  · subst hnil
    exact ⟨[], [], rfl, rfl, by simp, by simp⟩
  · have hlen : (ofTable m).length = m.length := List.length_map _
    have hpos := List.length_pos_iff.mpr hnil
    have mono : ∀ i j, i < j → j < m.length → orderAt (ofTable m) p i = .gt →
        orderAt (ofTable m) p j = .gt := by
      intro i j hij hj hgt
      rw [orderAt_eq_gt_iff (by omega)] at hgt
      rw [orderAt_eq_gt_iff hj]
      exact hgt.trans (List.pairwise_iff_getElem.mp h i j (by omega) hj hij)
    have hwithin : Within (orderAt (ofTable m) p) m.length m.length 0 :=
      ⟨hpos, by omega, .inl rfl, fun i hi hlt => by omega⟩
    obtain ⟨-, hfits, hstart, habove⟩ := hwithin.bisect mono (Nat.le_refl _)
    rw [place, if_neg (by simpa [ofTable] using hnil), hlen]
    generalize bisect (orderAt (ofTable m) p) m.length m.length 0 = i at *
    have hi : i < m.length := by omega
    obtain ⟨hbefore, hafter⟩ := lt_around h hi
    have hsplit := List.take_append_drop i m
    rw [List.drop_eq_getElem_cons hi] at hsplit
    rcases orderAt_ofTable hi p with ⟨hlt, horder⟩ | ⟨heq, horder⟩ | ⟨hgt, horder⟩
    · -- everything up to here is smaller, and everything after was seen to be greater
      simp only [horder]
      refine ⟨m.take (i + 1), m.drop (i + 1), (List.take_append_drop _ _).symm,
        by simp only [List.length_take]; omega, ?_, ?_⟩
      · intro e he
        rw [List.take_succ_eq_append_getElem hi, List.mem_append, List.mem_singleton] at he
        rcases he with he | rfl
        · exact (hbefore e he).trans hlt
        · exact hlt
      · intro e he
        obtain ⟨j, hj, rfl⟩ := List.getElem_of_mem he
        rw [List.length_drop] at hj
        rw [List.getElem_drop]
        exact (orderAt_eq_gt_iff (by omega)).mp (habove _ (by omega) (by omega))
    · simp only [horder]
      refine ⟨m.take i, m[i].2, m.drop (i + 1), ?_, by simp only [List.length_take]; omega⟩
      rw [← heq]
      exact hsplit.symm
    · simp only [horder]
      have hzero : i = 0 := hstart.resolve_right (by simp [horder])
      subst hzero
      refine ⟨[], m, rfl, rfl, by simp, ?_⟩
      intro e he
      rw [← hsplit] at he
      rcases List.mem_cons.mp he with rfl | he
      · exact hgt
      · exact hgt.trans (hafter e he)

theorem ofTable_append (m n : Table) : ofTable (m ++ n) = ofTable m ++ ofTable n :=
  List.map_append ..

theorem add_ofTable (h : Sorted m) (p : Pattern) (u : String) :
    (ofTable m).add p u = ofTable (insert p u m) := by
  have hcut := cut_place h p
  unfold add
  cases hplace : place (ofTable m) p with
  | found i =>
    rw [hplace] at hcut
    obtain ⟨a, v, b, rfl, rfl⟩ := hcut
    rw [insert_at h, ofTable_append, ofTable_append]
    have hlen : a.length = (ofTable a).length := (List.length_map _).symm
    rw [hlen]
    simp [ofTable, List.modify_eq_take_drop]
  | absent i =>
    rw [hplace] at hcut
    obtain ⟨a, b, rfl, rfl, ha, hb⟩ := hcut
    rw [insert_between ha hb, ofTable_append, ofTable_append]
    have hlen : a.length = (ofTable a).length := (List.length_map _).symm
    rw [hlen]
    exact List.modifyTailIdx_add (List.cons _) 0 (ofTable a) (ofTable b)

theorem delete?_ofTable (h : Sorted m) (p : Pattern) (u : String) :
    (ofTable m).delete? p u = if get? m p = some u then some (ofTable (erase m p)) else none := by
  have hcut := cut_place h p
  unfold delete?
  cases hplace : place (ofTable m) p with
  | found i =>
    rw [hplace] at hcut
    obtain ⟨a, v, b, rfl, rfl⟩ := hcut
    have hget : get? (a ++ (p, v) :: b) p = some v :=
      (get?_eq_some_iff h.nodup).mpr (by simp)
    have hfound : (ofTable (a ++ (p, v) :: b))[a.length]?.map ListEntry.uri = some v := by
      simp [ofTable]
    simp only [hget, hfound]
    rw [erase_at h, ofTable_append]
    have hlen : a.length = (ofTable a).length := (List.length_map _).symm
    rw [hlen, ofTable_append, List.eraseIdx_append_of_length_le (Nat.le_refl _), Nat.sub_self]
    rfl
  | absent i =>
    rw [hplace] at hcut
    obtain ⟨a, b, rfl, rfl, ha, hb⟩ := hcut
    have hnone : get? (a ++ b) p ≠ some u := by
      rw [Ne, get?_eq_some_iff h.nodup, List.mem_append]
      rintro (hmem | hmem)
      · exact lt_irrefl _ (ha _ hmem)
      · exact lt_irrefl _ (hb _ hmem)
    rw [if_neg hnone]

theorem search_ofTable (h : Table.Digital m) (id : Identifier) :
    (ofTable m).search id = reported id m := by
  rw [search, ofTable, List.filter_map, List.map_map, reported, matching]
  have haccepts : ∀ e ∈ m, (Filter.encode e.1 0).accepts id = e.1.isPrefixOf id.bits := by
    intro e he
    rw [Bool.eq_iff_iff, Filter.accepts_iff_isPrefix (h e he) (Nat.zero_le _),
      List.isPrefixOf_iff_prefix, List.drop_zero]
  exact congrArg (List.map (·.2)) (List.filter_congr haccepts)

end TagFilter.SortedList
