import TagFilter.Engine.WeightedTree
import TagFilter.Proofs.Forests
import TagFilter.Proofs.Weights

/-! # Loads

The load of a branch is its own weight with all weights below it. Where weights
are whole numbers the sums by which a chain is sorted are loads, whatever the
order in which they were formed.
-/
namespace TagFilter
open List (Perm)
open Weight

namespace Forest

variable {α : Type} {weight : α → Weight} {label : α} {f subset : Forest α} {n : Nat}

/-- Sums from left to right and sums of sums are both exact. -/
theorem totalFrom_ofNat (heach : ∀ w ∈ f.weights weight, w = ofNat w.whole)
    (hsmall : n + total (f.weights weight) ≤ limit) :
    f.totalFrom weight (ofNat n) = ofNat (n + total (f.weights weight)) ∧
      ofNat n + f.totalFrom weight negZero = ofNat (n + total (f.weights weight)) := by
  induction f generalizing n with
  | nil =>
    rw [weights, total_nil, Nat.add_zero] at hsmall ⊢
    exact ⟨rfl, ofNat_add_negZero hsmall⟩
  | node label subset rest ih_subset ih_rest =>
    simp only [weights, List.cons_append, List.forall_mem_cons, List.forall_mem_append] at heach
    obtain ⟨hlabel, hsubset, hrest⟩ := heach
    simp only [weights, List.cons_append, total_cons, total_append] at hsmall ⊢
    have htree : weight label + subset.totalFrom weight negZero =
        ofNat ((weight label).whole + total (subset.weights weight)) := by
      have hsum := (ih_subset (n := (weight label).whole) hsubset (by omega)).2
      rwa [← hlabel] at hsum
    obtain ⟨hfrom, -⟩ := ih_rest (n := n + ((weight label).whole + total (subset.weights weight)))
      hrest (by omega)
    obtain ⟨hfirst, -⟩ := ih_rest (n := (weight label).whole + total (subset.weights weight))
      hrest (by omega)
    rw [totalFrom, totalFrom, htree, ofNat_add (by omega) (by omega),
      negZero_add_ofNat (by omega), hfrom, hfirst, ofNat_add (by omega) (by omega)]
    exact ⟨congrArg ofNat (by omega), congrArg ofNat (by omega)⟩

theorem treeWeight_eq (h : Exact (weight label :: subset.weights weight)) :
    treeWeight weight label subset = ofNat (total (weight label :: subset.weights weight)) := by
  obtain ⟨heach, hsmall⟩ := h
  obtain ⟨hlabel, hsubset⟩ := List.forall_mem_cons.mp heach
  have hsum := (totalFrom_ofNat (n := (weight label).whole) hsubset hsmall).2
  rwa [← hlabel] at hsum

end Forest

namespace WeightedTree
open Forest

def treeWeights (tree : Branch × WeightedTree) : List Weight :=
  tree.1.weight :: tree.2.weights Branch.weight

def load (tree : Branch × WeightedTree) : Nat := total (treeWeights tree)

variable {a b : Branch × WeightedTree}

theorem rank_weightOf (h : Exact (treeWeights a)) :
    (weightOf a.1 a.2).rank = (ofNat (load a)).rank := by
  rw [weightOf, treeWeight_eq h]
  rfl

/-- A branch stands before another that has less load, or as much and a later pattern. -/
theorem precedes_iff (ha : Exact (treeWeights a)) (hb : Exact (treeWeights b)) :
    precedes a b = true ↔
      load b < load a ∨ load a = load b ∧ a.1.filter.pattern < b.1.filter.pattern := by
  have hless : (ofNat (load b)).rank < (ofNat (load a)).rank ↔ load b < load a :=
    rank_ofNat_lt hb.small ha.small
  have hsame : (ofNat (load a)).rank = (ofNat (load b)).rank ↔ load a = load b := by
    have hinj : ofNat (load a) = ofNat (load b) ↔ load a = load b := ofNat_inj ha.small hb.small
    rw [← hinj]
    exact ⟨rank_injective, congrArg rank⟩
  simp only [precedes, rank_weightOf ha, rank_weightOf hb, Bool.or_eq_true, Bool.and_eq_true,
    decide_eq_true_eq, hsame]
  exact or_congr_left hless

/-- The weights of a tree are whole and can be summed exactly. -/
abbrev Whole (t : WeightedTree) : Prop := Exact (t.weights Branch.weight)

variable {t below rest : WeightedTree} {tree : Branch × WeightedTree} {b : Branch}

theorem Whole.of_mem (h : Whole t) (htree : tree ∈ t.siblings) : Exact (treeWeights tree) :=
  h.sublist (weights_tree htree)

theorem Whole.head (h : Whole (.node b below rest)) : Exact (treeWeights (b, below)) :=
  h.sublist (List.sublist_append_left _ _)

theorem Whole.subset (h : Whole (.node b below rest)) : Whole below :=
  h.head.sublist (List.sublist_cons_self _ _)

theorem Whole.tail (h : Whole (.node b below rest)) : Whole rest :=
  h.sublist (List.sublist_append_right _ _)

end WeightedTree
end TagFilter
