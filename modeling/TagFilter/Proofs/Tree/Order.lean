import TagFilter.Proofs.Tree.Loads
import TagFilter.Proofs.Tree.Updates

/-! # The order of chains

A tree is ordered when every chain is sorted, heaviest first, and none of its
patterns begins another. Placing a branch keeps a chain sorted, and a branch that
is added has no weight, so adding changes no load and keeps the order.
-/
namespace TagFilter.WeightedTree
open List (Perm)
open Forest Pattern Weight

def Before (a b : Branch × WeightedTree) : Prop :=
  precedes a b = true ∧ Apart a.1.filter.pattern b.1.filter.pattern

def Ordered : WeightedTree → Prop
  | .nil => True
  | .node b below rest =>
    (∀ next ∈ rest.siblings, Before (b, below) next) ∧ Ordered below ∧ Ordered rest

instance (a b : Branch × WeightedTree) : Decidable (Before a b) :=
  inferInstanceAs (Decidable (precedes a b = true ∧ ¬ a.1.filter.pattern <+: b.1.filter.pattern ∧
    ¬ b.1.filter.pattern <+: a.1.filter.pattern))

instance decidableOrdered : DecidablePred Ordered
  | .nil => .isTrue trivial
  | .node b below rest =>
    have := decidableOrdered below
    have := decidableOrdered rest
    inferInstanceAs (Decidable ((∀ next ∈ rest.siblings, Before (b, below) next) ∧
      Ordered below ∧ Ordered rest))

variable {a c d tree : Branch × WeightedTree} {b : Branch} {t chain below rest freed : WeightedTree}
  {offset : Nat} {p q : Pattern} {u : String}

theorem ordered_iff :
    Ordered t ↔ t.siblings.Pairwise Before ∧ ∀ tree ∈ t.siblings, Ordered tree.2 := by
  induction t with
  | nil => simp [Ordered, siblings]
  | node b below rest _ ih =>
    rw [Ordered, ih, siblings, List.pairwise_cons, List.forall_mem_cons]
    constructor
    · rintro ⟨hfirst, hbelow, hpairs, hall⟩
      exact ⟨⟨hfirst, hpairs⟩, hbelow, hall⟩
    · rintro ⟨⟨hfirst, hpairs⟩, hbelow, hall⟩
      exact ⟨hfirst, hbelow, hpairs, hall⟩

theorem precedes_iff_rank : precedes a c = true ↔
    (weightOf c.1 c.2).rank < (weightOf a.1 a.2).rank ∨
      (weightOf a.1 a.2).rank = (weightOf c.1 c.2).rank ∧
        a.1.filter.pattern < c.1.filter.pattern := by
  simp only [precedes, Bool.or_eq_true, Bool.and_eq_true, decide_eq_true_eq]

theorem precedes_trans (h : precedes a c = true) (h' : precedes c d = true) :
    precedes a d = true := by
  rw [precedes_iff_rank] at *
  obtain h | ⟨heq, h⟩ := h
  · obtain h' | ⟨heq', -⟩ := h'
    · exact .inl (h'.trans h)
    · exact .inl (heq' ▸ h)
  · obtain h' | ⟨heq', h'⟩ := h'
    · exact .inl (heq ▸ h')
    · exact .inr ⟨heq.trans heq', h.trans h'⟩

theorem precedes_of_not (hne : a.1.filter.pattern ≠ c.1.filter.pattern)
    (h : ¬ precedes a c = true) : precedes c a = true := by
  rw [precedes_iff_rank] at *
  obtain hlt | heq | hgt := Int.lt_trichotomy (weightOf a.1 a.2).rank (weightOf c.1 c.2).rank
  · exact .inl hlt
  · obtain hlt | hgt := lt_or_gt_of_ne hne
    · exact absurd (.inr ⟨heq, hlt⟩) h
    · exact .inr ⟨heq.symm, hgt⟩
  · exact absurd (.inl hgt) h

theorem ordered_place (h : Ordered chain) (hbelow : Ordered below)
    (hapart : ∀ tree ∈ chain.siblings, Apart b.filter.pattern tree.1.filter.pattern) :
    Ordered (place b below chain) := by
  induction chain with
  | nil => exact ⟨by simp [siblings], hbelow, trivial⟩
  | node c subset rest _ ih =>
    obtain ⟨hfirst, hsubset, hrest⟩ := id h
    obtain ⟨hhead, htail⟩ := List.forall_mem_cons.mp hapart
    rw [place]
    by_cases hprec : precedes (b, below) (c, subset) = true
    · rw [if_pos hprec]
      refine ⟨fun next hnext => ⟨?_, hapart next hnext⟩, hbelow, h⟩
      obtain rfl | hnext := List.mem_cons.mp hnext
      · exact hprec
      · exact precedes_trans hprec (hfirst next hnext).1
    · rw [if_neg hprec]
      refine ⟨?_, hsubset, ih hrest htail⟩
      intro next hnext
      obtain rfl | hnext := List.mem_cons.mp ((perm_place b below rest).subset hnext)
      · exact ⟨precedes_of_not hhead.ne hprec, hhead.symm⟩
      · exact hfirst next hnext

theorem sublist_place (b : Branch) (below chain : WeightedTree) :
    chain.siblings.Sublist (place b below chain).siblings := by
  induction chain with
  | nil => exact List.nil_sublist _
  | node c subset rest _ ih =>
    rw [place]
    split
    · exact List.sublist_cons_self _ _
    · exact ih.cons_cons _

theorem sublist_placeAll (freed chain : WeightedTree) :
    chain.siblings.Sublist (placeAll freed chain).siblings := by
  induction freed generalizing chain with
  | nil => exact List.Sublist.refl _
  | node b below rest _ ih => exact (sublist_place b below chain).trans (ih _)

/-- Placing branches orders nothing that was not, and disorders nothing. -/
theorem ordered_placeAll_iff (hfreed : ∀ tree ∈ freed.siblings, Ordered tree.2)
    (hapart : (freed.siblings ++ chain.siblings).Pairwise
      fun a c => Apart a.1.filter.pattern c.1.filter.pattern) :
    Ordered (placeAll freed chain) ↔ Ordered chain := by
  constructor
  · intro h
    obtain ⟨hpairs, hall⟩ := ordered_iff.mp h
    have hsub := sublist_placeAll freed chain
    exact ordered_iff.mpr ⟨hpairs.sublist hsub, fun tree htree => hall tree (hsub.subset htree)⟩
  · intro h
    induction freed generalizing chain with
    | nil => exact h
    | node b below rest _ ih =>
      obtain ⟨hbelow, hrest⟩ := List.forall_mem_cons.mp hfreed
      obtain ⟨hfirst, hpairs⟩ := List.pairwise_cons.mp hapart
      have hplaced : (rest.siblings ++ (place b below chain).siblings).Pairwise
          fun a c => Apart a.1.filter.pattern c.1.filter.pattern := by
        have hperm := ((perm_place b below chain).append_left rest.siblings).trans List.perm_middle
        exact (hperm.pairwise_iff Apart.symm).mpr hapart
      rw [placeAll]
      exact ih hrest hplaced (ordered_place h hbelow fun tree htree =>
        hfirst tree (List.mem_append.mpr (.inr htree)))

theorem weights_place (b : Branch) (below chain : WeightedTree) :
    Perm ((place b below chain).weights Branch.weight)
      (treeWeights (b, below) ++ chain.weights Branch.weight) :=
  weights_perm (g := .node b below chain) (perm_place b below chain)

theorem weights_placeAll (freed chain : WeightedTree) :
    Perm ((placeAll freed chain).weights Branch.weight)
      (freed.weights Branch.weight ++ chain.weights Branch.weight) := by
  have hperm := perm_placeAll freed chain
  rw [← siblings_append] at hperm
  refine (weights_perm hperm).trans ?_
  rw [weights_eq, siblings_append, List.flatMap_append, ← weights_eq, ← weights_eq]

/-- Below a pattern that both begin with, branches keep their order. -/
theorem before_demoted (ha : p <+: a.1.filter.pattern) (hc : p <+: c.1.filter.pattern)
    (h : Before a c) : Before (demoted p a.1, a.2) (demoted p c.1, c.2) := by
  obtain ⟨q, hq⟩ := ha
  obtain ⟨r, hr⟩ := hc
  have hq' : (demoted p a.1).filter.pattern = q := by
    rw [demoted, ← hq, List.drop_left]
    rfl
  have hr' : (demoted p c.1).filter.pattern = r := by
    rw [demoted, ← hr, List.drop_left]
    rfl
  obtain ⟨hprec, hapart⟩ := h
  rw [precedes_iff_rank, ← hq, ← hr, append_lt_append_iff] at hprec
  rw [← hq, ← hr, apart_append_iff] at hapart
  rw [Before, precedes_iff_rank, hq', hr']
  exact ⟨hprec, hapart⟩

theorem ordered_taken (h : Ordered chain) (p : Pattern) : Ordered (taken p chain) := by
  obtain ⟨hpairs, hall⟩ := ordered_iff.mp h
  rw [ordered_iff]
  constructor
  · rw [siblings_taken, List.pairwise_map]
    refine (hpairs.filter _).imp_of_mem fun ha hc hac => ?_
    have hext := List.isPrefixOf_iff_prefix.mp (List.mem_filter.mp ha).2
    exact before_demoted hext (List.isPrefixOf_iff_prefix.mp (List.mem_filter.mp hc).2) hac
  · intro tree htree
    obtain ⟨old, hold, -, rfl⟩ := mem_taken.mp htree
    exact hall old hold

theorem ordered_spared (h : Ordered chain) (p : Pattern) : Ordered (spared p chain) := by
  obtain ⟨hpairs, hall⟩ := ordered_iff.mp h
  rw [ordered_iff]
  constructor
  · rw [siblings_spared]
    exact hpairs.filter _
  · intro tree htree
    exact hall tree (mem_spared.mp htree).1

end TagFilter.WeightedTree
