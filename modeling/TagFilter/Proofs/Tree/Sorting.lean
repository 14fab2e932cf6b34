import TagFilter.Proofs.Ascending
import TagFilter.Proofs.Tree.Order

/-! # Sorting the levels of a new tree

The levels of a nested map are in pattern order, and sorting them by weight keeps
this order where weights are equal. So every chain of a new tree is sorted as
later changes expect it.
-/
namespace TagFilter

/-- Sorting by a key is stable: what has the same key stays in its order. -/
theorem pairwise_mergeSort_key {α : Type} {k : α → Int} {r : α → α → Prop} {trees : List α}
    (h : trees.Pairwise r) : (trees.mergeSort fun a b => k b ≤ k a).Pairwise
      fun a b => k b < k a ∨ k a = k b ∧ r a b := by
  have htrans (a b c : α) (hab : decide (k b ≤ k a) = true)
      (hbc : decide (k c ≤ k b) = true) : decide (k c ≤ k a) = true := by
    rw [decide_eq_true_iff] at *
    exact hbc.trans hab
  have htotal (a b : α) : (decide (k b ≤ k a) || decide (k a ≤ k b)) = true := by
    rw [Bool.or_eq_true, decide_eq_true_iff, decide_eq_true_iff]
    exact Int.le_total _ _
  induction trees with
  | nil => simp
  | cons a trees ih =>
    obtain ⟨hfirst, hpairs⟩ := List.pairwise_cons.mp h
    obtain ⟨l₁, l₂, hcons, hrest, hearlier⟩ := List.mergeSort_cons htrans htotal a trees
    have hin : ∀ b ∈ l₁ ++ l₂, b ∈ trees := fun b hb =>
      (List.mergeSort_perm trees _).subset (hrest ▸ hb)
    have hsorted := List.pairwise_mergeSort htrans htotal (a :: trees)
    rw [hcons] at hsorted ⊢
    have hlater := (List.pairwise_cons.mp (List.pairwise_append.mp hsorted).2.1).1
    have hkept := ih hpairs
    rw [hrest] at hkept
    obtain ⟨hleft, hright, hacross⟩ := List.pairwise_append.mp hkept
    refine List.pairwise_append.mpr ⟨hleft, List.pairwise_cons.mpr ⟨?_, hright⟩, ?_⟩
    · intro c hc
      obtain hlt | heq := Int.lt_or_eq_of_le (of_decide_eq_true (hlater c hc))
      · exact .inl hlt
      · exact .inr ⟨heq.symm, hfirst c (hin c (List.mem_append.mpr (.inr hc)))⟩
    · intro b hb c hc
      obtain rfl | hc := List.mem_cons.mp hc
      · exact .inl (by simpa using hearlier b hb)
      · exact hacross b hb c hc

namespace WeightedTree
open List (Perm)
open Forest Pattern Weight

variable {offset : Nat} {f : Subscriptions} {level : List (Weight × Branch × WeightedTree)}

def heavier (a b : Weight × Branch × WeightedTree) : Bool := b.1.rank ≤ a.1.rank

theorem sortedTrees_before (hweight : ∀ e ∈ level, e.1 = weightOf e.2.1 e.2.2)
    (hlevel : level.Pairwise fun a b => a.2.1.filter.pattern < b.2.1.filter.pattern ∧
      Apart a.2.1.filter.pattern b.2.1.filter.pattern) :
    (sortedTrees level).Pairwise Before := by
  obtain ⟨hless, hapart⟩ := List.pairwise_and_iff.mp hlevel
  have hsorted := List.mergeSort_perm level heavier
  have hkey := pairwise_mergeSort_key (k := fun e => e.1.rank) hless
  have hapart' := (hsorted.pairwise_iff Apart.symm).mpr hapart
  refine List.pairwise_map.mpr ((hkey.and hapart').imp_of_mem ?_)
  intro a c ha hc hac
  rw [hweight a (hsorted.subset ha), hweight c (hsorted.subset hc)] at hac
  exact ⟨precedes_iff_rank.mpr hac.1, hac.2⟩

theorem growSiblings_ascending (h : Placed Subscriptions.reading offset f)
    (hascending : Subscriptions.Ascending f) :
    (growSiblings f).Pairwise fun a b => a.2.1.filter.pattern < b.2.1.filter.pattern ∧
      Apart a.2.1.filter.pattern b.2.1.filter.pattern := by
  obtain ⟨hlevel, -, hroots⟩ := growSiblings_placed h
  have hless : (roots Subscriptions.reading f).Pairwise (· < ·) :=
    List.pairwise_map.mpr (Subscriptions.ascending_iff.mp hascending).1
  rw [← hroots] at hless
  have hapart := List.pairwise_map.mp hlevel.apart
  exact (List.pairwise_map.mp (List.pairwise_map.mp hless)).and hapart

/-- Each branch is sorted by the weight that it has in the tree. -/
theorem growSiblings_ordered (h : Placed Subscriptions.reading offset f)
    (hascending : Subscriptions.Ascending f) (hexact : Exact (f.weights Subscription.weight)) :
    (∀ e ∈ growSiblings f, e.1 = weightOf e.2.1 e.2.2 ∧ Ordered e.2.2) ∧
      Perm ((growSiblings f).flatMap fun e => treeWeights e.2)
        (f.weights Subscription.weight) := by
  induction f generalizing offset with
  | nil => exact ⟨by simp [growSiblings], Perm.refl _⟩
  | node s below rest ih_below ih_rest =>
    obtain ⟨-, ⟨hbelow, -⟩, -, hrest⟩ := h
    obtain ⟨-, hascending, hascending'⟩ := hascending
    have htree : Exact (s.weight :: below.weights Subscription.weight) :=
      hexact.sublist (weights_tree (f := .node s below rest) List.mem_cons_self)
    obtain ⟨hall, hweights⟩ := ih_below hbelow hascending
      (htree.sublist (List.sublist_cons_self _ _))
    obtain ⟨hall', hweights'⟩ := ih_rest hrest hascending'
      (hexact.sublist (List.sublist_append_right _ _))
    have hgrown : (growSiblings (.node s below rest)) = (Subscriptions.weightOf s below,
        ⟨s.uri, Filter.encode s.pattern s.offset, s.weight⟩,
        ofSiblings (sortedTrees (growSiblings below))) :: growSiblings rest := rfl
    rw [hgrown]
    have hsorted := perm_sortedTrees (growSiblings below)
    have hsame : Perm ((ofSiblings (sortedTrees (growSiblings below))).weights Branch.weight)
        (below.weights Subscription.weight) := by
      rw [weights_eq, siblings_ofSiblings]
      refine (hsorted.flatMap_right _).trans ?_
      rw [List.flatMap_map]
      exact hweights
    have hordered : Ordered (ofSiblings (sortedTrees (growSiblings below))) := by
      rw [ordered_iff, siblings_ofSiblings]
      refine ⟨sortedTrees_before (fun e he => (hall e he).1)
        (growSiblings_ascending hbelow hascending), ?_⟩
      intro tree htree
      obtain ⟨e, he, rfl⟩ := List.mem_map.mp (hsorted.subset htree)
      exact (hall e he).2
    generalize ofSiblings (sortedTrees (growSiblings below)) = below' at *
    have hweight : Subscriptions.weightOf s below =
        weightOf ⟨s.uri, Filter.encode s.pattern s.offset, s.weight⟩ below' := by
      rw [Subscriptions.weightOf, weightOf, treeWeight_eq htree,
        treeWeight_eq (htree.of_perm (hsame.symm.cons _)), total_perm (hsame.cons _)]
    refine ⟨List.forall_mem_cons.mpr ⟨⟨hweight, hordered⟩, hall'⟩, ?_⟩
    rw [List.flatMap_cons]
    exact (hsame.cons _).append hweights'

theorem build_ordered (h : f.Flat) (hexact : Exact (f.weights Subscription.weight)) :
    Ordered (build f) ∧ Perm ((build f).weights Branch.weight) (f.weights Subscription.weight) := by
  have hnests := Subscriptions.nests_nested h
  obtain ⟨hall, hweights⟩ := growSiblings_ordered hnests.placed hnests.ascending
    (hexact.of_perm hnests.weights_perm.symm)
  have hsorted := perm_sortedTrees (growSiblings f.nested)
  have hbuild : (build f).siblings = sortedTrees (growSiblings f.nested) :=
    siblings_ofSiblings _
  constructor
  · rw [ordered_iff, hbuild]
    refine ⟨sortedTrees_before (fun e he => (hall e he).1)
      (growSiblings_ascending hnests.placed hnests.ascending), ?_⟩
    intro tree htree
    obtain ⟨e, he, rfl⟩ := List.mem_map.mp (hsorted.subset htree)
    exact (hall e he).2
  · rw [weights_eq, hbuild]
    refine (hsorted.flatMap_right _).trans ?_
    rw [List.flatMap_map]
    exact hweights.trans hnests.weights_perm

end WeightedTree
end TagFilter
