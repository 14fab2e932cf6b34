import TagFilter.Engine.Blob
import TagFilter.Proofs.Tree.Order

/-! # Adding and deleting again

What adding a pattern moves below it, deleting the pattern moves up again, with the
filters that it had before. In an ordered chain each branch has one place, given by
its weight and its pattern, so all of them come back to where they stood. Nothing is
asked of the weights: they are compared, and never added up in another way.
-/
namespace TagFilter
namespace WeightedTree
open List (Perm)
open Forest Pattern

variable {offset : Nat} {t chain below rest : WeightedTree} {b : Branch}
  {a c tree : Branch × WeightedTree} {p q : Pattern} {u : String}

/-- Each filter is encoded where the pattern of the branch above it ends. -/
def Encoded : Nat → WeightedTree → Prop
  | _, .nil => True
  | offset, .node b below rest =>
    b.filter = Filter.encode b.filter.pattern offset ∧
      Encoded (offset + b.filter.pattern.size) below ∧ Encoded offset rest

instance decidableEncoded : ∀ offset, DecidablePred (Encoded offset)
  | _, .nil => .isTrue trivial
  | offset, .node b below rest =>
    have := decidableEncoded (offset + b.filter.pattern.size) below
    have := decidableEncoded offset rest
    inferInstanceAs (Decidable (b.filter = Filter.encode b.filter.pattern offset ∧
      Encoded (offset + b.filter.pattern.size) below ∧ Encoded offset rest))

theorem Encoded.filter_eq (h : Encoded offset t) (htree : tree ∈ t.siblings) :
    tree.1.filter = Filter.encode tree.1.filter.pattern offset := by
  induction t with
  | nil => exact absurd htree List.not_mem_nil
  | node b below rest _ ih =>
    obtain ⟨hfilter, -, hrest⟩ := h
    obtain rfl | htree := List.mem_cons.mp htree
    · exact hfilter
    · exact ih hrest htree

theorem precedes_asymm (h : precedes a c = true) : ¬ precedes c a = true := fun h' => by
  obtain hless | ⟨-, hless⟩ := precedes_iff_rank.mp (precedes_trans h h')
  · exact absurd hless (Int.lt_irrefl _)
  · exact absurd hless (lt_irrefl _)

/-- The branches of an ordered chain can stand in one order only. -/
theorem Ordered.eq_of_perm (h : Ordered chain) (ht : Ordered t)
    (hperm : Perm t.siblings chain.siblings) : t = chain := by
  have hsame : t.siblings = chain.siblings :=
    hperm.eq_of_pairwise (fun _ _ _ _ hac hca => absurd hca.1 (precedes_asymm hac.1))
      (ordered_iff.mp ht).1 (ordered_iff.mp h).1
  rw [← ofSiblings_siblings t, hsame, ofSiblings_siblings]

/-- Branches that are taken out of an ordered chain and placed again come back to
where they were. -/
theorem placeAll_filterRoots (h : Ordered chain) (keep : Branch → Bool) :
    placeAll (chain.filterRoots keep) (chain.filterRoots fun b => !keep b) = chain := by
  have hsplit : Perm ((chain.filterRoots keep).siblings ++
      (chain.filterRoots fun b => !keep b).siblings) chain.siblings := by
    rw [siblings_filterRoots, siblings_filterRoots]
    exact List.filter_append_perm (fun tree : Branch × WeightedTree => keep tree.1) _
  obtain ⟨hpairs, hall⟩ := ordered_iff.mp h
  have hinside : ∀ tree ∈ (chain.filterRoots keep).siblings, Ordered tree.2 := fun tree htree =>
    hall tree (hsplit.subset (List.mem_append.mpr (.inl htree)))
  have hapart := (hsplit.pairwise_iff Apart.symm).mpr (hpairs.imp fun hac => hac.2)
  have hspared : Ordered (chain.filterRoots fun b => !keep b) := by
    rw [ordered_iff, siblings_filterRoots]
    exact ⟨hpairs.filter _, fun tree htree => hall tree (List.mem_filter.mp htree).1⟩
  exact h.eq_of_perm ((ordered_placeAll_iff hinside hapart).mpr hspared)
    ((perm_placeAll _ _).trans hsplit)

theorem promoted_demoted (hfilter : b.filter = Filter.encode b.filter.pattern offset)
    (hpre : p <+: b.filter.pattern) : promoted (Filter.encode p offset) (demoted p b) = b := by
  obtain ⟨q, hq⟩ := hpre
  have hpattern : (demoted p b).filter.pattern = q := by
    rw [demoted, ← hq, List.drop_left, Filter.pattern_encode]
  rw [promoted, hpattern, Filter.pattern_encode, Filter.offset_encode, hq, ← hfilter]
  rfl

/-- What goes below a new pattern comes up as it was. -/
theorem mapRoots_promoted_taken (h : Encoded offset chain) (p : Pattern) :
    (taken p chain).mapRoots (promoted (Filter.encode p offset)) =
      chain.filterRoots fun b => p.isPrefixOf b.filter.pattern := by
  have hback : ∀ tree ∈ chain.siblings.filter fun tree => p.isPrefixOf tree.1.filter.pattern,
      (promoted (Filter.encode p offset) (demoted p tree.1), tree.2) = tree := by
    intro tree htree
    obtain ⟨hin, hpre⟩ := List.mem_filter.mp htree
    rw [promoted_demoted (h.filter_eq hin) (List.isPrefixOf_iff_prefix.mp hpre)]
  rw [← ofSiblings_siblings (mapRoots _ _), ← ofSiblings_siblings (filterRoots _ _),
    siblings_mapRoots, siblings_taken, siblings_filterRoots, List.map_map]
  exact congrArg ofSiblings ((List.map_congr_left hback).trans (List.map_id _))

/-- A branch is found again wherever it was placed. -/
theorem detach?_place
    (hnot : ∀ tree ∈ chain.siblings, ¬ tree.1.filter.pattern <+: b.filter.pattern) :
    detach? b.uri b.filter.pattern (place b below chain) =
      some (chain, below.mapRoots (promoted b.filter)) := by
  induction chain with
  | nil => rw [place, detach?_here, if_pos rfl]
  | node c subset rest _ ih =>
    obtain ⟨hfirst, hrest⟩ := List.forall_mem_cons.mp hnot
    rw [place]
    split
    · rw [detach?_here, if_pos rfl]
    · rw [detach?_later hfirst, ih hrest]
      rfl

theorem delete?_addNew (h : Ordered chain) (hencoded : Encoded offset chain)
    (hnot : ∀ tree ∈ chain.siblings, ¬ tree.1.filter.pattern <+: p) (u : String) :
    delete? p u (addNew p offset u chain) = some chain := by
  have hspared : ∀ tree ∈ (spared p chain).siblings, ¬ tree.1.filter.pattern <+: p :=
    fun tree htree => hnot tree (mem_spared.mp htree).1
  have hfound : detach? u p (addNew p offset u chain) =
      some (spared p chain, (taken p chain).mapRoots (promoted (Filter.encode p offset))) :=
    detach?_place (b := ⟨u, Filter.encode p offset, Weight.zero⟩) hspared
  rw [delete?, hfound, mapRoots_promoted_taken hencoded]
  exact congrArg some (placeAll_filterRoots h _)

/-- Whether deleting a pattern undoes what adding it made of a chain. If nothing was
made of it, no branch of the chain begins the pattern. -/
def Undone (chain : WeightedTree) (p : Pattern) (u : String) : Option WeightedTree → Prop
  | none => ∀ tree ∈ chain.siblings, ¬ tree.1.filter.pattern <+: p
  | some t => detach? u p t = some (chain, .nil)

theorem Undone.delete? {result : Option WeightedTree} (h : Ordered chain)
    (hencoded : Encoded offset chain) (hundone : Undone chain p u result) :
    delete? p u (result.getD (addNew p offset u chain)) = some chain := by
  cases result with
  | none => exact delete?_addNew h hencoded hundone u
  | some t => exact congrArg _ hundone

theorem Undone.deeper {below' : WeightedTree} (hq : q ≠ [])
    (hdelete : WeightedTree.delete? q u below' = some below) :
    Undone (.node b below rest) (b.filter.pattern ++ q) u (some (.node b below' rest)) := by
  obtain ⟨⟨remaining, freed⟩, hresult, rfl⟩ := Option.map_eq_some_iff.mp hdelete
  rw [Undone, detach?_append hq, hresult]
  rfl

theorem Undone.later {result : Option WeightedTree} (hpre : ¬ b.filter.pattern <+: p)
    (hundone : Undone rest p u result) :
    Undone (.node b below rest) p u (result.map (.node b below ·)) := by
  cases result with
  | none => exact List.forall_mem_cons.mpr ⟨hpre, hundone⟩
  | some rest' => exact (detach?_later hpre).trans (congrArg _ hundone)

/-- A pattern that no branch stands for ends below a branch or beside all of them. -/
theorem undone_addBelow? (h : Ordered chain) (hencoded : Encoded offset chain)
    (habsent : ∀ e ∈ entries reading chain, e.1 ≠ p) :
    Undone chain p u (addBelow? u p offset chain) := by
  induction chain generalizing offset p with
  | nil => simp [addBelow?, Undone, siblings]
  | node b below rest ih_below ih_rest =>
    obtain ⟨-, hbelow, hrest⟩ := h
    obtain ⟨-, hinner, houter⟩ := hencoded
    obtain ⟨hhere, hlater⟩ := List.forall_mem_append.mp habsent
    obtain rfl | ⟨q, hq, rfl⟩ | hpre := isPrefix_cases b.filter.pattern p
    · exact absurd (List.append_nil _) (hhere _ List.mem_cons_self)
    · have habsent' : ∀ e ∈ entries reading below, e.1 ≠ q := fun e he heq =>
        hhere _ (List.mem_cons_of_mem _ (List.mem_map_of_mem he))
          (congrArg (b.filter.pattern ++ ·) heq)
      rw [addBelow?_append hq]
      exact Undone.deeper hq ((ih_below hbelow hinner habsent').delete? hbelow hinner)
    · rw [addBelow?_later hpre]
      exact Undone.later hpre (ih_rest hrest houter hlater)

theorem delete?_add (h : Ordered t) (hencoded : Encoded 0 t)
    (habsent : ∀ e ∈ entries reading t, e.1 ≠ p) (u : String) :
    delete? p u (add p u t) = some t :=
  (undone_addBelow? h hencoded habsent).delete? h hencoded

end WeightedTree

namespace Engine
open WeightedTree Forest

/-- In a tree whose chains are all in order, a pattern that comes and goes leaves no
trace: the branches that lay below it stand where they stood, with their filters. -/
theorem delete_add_restores {t : WeightedTree} {p : Pattern} (hordered : Ordered t)
    (hencoded : Encoded 0 t) (habsent : p ∉ (entries reading t).map (·.1)) (u : String) :
    ∃ after, ((weightedTree t).add p u).delete p u = .ok after ∧ after = weightedTree t ∧
      after.dump = (weightedTree t).dump ∧ after.toBytes = (weightedTree t).toBytes := by
  have hnot : ∀ e ∈ entries reading t, e.1 ≠ p := fun e he heq =>
    habsent (List.mem_map.mpr ⟨e, he, heq⟩)
  refine ⟨weightedTree t, ?_, rfl, rfl, rfl⟩
  rw [Engine.add, Engine.delete, Engine.delete?, delete?_add hordered hencoded hnot u]
  rfl

/-- A chain with a weight that is no number in front and two equal weights at its end. -/
def scatteredTree : WeightedTree :=
  .node ⟨"A", Filter.encode ['0', '0', '1', '1'] 0, ⟨0x7FF8000000000000⟩⟩
    (.node ⟨"A2", Filter.encode ['0', '0', '0', '0'] 4, ⟨0x4000000000000000⟩⟩ .nil .nil)
    (.node ⟨"X", Filter.encode ['0', '1', '0', '1'] 0, ⟨0x3FF0000000000000⟩⟩ .nil
      (.node ⟨"B", Filter.encode ['0', '0', '1', '0'] 0, Weight.zero⟩ .nil
        (.node ⟨"C", Filter.encode ['1', '1', '1', '1'] 0, Weight.zero⟩ .nil .nil)))

theorem delete_add_restores_scattered :
    chainPatterns (WeightedTree.add ['0', '0', '1'] "G" scatteredTree) =
        [['0', '0', '1'], ['0', '1', '0', '1'], ['1', '1', '1', '1']] ∧
      ∃ after, ((weightedTree scatteredTree).add ['0', '0', '1'] "G").delete ['0', '0', '1'] "G" =
          .ok after ∧ after = weightedTree scatteredTree ∧
        after.dump = (weightedTree scatteredTree).dump ∧
        after.toBytes = (weightedTree scatteredTree).toBytes := by
  have hordered : Ordered scatteredTree := by decide +kernel
  have hencoded : Encoded 0 scatteredTree := by decide +kernel
  have habsent : ['0', '0', '1'] ∉ (entries reading scatteredTree).map (·.1) := by decide +kernel
  exact ⟨by decide +kernel, delete_add_restores hordered hencoded habsent "G"⟩

end Engine
end TagFilter
