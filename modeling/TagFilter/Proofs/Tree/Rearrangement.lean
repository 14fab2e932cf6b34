import TagFilter.Proofs.Related
import TagFilter.Proofs.Tree.Updates

/-! # Trees up to the order of siblings

Two forests are rearranged if they differ in the order of siblings only, at any level.
A placed tree has at most one branch at each level that a pattern goes on with, so adding
and deleting find the same one in both of two such trees, and leave such trees.
-/
namespace TagFilter

namespace Forest
open List (Perm)
open Pattern

variable {α : Type} {r : Reading α} {offset : Nat} {f g f' g' : Forest α}

inductive Rearranged : Forest α → Forest α → Prop where
  | nil : Rearranged nil nil
  | node (label : α) {below below' rest rest' : Forest α} : Rearranged below below' →
    Rearranged rest rest' → Rearranged (node label below rest) (node label below' rest')
  | swap (a : α) (inner : Forest α) (b : α) (outer rest : Forest α) :
    Rearranged (node a inner (node b outer rest)) (node b outer (node a inner rest))
  | trans {f g h : Forest α} : Rearranged f g → Rearranged g h → Rearranged f h

namespace Rearranged

theorem refl (f : Forest α) : Rearranged f f := by
  induction f with
  | nil => exact .nil
  | node label below rest ih_below ih_rest => exact .node label ih_below ih_rest

theorem symm (h : Rearranged f g) : Rearranged g f := by
  induction h with
  | nil => exact .nil
  | node label _ _ ih_below ih_rest => exact .node label ih_below ih_rest
  | swap a inner b outer rest => exact .swap b outer a inner rest
  | trans _ _ ih ih' => exact ih'.trans ih

/-- The order of one level. -/
theorem of_perm (h : Perm f.siblings g.siblings) : Rearranged f g := by
  have hlists {trees trees' : List (α × Forest α)} (h : Perm trees trees') :
      Rearranged (ofSiblings trees) (ofSiblings trees') := by
    induction h with
    | nil => exact .nil
    | cons tree _ ih => exact .node tree.1 (refl tree.2) ih
    | swap a b trees => exact .swap b.1 b.2 a.1 a.2 (ofSiblings trees)
    | trans _ _ ih ih' => exact ih.trans ih'
  have hsiblings := hlists h
  rwa [ofSiblings_siblings, ofSiblings_siblings] at hsiblings

theorem append_right (h : Rearranged f g) (more : Forest α) :
    Rearranged (f.append more) (g.append more) := by
  induction h with
  | nil => exact refl more
  | node label hbelow _ _ ih => exact .node label hbelow ih
  | swap a inner b outer rest => exact .swap a inner b outer (rest.append more)
  | trans _ _ ih ih' => exact ih.trans ih'

theorem append (h : Rearranged f f') (h' : Rearranged g g') :
    Rearranged (f.append g) (f'.append g') := by
  refine (h.append_right g).trans ?_
  clear h
  induction f' with
  | nil => exact h'
  | node label below rest _ ih => exact .node label (refl below) ih

/-- A tree may stand before or after what its level begins with. -/
theorem middle (lead : Forest α) (label : α) (below rest : Forest α) :
    Rearranged (lead.append (.node label below rest)) (.node label below (lead.append rest)) := by
  refine of_perm ?_
  rw [siblings_append, siblings, siblings, siblings_append]
  exact List.perm_middle

theorem filterRoots (h : Rearranged f g) (keep : α → Bool) :
    Rearranged (f.filterRoots keep) (g.filterRoots keep) := by
  induction h with
  | nil => exact .nil
  | node label hbelow _ _ ih =>
    rw [Forest.filterRoots, Forest.filterRoots]
    split
    · exact .node label hbelow ih
    · exact ih
  | swap a inner b outer rest =>
    refine of_perm ?_
    rw [siblings_filterRoots, siblings_filterRoots]
    exact (Perm.swap _ _ _).filter _
  | trans _ _ ih ih' => exact ih.trans ih'

theorem mapRoots (h : Rearranged f g) (change : α → α) :
    Rearranged (f.mapRoots change) (g.mapRoots change) := by
  induction h with
  | nil => exact .nil
  | node label hbelow _ _ ih => exact .node (change label) hbelow ih
  | swap a inner b outer rest => exact .swap (change a) inner (change b) outer _
  | trans _ _ ih ih' => exact ih.trans ih'

theorem roots_perm (h : Rearranged f g) : Perm (roots r f) (roots r g) := by
  induction h with
  | nil => exact .refl _
  | node label _ _ _ ih => exact ih.cons _
  | swap a inner b outer rest => exact .swap _ _ _
  | trans _ _ ih ih' => exact ih.trans ih'

theorem placed (h : Rearranged f g) (hf : Placed r offset f) : Placed r offset g := by
  induction h generalizing offset with
  | nil => exact hf
  | node label hbelow hrest ih_below ih_rest =>
    obtain ⟨hhead, ⟨hplaced, hproper⟩, hapart, hlast⟩ := hf
    exact ⟨hhead, ⟨ih_below hplaced, fun p hp => hproper p (hbelow.roots_perm.symm.subset hp)⟩,
      fun p hp => hapart p (hrest.roots_perm.symm.subset hp), ih_rest hlast⟩
  | swap a inner b outer rest =>
    exact placed_iff.mpr ((placed_iff.mp hf).of_perm (.swap _ _ _))
  | trans _ _ ih ih' => exact ih' (ih hf)

end Rearranged
end Forest

namespace WeightedTree
open Forest Pattern

variable {offset : Nat} {t t' : WeightedTree} {b : Branch} {p : Pattern}

theorem rearranged_place (b : Branch) (below chain : WeightedTree) :
    Rearranged (place b below chain) (.node b below chain) := .of_perm (perm_place b below chain)

theorem rearranged_placeAll (freed chain : WeightedTree) :
    Rearranged (placeAll freed chain) (freed.append chain) := by
  refine .of_perm ?_
  rw [siblings_append]
  exact perm_placeAll freed chain

/-- A new branch takes in the same branches, wherever it is placed. -/
theorem addNew_congr (h : Rearranged t t') (p : Pattern) (offset : Nat) (u : String) :
    Rearranged (addNew p offset u t) (addNew p offset u t') := by
  have htaken : Rearranged (taken p t) (taken p t') := (h.filterRoots _).mapRoots _
  have hspared : Rearranged (spared p t) (spared p t') := h.filterRoots _
  rw [addNew_eq, addNew_eq]
  exact (rearranged_place _ _ _).trans
    ((Rearranged.node _ htaken hspared).trans (rearranged_place _ _ _).symm)

/-- A branch on the way to a pattern takes all of the change, whatever follows it. -/
theorem addBelow?_of_prefix (hpre : b.filter.pattern <+: p) (u : String) (start : Nat)
    (below : WeightedTree) : ∃ b' below', ∀ rest,
      addBelow? u p start (.node b below rest) = some (.node b' below' rest) := by
  obtain rfl | ⟨q, hq, rfl⟩ | hnot := isPrefix_cases b.filter.pattern p
  · exact ⟨_, _, addBelow?_here u b start below⟩
  · exact ⟨_, _, fun rest => addBelow?_append hq⟩
  · exact absurd hpre hnot

theorem addBelow?_congr (h : Rearranged t t') (hplaced : Placed reading offset t)
    (u : String) (p : Pattern) (start : Nat) :
    Option.Rel Rearranged (addBelow? u p start t) (addBelow? u p start t') := by
  induction h generalizing offset p start with
  | nil => exact .none
  | node b hbelow hrest ih_below ih_rest =>
    obtain ⟨-, ⟨hinner, -⟩, -, houter⟩ := hplaced
    obtain rfl | ⟨q, hq, rfl⟩ | hnot := isPrefix_cases b.filter.pattern p
    · rw [addBelow?_here, addBelow?_here]
      exact .some (.node _ hbelow hrest)
    · rw [addBelow?_append hq, addBelow?_append hq]
      exact .some (.node b (rel_getD (ih_below hinner q _) (addNew_congr hbelow q _ u)) hrest)
    · rw [addBelow?_later hnot, addBelow?_later hnot]
      exact rel_map (ih_rest houter p start) fun _ _ hrest => .node b hbelow hrest
  | swap a inner b outer rest =>
    have hapart : Apart a.filter.pattern b.filter.pattern := hplaced.2.2.1 _ List.mem_cons_self
    by_cases ha : a.filter.pattern <+: p
    · obtain ⟨a', inner', hadded⟩ := addBelow?_of_prefix ha u start inner
      rw [hadded, addBelow?_later (hapart.not_isPrefix ha), hadded]
      exact .some (.swap a' inner' b outer rest)
    · by_cases hb : b.filter.pattern <+: p
      · obtain ⟨b', outer', hadded⟩ := addBelow?_of_prefix hb u start outer
        rw [hadded, addBelow?_later ha, hadded]
        exact .some (.swap a inner b' outer' rest)
      · rw [addBelow?_later ha, addBelow?_later hb, addBelow?_later hb, addBelow?_later ha,
          Option.map_map, Option.map_map]
        exact rel_map (rel_self Rearranged.refl _) fun rest rest' hrest =>
          (Rearranged.swap a inner b outer rest).trans (.node b (.refl _) (.node a (.refl _) hrest))
  | trans hfirst _ ih ih' =>
    exact rel_trans (fun _ _ _ => .trans) (ih hplaced p start) (ih' (hfirst.placed hplaced) p start)

theorem add_congr (h : Rearranged t t') (hplaced : Placed reading offset t) (p : Pattern)
    (u : String) : Rearranged (add p u t) (add p u t') :=
  rel_getD (addBelow?_congr h hplaced u p 0) (addNew_congr h p 0 u)

/-- A branch on the way to a pattern alone decides what is taken out; what follows it
stays. -/
theorem detach?_of_prefix (hpre : b.filter.pattern <+: p) (u : String) (below : WeightedTree) :
    ∃ outcome : Option (WeightedTree × WeightedTree), ∀ rest,
      detach? u p (.node b below rest) =
        outcome.map fun (lead, freed) => (lead.append rest, freed) := by
  obtain rfl | ⟨q, hq, rfl⟩ | hnot := isPrefix_cases b.filter.pattern p
  · refine ⟨if b.uri = u then some (.nil, below.mapRoots (promoted b.filter)) else none,
      fun rest => ?_⟩
    rw [detach?_here]
    split <;> rfl
  · refine ⟨(detach? u q below).map fun (remaining, freed) =>
      (.node b (placeAll freed remaining) .nil, .nil), fun rest => ?_⟩
    rw [detach?_append hq, Option.map_map]
    rfl
  · exact absurd hpre hnot

/-- What is left of a chain and what comes out of it. -/
def BothRearranged (result result' : WeightedTree × WeightedTree) : Prop :=
  Rearranged result.1 result'.1 ∧ Rearranged result.2 result'.2

theorem placeAll_congr {freed freed' : WeightedTree} (h : Rearranged freed freed')
    (h' : Rearranged t t') : Rearranged (placeAll freed t) (placeAll freed' t') :=
  (rearranged_placeAll freed t).trans ((h.append h').trans (rearranged_placeAll freed' t').symm)

theorem detach?_congr (h : Rearranged t t') (hplaced : Placed reading offset t)
    (u : String) (p : Pattern) :
    Option.Rel BothRearranged (detach? u p t) (detach? u p t') := by
  induction h generalizing offset p with
  | nil => exact .none
  | node b hbelow hrest ih_below ih_rest =>
    obtain ⟨-, ⟨hinner, -⟩, -, houter⟩ := hplaced
    obtain rfl | ⟨q, hq, rfl⟩ | hnot := isPrefix_cases b.filter.pattern p
    · rw [detach?_here, detach?_here]
      split
      · exact .some ⟨hrest, hbelow.mapRoots _⟩
      · exact .none
    · rw [detach?_append hq, detach?_append hq]
      exact rel_map (ih_below hinner q) fun _ _ hresult =>
        ⟨.node b (placeAll_congr hresult.2 hresult.1) hrest, .nil⟩
    · rw [detach?_later hnot, detach?_later hnot]
      exact rel_map (ih_rest houter p) fun _ _ hresult => ⟨.node b hbelow hresult.1, hresult.2⟩
  | swap a inner b outer rest =>
    have hapart : Apart a.filter.pattern b.filter.pattern := hplaced.2.2.1 _ List.mem_cons_self
    by_cases ha : a.filter.pattern <+: p
    · obtain ⟨outcome, hdetached⟩ := detach?_of_prefix ha u inner
      rw [hdetached, detach?_later (hapart.not_isPrefix ha), hdetached, Option.map_map]
      exact rel_map (rel_self (R := Eq) (fun _ => rfl) outcome) fun _ _ heq =>
        heq ▸ ⟨.middle _ b outer rest, .refl _⟩
    · by_cases hb : b.filter.pattern <+: p
      · obtain ⟨outcome, hdetached⟩ := detach?_of_prefix hb u outer
        rw [hdetached, detach?_later ha, hdetached, Option.map_map]
        exact rel_map (rel_self (R := Eq) (fun _ => rfl) outcome) fun _ _ heq =>
          heq ▸ ⟨(Rearranged.middle _ a inner rest).symm, .refl _⟩
      · rw [detach?_later ha, detach?_later hb, detach?_later hb, detach?_later ha,
          Option.map_map, Option.map_map]
        exact rel_map (rel_self (R := Eq) (fun _ => rfl) _) fun _ _ heq =>
          heq ▸ ⟨.swap a inner b outer _, .refl _⟩
  | trans hfirst _ ih ih' =>
    refine rel_trans ?_ (ih hplaced p) (ih' (hfirst.placed hplaced) p)
    exact fun _ _ _ hab hbc => ⟨hab.1.trans hbc.1, hab.2.trans hbc.2⟩

theorem delete?_congr (h : Rearranged t t') (hplaced : Placed reading offset t) (p : Pattern)
    (u : String) : Option.Rel Rearranged (delete? p u t) (delete? p u t') :=
  rel_map (detach?_congr h hplaced u p) fun _ _ hresult =>
    placeAll_congr hresult.2 hresult.1

end WeightedTree

theorem SplayTree.rearranged_moveToFront (id : Identifier) (t : SplayTree) :
    Forest.Rearranged (moveToFront id t) t := .of_perm (perm_moveToFront id t)

end TagFilter
