import TagFilter.Proofs.Tree.Shape

/-! # Moving a branch to the front

A search goes on below the first branch of a chain that accepts the identifier and
looks at no other. Moving this branch to the front therefore changes no answer, in
any tree at all: nothing is asked of the filters, of their patterns or of the order.
-/
namespace TagFilter

namespace WeightedTree
open Forest

variable {t t' : WeightedTree} {id : Identifier}

def accepting (id : Identifier) (tree : Branch × WeightedTree) : Bool := tree.1.filter.accepts id

/-- A search reads no more of a chain than its first branch that accepts. -/
theorem search_eq_find? (id : Identifier) (t : WeightedTree) :
    search id t = match t.siblings.find? (accepting id) with
      | some (b, below) => b.uri :: search id below
      | none => [] := by
  induction t with
  | nil => rfl
  | node b below rest _ ih =>
    rw [search, siblings, List.find?_cons, accepting]
    cases b.filter.accepts id with
    | true => rfl
    | false => exact ih

end WeightedTree

namespace SplayTree
open List (Perm)
open Forest WeightedTree

variable {id : Identifier} {t others below : SplayTree} {b : Branch}

theorem extract?_eq_none (h : extract? id t = none) :
    ∀ tree ∈ t.siblings, accepting id tree = false := by
  induction t with
  | nil => exact fun _ htree => absurd htree List.not_mem_nil
  | node c subset rest _ ih =>
    rw [extract?] at h
    split at h
    · cases h
    · next hreject =>
      exact List.forall_mem_cons.mpr ⟨Bool.eq_false_iff.mpr hreject,
        ih (Option.map_eq_none_iff.mp h)⟩

/-- What is taken out is the first branch that accepts; the others close up. -/
theorem extract?_eq_some (h : extract? id t = some (b, below, others)) :
    b.filter.accepts id = true ∧ ∃ lead rest, t.siblings = lead ++ (b, below) :: rest ∧
      others.siblings = lead ++ rest ∧ ∀ tree ∈ lead, accepting id tree = false := by
  induction t generalizing others with
  | nil => cases h
  | node c subset rest _ ih =>
    rw [extract?] at h
    split at h
    · next haccept =>
      simp only [Option.some.injEq, Prod.mk.injEq] at h
      obtain ⟨rfl, rfl, rfl⟩ := h
      exact ⟨haccept, [], rest.siblings, rfl, rfl, by simp⟩
    · next hreject =>
      obtain ⟨⟨d, inner, left⟩, hrest, heq⟩ := Option.map_eq_some_iff.mp h
      simp only [Prod.mk.injEq] at heq
      obtain ⟨rfl, rfl, rfl⟩ := heq
      obtain ⟨haccept, lead, later, hsplit, hleft, hlead⟩ := ih hrest
      exact ⟨haccept, (c, subset) :: lead, later, congrArg (_ :: ·) hsplit,
        congrArg (_ :: ·) hleft, List.forall_mem_cons.mpr ⟨Bool.eq_false_iff.mpr hreject, hlead⟩⟩

/-- The first branch that accepts is in front, and the others are in their order. -/
inductive Moved (id : Identifier) (t : SplayTree) : SplayTree → Prop where
  | none (h : ∀ tree ∈ t.siblings, accepting id tree = false) : Moved id t t
  | first {moved : SplayTree} (lead : List (Branch × SplayTree)) (tree : Branch × SplayTree)
    (rest : List (Branch × SplayTree)) (h : t.siblings = lead ++ tree :: rest)
    (hlead : ∀ other ∈ lead, accepting id other = false) (htree : accepting id tree = true)
    (hmoved : moved.siblings = tree :: (lead ++ rest)) : Moved id t moved

theorem moved_moveToFront (id : Identifier) (t : SplayTree) : Moved id t (moveToFront id t) := by
  unfold moveToFront
  split
  · next b below others hfound =>
    obtain ⟨haccept, lead, rest, hsplit, hothers, hlead⟩ := extract?_eq_some hfound
    exact .first lead (b, below) rest hsplit hlead haccept (congrArg (_ :: ·) hothers)
  · next hnone => exact .none (extract?_eq_none hnone)

theorem Moved.find?_eq {moved : SplayTree} (h : Moved id t moved) :
    moved.siblings.find? (accepting id) = t.siblings.find? (accepting id) := by
  cases h with
  | none => rfl
  | first lead tree rest hsplit hlead htree hmoved =>
    have hskip : lead.find? (accepting id) = .none :=
      List.find?_eq_none.mpr fun other hother => Bool.eq_false_iff.mp (hlead other hother)
    rw [hmoved, hsplit, List.find?_append, hskip, List.find?_cons_of_pos htree,
      List.find?_cons_of_pos htree]
    rfl

/-- An adaptive search of any tree gives what a plain search gives, before and after
it, and moves the first branch that accepts to the front. All branches stay, with all
that is below them, and a tree whose first branch accepts stays as it is. -/
theorem adaptive_search_moves (t : SplayTree) (id : Identifier) :
    let uris := (searchAdaptive id t).1
    let moved := (searchAdaptive id t).2
    uris = WeightedTree.search id t ∧ WeightedTree.search id moved = uris ∧
      Moved id t moved ∧ Perm moved.siblings t.siblings ∧
      ∀ head ∈ t.siblings.head?, accepting id head = true → moved = t := by
  have hmoved : Moved id t (moveToFront id t) := moved_moveToFront id t
  have hsearch : WeightedTree.search id (moveToFront id t) = WeightedTree.search id t := by
    rw [search_eq_find?, hmoved.find?_eq, ← search_eq_find?]
  refine ⟨hsearch, rfl, hmoved, perm_moveToFront id t, ?_⟩
  intro head hhead haccept
  cases t with
  | nil => cases hhead
  | node b below rest =>
    obtain rfl := Option.some.inj hhead
    have hfront : extract? id (.node b below rest) = some (b, below, rest) := if_pos haccept
    change moveToFront id (.node b below rest) = .node b below rest
    rw [moveToFront, hfront]

end SplayTree
end TagFilter
