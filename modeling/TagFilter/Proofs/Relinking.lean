import TagFilter.Proofs.Linking

/-! # Linking once is enough

In a linked map no pattern of a level belongs below another. Linking makes every map so,
whether or not something lies below its patterns already, and it leaves a linked map as it
is. So linking again changes nothing: no pattern, offset or URI, and no bit of a weight.
-/
namespace TagFilter.Subscriptions
open Forest

variable {bits : Nat} {subs f : Subscriptions}

/-- No pattern of any level belongs below one that comes before it. -/
def Linked : Subscriptions → Prop
  | .nil => True
  | .node s below rest =>
    (∀ t ∈ rest.labels, isBelow s.pattern t = false) ∧ Linked below ∧ Linked rest

/-- Dividing a level again and again leaves a linked map, whose roots are roots of the level. -/
theorem linked_nestedWithin {steps : Nat} (hf : Ascending f) (hsteps : f.size ≤ steps) :
    Ascending (nestedWithin bits steps f) ∧ Linked (nestedWithin bits steps f) ∧
      (nestedWithin bits steps f).labels ⊆ f.labels := by
  induction steps generalizing f with
  | zero => exact ⟨trivial, trivial, List.nil_subset _⟩
  | succ steps ih =>
    cases f with
    | nil => exact ⟨trivial, trivial, List.nil_subset _⟩
    | node s subset rest =>
      obtain ⟨hfirst, hsubset, hrest⟩ := hf
      have hsize := size_adopt_filterRoots_le bits s subset rest
      obtain ⟨hbelow, hbelow', -⟩ :=
        ih (f := adopt bits s (rest.filterRoots (isBelow s.pattern)) subset)
          ((hrest.filterRoots _).adopt hsubset) (by omega)
      obtain ⟨hothers, hothers', hroots⟩ :=
        ih (f := rest.filterRoots fun t => !isBelow s.pattern t) (hrest.filterRoots _) (by omega)
      rw [nestedWithin]
      generalize nestedWithin bits steps (adopt bits s _ subset) = below at *
      generalize nestedWithin bits steps (rest.filterRoots _) = others at *
      rw [labels_filterRoots] at hroots
      have hlater : ∀ t ∈ others.labels, t ∈ rest.labels ∧ isBelow s.pattern t = false := by
        intro t ht
        obtain ⟨hin, hnot⟩ := List.mem_filter.mp (hroots ht)
        exact ⟨hin, Bool.not_eq_true' _ ▸ hnot⟩
      refine ⟨⟨?_, hbelow, hothers⟩, ⟨fun t ht => (hlater t ht).2, hbelow', hothers'⟩, ?_⟩
      · intro p hp
        obtain ⟨tree, htree, rfl⟩ := List.mem_map.mp hp
        obtain ⟨hin, -⟩ := hlater _ (List.mem_map_of_mem htree)
        obtain ⟨tree', htree', heq⟩ := List.mem_map.mp hin
        exact heq ▸ hfirst _ (List.mem_map_of_mem htree')
      · exact List.cons_subset_cons s fun t ht => (hlater t ht).1

theorem nestedWithin_of_linked {steps : Nat} (hf : Linked f) (hsteps : f.size ≤ steps) :
    nestedWithin bits steps f = f := by
  induction steps generalizing f with
  | zero =>
    cases f with
    | nil => rfl
    | node s subset rest => simp [size] at hsteps
  | succ steps ih =>
    cases f with
    | nil => rfl
    | node s subset rest =>
      obtain ⟨hfirst, hsubset, hrest⟩ := hf
      have hkept : ∀ t ∈ rest.labels, (!isBelow s.pattern t) = true := fun t ht => by
        rw [hfirst t ht, Bool.not_false]
      rw [size] at hsteps
      rw [nestedWithin, filterRoots_eq_nil hfirst, filterRoots_eq_self hkept, adopt,
        ih hsubset (by omega), ih hrest (by omega)]

/-- Linking a map gives a linked map, and linking that once more gives the same. -/
theorem linked_idempotent (h : Ascending subs) :
    Ascending subs.linked ∧ Linked subs.linked ∧ subs.linked.linked = subs.linked := by
  obtain ⟨hascending, hlinked, -⟩ : Ascending subs.nested ∧ Linked subs.nested ∧ _ :=
    linked_nestedWithin h (Nat.le_refl _)
  rw [linked_eq_nested_of_ascending h]
  refine ⟨hascending, hlinked, ?_⟩
  rw [linked_eq_nested_of_ascending hascending]
  exact nestedWithin_of_linked hlinked (Nat.le_refl _)

/-- Trees out of order: one goes below another that has something at its place, one ends where
positions start again at zero, and the empty pattern and wildcards stand at both levels. -/
def sampleTrees : List (Subscription × Subscriptions) :=
  [(⟨['0', '1', '1'], "late", ⟨4⟩, 0⟩, collect [(⟨['x'], "lost", ⟨5⟩, 9⟩, .nil)]),
    (⟨['0'], "a", Weight.undefined, 7⟩,
      collect [(⟨['1', '1', 'x'], "c", ⟨3⟩, 1⟩, .nil), (⟨['1', '1'], "b", ⟨2⟩, 5⟩, .nil),
        (⟨[], "empty", Weight.negZero, 0⟩, .nil)]),
    (⟨['x', '0'], "d", ⟨6⟩, 0⟩, .nil), (⟨[], "all", ⟨1⟩, 3⟩, .nil),
    (⟨['x'], "e", ⟨7⟩, UInt64.size - 1⟩, .nil)]

def sampleLinked : Subscriptions :=
  ofSiblings [(⟨[], "all", ⟨1⟩, 3⟩, .nil),
    (⟨['0'], "a", Weight.undefined, 7⟩,
      ofSiblings [(⟨[], "empty", Weight.negZero, 0⟩, .nil),
        (⟨['1', '1'], "b", ⟨2⟩, 5⟩, ofSiblings [(⟨['x'], "c", ⟨3⟩, 7⟩, .nil)])]),
    (⟨['x'], "e", ⟨7⟩, UInt64.size - 1⟩, ofSiblings [(⟨['0'], "d", ⟨6⟩, 0⟩, .nil)])]

theorem linked_idempotent_sample :
    (collect sampleTrees).linked = sampleLinked ∧ sampleLinked.linked = sampleLinked := by
  have hascending : Ascending (collect sampleTrees) := ascending_collect (by decide)
  have hlinked : (collect sampleTrees).linked = sampleLinked := by decide +kernel
  obtain ⟨-, -, hagain⟩ := linked_idempotent hascending
  rw [hlinked] at hagain
  exact ⟨hlinked, hagain⟩

end TagFilter.Subscriptions
