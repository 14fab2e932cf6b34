import TagFilter.Proofs.Tree.Growth

/-! # Maps in pattern order

A map keeps each of its levels in pattern order, whatever the patterns are and whatever
lies below them. Collecting trees makes such maps, and nesting only ever puts a tree at
its place or leaves some out.
-/
namespace TagFilter.Subscriptions
open Forest

variable {bits offset : Nat} {f level below subset rest : Subscriptions} {s t parent : Subscription}
  {tree : Subscription × Subscriptions} {trees : List (Subscription × Subscriptions)}

theorem ascending_iff : Ascending f ↔
    f.siblings.Pairwise (fun a b => a.1.pattern < b.1.pattern) ∧
      ∀ tree ∈ f.siblings, Ascending tree.2 := by
  induction f with
  | nil => simp [Ascending, siblings]
  | node s below rest _ ih =>
    rw [Ascending, ih, siblings, List.pairwise_cons, List.forall_mem_cons, roots,
      List.forall_mem_map]
    constructor
    · rintro ⟨hfirst, hbelow, hpairs, hall⟩
      exact ⟨⟨hfirst, hpairs⟩, hbelow, hall⟩
    · rintro ⟨⟨hfirst, hpairs⟩, hbelow, hall⟩
      exact ⟨hfirst, hbelow, hpairs, hall⟩

instance decidableAscending : DecidablePred Ascending
  | .nil => .isTrue trivial
  | .node s below rest =>
    have := decidableAscending below
    have := decidableAscending rest
    inferInstanceAs (Decidable ((∀ p ∈ roots reading rest, s.pattern < p) ∧
      Ascending below ∧ Ascending rest))

theorem FlatAt.ascending (h : FlatAt offset f) : Ascending f := by
  induction f with
  | nil => trivial
  | node s below rest _ ih =>
    obtain ⟨-, -, rfl⟩ := h.head
    refine ⟨?_, trivial, ih h.tail⟩
    intro p hp
    obtain ⟨tree, htree, rfl⟩ := List.mem_map.mp hp
    exact (List.pairwise_cons.mp h.sorted).1 _ (List.mem_map_of_mem (List.mem_map_of_mem htree))

theorem Ascending.filterRoots (h : Ascending f) (keep : Subscription → Bool) :
    Ascending (f.filterRoots keep) := by
  obtain ⟨hpairs, hall⟩ := ascending_iff.mp h
  rw [ascending_iff, siblings_filterRoots]
  exact ⟨hpairs.filter _, fun tree htree => hall tree (List.mem_filter.mp htree).1⟩

theorem mem_siblings_putNew (h : tree ∈ (putNew s below f).siblings) :
    tree = (s, below) ∨ tree ∈ f.siblings := by
  induction f with
  | nil => exact .inl (List.mem_singleton.mp h)
  | node t subset rest _ ih =>
    simp only [putNew] at h
    split at h
    · exact List.mem_cons.mp h
    · split at h
      · exact .inr h
      · rcases List.mem_cons.mp h with h | h
        · exact .inr (h ▸ List.mem_cons_self)
        · exact (ih h).imp_right (List.mem_cons_of_mem _)

/-- What is put in front of a level comes before all of it. -/
theorem Ascending.before (h : Ascending (.node t subset rest)) (hbelow : Ascending below)
    (hlt : s.pattern < t.pattern) : Ascending (.node s below (.node t subset rest)) :=
  ⟨List.forall_mem_cons.mpr ⟨hlt, fun p hp => hlt.trans (h.1 p hp)⟩, hbelow, h⟩

/-- What is put into the rest of a level comes after its head. -/
theorem Ascending.after (h : Ascending (.node t subset rest)) (hlevel : Ascending level)
    (hlt : t.pattern < s.pattern)
    (hmem : ∀ tree ∈ level.siblings, tree = (s, below) ∨ tree ∈ rest.siblings) :
    Ascending (.node t subset level) := by
  refine ⟨?_, h.2.1, hlevel⟩
  intro p hp
  obtain ⟨tree, htree, rfl⟩ := List.mem_map.mp hp
  rcases hmem tree htree with rfl | htree
  · exact hlt
  · exact h.1 _ (List.mem_map_of_mem htree)

theorem Ascending.put (h : Ascending f) (hbelow : Ascending below) :
    Ascending (put s below f) := by
  induction f with
  | nil => exact ⟨by simp [roots, siblings], hbelow, trivial⟩
  | node t subset rest _ ih =>
    rw [Subscriptions.put]
    split
    · rename_i hlt
      exact h.before hbelow hlt
    · split
      · rename_i heq
        exact ⟨heq ▸ h.1, hbelow, h.2.2⟩
      · rename_i hnot hne
        exact h.after (ih h.2.2) ((not_lt.mp hnot).lt_of_ne (Ne.symm hne))
          fun _ => mem_siblings_put

theorem Ascending.putNew (h : Ascending f) (hbelow : Ascending below) :
    Ascending (putNew s below f) := by
  induction f with
  | nil => exact ⟨by simp [roots, siblings], hbelow, trivial⟩
  | node t subset rest _ ih =>
    rw [Subscriptions.putNew]
    split
    · rename_i hlt
      exact h.before hbelow hlt
    · split
      · exact h
      · rename_i hnot hne
        exact h.after (ih h.2.2) ((not_lt.mp hnot).lt_of_ne (Ne.symm hne))
          fun _ => mem_siblings_putNew

theorem ascending_collect (h : ∀ tree ∈ trees, Ascending tree.2) : Ascending (collect trees) := by
  have hfrom (level : Subscriptions) (hlevel : Ascending level) :
      Ascending (trees.foldl (fun level tree => put tree.1 tree.2 level) level) := by
    induction trees generalizing level with
    | nil => exact hlevel
    | cons tree trees ih =>
      obtain ⟨hfirst, hrest⟩ := List.forall_mem_cons.mp h
      exact ih hrest _ (hlevel.put hfirst)
  exact hfrom .nil trivial

theorem Ascending.adopt (hf : Ascending f) (hbelow : Ascending below) :
    Ascending (adopt bits parent f below) := by
  induction f generalizing below with
  | nil => exact hbelow
  | node t subset rest _ ih => exact ih hf.2.2 (hbelow.putNew hf.2.1)

theorem size_filterRoots (keep : Subscription → Bool) (f : Subscriptions) :
    (f.filterRoots keep).size + (f.filterRoots fun t => !keep t).size = f.size := by
  induction f with
  | nil => rfl
  | node t subset rest _ ih =>
    cases hkeep : keep t <;> simp only [Forest.filterRoots, hkeep, Bool.not_true, Bool.not_false,
      if_true, if_false, size, Bool.false_eq_true] <;> omega

theorem size_putNew_le (s : Subscription) (below f : Subscriptions) :
    (putNew s below f).size ≤ 1 + below.size + f.size := by
  induction f with
  | nil => exact Nat.le_refl _
  | node t subset rest _ ih =>
    rw [putNew]
    split
    · exact Nat.le_refl _
    · split
      · exact Nat.le_add_left _ _
      · simp only [size]
        omega

theorem size_adopt_le (bits : Nat) (parent : Subscription) (f below : Subscriptions) :
    (adopt bits parent f below).size ≤ f.size + below.size := by
  induction f generalizing below with
  | nil => exact Nat.le_add_left _ _
  | node t subset rest _ ih =>
    have hput := size_putNew_le (demoted bits parent t) subset below
    refine (ih _).trans ?_
    simp only [size]
    omega

/-- What a level is divided into is smaller than the level, whether it moves or stays. -/
theorem size_adopt_filterRoots_le (bits : Nat) (s : Subscription) (subset rest : Subscriptions) :
    (adopt bits s (rest.filterRoots (isBelow s.pattern)) subset).size +
        (rest.filterRoots fun t => !isBelow s.pattern t).size <
      (Forest.node s subset rest).size := by
  have hadopt := size_adopt_le bits s (rest.filterRoots (isBelow s.pattern)) subset
  have hparts := size_filterRoots (isBelow s.pattern) rest
  rw [size]
  omega

end TagFilter.Subscriptions
