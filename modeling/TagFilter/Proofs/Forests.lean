import TagFilter.Forest

/-! # Levels of a forest

What the operations on one level of a forest do to the list of its trees.
-/
namespace TagFilter.Forest
open List (Perm)

variable {α : Type}

theorem siblings_filterRoots (keep : α → Bool) (f : Forest α) :
    (f.filterRoots keep).siblings = f.siblings.filter fun tree => keep tree.1 := by
  induction f with
  | nil => rfl
  | node label subset rest _ ih =>
    simp only [filterRoots, siblings, List.filter_cons]
    cases keep label <;> simp [siblings, ih]

theorem labels_filterRoots (keep : α → Bool) (f : Forest α) :
    (f.filterRoots keep).labels = f.labels.filter keep := by
  rw [labels, siblings_filterRoots, labels, List.filter_map]
  rfl

theorem filterRoots_eq_self {keep : α → Bool} {f : Forest α} (h : ∀ a ∈ f.labels, keep a = true) :
    f.filterRoots keep = f := by
  induction f with
  | nil => rfl
  | node label subset rest _ ih =>
    obtain ⟨hfirst, hrest⟩ := List.forall_mem_cons.mp h
    rw [filterRoots, if_pos hfirst, ih hrest]

theorem filterRoots_eq_nil {keep : α → Bool} {f : Forest α} (h : ∀ a ∈ f.labels, keep a = false) :
    f.filterRoots keep = nil := by
  induction f with
  | nil => rfl
  | node label subset rest _ ih =>
    obtain ⟨hfirst, hrest⟩ := List.forall_mem_cons.mp h
    rw [filterRoots, hfirst, if_neg Bool.false_ne_true, ih hrest]

theorem siblings_mapRoots (f : α → α) (forest : Forest α) :
    (forest.mapRoots f).siblings = forest.siblings.map fun tree => (f tree.1, tree.2) := by
  induction forest with
  | nil => rfl
  | node label subset rest _ ih => simp [mapRoots, siblings, ih]

theorem length_siblings_le_size (f : Forest α) : f.siblings.length ≤ f.size := by
  induction f with
  | nil => exact Nat.le_refl _
  | node label subset rest _ ih =>
    rw [siblings, List.length_cons, size]
    omega

section Upsert

variable {κ : Type} [DecidableEq κ] {key : α → κ} {k : κ} {f : Forest α} {fresh : α}
  {change : α → Forest α → α × Forest α}

theorem labels_node (label : α) (subset rest : Forest α) :
    (node label subset rest).labels = label :: rest.labels := rfl

theorem findRoot?_some {p : α → Bool} {label : α} {subset : Forest α}
    (h : f.findRoot? p = some (label, subset)) : p label = true := by
  induction f with
  | nil => cases h
  | node first below rest _ ih =>
    rw [findRoot?] at h
    split at h
    · rename_i hfirst
      cases h
      exact hfirst
    · exact ih h

theorem findRoot?_eq_none_iff :
    f.findRoot? (fun label => key label = k) = none ↔ k ∉ f.labels.map key := by
  induction f with
  | nil => simp [findRoot?, labels, siblings]
  | node label subset rest _ ih =>
    rw [findRoot?, labels_node, List.map_cons, List.mem_cons, not_or, ← ih]
    by_cases hlabel : key label = k
    · simp [hlabel]
    · simp [hlabel, Ne.symm hlabel]

/-- The tree at which `upsert` changes a level, which need not be there before. -/
def treeOr (fresh : α) (key : α → κ) (k : κ) (f : Forest α) : α × Forest α :=
  (f.findRoot? fun label => key label = k).getD (fresh, nil)

theorem key_treeOr (hfresh : key fresh = k) : key (f.treeOr fresh key k).1 = k := by
  rw [treeOr]
  cases h : f.findRoot? (fun label => key label = k) with
  | none => exact hfresh
  | some found =>
    have hfound := findRoot?_some h
    exact of_decide_eq_true hfound

theorem findRoot?_upsert (hfresh : key fresh = k)
    (hkey : ∀ label subset, key (change label subset).1 = key label) (k' : κ) :
    (f.upsert (fun label => key label = k) fresh change).findRoot? (fun label => key label = k') =
      if k = k' then some (change (f.treeOr fresh key k).1 (f.treeOr fresh key k).2)
      else f.findRoot? fun label => key label = k' := by
  induction f with
  | nil => simp [upsert, findRoot?, hkey, hfresh, treeOr]
  | node label subset rest _ ih =>
    rw [upsert]
    by_cases hlabel : key label = k
    · by_cases hk : k = k' <;> simp [findRoot?, hkey, hlabel, hk, treeOr]
    · simp only [hlabel, decide_false, Bool.false_eq_true, if_false, findRoot?, treeOr] at ih ⊢
      rw [ih]
      by_cases hk : k = k'
      · simp [hk ▸ hlabel, hk]
      · simp [hk]

theorem keys_upsert (hfresh : key fresh = k)
    (hkey : ∀ label subset, key (change label subset).1 = key label) :
    (f.upsert (fun label => key label = k) fresh change).labels.map key =
      if k ∈ f.labels.map key then f.labels.map key else f.labels.map key ++ [k] := by
  induction f with
  | nil => simp [upsert, labels, siblings, hkey, hfresh]
  | node label subset rest _ ih =>
    rw [upsert]
    by_cases hlabel : key label = k
    · simp [hlabel, labels_node, hkey]
    · simp only [labels_node, hlabel, decide_false, Bool.false_eq_true, if_false,
        List.map_cons, List.mem_cons, Ne.symm hlabel, false_or]
      rw [ih, apply_ite (List.cons (key label))]
      rfl

end Upsert

variable (weight : α → Weight)

/-- The weights of all nodes. -/
def weights : Forest α → List Weight
  | nil => []
  | node label subset rest => (weight label :: subset.weights) ++ rest.weights

variable {weight} {label : α} {f g subset : Forest α}

theorem weights_eq (f : Forest α) :
    f.weights weight = f.siblings.flatMap fun tree => weight tree.1 :: tree.2.weights weight := by
  induction f with
  | nil => rfl
  | node label subset rest _ ih =>
    rw [weights, ih]
    rfl

theorem weights_perm (h : Perm f.siblings g.siblings) :
    Perm (f.weights weight) (g.weights weight) := by
  rw [weights_eq, weights_eq]
  exact h.flatMap_right _

theorem weights_mapRoots (change : α → α) (h : ∀ a, weight (change a) = weight a)
    (f : Forest α) : (f.mapRoots change).weights weight = f.weights weight := by
  induction f with
  | nil => rfl
  | node label subset rest _ ih => rw [mapRoots, weights, weights, h, ih]

theorem weights_filterRoots (weight : α → Weight) (keep : α → Bool) (f : Forest α) :
    Perm ((f.filterRoots keep).weights weight ++ (f.filterRoots fun a => !keep a).weights weight)
      (f.weights weight) := by
  have hsplit := List.filter_append_perm (fun tree : α × Forest α => keep tree.1) f.siblings
  rw [weights_eq f, weights_eq (f.filterRoots keep), weights_eq (f.filterRoots _),
    siblings_filterRoots, siblings_filterRoots, ← List.flatMap_append]
  exact hsplit.flatMap_right _

theorem weights_tree (h : (label, subset) ∈ f.siblings) :
    (weight label :: subset.weights weight).Sublist (f.weights weight) := by
  rw [weights_eq f]
  exact List.sublist_flatten_of_mem
    (List.mem_map_of_mem (f := fun tree => weight tree.1 :: tree.2.weights weight) h)

end TagFilter.Forest
