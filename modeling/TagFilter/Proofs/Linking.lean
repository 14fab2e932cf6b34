import Mathlib.Data.List.Induction
import TagFilter.Proofs.Ascending
import TagFilter.Subscription.Linking

/-! # One pass and repeated division

Nesting divides what follows a pattern into what goes on from it and the others, again
and again. One pass makes the same roots in the same order and sends the same to each:
in pattern order a root comes before all that goes on from it, and no two roots begin
the same pattern.
-/
namespace TagFilter.Subscriptions
open Forest OrderedMap Pattern

variable {bits : Nat} {subs f level subset rest : Subscriptions} {s t root : Subscription}
  {pass others : Pass} {p : Pattern} {trees : List (Subscription × Subscriptions)}

theorem mem_patterns {tree : Subscription × Subscriptions} (h : tree ∈ subs.siblings) :
    tree.1.pattern ∈ subs.patterns :=
  List.mem_map_of_mem (List.mem_map_of_mem h)

theorem get?_eq_none (h : ∀ q ∈ subs.patterns, q ≠ p) : subs.get? p = none := by
  induction subs with
  | nil => rfl
  | node t subset rest _ ih =>
    obtain ⟨hfirst, hrest⟩ := List.forall_mem_cons.mp h
    rw [get?_node, if_neg hfirst, ih hrest]

theorem get?_pattern {found : Subscription × Subscriptions} (h : subs.get? p = some found) :
    found.1.pattern = p ∧ found.1.pattern ∈ subs.patterns := by
  induction subs with
  | nil => cases h
  | node t subset rest _ ih =>
    rw [get?_node] at h
    split at h
    · next hp =>
      obtain rfl := Option.some.inj h
      exact ⟨hp, List.mem_cons_self⟩
    · exact (ih h).imp_right (List.mem_cons_of_mem _)

/-- A tree that comes last is put at the end. -/
theorem put_ofSiblings (h : ∀ tree ∈ trees, tree.1.pattern < s.pattern) :
    put s subset (ofSiblings trees) = ofSiblings (trees ++ [(s, subset)]) := by
  induction trees with
  | nil => rfl
  | cons tree trees ih =>
    obtain ⟨hfirst, hrest⟩ := List.forall_mem_cons.mp h
    rw [ofSiblings, put, if_neg (lt_asymm hfirst), if_neg (ne_of_gt hfirst), ih hrest]
    rfl

theorem collect_eq (h : trees.Pairwise fun a b => a.1.pattern < b.1.pattern) :
    collect trees = ofSiblings trees := by
  induction trees using List.reverseRecOn with
  | nil => rfl
  | append_singleton trees tree ih =>
    obtain ⟨htrees, -, hlast⟩ := List.pairwise_append.mp h
    rw [collect, List.foldl_append, ← collect, ih htrees]
    exact put_ofSiblings fun other hother => hlast other hother tree List.mem_cons_self

theorem adopt_eq_foldl (bits : Nat) (s : Subscription) (f level : Subscriptions) :
    adopt bits s f level =
      f.siblings.foldl (fun level tree => putNew (demoted bits s tree.1) tree.2 level) level := by
  induction f generalizing level with
  | nil => rfl
  | node t subset rest _ ih => exact ih _

theorem isBelow_iff : isBelow p s = true ↔ p ≠ [] ∧ p <+: s.pattern := by
  rw [isBelow, Bool.and_eq_true, decide_eq_true_iff, List.isPrefixOf_iff_prefix]

theorem rootOf?_pattern (h : pass.rootOf? p = some root) : root.pattern ∈ pass.roots.patterns := by
  obtain ⟨length, -, hfound⟩ := List.exists_of_findSome?_eq_some h
  obtain ⟨found, hget, rfl⟩ := Option.map_eq_some_iff.mp hfound
  exact (get?_pattern hget).2

theorem range'_split {k n : Nat} (hk : 0 < k) (hn : k < n) :
    List.range' 1 (n - 1) = List.range' 1 (k - 1) ++ k :: List.range' (k + 1) (n - k - 1) := by
  have hsplit := List.range'_append_1 (s := 1) (m := k - 1) (n := n - k)
  rw [Nat.add_sub_cancel' hk] at hsplit
  rw [← List.range'_succ, Nat.sub_add_cancel (Nat.sub_pos_of_lt hn), hsplit]
  congr 1
  omega

/-- A root that a subscription does not belong below does not matter for it. -/
theorem rootOf?_of_not_isBelow (hroots : pass.roots = .node s subset others.roots)
    (hnot : isBelow s.pattern t = false) :
    pass.rootOf? t.pattern = others.rootOf? t.pattern := by
  rw [Pass.rootOf?, Pass.rootOf?, ← List.head?_filterMap, ← List.head?_filterMap]
  refine congrArg List.head? (List.filterMap_congr fun length hlength => ?_)
  rw [List.mem_range'_1] at hlength
  have hne : s.pattern ≠ t.pattern.take length := by
    intro heq
    have hlonger := congrArg List.length heq
    rw [List.length_take] at hlonger
    have hyes : isBelow s.pattern t = true :=
      isBelow_iff.mpr ⟨List.ne_nil_of_length_pos (by omega), heq ▸ List.take_prefix length _⟩
    exact absurd (hnot.symm.trans hyes) Bool.false_ne_true
  rw [hroots, get?_node, if_neg hne]

theorem rootOf?_of_isPrefix (hroots : pass.roots = .node s subset others.roots)
    (hlater : ∀ q ∈ others.roots.patterns, s.pattern < q) (hs : s.pattern ≠ [])
    (hpre : s.pattern <+: p) (hne : s.pattern ≠ p) : pass.rootOf? p = some s := by
  have hlonger : s.pattern.length < p.length :=
    hpre.length_le.lt_of_ne fun heq => hne (hpre.eq_of_length heq)
  refine List.findSome?_eq_some_iff.mpr
    ⟨_, _, _, range'_split (List.length_pos_iff.mpr hs) hlonger, ?_, ?_⟩
  · rw [← List.prefix_iff_eq_take.mp hpre, hroots, get?_node, if_pos rfl]
    rfl
  · intro length hlength
    rw [List.mem_range'_1] at hlength
    -- What is shorter than the root begins it, so it is no root.
    have hlead : p.take length <+: s.pattern :=
      List.prefix_of_prefix_length_le (List.take_prefix length p) hpre
        ((List.length_take_le length p).trans (by omega))
    have hnone : pass.roots.get? (p.take length) = none := by
      rw [hroots]
      refine get?_eq_none (List.forall_mem_cons.mpr ⟨?_, ?_⟩)
      · intro heq
        have hle : s.pattern.length ≤ length := (congrArg List.length heq).trans_le
          (List.length_take_le length p)
        omega
      · rintro q hq rfl
        exact not_lt_of_isPrefix hlead (hlater _ hq)
    rw [hnone, Option.map_none]

/-- How a pass stands to the pass over all but what goes on from its first root. -/
structure Beside (s : Subscription) (subset level : Subscriptions) (pass others : Pass) :
    Prop where
  roots : pass.roots = .node s subset others.roots
  sentTo : pass.sentTo s = level
  sent : ∀ p, p ≠ s.pattern → pass.sent.get? p = others.sent.get? p
  later : ∀ q ∈ others.roots.patterns, s.pattern < q

variable {tree : Subscription × Subscriptions}

theorem Beside.visit_extension (h : Beside s subset level pass others)
    (hless : s.pattern < tree.1.pattern) (hbelow : isBelow s.pattern tree.1 = true) :
    Beside s subset (put (demoted bits s tree.1) tree.2 level) (pass.visit bits tree) others := by
  obtain ⟨hs, hpre⟩ := isBelow_iff.mp hbelow
  have hroot := rootOf?_of_isPrefix h.roots h.later hs hpre (ne_of_lt hless)
  rw [Pass.visit, hroot]
  refine ⟨h.roots, ?_, ?_, h.later⟩
  · rw [Pass.sentTo, get?_insert, if_pos rfl, h.sentTo]
    rfl
  · intro p hp
    rw [get?_insert, if_neg hp.symm]
    exact h.sent p hp

theorem Beside.visit_other (h : Beside s subset level pass others)
    (hless : s.pattern < tree.1.pattern) (hnot : isBelow s.pattern tree.1 = false) :
    Beside s subset level (pass.visit bits tree) (others.visit bits tree) := by
  have hsame := rootOf?_of_not_isBelow h.roots hnot
  rw [Pass.visit, Pass.visit, hsame]
  cases hroot : others.rootOf? tree.1.pattern with
  | some root =>
    have hne : root.pattern ≠ s.pattern := ne_of_gt (h.later _ (rootOf?_pattern hroot))
    refine ⟨h.roots, ?_, ?_, h.later⟩
    · rw [← h.sentTo, Pass.sentTo, get?_insert, if_neg hne]
      rfl
    · intro p hp
      have hlevel : pass.sentTo root = others.sentTo root := by
        rw [Pass.sentTo, h.sent _ hne, Pass.sentTo]
      rw [get?_insert, get?_insert, hlevel, h.sent p hp]
  | none =>
    refine ⟨?_, h.sentTo, h.sent, ?_⟩
    · dsimp only
      rw [h.roots, put, if_neg (lt_asymm hless), if_neg (ne_of_gt hless)]
    · intro q hq
      obtain ⟨label, hlabel, rfl⟩ := List.mem_map.mp hq
      obtain ⟨found, hfound, rfl⟩ := List.mem_map.mp hlabel
      rcases mem_siblings_put hfound with rfl | hold
      · exact hless
      · exact h.later _ (mem_patterns hold)

theorem Beside.foldl_visit (h : Beside s subset level pass others) (bits : Nat)
    (hless : ∀ tree ∈ trees, s.pattern < tree.1.pattern) :
    Beside s subset ((trees.filter fun tree => isBelow s.pattern tree.1).foldl
      (fun level tree => put (demoted bits s tree.1) tree.2 level) level)
      (trees.foldl (Pass.visit bits) pass)
      ((trees.filter fun tree => !isBelow s.pattern tree.1).foldl (Pass.visit bits) others) := by
  induction trees generalizing level pass others with
  | nil => exact h
  | cons tree trees ih =>
    obtain ⟨hfirst, hrest⟩ := List.forall_mem_cons.mp hless
    cases hbelow : isBelow s.pattern tree.1 with
    | true =>
      rw [List.filter_cons_of_pos (by simp [hbelow]), List.filter_cons_of_neg (by simp [hbelow])]
      exact ih (h.visit_extension hfirst hbelow) hrest
    | false =>
      rw [List.filter_cons_of_neg (by simp [hbelow]), List.filter_cons_of_pos (by simp [hbelow])]
      exact ih (h.visit_other hfirst hbelow) hrest

/-- What goes on from a pattern is in the same order without it. -/
theorem Ascending.pairwise_demoted (h : Ascending rest) (bits : Nat) (s : Subscription) :
    ((rest.filterRoots (isBelow s.pattern)).siblings.map fun tree =>
      (demoted bits s tree.1, tree.2)).Pairwise fun a b => a.1.pattern < b.1.pattern := by
  rw [List.pairwise_map, siblings_filterRoots]
  refine ((ascending_iff.mp h).1.filter _).imp_of_mem ?_
  intro a b ha hb hab
  obtain ⟨-, q, hq⟩ := isBelow_iff.mp (List.mem_filter.mp ha).2
  obtain ⟨-, q', hq'⟩ := isBelow_iff.mp (List.mem_filter.mp hb).2
  rw [← hq, ← hq', append_lt_append_iff] at hab
  simpa only [Subscriptions.demoted, ← hq, ← hq', List.drop_left] using hab

theorem divide_node (bits : Nat) (hf : Ascending (.node s subset rest)) :
    Beside s subset (ofSiblings ((rest.filterRoots (isBelow s.pattern)).siblings.map
        fun tree => (demoted bits s tree.1, tree.2)))
      (divide bits (.node s subset rest))
      (divide bits (rest.filterRoots fun t => !isBelow s.pattern t)) := by
  have hless : ∀ tree ∈ rest.siblings, s.pattern < tree.1.pattern := fun tree htree =>
    hf.1 _ (List.mem_map_of_mem htree)
  have hnone : Pass.start.rootOf? s.pattern = none :=
    List.findSome?_eq_none_iff.mpr fun _ _ => rfl
  have hvisit : Pass.start.visit bits (s, subset) = ⟨.node s subset .nil, []⟩ := by
    rw [Pass.visit, hnone]
    rfl
  have hstart : Beside s subset .nil ⟨.node s subset .nil, []⟩ .start :=
    ⟨rfl, rfl, fun _ _ => rfl, fun _ hq => absurd hq List.not_mem_nil⟩
  have hpass := hstart.foldl_visit bits hless
  rw [← collect_eq (hf.2.2.pairwise_demoted bits s), collect, List.foldl_map, divide, siblings,
    List.foldl_cons, hvisit, divide, siblings_filterRoots, siblings_filterRoots]
  exact hpass

/-- One pass, and what it does next below the first root and with the others. -/
theorem linkedWithin_node {steps : Nat} (hf : Ascending (.node s subset rest)) :
    linkedWithin bits (steps + 1) (.node s subset rest) =
      .node s (linkedWithin bits steps (adopt bits s (rest.filterRoots (isBelow s.pattern)) subset))
        (linkedWithin bits (steps + 1) (rest.filterRoots fun t => !isBelow s.pattern t)) := by
  have hpass := divide_node bits hf
  have hjoined : joined subset ((divide bits (.node s subset rest)).sentTo s) =
      adopt bits s (rest.filterRoots (isBelow s.pattern)) subset := by
    rw [hpass.sentTo, joined, siblings_ofSiblings, List.foldl_map, adopt_eq_foldl]
  rw [linkedWithin, linkedWithin, hpass.roots, siblings, List.map_cons, ofSiblings, hjoined]
  congr 2
  refine List.map_congr_left fun tree htree => ?_
  have hne : tree.1.pattern ≠ s.pattern := ne_of_gt (hpass.later _ (mem_patterns htree))
  rw [Pass.sentTo, hpass.sent _ hne, Pass.sentTo]

theorem linkedWithin_nil (bits steps : Nat) : linkedWithin bits steps .nil = .nil := by
  cases steps <;> rfl

theorem linkedWithin_eq_nestedWithin {steps steps' : Nat} (hf : Ascending f)
    (hsteps : f.size ≤ steps) (hsteps' : f.size ≤ steps') :
    linkedWithin bits steps f = nestedWithin bits steps' f := by
  induction steps' generalizing f steps with
  | zero =>
    cases f with
    | nil => exact linkedWithin_nil bits steps
    | node s subset rest => simp [Forest.size] at hsteps'
  | succ steps' ih =>
    cases f with
    | nil => exact linkedWithin_nil bits steps
    | node s subset rest =>
      cases steps with
      | zero => simp [Forest.size] at hsteps
      | succ steps =>
        have hsize := size_adopt_filterRoots_le bits s subset rest
        obtain ⟨-, hsubset, hrest⟩ := id hf
        rw [linkedWithin_node hf, nestedWithin,
          ih ((hrest.filterRoots _).adopt hsubset) (by omega) (by omega),
          ih (hrest.filterRoots _) (by omega) (by omega)]

theorem linked_eq_nested_of_ascending (hf : Ascending f) : linked f = nested f :=
  linkedWithin_eq_nestedWithin hf (Nat.le_refl _) (Nat.le_refl _)

theorem linked_eq_nested (hf : Flat f) : linked f = nested f :=
  linked_eq_nested_of_ascending hf.ascending

end TagFilter.Subscriptions
