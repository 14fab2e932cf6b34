import Mathlib.Data.List.Pairwise
import TagFilter.Proofs.Linking
import TagFilter.Proofs.Tree.Lineages

/-! # The forest of prefixes

Nesting a flat map makes a forest with one node for each entry. The patterns on the
way down to a node spell its pattern, and the node above it is the longest pattern of
the map that its own goes on from.
-/
namespace TagFilter

namespace Forest
open Table Pattern

variable {α : Type} {r : Reading α} {f chain : Forest α} {above : List α} {label a : α}
  {offset : Nat} {e : Pattern × String} {p : Pattern} {trees : List (α × Forest α)}

theorem Reaches.parent (h : Reaches f (above ++ [a]) chain) :
    ∃ chain', Reaches f above chain' ∧ a ∈ chain'.labels := by
  induction above generalizing f with
  | nil =>
    cases h with
    | down hin _ => exact ⟨f, .here f, List.mem_map_of_mem hin⟩
  | cons first above ih =>
    cases h with
    | down hin hbelow =>
      obtain ⟨chain', hreach, ha⟩ := ih hbelow
      exact ⟨chain', .down hin hreach, ha⟩

theorem parent_mem_lineages (h : (above ++ [a], label) ∈ lineages f) : (above, a) ∈ lineages f := by
  obtain ⟨chain, hreach, -⟩ := mem_lineages_iff.mp h
  exact mem_lineages_iff.mpr hreach.parent

theorem Reaches.proper (h : Reaches f above chain) (hf : Placed r offset f)
    (hproper : ∀ p ∈ roots r f, p ≠ []) : ∀ p ∈ roots r chain, p ≠ [] := by
  induction h generalizing offset with
  | here => exact hproper
  | down hin _ ih =>
    have htree := (placed_iff.mp hf).placed _ hin
    exact ih htree.below htree.proper

/-- At most one tree of a level has a pattern that another begins with. -/
theorem Level.eq_of_isPrefix {s t : α × Forest α} (h : Level r offset trees) (hs : s ∈ trees)
    (ht : t ∈ trees) (hsp : r.pattern s.1 <+: p) (htp : r.pattern t.1 <+: p) : s = t := by
  by_contra hne
  have : Std.Symm fun s t : α × Forest α => Apart (r.pattern s.1) (r.pattern t.1) :=
    ⟨fun _ _ hapart => hapart.symm⟩
  exact (h.apart.forall hs ht hne).not_isPrefix hsp htp

/-- An entry that the pattern of a node begins with is met on the way down to the node. -/
theorem Reaches.entry_cases (h : Reaches f above chain) (hf : Placed r offset f)
    (ha : a ∈ chain.labels) (he : e ∈ entries r f) (hpre : e.1 <+: spelled r (above ++ [a])) :
    e.1 <+: spelled r above ∨ e.1 = spelled r (above ++ [a]) := by
  induction h generalizing offset e with
  | here f =>
    obtain ⟨tree, htree, rfl⟩ := List.mem_map.mp ha
    rw [entries_eq] at he
    obtain ⟨other, hother, hlead⟩ := prefix_of_mem_levelEntries he
    rw [List.nil_append, spelled_cons, spelled_nil, List.append_nil] at hpre ⊢
    obtain rfl := (placed_iff.mp hf).eq_of_isPrefix hother htree (hlead.trans hpre) List.prefix_rfl
    exact .inr (hpre.eq_of_length_le hlead.length_le)
  | @down f below chain label above hin _ ih =>
    rw [entries_eq] at he
    obtain ⟨tree, htree, hin'⟩ := List.mem_flatMap.mp he
    have hlead : r.pattern tree.1 <+: e.1 := prefix_of_mem_under hin'
    rw [List.cons_append, spelled_cons] at hpre
    -- The node's pattern begins with those of both trees, so they are one tree.
    obtain rfl := (placed_iff.mp hf).eq_of_isPrefix htree hin (hlead.trans hpre)
      (List.prefix_append _ _)
    obtain ⟨e', he', rfl⟩ := List.mem_map.mp hin'
    rw [List.prefix_append_right_inj] at hpre
    rw [List.cons_append, spelled_cons, spelled_cons, List.prefix_append_right_inj,
      List.append_cancel_left_eq]
    rcases List.mem_cons.mp he' with rfl | he'
    · exact .inl List.nil_prefix
    · exact ih ((placed_iff.mp hf).placed _ hin).below ha he' hpre

end Forest

namespace Subscriptions
open List (Perm)
open Forest Table Pattern

variable {subs nest f below : Subscriptions} {s parent : Subscription} {bits offset : Nat}
  {line : List Subscription × Subscription}

/-- What a subscription of a flat map says. -/
def own (s : Subscription) : Pattern × String × Weight := (s.pattern, s.uri, s.weight)

/-- What a node says when its pattern goes on from those above it. -/
def ownBelow (line : List Subscription × Subscription) : Pattern × String × Weight :=
  (spelled reading (line.1 ++ [line.2]), line.2.uri, line.2.weight)

theorem mem_labels_putNew (h : s ∈ (putNew parent below f).labels) :
    s = parent ∨ s ∈ f.labels := by
  obtain ⟨tree, htree, rfl⟩ := List.mem_map.mp h
  exact (mem_siblings_putNew htree).imp (congrArg Prod.fst) List.mem_map_of_mem

theorem mem_labels_adopt (h : s ∈ (adopt bits parent f below).labels) :
    s ∈ below.labels ∨ ∃ t ∈ f.labels, s = demoted bits parent t := by
  induction f generalizing below with
  | nil => exact .inl h
  | node t subset rest _ ih =>
    rcases ih h with h | ⟨t', ht', rfl⟩
    · rcases mem_labels_putNew h with rfl | h
      · exact .inr ⟨t, List.mem_cons_self, rfl⟩
      · exact .inl h
    · exact .inr ⟨t', List.mem_cons_of_mem _ ht', rfl⟩

theorem ownBelow_cons {t : Subscription} (h : ownBelow line = own (demoted bits s t))
    (hpre : s.pattern <+: t.pattern) : ownBelow (s :: line.1, line.2) = own t := by
  obtain ⟨q, hq⟩ := hpre
  have hdemoted : (demoted bits s t).pattern = q := by
    rw [demoted, ← hq]
    exact List.drop_left
  calc ownBelow (s :: line.1, line.2)
      = (s.pattern ++ (ownBelow line).1, (ownBelow line).2) := rfl
    _ = (s.pattern ++ q, t.uri, t.weight) := by rw [h, own, hdemoted]; rfl
    _ = own t := by rw [hq, own]

/-- Nesting makes nothing up: each node says what a subscription of the map says. -/
theorem ownBelow_mem {steps : Nat} (hf : FlatAt offset f) (hends : EndsWithin bits offset f)
    (hline : line ∈ lineages (nestedWithin bits steps f)) : ownBelow line ∈ f.labels.map own := by
  induction steps generalizing offset f line with
  | zero => exact absurd hline List.not_mem_nil
  | succ steps ih =>
    cases f with
    | nil => exact absurd hline List.not_mem_nil
    | node s subset rest =>
      obtain ⟨-, hoffset, rfl⟩ := hf.head
      have hdivided := divided_filterRoots hf
      have hparent : s.offset = offset ∧ s.pattern.Digital :=
        ⟨hoffset, hf.digital _ List.mem_cons_self⟩
      obtain ⟨hadopt, -, -⟩ := hdivided.adopted hparent hends
      obtain ⟨hends_below, hends_others⟩ := hdivided.endsWithin hparent hends
      rw [nestedWithin, lineages, List.mem_append, List.mem_cons] at hline
      rcases hline with (rfl | hbelow) | hlater
      · simp [ownBelow, own, labels, siblings]
      · obtain ⟨line, hline, rfl⟩ := List.mem_map.mp hbelow
        obtain ⟨d, hd, hown⟩ := List.mem_map.mp (ih hadopt hends_below hline)
        rcases mem_labels_adopt hd with hd | ⟨t, ht, rfl⟩
        · exact absurd hd List.not_mem_nil
        · rw [labels_filterRoots] at ht
          obtain ⟨hin, hbelow⟩ := List.mem_filter.mp ht
          have hpre : s.pattern <+: t.pattern := (isBelow_iff.mp hbelow).2
          rw [ownBelow_cons hown.symm hpre]
          exact List.mem_cons_of_mem _ (List.mem_map_of_mem hin)
      · obtain ⟨t, ht, hown⟩ := List.mem_map.mp (ih hdivided.flat_others hends_others hlater)
        rw [labels_filterRoots] at ht
        exact List.mem_cons_of_mem _ (List.mem_map.mpr ⟨t, (List.mem_filter.mp ht).1, hown⟩)

/-- The longest pattern of a map that a pattern goes on from. -/
structure LongestPrefix (subs : Subscriptions) (p q : Pattern) : Prop where
  mem : q ∈ subs.patterns
  isPrefix : q <+: p
  ne : q ≠ p
  longest : ∀ r ∈ subs.patterns, r <+: p → r ≠ p → r.length ≤ q.length

/-- A forest that holds a flat map by the prefixes of its patterns: a node for each
subscription, below the node of the longest pattern that its own goes on from. -/
structure PrefixForest (subs nest : Subscriptions) : Prop where
  proper : ∀ above chain, Reaches nest above chain → ∀ s ∈ chain.labels, s.pattern ≠ []
  apart : ∀ above chain, Reaches nest above chain →
    chain.labels.Pairwise fun s t => Apart s.pattern t.pattern
  nodes : Perm ((lineages nest).map ownBelow) (subs.labels.map own)
  nodup : ((lineages nest).map fun line => (ownBelow line).1).Nodup
  top : ∀ s, ([], s) ∈ lineages nest →
    ∀ q ∈ subs.patterns, q <+: s.pattern → q = s.pattern
  parent : ∀ above parent s, (above ++ [parent], s) ∈ lineages nest →
    (above, parent) ∈ lineages nest ∧
      LongestPrefix subs (ownBelow (above ++ [parent], s)).1 (ownBelow (above, parent)).1
  offset : ∀ above s, (above, s) ∈ lineages nest →
    s.offset = (above.map fun a => a.pattern.length).sum

theorem mem_patterns_iff {p : Pattern} : p ∈ subs.patterns ↔ ∃ e ∈ subs.table, e.1 = p := by
  rw [← List.mem_map, table, List.map_map]
  rfl

theorem Nests.nodup (h : Nests offset f nest) (hf : FlatAt offset f) :
    ((lineages nest).map fun line => (ownBelow line).1).Nodup := by
  have hperm := h.entries_perm.map (·.1)
  rw [entries_eq_lineages, List.map_map] at hperm
  exact hperm.nodup_iff.mpr hf.sorted.nodup

theorem Nests.nodes (h : Nests offset f nest) (hf : FlatAt offset f)
    (hown : ∀ line ∈ lineages nest, ownBelow line ∈ f.labels.map own) :
    Perm ((lineages nest).map ownBelow) (f.labels.map own) := by
  -- No two nodes say the same and none is made up: as many as there are, they are all.
  have hnodup : ((lineages nest).map ownBelow).Nodup := by
    refine List.Nodup.of_map (·.1) ?_
    rw [List.map_map]
    exact h.nodup hf
  have hsub : (lineages nest).map ownBelow ⊆ f.labels.map own := by
    intro o ho
    obtain ⟨line, hline, rfl⟩ := List.mem_map.mp ho
    exact hown line hline
  have hlength := h.entries_perm.length_eq
  rw [entries_eq_lineages, table] at hlength
  simp only [List.length_map] at hlength
  refine (List.subperm_of_subset hnodup hsub).perm_of_length_le ?_
  simp only [List.length_map]
  exact hlength.ge

theorem Nests.proper (h : Nests offset f nest) (hf : FlatAt offset f) {above : List Subscription}
    {chain : Subscriptions} (hreach : Reaches nest above chain) :
    ∀ s ∈ chain.labels, s.pattern ≠ [] := by
  intro s hs
  obtain ⟨tree, htree, rfl⟩ := List.mem_map.mp hs
  have hroots : ∀ p ∈ roots reading nest, p ≠ [] := fun p hp => hf.proper p (h.roots_mem p hp)
  exact hreach.proper h.placed hroots _ (List.mem_map_of_mem htree)

/-- A pattern of the map that a node's pattern goes on from ends above the node. -/
theorem Nests.isPrefix_above (h : Nests offset f nest) {above : List Subscription}
    (hline : (above, s) ∈ lineages nest) {p : Pattern} (hp : p ∈ f.patterns)
    (hpre : p <+: (ownBelow (above, s)).1) (hne : p ≠ (ownBelow (above, s)).1) :
    p <+: spelled reading above := by
  obtain ⟨chain, hreach, hs⟩ := mem_lineages_iff.mp hline
  obtain ⟨e, he, rfl⟩ := mem_patterns_iff.mp hp
  exact (hreach.entry_cases h.placed hs (h.entries_perm.symm.subset he) hpre).resolve_right hne

theorem Nests.longestPrefix (h : Nests offset f nest) (hf : FlatAt offset f)
    {above : List Subscription} (hline : (above ++ [parent], s) ∈ lineages nest) :
    LongestPrefix f (ownBelow (above ++ [parent], s)).1 (ownBelow (above, parent)).1 := by
  obtain ⟨chain, hreach, hs⟩ := mem_lineages_iff.mp hline
  have hspelled : (ownBelow (above ++ [parent], s)).1 =
      (ownBelow (above, parent)).1 ++ s.pattern := by
    simp [ownBelow]
  refine ⟨?_, ?_, ?_, ?_⟩
  · have hentry : entryOf reading (above, parent) ∈ entries reading nest := by
      rw [entries_eq_lineages]
      exact List.mem_map_of_mem (parent_mem_lineages hline)
    exact mem_patterns_iff.mpr ⟨_, h.entries_perm.subset hentry, rfl⟩
  · rw [hspelled]
    exact List.prefix_append _ _
  · rw [hspelled]
    intro heq
    exact h.proper hf hreach s hs (List.append_right_eq_self.mp heq.symm)
  · intro p hp hpre hne
    exact (h.isPrefix_above hline hp hpre hne).length_le

theorem nested_prefixForest (hf : Flat subs) : PrefixForest subs subs.nested := by
  have hnests := nests_nested hf
  refine ⟨fun _ _ hreach => hnests.proper hf hreach,
    fun _ _ hreach => List.pairwise_map.mpr (hreach.level hnests.placed).apart,
    hnests.nodes hf fun _ hline => ownBelow_mem hf (endsWithin_bitCount hf) hline,
    hnests.nodup hf, ?_,
    fun _ _ _ hline => ⟨parent_mem_lineages hline, hnests.longestPrefix hf hline⟩, ?_⟩
  · intro s hs q hq hpre
    have hown : (ownBelow ([], s)).1 = s.pattern := by simp [ownBelow]
    by_contra hne
    rw [← hown] at hpre hne
    have hnil := List.prefix_nil.mp (hnests.isPrefix_above hs hq hpre hne)
    obtain ⟨e, he, rfl⟩ := mem_patterns_iff.mp hq
    exact hf.proper _ (List.mem_map_of_mem he) hnil
  · intro above s hline
    obtain ⟨chain, hreach, hs⟩ := mem_lineages_iff.mp hline
    obtain ⟨tree, htree, rfl⟩ := List.mem_map.mp hs
    have hfits := ((hreach.level hnests.placed).placed tree htree).fits
    rwa [length_spelled] at hfits

/-- One pass over a map of insertions, and one over what it sends to each root, and so on,
make the forest of its prefixes and lose nothing. -/
theorem linked_prefixForest (h : subs.Inserted) :
    subs.linked = subs.nested ∧ PrefixForest subs subs.linked := by
  have hsame := linked_eq_nested h.flat
  rw [hsame]
  exact ⟨rfl, nested_prefixForest h.flat⟩

/-- Three of the patterns go on from the first one, and one of these from another. -/
def sampleEntries : Subscriptions :=
  ofSiblings [(⟨['0'], "a", ⟨1⟩, 0⟩, .nil), (⟨['0', '0'], "b", ⟨2⟩, 0⟩, .nil),
    (⟨['0', '0', '1'], "c", ⟨3⟩, 0⟩, .nil), (⟨['0', '1', '0'], "d", ⟨4⟩, 0⟩, .nil)]

def sampleNest : Subscriptions :=
  .node ⟨['0'], "a", ⟨1⟩, 0⟩
    (.node ⟨['0'], "b", ⟨2⟩, 1⟩ (.node ⟨['1'], "c", ⟨3⟩, 2⟩ .nil .nil)
      (.node ⟨['1', '0'], "d", ⟨4⟩, 1⟩ .nil .nil))
    .nil

theorem linked_prefixForest_sample :
    sampleEntries.linked = sampleNest ∧ PrefixForest sampleEntries sampleNest := by
  have hinserted : sampleEntries.Inserted :=
    .insert (p := ['0', '0']) (u := "b") (w := ⟨2⟩)
      (.insert (p := ['0', '0', '1']) (u := "c") (w := ⟨3⟩)
        (.insert (p := ['0']) (u := "a") (w := ⟨1⟩)
          (.insert (p := ['0', '1', '0']) (u := "d") (w := ⟨4⟩) .nil rfl) rfl) rfl) rfl
  have hlinked : sampleEntries.linked = sampleNest := by decide +kernel
  exact ⟨hlinked, hlinked ▸ (linked_prefixForest hinserted).2⟩

end Subscriptions
end TagFilter
