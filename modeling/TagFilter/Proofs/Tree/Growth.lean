import TagFilter.Proofs.Subscriptions
import TagFilter.Proofs.Tree.Shape

/-! # Growing a weight-ordered tree

Nesting a flat map keeps every subscription, as what is left of its pattern below
the patterns it begins with. Sorting the levels by weight only reorders them.
-/
namespace TagFilter
open List (Perm)
open Table OrderedMap Pattern

namespace Subscriptions
open Forest

def reading : Reading Subscription where
  pattern s := s.pattern
  uri s := s.uri
  fits offset s := s.offset = offset

@[simp] theorem reading_pattern (s : Subscription) : reading.pattern s = s.pattern := rfl

@[simp] theorem reading_uri (s : Subscription) : reading.uri s = s.uri := rfl

variable {bits offset : Nat} {f below : Subscriptions} {s parent : Subscription} {p q : Pattern}

theorem putNew_eq_put (h : ∀ e ∈ f.table, e.1 ≠ s.pattern) :
    putNew s below f = put s below f := by
  induction f with
  | nil => rfl
  | node t subset rest _ ih =>
    have hne : s.pattern ≠ t.pattern := (h _ List.mem_cons_self).symm
    simp only [putNew, put, if_neg hne, ih fun e he => h e (List.mem_cons_of_mem _ he)]

theorem weights_put (h : ∀ e ∈ f.table, e.1 ≠ s.pattern) :
    Perm ((put s .nil f).weights Subscription.weight)
      (s.weight :: f.weights Subscription.weight) := by
  induction f with
  | nil => exact Perm.refl _
  | node t subset rest _ ih =>
    have hne : s.pattern ≠ t.pattern := (h _ List.mem_cons_self).symm
    rw [put, if_neg hne]
    split
    · exact Perm.refl _
    · exact ((ih fun e he => h e (List.mem_cons_of_mem _ he)).append_left _).trans List.perm_middle

/-- What extends a pattern moves below it, where all of it has its place. -/
theorem adopt_flat (hf : FlatAt offset f) (hbelow : FlatAt (offset + parent.pattern.length) below)
    (hparent : parent.offset = offset ∧ parent.pattern.Digital)
    (hends : offset + parent.pattern.length ≤ bits)
    (hext : ∀ e ∈ f.table, ∃ q, q ≠ [] ∧ e.1 = parent.pattern ++ q)
    (hkeys : ((f.table ++ under parent.pattern below.table).map (·.1)).Nodup) :
    FlatAt (offset + parent.pattern.length) (adopt bits parent f below) ∧
      Perm (under parent.pattern (adopt bits parent f below).table)
        (f.table ++ under parent.pattern below.table) ∧
      Perm ((adopt bits parent f below).weights Subscription.weight)
        (f.weights Subscription.weight ++ below.weights Subscription.weight) := by
  induction f generalizing below with
  | nil => exact ⟨hbelow, Perm.refl _, Perm.refl _⟩
  | node t subset rest _ ih =>
    obtain ⟨q, hq, hpattern⟩ : ∃ q : Pattern, q ≠ [] ∧ t.pattern = parent.pattern ++ q :=
      hext _ List.mem_cons_self
    obtain ⟨-, -, rfl⟩ := hf.head
    have htable : table (.node t .nil rest) = (t.pattern, t.uri) :: table rest := rfl
    have hends' : parent.offset + parent.pattern.size ≤ bits := by
      rwa [hparent.1, hparent.2.size_eq]
    have hdemoted : demoted bits parent t =
        ⟨q, t.uri, t.weight, offset + parent.pattern.length⟩ := by
      rw [demoted_of_le hends', hpattern, List.drop_left, hparent.1, hparent.2.size_eq]
    have hqd : q.Digital := by
      have hd : t.pattern.Digital := hf.digital _ List.mem_cons_self
      rw [hpattern] at hd
      exact (digital_append.mp hd).2
    rw [hpattern] at htable
    rw [htable] at hkeys ⊢
    have habsent : ∀ e ∈ below.table, e.1 ≠ q := by
      rintro e he rfl
      refine (List.nodup_cons.mp hkeys).1 (List.mem_map.mpr ⟨(parent.pattern ++ e.1, e.2), ?_, rfl⟩)
      exact List.mem_append.mpr (.inr (mem_under_append.mpr he))
    have hput : Perm (under parent.pattern
        (put (demoted bits parent t) .nil below).table) ((parent.pattern ++ q, t.uri) ::
          under parent.pattern below.table) := by
      have hinsert := (perm_insert (p := q) (u := t.uri) hbelow.sorted).map
        fun e => (parent.pattern ++ e.1, e.2)
      rw [erase_of_absent habsent] at hinsert
      rw [table_put, hdemoted]
      exact hinsert
    have hmiddle : Perm (table rest ++ under parent.pattern
        (put (demoted bits parent t) .nil below).table)
        ((parent.pattern ++ q, t.uri) :: table rest ++ under parent.pattern below.table) :=
      (hput.append_left _).trans List.perm_middle
    have hrest : FlatAt offset rest := hf.tail
    have hbelow' : FlatAt (offset + parent.pattern.length)
        (put (demoted bits parent t) .nil below) := by
      rw [hdemoted]
      exact hbelow.put hqd hq rfl
    obtain ⟨hflat, hperm, hweights⟩ := ih hrest hbelow'
      (fun e he => hext e (List.mem_cons_of_mem _ he)) ((hmiddle.map _).nodup_iff.mpr hkeys)
    have habsent' : ∀ e ∈ below.table, e.1 ≠ (demoted bits parent t).pattern := by
      rw [hdemoted]
      exact habsent
    rw [adopt, putNew_eq_put habsent']
    refine ⟨hflat, hperm.trans hmiddle, ?_⟩
    exact (hweights.trans ((weights_put habsent').append_left _)).trans List.perm_middle

/-- Every level is in increasing pattern order. -/
def Ascending : Subscriptions → Prop
  | .nil => True
  | .node s below rest =>
    (∀ p ∈ roots reading rest, s.pattern < p) ∧ Ascending below ∧ Ascending rest

/-- What nesting makes of a flat map: no pattern of a level begins another, and
neither an entry nor a weight is lost. -/
structure Nests (offset : Nat) (f nest : Subscriptions) : Prop where
  placed : Placed reading offset nest
  ascending : Ascending nest
  entries_perm : Perm (entries reading nest) f.table
  weights_perm : Perm (nest.weights Subscription.weight) (f.weights Subscription.weight)
  roots_mem : ∀ p ∈ roots reading nest, p ∈ f.table.map (·.1)

theorem nests_nil : Nests offset .nil .nil :=
  ⟨trivial, trivial, Perm.refl _, Perm.refl _, by simp [roots, siblings]⟩

/-- Each entry, placed where its level starts, ends among the given number of bits. -/
def EndsWithin (bits offset : Nat) (f : Subscriptions) : Prop :=
  ∀ e ∈ f.table, offset + e.1.length ≤ bits

/-- What follows a subscription, divided into what extends its pattern and what is
apart from it. -/
structure Divided (s : Subscription) (offset : Nat) (rest extensions others : Subscriptions) :
    Prop where
  flat : FlatAt offset extensions
  flat_others : FlatAt offset others
  table_perm : Perm (extensions.table ++ others.table) rest.table
  weights_perm : Perm (extensions.weights Subscription.weight ++
    others.weights Subscription.weight) (rest.weights Subscription.weight)
  extends_pattern : ∀ e ∈ extensions.table, ∃ q, q ≠ [] ∧ e.1 = s.pattern ++ q
  apart : ∀ p ∈ others.table.map (·.1), s.pattern < p ∧ Apart s.pattern p

theorem divided_filterRoots (hf : FlatAt offset (.node s below f)) :
    Divided s offset f (f.filterRoots (isBelow s.pattern))
      (f.filterRoots fun t => !isBelow s.pattern t) := by
  have hne := hf.head.1
  have hless : ∀ e ∈ f.table, s.pattern < e.1 := (List.pairwise_cons.mp hf.sorted).1
  have hkeep : ∀ t, isBelow s.pattern t = s.pattern.isPrefixOf t.pattern := fun t => by
    simp [isBelow, hne]
  have hlose : ∀ t, (!isBelow s.pattern t) = !s.pattern.isPrefixOf t.pattern := fun t => by
    rw [hkeep]
  have hext := table_filterRoots (fun e => s.pattern.isPrefixOf e.1) hkeep f
  have hothers := table_filterRoots (fun e => !s.pattern.isPrefixOf e.1) hlose f
  refine ⟨hf.tail.filterRoots (fun e => s.pattern.isPrefixOf e.1) hkeep,
    hf.tail.filterRoots (fun e => !s.pattern.isPrefixOf e.1) hlose, ?_,
    weights_filterRoots Subscription.weight (isBelow s.pattern) f, ?_, ?_⟩
  · rw [hext, hothers]
    exact List.filter_append_perm (fun e : Pattern × String => s.pattern.isPrefixOf e.1) f.table
  · intro e he
    rw [hext] at he
    obtain ⟨hin, hpre⟩ := List.mem_filter.mp he
    obtain ⟨q, hq⟩ := List.isPrefixOf_iff_prefix.mp hpre
    refine ⟨q, ?_, hq.symm⟩
    rintro rfl
    rw [List.append_nil] at hq
    exact lt_irrefl _ (hq ▸ hless e hin)
  · intro p hp
    obtain ⟨e, he, rfl⟩ := List.mem_map.mp hp
    rw [hothers] at he
    obtain ⟨hin, hpre⟩ := List.mem_filter.mp he
    rw [Bool.not_eq_true', ← Bool.not_eq_true, List.isPrefixOf_iff_prefix] at hpre
    have hlt := hless e hin
    exact ⟨hlt, hpre, fun hle => not_lt_of_isPrefix hle hlt⟩

section
variable {extensions others : Subscriptions} (h : Divided s offset f extensions others)
  (hparent : s.offset = offset ∧ s.pattern.Digital)
  (hends : EndsWithin bits offset (.node s .nil f))
include h hparent hends

theorem Divided.adopted :
    FlatAt (offset + s.pattern.length) (adopt bits s extensions .nil) ∧
      Perm (under s.pattern (adopt bits s extensions .nil).table ++ others.table) f.table ∧
      Perm ((adopt bits s extensions .nil).weights Subscription.weight ++
        others.weights Subscription.weight) (f.weights Subscription.weight) := by
  have hnil : FlatAt (offset + s.pattern.length) .nil := flat_nil
  have hkeys : ((extensions.table ++ under s.pattern (table .nil)).map (·.1)).Nodup := by
    simpa [under] using h.flat.sorted.nodup
  obtain ⟨hadopt, htable, hweights⟩ := adopt_flat h.flat hnil hparent
    (hends _ List.mem_cons_self) h.extends_pattern hkeys
  have hnone : under s.pattern (table .nil) = [] := rfl
  rw [hnone, List.append_nil] at htable
  rw [weights, List.append_nil] at hweights
  exact ⟨hadopt, (htable.append_right _).trans h.table_perm,
    (hweights.append_right _).trans h.weights_perm⟩

theorem Divided.length_eq :
    (adopt bits s extensions .nil).table.length + others.table.length = f.table.length := by
  have hlength := (h.adopted hparent hends).2.1.length_eq
  rwa [List.length_append, under, List.length_map] at hlength

theorem Divided.endsWithin :
    EndsWithin bits (offset + s.pattern.length) (adopt bits s extensions .nil) ∧
      EndsWithin bits offset others := by
  obtain ⟨-, htable, -⟩ := h.adopted hparent hends
  constructor
  · intro e he
    have hin : (s.pattern ++ e.1, e.2) ∈ f.table :=
      htable.subset (List.mem_append.mpr (.inl (mem_under_append.mpr he)))
    have hend := hends _ (List.mem_cons_of_mem _ hin)
    rwa [List.length_append, ← Nat.add_assoc] at hend
  · intro e he
    exact hends _ (List.mem_cons_of_mem _ (htable.subset (List.mem_append.mpr (.inr he))))

/-- What was divided is put together again one below the other. -/
theorem Divided.nests {later : Subscriptions}
    (hbelow : Nests (offset + s.pattern.length) (adopt bits s extensions .nil) below)
    (hlater : Nests offset others later) :
    Nests offset (.node s .nil f) (.node s below later) := by
  obtain ⟨hadopt, htable, hweights⟩ := h.adopted hparent hends
  have hroots : ∀ p ∈ roots reading later, s.pattern < p ∧ Apart s.pattern p := fun p hp =>
    h.apart p (hlater.roots_mem p hp)
  have hproper : ∀ p ∈ roots reading below, p ≠ [] := fun p hp =>
    hadopt.proper p (hbelow.roots_mem p hp)
  refine ⟨⟨hparent, ⟨hbelow.placed, hproper⟩, fun p hp => (hroots p hp).2, hlater.placed⟩,
    ⟨fun p hp => (hroots p hp).1, hbelow.ascending, hlater.ascending⟩, ?_, ?_, ?_⟩
  · have hunder := ((hbelow.entries_perm.cons ([], s.uri)).map
      fun e => (s.pattern ++ e.1, e.2)).append hlater.entries_perm
    have hhead : under s.pattern (([], s.uri) :: (adopt bits s extensions .nil).table) =
        (s.pattern, s.uri) :: under s.pattern (adopt bits s extensions .nil).table := by
      simp [under]
    refine hunder.trans ?_
    rw [← under, hhead, table_node]
    exact htable.cons _
  · exact ((hbelow.weights_perm.append hlater.weights_perm).trans hweights).cons _
  · intro p hp
    rcases List.mem_cons.mp hp with rfl | hp
    · exact List.mem_cons_self
    · obtain ⟨e, he, rfl⟩ := List.mem_map.mp (hlater.roots_mem p hp)
      exact List.mem_cons_of_mem _
        (List.mem_map_of_mem (htable.subset (List.mem_append.mpr (.inr he))))

end

theorem nests_nestedWithin {steps : Nat} (hf : FlatAt offset f) (hends : EndsWithin bits offset f)
    (hsteps : f.table.length ≤ steps) : Nests offset f (nestedWithin bits steps f) := by
  induction steps generalizing offset f with
  | zero =>
    cases f with
    | nil => exact nests_nil
    | node s subset rest => exact absurd hsteps (Nat.not_succ_le_zero _)
  | succ steps ih =>
    cases f with
    | nil => exact nests_nil
    | node s subset rest =>
      obtain ⟨-, hoffset, rfl⟩ := hf.head
      have hparent : s.offset = offset ∧ s.pattern.Digital :=
        ⟨hoffset, hf.digital _ List.mem_cons_self⟩
      have hdivided := divided_filterRoots hf
      have hlength := hdivided.length_eq hparent hends
      obtain ⟨hends_below, hends_others⟩ := hdivided.endsWithin hparent hends
      rw [table_node, List.length_cons] at hsteps
      exact hdivided.nests hparent hends
        (ih (hdivided.adopted hparent hends).1 hends_below (by omega))
        (ih hdivided.flat_others hends_others (by omega))

theorem size_le_bitCount (h : s ∈ f.labels) : s.pattern.size ≤ f.bitCount := by
  induction f with
  | nil => exact absurd h List.not_mem_nil
  | node t below rest _ ih =>
    rw [bitCount]
    rcases List.mem_cons.mp h with rfl | h
    · omega
    · have hle := ih h
      omega

/-- The entries of a flat map end among the bits of its patterns, so no offset wraps when
it is nested. -/
theorem endsWithin_bitCount (hf : Flat f) : EndsWithin f.bitCount 0 f := by
  intro e he
  obtain ⟨s, hs, rfl⟩ := List.mem_map.mp he
  rw [Nat.zero_add, ← (hf.digital _ he).size_eq]
  exact size_le_bitCount hs

theorem length_table_le_size (f : Subscriptions) : f.table.length ≤ f.size := by
  simpa [table, labels] using length_siblings_le_size f

theorem nests_nested (hf : Flat f) : Nests 0 f (nested f) :=
  nests_nestedWithin hf (endsWithin_bitCount hf) (length_table_le_size f)

end Subscriptions

namespace WeightedTree
open Forest

variable {offset : Nat} {f : Subscriptions}

def sortedTrees (level : List (Weight × Branch × WeightedTree)) : List (Branch × WeightedTree) :=
  (level.mergeSort fun a b => b.1.rank ≤ a.1.rank).map (·.2)

theorem perm_sortedTrees (level : List (Weight × Branch × WeightedTree)) :
    Perm (sortedTrees level) (level.map (·.2)) := (List.mergeSort_perm _ _).map _

theorem growSiblings_node (s : Subscription) (below rest : Subscriptions) :
    (growSiblings (.node s below rest)).map (·.2) =
      (⟨s.uri, Filter.encode s.pattern s.offset, s.weight⟩,
        ofSiblings (sortedTrees (growSiblings below))) :: (growSiblings rest).map (·.2) := rfl

theorem growSiblings_placed (h : Placed Subscriptions.reading offset f) :
    Level reading offset ((growSiblings f).map (·.2)) ∧
      Perm (levelEntries reading ((growSiblings f).map (·.2)))
        (entries Subscriptions.reading f) ∧
      ((growSiblings f).map (·.2)).map (·.1.filter.pattern) = roots Subscriptions.reading f := by
  induction f generalizing offset with
  | nil => exact ⟨⟨by simp [growSiblings], List.Pairwise.nil⟩, Perm.refl _, rfl⟩
  | node s below rest ih_below ih_rest =>
    obtain ⟨⟨hoffset, hdigital⟩, ⟨hbelow, hproper⟩, hapart, hrest⟩ := h
    obtain ⟨hlevel, hperm, hroots⟩ := ih_below hbelow
    obtain ⟨hlevel', hperm', hroots'⟩ := ih_rest hrest
    have hsorted := perm_sortedTrees (growSiblings below)
    rw [growSiblings_node]
    have hplaced : Placed reading (offset + s.pattern.length)
        (ofSiblings (sortedTrees (growSiblings below))) := by
      rw [placed_iff, siblings_ofSiblings]
      exact hlevel.of_perm hsorted.symm
    have hentries : Perm (entries reading (ofSiblings (sortedTrees (growSiblings below))))
        (entries Subscriptions.reading below) := by
      rw [entries_eq, siblings_ofSiblings]
      exact (levelEntries_perm hsorted).trans hperm
    have hproper' : ∀ p ∈ roots reading (ofSiblings (sortedTrees (growSiblings below))),
        p ≠ [] := by
      intro p hp
      rw [roots, siblings_ofSiblings] at hp
      refine hproper p ?_
      rw [← hroots]
      exact (hsorted.map _).subset hp
    have hfits : s.offset = offset := hoffset
    refine ⟨hlevel'.cons ⟨congrArg (Filter.encode _) hfits, hdigital, hplaced, hproper'⟩
      ?_, ?_, congrArg (List.cons _) hroots'⟩
    · intro other hother
      refine hapart _ ?_
      rw [← hroots']
      exact List.mem_map_of_mem hother
    · rw [levelEntries_cons]
      exact (((hentries.cons ([], s.uri)).map fun e => (s.pattern ++ e.1, e.2))).append hperm'

theorem build_placed (h : f.Flat) :
    Placed reading 0 (build f) ∧ Perm (entries reading (build f)) f.table := by
  have hnests := Subscriptions.nests_nested h
  obtain ⟨hlevel, hentries, -⟩ := growSiblings_placed hnests.placed
  have hsorted := perm_sortedTrees (growSiblings f.nested)
  have hbuild : (build f).siblings = sortedTrees (growSiblings f.nested) :=
    siblings_ofSiblings _
  rw [placed_iff, entries_eq, hbuild]
  exact ⟨hlevel.of_perm hsorted.symm,
    ((levelEntries_perm hsorted).trans hentries).trans hnests.entries_perm⟩

end WeightedTree
end TagFilter
