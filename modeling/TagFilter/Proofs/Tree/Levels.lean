import TagFilter.Proofs.Forests
import TagFilter.Proofs.Table

/-! # Levels of patterns

A forest whose labels carry patterns holds an entry for each node, under the
patterns of the nodes above. In a placed forest no pattern of a level begins
another and what lies below a node goes on where its pattern ends. Neither the
entries nor the placement depend on the order of a level.
-/
namespace TagFilter

def Pattern.Apart (p q : Pattern) : Prop := ¬ p <+: q ∧ ¬ q <+: p

namespace Pattern

variable {p q r : Pattern}

/-- How a pattern on the way down a tree stands to one that it is to come to. -/
theorem isPrefix_cases (p r : Pattern) : r = p ∨ (∃ q, q ≠ [] ∧ r = p ++ q) ∨ ¬ p <+: r := by
  by_cases hpre : p <+: r
  · obtain ⟨q, rfl⟩ := hpre
    by_cases hq : q = []
    · subst hq
      exact .inl (List.append_nil p)
    · exact .inr (.inl ⟨q, hq, rfl⟩)
  · exact .inr (.inr hpre)

theorem Apart.ne (h : Apart p q) : p ≠ q := by
  rintro rfl
  exact h.1 (List.prefix_refl p)

theorem Apart.symm (h : Apart p q) : Apart q p := ⟨h.2, h.1⟩

/-- What begins with one of two patterns apart does not begin with the other. -/
theorem Apart.not_isPrefix (h : Apart p q) (hp : p <+: r) : ¬ q <+: r := fun hq =>
  (List.prefix_or_prefix_of_prefix hp hq).elim h.1 h.2

theorem Apart.append_left (h : Apart p q) (r : Pattern) : Apart (p ++ r) q :=
  ⟨fun hpre => h.1 ((List.prefix_append p r).trans hpre),
    h.not_isPrefix (List.prefix_append p r)⟩

theorem apart_append_iff : Apart (r ++ p) (r ++ q) ↔ Apart p q := by
  simp only [Apart, List.prefix_append_right_inj]

end Pattern

namespace Forest
open List (Perm)
open Table OrderedMap Pattern

/-- How labels are read: what they report for which pattern, and whether they
may stand at a bit offset. -/
structure Reading (α : Type) where
  pattern : α → Pattern
  uri : α → String
  fits : Nat → α → Prop

variable {α : Type} (r : Reading α)

def entries : Forest α → Table
  | nil => []
  | node label below rest =>
    under (r.pattern label) (([], r.uri label) :: entries below) ++ entries rest

def roots (f : Forest α) : List Pattern := f.siblings.map fun tree => r.pattern tree.1

def Placed : Nat → Forest α → Prop
  | _, nil => True
  | offset, node label below rest =>
    (r.fits offset label ∧ (r.pattern label).Digital) ∧
      (Placed (offset + (r.pattern label).length) below ∧ ∀ p ∈ roots r below, p ≠ []) ∧
      (∀ p ∈ roots r rest, Apart (r.pattern label) p) ∧ Placed offset rest

structure TreePlaced (offset : Nat) (tree : α × Forest α) : Prop where
  fits : r.fits offset tree.1
  digital : (r.pattern tree.1).Digital
  below : Placed r (offset + (r.pattern tree.1).length) tree.2
  proper : ∀ p ∈ roots r tree.2, p ≠ []

structure Level (offset : Nat) (trees : List (α × Forest α)) : Prop where
  placed : ∀ tree ∈ trees, TreePlaced r offset tree
  apart : trees.Pairwise fun a b => Apart (r.pattern a.1) (r.pattern b.1)

def treeEntries (tree : α × Forest α) : Table :=
  under (r.pattern tree.1) (([], r.uri tree.1) :: entries r tree.2)

def levelEntries (trees : List (α × Forest α)) : Table := trees.flatMap (treeEntries r)

variable {r} {offset : Nat} {f g : Forest α} {tree : α × Forest α}
  {trees trees' : List (α × Forest α)} {p q : Pattern} {u : String}

theorem entries_eq (f : Forest α) : entries r f = levelEntries r f.siblings := by
  induction f with
  | nil => rfl
  | node label below rest _ ih =>
    rw [entries, ih]
    rfl

theorem placed_iff : Placed r offset f ↔ Level r offset f.siblings := by
  induction f with
  | nil => exact ⟨fun _ => ⟨by simp [siblings], List.Pairwise.nil⟩, fun _ => trivial⟩
  | node label below rest _ ih =>
    simp only [Placed, ih, siblings]
    constructor
    · rintro ⟨⟨hfits, hd⟩, ⟨hbelow, hproper⟩, hapart, hplaced, hrest⟩
      refine ⟨?_, List.pairwise_cons.mpr ⟨?_, hrest⟩⟩
      · intro tree htree
        rcases List.mem_cons.mp htree with rfl | htree
        · exact ⟨hfits, hd, hbelow, hproper⟩
        · exact hplaced tree htree
      · intro tree htree
        exact hapart _ (List.mem_map_of_mem htree)
    · rintro ⟨hplaced, hapart⟩
      obtain ⟨hfirst, hrest⟩ := List.pairwise_cons.mp hapart
      obtain ⟨hfits, hd, hbelow, hproper⟩ := hplaced _ List.mem_cons_self
      refine ⟨⟨hfits, hd⟩, ⟨hbelow, hproper⟩, ?_,
        fun tree htree => hplaced tree (List.mem_cons_of_mem _ htree), hrest⟩
      intro p hp
      obtain ⟨tree, htree, rfl⟩ := List.mem_map.mp hp
      exact hfirst tree htree

theorem Level.of_perm (h : Level r offset trees) (hperm : Perm trees trees') :
    Level r offset trees' :=
  ⟨fun tree htree => h.placed tree (hperm.symm.subset htree),
    hperm.pairwise h.apart fun hab => hab.symm⟩

theorem levelEntries_perm (h : Perm trees trees') :
    Perm (levelEntries r trees) (levelEntries r trees') := h.flatMap_right _

theorem levelEntries_append (trees trees' : List (α × Forest α)) :
    levelEntries r (trees ++ trees') = levelEntries r trees ++ levelEntries r trees' :=
  List.flatMap_append ..

theorem levelEntries_cons (tree : α × Forest α) (trees : List (α × Forest α)) :
    levelEntries r (tree :: trees) = treeEntries r tree ++ levelEntries r trees :=
  List.flatMap_cons ..

theorem Level.cons (h : Level r offset trees) (htree : TreePlaced r offset tree)
    (hapart : ∀ other ∈ trees, Apart (r.pattern tree.1) (r.pattern other.1)) :
    Level r offset (tree :: trees) := by
  refine ⟨?_, List.pairwise_cons.mpr ⟨hapart, h.apart⟩⟩
  intro other hother
  rcases List.mem_cons.mp hother with rfl | hother
  · exact htree
  · exact h.placed other hother

theorem Level.filter (h : Level r offset trees) (keep : α × Forest α → Bool) :
    Level r offset (trees.filter keep) :=
  ⟨fun tree htree => h.placed tree (List.mem_filter.mp htree).1, h.apart.filter _⟩

theorem prefix_of_mem_levelEntries {e : Pattern × String} (h : e ∈ levelEntries r trees) :
    ∃ tree ∈ trees, r.pattern tree.1 <+: e.1 := by
  obtain ⟨tree, htree, he⟩ := List.mem_flatMap.mp h
  exact ⟨tree, htree, prefix_of_mem_under he⟩

theorem not_mem_levelEntries (h : ∀ tree ∈ trees, ¬ r.pattern tree.1 <+: p) :
    (p, u) ∉ levelEntries r trees := fun hmem => by
  obtain ⟨tree, htree, hpre⟩ := prefix_of_mem_levelEntries hmem
  exact h tree htree hpre

theorem erase_levelEntries (h : ∀ tree ∈ trees, ¬ r.pattern tree.1 <+: p) :
    erase (levelEntries r trees) p = levelEntries r trees :=
  erase_of_absent fun e he heq => by
    obtain ⟨tree, htree, hpre⟩ := prefix_of_mem_levelEntries he
    exact h tree htree (heq ▸ hpre)

theorem matching_levelEntries {bits : Pattern} (h : ∀ tree ∈ trees, ¬ r.pattern tree.1 <+: bits) :
    matching bits (levelEntries r trees) = [] :=
  matching_eq_nil fun e he hpre => by
    obtain ⟨tree, htree, hp⟩ := prefix_of_mem_levelEntries he
    exact h tree htree (hp.trans hpre)

theorem erase_entries_nil (h : ∀ p ∈ roots r f, p ≠ []) : erase (entries r f) [] = entries r f := by
  rw [entries_eq]
  apply erase_levelEntries
  intro tree htree hpre
  exact h _ (List.mem_map_of_mem htree) (List.prefix_nil.mp hpre)

theorem size_eq_length (r : Reading α) (f : Forest α) : f.size = (entries r f).length := by
  induction f with
  | nil => rfl
  | node label below rest ih_below ih_rest =>
    simp only [size, entries, under, List.length_append, List.length_map, List.length_cons,
      ih_below, ih_rest]
    omega

end Forest
end TagFilter
