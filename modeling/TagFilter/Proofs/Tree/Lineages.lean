import Mathlib.Algebra.Ring.Nat
import TagFilter.Proofs.Histories

/-! # Chains and lineages

Below each node of a tree lies a chain that a search enters when the node and
all above it accept the identifier. A lineage is a node with those above it: its
patterns put together are the pattern it stands for, and give the bit offset at
which its filter starts. Changes and searches keep this throughout the tree.
-/
namespace TagFilter
namespace Forest
open List (Perm)
open Table Pattern

variable {α : Type} {r : Reading α} {f chain : Forest α} {above : List α} {label : α}
  {offset : Nat}

/-- A chain of a forest, and the labels on the way down to it, the topmost first. -/
inductive Reaches : Forest α → List α → Forest α → Prop where
  | here (f : Forest α) : Reaches f [] f
  | down {f below chain : Forest α} {label : α} {above : List α}
    (hin : (label, below) ∈ f.siblings) (h : Reaches below above chain) :
    Reaches f (label :: above) chain

/-- The labels of all levels, each with those above it. -/
def lineages : Forest α → List (List α × α)
  | nil => []
  | node label below rest =>
    ([], label) :: ((lineages below).map fun line => (label :: line.1, line.2)) ++
      lineages rest

theorem lineages_eq (f : Forest α) :
    lineages f = f.siblings.flatMap fun tree =>
      ([], tree.1) :: (lineages tree.2).map fun line => (tree.1 :: line.1, line.2) := by
  induction f with
  | nil => rfl
  | node label below rest _ ih => rw [lineages, siblings, List.flatMap_cons, ← ih]

theorem mem_lineages_iff :
    (above, label) ∈ lineages f ↔ ∃ chain, Reaches f above chain ∧ label ∈ chain.labels := by
  constructor
  · intro h
    induction f generalizing above with
    | nil => exact absurd h List.not_mem_nil
    | node first below rest ih_below ih_rest =>
      rw [lineages, List.mem_append, List.mem_cons] at h
      rcases h with (hhere | hbelow) | hrest
      · obtain ⟨rfl, rfl⟩ := Prod.mk.inj hhere
        exact ⟨_, .here _, List.mem_cons_self⟩
      · obtain ⟨line, hline, heq⟩ := List.mem_map.mp hbelow
        obtain ⟨rfl, rfl⟩ := Prod.mk.inj heq
        obtain ⟨chain, hreach, hlabel⟩ := ih_below hline
        exact ⟨chain, .down List.mem_cons_self hreach, hlabel⟩
      · obtain ⟨chain, hreach, hlabel⟩ := ih_rest hrest
        -- The top chain grows by the first label; the chains below it stay as they are.
        cases hreach with
        | here => exact ⟨_, .here _, List.mem_cons_of_mem _ hlabel⟩
        | down hin hreach => exact ⟨chain, .down (List.mem_cons_of_mem _ hin) hreach, hlabel⟩
  · rintro ⟨chain, hreach, hlabel⟩
    induction hreach with
    | here f =>
      obtain ⟨tree, htree, rfl⟩ := List.mem_map.mp hlabel
      rw [lineages_eq]
      exact List.mem_flatMap_of_mem htree List.mem_cons_self
    | down hin _ ih =>
      rw [lineages_eq]
      exact List.mem_flatMap_of_mem hin
        (List.mem_cons_of_mem _ (List.mem_map.mpr ⟨_, ih hlabel, rfl⟩))

def spelled (r : Reading α) (line : List α) : Pattern := line.flatMap r.pattern

@[simp] theorem spelled_nil : spelled r [] = [] := rfl

@[simp] theorem spelled_cons (line : List α) :
    spelled r (label :: line) = r.pattern label ++ spelled r line :=
  List.flatMap_cons

@[simp] theorem spelled_append (above line : List α) :
    spelled r (above ++ line) = spelled r above ++ spelled r line :=
  List.flatMap_append

theorem length_spelled (line : List α) :
    (spelled r line).length = (line.map fun label => (r.pattern label).length).sum :=
  List.length_flatMap

/-- What a node stands for: the pattern of its lineage and its own URI. -/
def entryOf (r : Reading α) (line : List α × α) : Pattern × String :=
  (spelled r (line.1 ++ [line.2]), r.uri line.2)

theorem entries_eq_lineages (f : Forest α) : entries r f = (lineages f).map (entryOf r) := by
  induction f with
  | nil => rfl
  | node label below rest ih_below ih_rest =>
    have hbelow : under (r.pattern label) (entries r below) =
        (lineages below).map fun line => entryOf r (label :: line.1, line.2) := by
      rw [ih_below, under, List.map_map]
      rfl
    have hhere : (r.pattern label ++ [], r.uri label) = entryOf r ([], label) := by
      simp [entryOf, spelled]
    rw [entries, lineages, List.map_append, List.map_cons, List.map_map, ← ih_rest, ← hhere]
    exact congrArg (_ :: · ++ entries r rest) hbelow

theorem Reaches.placed (h : Reaches f above chain) (hf : Placed r offset f) :
    Placed r (offset + (spelled r above).length) chain := by
  induction h generalizing offset with
  | here f => exact hf
  | down hin _ ih =>
    have hbelow := ih ((placed_iff.mp hf).placed _ hin).below
    rwa [Nat.add_assoc, ← List.length_append] at hbelow

theorem Reaches.level (h : Reaches f above chain) (hf : Placed r 0 f) :
    Level r (spelled r above).length chain.siblings := by
  have hchain := h.placed hf
  rw [Nat.zero_add] at hchain
  exact placed_iff.mp hchain

end Forest

namespace WeightedTree
open List (Perm)
open Forest Table Pattern

variable {m : Table} {t chain : WeightedTree} {above : List Branch} {offset : Nat}
  {id : Identifier}

/-- How a tree represents a table: no pattern of a chain begins another, each filter is
encoded where the patterns above it end, and the lineages spell every pattern of the
table once. So a chain that is entered has at most one branch to go on with. -/
structure Represents (m : Table) (t : WeightedTree) : Prop where
  apart : ∀ above chain, Reaches t above chain →
    chain.labels.Pairwise fun a b => Apart a.filter.pattern b.filter.pattern
  encoded : ∀ above b, (above, b) ∈ lineages t →
    b.filter = Filter.encode b.filter.pattern
      (above.map fun a => a.filter.pattern.length).sum
  entries : Perm ((lineages t).map (entryOf reading)) m
  nodup : ((lineages t).map fun line => (entryOf reading line).1).Nodup
  exclusive : ∀ id above chain, Reaches t above chain →
    (∀ a ∈ above, a.filter.accepts id = true) →
    chain.labels.Pairwise fun a b => a.filter.accepts id = true → b.filter.accepts id = false

/-- An identifier that all branches above a chain accept begins with their patterns. -/
theorem Reaches.spelled_isPrefix (h : Reaches t above chain) (ht : Placed reading offset t)
    (hoffset : offset ≤ id.bits.length) (hall : ∀ a ∈ above, a.filter.accepts id = true) :
    spelled reading above <+: id.bits.drop offset := by
  induction h generalizing offset with
  | here => exact List.nil_prefix
  | @down t below chain b above hin _ ih =>
    obtain ⟨haccepts, hrest⟩ := List.forall_mem_cons.mp hall
    have hplaced := (placed_iff.mp ht).placed _ hin
    obtain ⟨rest, hbits⟩ := (TreePlaced.accepts_iff hplaced id hoffset).mp haccepts
    have hlength := congrArg List.length hbits
    rw [List.length_append, List.length_drop] at hlength
    have hbelow := ih hplaced.below (by rw [reading_pattern]; omega) hrest
    rw [← List.drop_drop, ← hbits, reading_pattern, List.drop_left] at hbelow
    rw [← hbits]
    exact (List.prefix_append_right_inj _).mpr hbelow

theorem Level.exclusive (h : Level reading offset chain.siblings) (id : Identifier)
    (hoffset : offset ≤ id.bits.length) :
    chain.labels.Pairwise fun a b =>
      a.filter.accepts id = true → b.filter.accepts id = false := by
  refine List.pairwise_map.mpr (h.apart.imp_of_mem ?_)
  intro a b ha hb hapart haccepts
  have hfirst := (TreePlaced.accepts_iff (h.placed a ha) id hoffset).mp haccepts
  rw [Bool.eq_false_iff]
  intro hother
  exact hapart.not_isPrefix hfirst ((TreePlaced.accepts_iff (h.placed b hb) id hoffset).mp hother)

theorem Represents.of_placed (ht : Placed reading 0 t) (hm : m.Sorted)
    (hperm : Perm (Forest.entries reading t) m) : Represents m t := by
  rw [entries_eq_lineages] at hperm
  refine ⟨?_, ?_, hperm, ?_, ?_⟩
  · intro above chain h
    exact List.pairwise_map.mpr (h.level ht).apart
  · intro above b h
    obtain ⟨chain, hreach, hb⟩ := mem_lineages_iff.mp h
    obtain ⟨tree, htree, rfl⟩ := List.mem_map.mp hb
    have hfits := ((hreach.level ht).placed tree htree).fits
    rwa [length_spelled] at hfits
  · have hnodup := (hperm.map (·.1)).nodup_iff.mpr hm.nodup
    rwa [List.map_map] at hnodup
  · intro id above chain h hall
    have hpre := Reaches.spelled_isPrefix h ht (Nat.zero_le _) hall
    rw [List.drop_zero] at hpre
    exact Level.exclusive (h.level ht) id hpre.length_le

end WeightedTree

namespace Engine
open WeightedTree Table

def tree? : Engine → Option WeightedTree
  | weightedTree tree | splayTree tree => some tree
  | list _ | patriciaTrie _ => none

variable {m : Table} {engine : Engine} {kind : EngineKind} {subs : Subscriptions}
  {uses : List Use}

theorem Tracks.represents {tree : WeightedTree} (h : Tracks m engine)
    (htree : engine.tree? = some tree) : Represents m tree := by
  cases engine with
  | weightedTree t | splayTree t =>
    obtain rfl := Option.some.inj htree
    exact Represents.of_placed h.holds.1 h.sorted h.holds.2
  | list | patriciaTrie => exact absurd htree (by simp [tree?])

theorem kind_uses (uses : List Use) (engine : Engine) :
    (uses.foldl Use.apply engine).kind = engine.kind := by
  have hone (use : Use) (engine : Engine) : (use.apply engine).kind = engine.kind := by
    cases use with
    | change change => exact kind_applyOrKeep change engine
    | search id => cases engine <;> rfl
  induction uses generalizing engine with
  | nil => rfl
  | cons use uses ih => exact (ih _).trans (hone use engine)

theorem exists_tree (h : engine.kind = .weightedTree ∨ engine.kind = .splayTree) :
    ∃ tree, engine.tree? = some tree := by
  cases engine with
  | weightedTree tree | splayTree tree => exact ⟨tree, rfl⟩
  | list | patriciaTrie => exact absurd h (by simp [Engine.kind])

/-- Whatever changes and searches a tree has been through since it was built, it
represents the table that the changes lead to. -/
theorem tree_represents (hsubs : subs.Inserted) (huses : ∀ use ∈ uses, use.Digital)
    (hkind : kind = .weightedTree ∨ kind = .splayTree) :
    let engine := uses.foldl Use.apply (build kind subs)
    engine.kind = kind ∧
      ∃ tree, engine.tree? = some tree ∧ Represents (uses.foldl Use.onTable subs.table) tree := by
  intro engine
  have hsame : engine.kind = kind := (kind_uses uses _).trans (kind_build kind subs)
  have htracks : Tracks (uses.foldl Use.onTable subs.table) engine :=
    Tracks.after_uses ⟨holds_build hsubs.flat kind, hsubs.flat.sorted, hsubs.flat.digital⟩ huses
  obtain ⟨tree, htree⟩ := exists_tree (hsame.symm ▸ hkind)
  exact ⟨hsame, tree, htree, htracks.represents htree⟩

/-- What the sample history makes of its two patterns: each of three patterns lies
below the one that it extends. -/
def sampleTree : WeightedTree :=
  .node ⟨"all", Filter.encode [] 0, Weight.zero⟩
    (.node ⟨"second", Filter.encode ['0', '1'] 0, Weight.zero⟩
      (.node ⟨"third", Filter.encode ['1'] 2, Weight.zero⟩ .nil .nil) .nil) .nil

theorem tree_represents_sample :
    (sampleUses.foldl Use.apply (build .splayTree sampleMap)).tree? = some sampleTree ∧
      Represents [([], "all"), (['0', '1'], "second"), (['0', '1', '1'], "third")] sampleTree := by
  have hinserted : sampleMap.Inserted :=
    .insert (p := ['0', '1']) (u := "second") (w := Weight.zero)
      (.insert (p := ['0']) (u := "first") (w := Weight.zero) .nil rfl) rfl
  have huses : ∀ use ∈ sampleUses, use.Digital := by decide
  have hsample : (sampleUses.foldl Use.apply (build .splayTree sampleMap)).tree? =
      some sampleTree := by decide +kernel
  obtain ⟨-, tree, htree, hrepresents⟩ := tree_represents hinserted huses (.inr rfl)
  obtain rfl := Option.some.inj (hsample.symm.trans htree)
  exact ⟨hsample, hrepresents⟩

end Engine
end TagFilter
