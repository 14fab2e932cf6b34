import TagFilter.EngineSlot
import TagFilter.Proofs.SortedList
import TagFilter.Proofs.Tree.Growth
import TagFilter.Proofs.Tree.Updates
import TagFilter.Proofs.Trie.Growth
import TagFilter.Proofs.Trie.Updates

/-! # The contents of an engine

An engine of any kind holds a table: it is built from one, each change takes it
to one that holds the changed table, and a search reads the table alone, in the
order of the lengths of the patterns.
-/
namespace TagFilter
open List (Perm)
open Table OrderedMap

/-- What a change makes of a table: only an entry that is there is removed. -/
def Change.onTable (m : Table) : Change → Table
  | .add p u => m.insert p u
  | .delete p u => if m.get? p = some u then m.erase p else m

def Change.Digital : Change → Prop
  | .add p _ => p.Digital
  | .delete p _ => p.Digital

instance : DecidablePred Change.Digital
  | .add p _ => inferInstanceAs (Decidable p.Digital)
  | .delete p _ => inferInstanceAs (Decidable p.Digital)

variable {m : Table} {p : Pattern} {u : String} {subs : Subscriptions}

theorem Change.onTable_sorted (change : Change) (h : m.Sorted) : (change.onTable m).Sorted := by
  cases change with
  | add p u => exact h.insert
  | delete p u =>
    rw [onTable]
    split
    · exact h.erase
    · exact h

theorem Change.onTable_digital {change : Change} (hc : change.Digital) (hs : m.Sorted)
    (h : m.Digital) : (change.onTable m).Digital := by
  cases change with
  | add p u => exact h.insert hs hc
  | delete p u =>
    rw [onTable]
    split
    · exact h.erase
    · exact h

theorem SortedList.build_eq (subs : Subscriptions) :
    SortedList.build subs = SortedList.ofTable subs.table := by
  rw [build, ofTable, Subscriptions.table, List.map_map]
  rfl

theorem Trie.build_canonical (hs : subs.table.Sorted) (hd : subs.table.Digital) :
    Trie.Canonical [] 0 (Trie.build subs) ∧ Perm (Trie.build subs).entries subs.table := by
  refine Trie.canonical_grow hs.nodup hd (fun _ _ => List.nil_prefix) ?_
  intro e he
  have hle := Trie.length_le_longest he
  rw [List.length_nil]
  exact Nat.lt_of_le_of_lt hle (by omega)

namespace Engine

def Holds (m : Table) : Engine → Prop
  | list entries => entries = SortedList.ofTable m
  | patriciaTrie trie => Trie.Canonical [] 0 trie ∧ Perm trie.entries m
  | weightedTree tree | splayTree tree =>
    Forest.Placed WeightedTree.reading 0 tree ∧ Perm (Forest.entries WeightedTree.reading tree) m

variable {engine : Engine} {id : Identifier} {change : Change} {kind : EngineKind}

theorem holds_build (h : subs.Flat) (kind : EngineKind) : Holds subs.table (build kind subs) := by
  cases kind with
  | list => exact SortedList.build_eq subs
  | patriciaTrie => exact Trie.build_canonical h.sorted h.digital
  | weightedTree => exact WeightedTree.build_placed h
  | splayTree => exact WeightedTree.build_placed h

theorem Holds.search_eq (h : Holds m engine) (hs : m.Sorted) (hd : m.Digital) (id : Identifier) :
    engine.search id = reported id m := by
  have hread {entries : Table} {uris : List String} (hperm : Perm entries m)
      (huris : uris = (matching (id.bits.drop 0) entries).map (·.2) ∧
        (matching (id.bits.drop 0) entries).Pairwise fun a b => a.1.length < b.1.length) :
      uris = reported id m := by
    rw [List.drop_zero] at huris
    rw [huris.1, reported, matching_eq_of_perm hs hperm huris.2]
  cases engine with
  | list entries =>
    obtain rfl : entries = SortedList.ofTable m := h
    exact SortedList.search_ofTable hd id
  | patriciaTrie trie => exact hread h.2 (h.1.search_eq id (Nat.zero_le _))
  | weightedTree tree => exact hread h.2 (WeightedTree.search_eq h.1 id (Nat.zero_le _))
  | splayTree tree => exact hread h.2 (WeightedTree.search_eq h.1 id (Nat.zero_le _))

theorem Holds.searchAdaptive (h : Holds m engine) (id : Identifier) :
    Holds m (engine.searchAdaptive id).2 := by
  cases engine with
  | splayTree tree =>
    obtain ⟨hplaced, hperm⟩ := h
    have hmoved := SplayTree.perm_moveToFront id tree
    constructor
    · exact Forest.placed_iff.mpr ((Forest.placed_iff.mp hplaced).of_perm hmoved.symm)
    · rw [Forest.entries_eq] at hperm ⊢
      exact (Forest.levelEntries_perm hmoved).trans hperm
  | list entries => exact h
  | patriciaTrie trie => exact h
  | weightedTree tree => exact h

theorem Holds.searchAdaptive_eq (h : Holds m engine) (hs : m.Sorted) (hd : m.Digital)
    (id : Identifier) : (engine.searchAdaptive id).1 = reported id m := by
  cases engine with
  | splayTree tree => exact (h.searchAdaptive id).search_eq hs hd id
  | list entries => exact h.search_eq hs hd id
  | patriciaTrie trie => exact h.search_eq hs hd id
  | weightedTree tree => exact h.search_eq hs hd id

theorem Holds.count_eq (h : Holds m engine) : engine.count = m.length := by
  cases engine with
  | list entries =>
    obtain rfl : entries = SortedList.ofTable m := h
    exact List.length_map _
  | patriciaTrie trie => exact (Trie.count_eq trie).trans h.2.length_eq
  | weightedTree tree => exact (Forest.size_eq_length _ tree).trans h.2.length_eq
  | splayTree tree => exact (Forest.size_eq_length _ tree).trans h.2.length_eq

theorem Holds.add (h : Holds m engine) (hs : m.Sorted) (hp : p.Digital) (u : String) :
    Holds (m.insert p u) (engine.add p u) := by
  have hset {entries entries' : Table} (hperm : Perm entries m)
      (hadd : Perm entries' ((p, u) :: entries.erase p)) : Perm entries' (m.insert p u) :=
    (hadd.trans ((hperm.filter _).cons _)).trans (perm_insert hs).symm
  cases engine with
  | list entries =>
    obtain rfl : entries = SortedList.ofTable m := h
    exact SortedList.add_ofTable hs p u
  | patriciaTrie trie =>
    obtain ⟨hcan, hadd⟩ := h.1.addAt u hp List.nil_prefix
    exact ⟨hcan, hset h.2 hadd⟩
  | weightedTree tree =>
    obtain ⟨hplaced, hadd⟩ := WeightedTree.add_placed (u := u) h.1 hp
    exact ⟨hplaced, hset h.2 hadd⟩
  | splayTree tree =>
    obtain ⟨hplaced, hadd⟩ := WeightedTree.add_placed (u := u) h.1 hp
    exact ⟨hplaced, hset h.2 hadd⟩

/-- Deleting succeeds exactly for an entry of the table, which it removes. -/
theorem Holds.delete? (h : Holds m engine) (hs : m.Sorted) (hp : p.Digital) (u : String) :
    match engine.delete? p u with
    | none => m.get? p ≠ some u
    | some engine' => m.get? p = some u ∧ Holds (m.erase p) engine' := by
  have hmem {entries : Table} (hperm : Perm entries m) :
      (p, u) ∈ entries ↔ m.get? p = some u := by
    rw [hperm.mem_iff, get?_eq_some_iff hs.nodup]
  cases engine with
  | list entries =>
    obtain rfl : entries = SortedList.ofTable m := h
    rw [Engine.delete?, SortedList.delete?_ofTable hs]
    by_cases hget : m.get? p = some u
    · rw [if_pos hget]
      exact ⟨hget, rfl⟩
    · rw [if_neg hget]
      exact hget
  | patriciaTrie trie =>
    have hdeleted := h.1.delete? [] u hp rfl
    rw [Engine.delete?]
    cases hresult : trie.delete? p u with
    | none =>
      rw [List.nil_append, hresult] at hdeleted
      exact fun hget => hdeleted ((hmem h.2).mpr hget)
    | some trie' =>
      rw [List.nil_append, hresult] at hdeleted
      obtain ⟨hin, hcan, hperm⟩ := hdeleted
      exact ⟨(hmem h.2).mp hin, hcan, hperm.trans (h.2.filter _)⟩
  | weightedTree tree | splayTree tree =>
    have hdeleted := WeightedTree.delete?_placed h.1 p u
    rw [Engine.delete?]
    cases hresult : WeightedTree.delete? p u tree with
    | none =>
      rw [hresult] at hdeleted
      exact fun hget => hdeleted ((hmem h.2).mpr hget)
    | some tree' =>
      rw [hresult] at hdeleted
      obtain ⟨hin, hplaced, hperm⟩ := hdeleted
      exact ⟨(hmem h.2).mp hin, hplaced, hperm.trans (h.2.filter _)⟩

theorem Holds.delete (h : Holds m engine) (hs : m.Sorted) (hp : p.Digital) (u : String) :
    (m.get? p = some u ∧ ∃ engine', engine.delete p u = .ok engine' ∧ Holds (m.erase p) engine') ∨
      (m.get? p ≠ some u ∧ engine.delete p u = .error (.notFound p u)) := by
  have hdeleted := h.delete? hs hp u
  unfold Engine.delete
  cases hresult : engine.delete? p u with
  | none =>
    rw [hresult] at hdeleted
    exact .inr ⟨hdeleted, rfl⟩
  | some engine' =>
    rw [hresult] at hdeleted
    exact .inl ⟨hdeleted.1, engine', rfl, hdeleted.2⟩

theorem Holds.applyOrKeep (h : Holds m engine) (hs : m.Sorted) (hc : change.Digital) :
    Holds (change.onTable m) (change.applyOrKeep engine) := by
  cases change with
  | add p u => exact h.add hs hc u
  | delete p u =>
    rw [Change.onTable, Change.applyOrKeep, Change.apply]
    rcases h.delete hs hc u with ⟨hget, engine', heq, hholds⟩ | ⟨hget, heq⟩
    · rw [if_pos hget, heq]
      exact hholds
    · rw [if_neg hget, heq]
      exact h

theorem kind_add (engine : Engine) (p : Pattern) (u : String) :
    (engine.add p u).kind = engine.kind := by
  cases engine <;> rfl

theorem kind_delete? {engine' : Engine} (h : engine.delete? p u = some engine') :
    engine'.kind = engine.kind := by
  cases engine <;> (obtain ⟨_, -, rfl⟩ := Option.map_eq_some_iff.mp h) <;> rfl

theorem kind_delete {engine' : Engine} (h : engine.delete p u = .ok engine') :
    engine'.kind = engine.kind := by
  rw [Engine.delete] at h
  cases hresult : engine.delete? p u with
  | none => simp [hresult] at h
  | some result =>
    rw [hresult] at h
    exact Except.ok.inj h ▸ kind_delete? hresult

theorem kind_applyOrKeep (change : Change) (engine : Engine) :
    (change.applyOrKeep engine).kind = engine.kind := by
  cases change with
  | add p u => exact kind_add engine p u
  | delete p u =>
    rw [Change.applyOrKeep, Change.apply]
    cases hresult : engine.delete p u with
    | error => rfl
    | ok engine' => exact kind_delete hresult

end Engine
end TagFilter
