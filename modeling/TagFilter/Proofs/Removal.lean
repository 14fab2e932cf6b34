import TagFilter.Engine.Removal
import TagFilter.Proofs.Histories

/-! # Deleting in place

A removal that finds nothing puts together again what it took apart: every chain has
its old order and every filter is the old one. A removal succeeds exactly for an
entry of the table that the engine holds, and takes that entry alone.
-/
namespace TagFilter
open Table OrderedMap

variable {p : Pattern} {u : String}

theorem SortedList.remove_eq (p : Pattern) (u : String) (entries : SortedList) :
    entries.remove p u = ((entries.delete? p u).isSome, (entries.delete? p u).getD entries) := by
  rw [SortedList.remove, SortedList.delete?]
  cases entries.place p with
  | absent i => rfl
  | found i =>
    dsimp only
    split <;> rfl

theorem Trie.remove_eq (p : Pattern) (u : String) (t : Trie) :
    t.remove p u = ((t.delete? p u).isSome, (t.delete? p u).getD t) := by
  induction t with
  | empty => rfl
  | node held filter one zero ih_one ih_zero =>
    rw [Trie.remove, Trie.delete?]
    cases p.dropSize? filter.offset with
    | none => rfl
    | some rest =>
      dsimp only [Option.bind_eq_bind, Option.bind_some]
      split
      · split
        · split <;> rfl
        · split
          · rw [ih_one]
            cases one.delete? p u <;> rfl
          · rw [ih_zero]
            cases zero.delete? p u <;> rfl
      · rfl

namespace WeightedTree
open Forest Pattern

/-- Where nothing is found, the chain is whole and nothing is left to be placed. -/
theorem takeOut_eq (u : String) (p : Pattern) (chain : WeightedTree) :
    takeOut u p chain = match detach? u p chain with
      | some (remaining, freed) => ⟨true, remaining, freed⟩
      | none => ⟨false, chain, .nil⟩ := by
  induction chain generalizing p with
  | nil => rfl
  | node b below rest ih_below ih_rest =>
    rw [takeOut, detach?]
    dsimp only
    split
    · split
      · rw [ih_below]
        cases detach? u (p.drop b.filter.pattern.length) below <;> rfl
      · split <;> rfl
    · rw [ih_rest]
      cases detach? u p rest <;> rfl

theorem remove_eq (p : Pattern) (u : String) (t : WeightedTree) :
    remove p u t = ((delete? p u t).isSome, (delete? p u t).getD t) := by
  rw [remove, takeOut_eq, delete?]
  cases detach? u p t <;> rfl

end WeightedTree

/-- Uses of an engine where it lies: what a removal leaves is used further, whether
it found its entry or not. -/
def Use.perform (engine : Engine) : Use → Engine
  | .change (.add p u) => engine.add p u
  | .change (.delete p u) => (engine.remove p u).2
  | .search id => (engine.searchAdaptive id).2

namespace Engine

variable {m : Table} {engine : Engine} {uses : List Use} {subs : Subscriptions}

theorem takeOut_eq (engine : Engine) (p : Pattern) (u : String) :
    engine.takeOut p u = ((engine.delete? p u).isSome, (engine.delete? p u).getD engine) := by
  cases engine with
  | list entries =>
    rw [takeOut, SortedList.remove_eq, Engine.delete?]
    cases entries.delete? p u <;> rfl
  | patriciaTrie trie =>
    rw [takeOut, Trie.remove_eq, Engine.delete?]
    cases trie.delete? p u <;> rfl
  | weightedTree tree | splayTree tree =>
    rw [takeOut, WeightedTree.remove_eq, Engine.delete?]
    cases WeightedTree.delete? p u tree <;> rfl

theorem remove_eq (engine : Engine) (p : Pattern) (u : String) :
    engine.remove p u = match engine.delete p u with
      | .ok left => (.ok (), left)
      | .error error => (.error error, engine) := by
  rw [remove, takeOut_eq, Engine.delete]
  cases engine.delete? p u <;> rfl

theorem perform_eq_apply (use : Use) (engine : Engine) : use.perform engine = use.apply engine := by
  cases use with
  | search id => rfl
  | change change =>
    cases change with
    | add p u => rfl
    | delete p u =>
      rw [Use.perform, remove_eq, Use.apply, Change.applyOrKeep, Change.apply]
      cases engine.delete p u <;> rfl

theorem Tracks.after_performed (h : Tracks m engine) (huses : ∀ use ∈ uses, use.Digital) :
    Tracks (uses.foldl Use.onTable m) (uses.foldl Use.perform engine) := by
  have hsame : Use.perform = Use.apply := funext fun engine => funext fun use =>
    perform_eq_apply use engine
  rw [hsame]
  exact h.after_uses huses

/-- A removal either takes out exactly its entry or changes nothing. -/
theorem Tracks.remove (h : Tracks m engine) (hp : p.Digital) (u : String) :
    (m.get? p = some u ∧ ∃ left, engine.remove p u = (.ok (), left) ∧ Tracks (m.erase p) left) ∨
      (m.get? p ≠ some u ∧ engine.remove p u = (.error (.notFound p u), engine)) := by
  rw [remove_eq]
  obtain ⟨hget, left, hdelete, hholds⟩ | ⟨hget, hdelete⟩ := h.holds.delete h.sorted hp u
  · rw [hdelete]
    exact .inl ⟨hget, left, rfl, hholds, h.sorted.erase, h.digital.erase⟩
  · rw [hdelete]
    exact .inr ⟨hget, rfl⟩

/-- After any additions, removals and searches a removal succeeds exactly if the
pattern is there with the URI, and then the engine holds and reports all but this
entry. Otherwise it names both, and the engine is the one that it was. -/
theorem remove_exact (hsubs : subs.Inserted) (huses : ∀ use ∈ uses, use.Digital)
    (kind : EngineKind) (hp : p.Digital) (u : String) :
    let m := uses.foldl Use.onTable subs.table
    let engine := uses.foldl Use.perform (build kind subs)
    let answer := (engine.remove p u).1
    let left := (engine.remove p u).2
    (answer = .ok () ↔ m.get? p = some u) ∧
      (answer = .ok () → Tracks (m.erase p) left ∧ left.count = (m.erase p).length ∧
        ∀ id, left.search id = reported id (m.erase p)) ∧
      (answer ≠ .ok () → answer = .error (.notFound p u) ∧ left = engine) ∧
      engine.delete p u = answer.map fun _ => left := by
  intro m engine answer left
  have htracks : Tracks m engine :=
    Tracks.after_performed ⟨holds_build hsubs.flat kind, hsubs.flat.sorted, hsubs.flat.digital⟩ huses
  have hdelete : engine.delete p u = answer.map fun _ => left := by
    simp only [answer, left, remove_eq]
    cases engine.delete p u <;> rfl
  obtain ⟨hget, after, hremove, hafter⟩ | ⟨hget, hremove⟩ := htracks.remove hp u
  · obtain ⟨hanswer, rfl⟩ : answer = .ok () ∧ left = after := Prod.mk.inj hremove
    exact ⟨iff_of_true hanswer hget, fun _ => ⟨hafter, hafter.holds.count_eq,
      hafter.holds.search_eq hafter.sorted hafter.digital⟩, fun hnot => absurd hanswer hnot, hdelete⟩
  · obtain ⟨hanswer, hleft⟩ : answer = .error (.notFound p u) ∧ left = engine :=
      Prod.mk.inj hremove
    have hnot : answer ≠ .ok () := by simp [hanswer]
    exact ⟨iff_of_false hnot hget, fun hok => absurd hok hnot, fun _ => ⟨hanswer, hleft⟩, hdelete⟩

/-- The wrong URI for a pattern that has patterns above and below it. -/
theorem remove_exact_sample :
    let engine := sampleUses.foldl Use.perform (build .splayTree sampleMap)
    engine.remove ['0', '1'] "first" = (.error (.notFound ['0', '1'] "first"), engine) ∧
      (engine.remove ['0', '1'] "second").2.search [0x60] = ["all", "third"] := by
  intro engine
  have hinserted : sampleMap.Inserted :=
    .insert (p := ['0', '1']) (u := "second") (w := Weight.zero)
      (.insert (p := ['0']) (u := "first") (w := Weight.zero) .nil rfl) rfl
  have huses : ∀ use ∈ sampleUses, use.Digital := by decide
  have hp : Pattern.Digital ['0', '1'] := by decide
  have hexact := remove_exact hinserted huses .splayTree hp
  obtain ⟨hwrong, -, hkept, -⟩ := hexact "first"
  obtain ⟨hright, hleft, -, -⟩ := hexact "second"
  obtain ⟨hanswer, hsame⟩ := hkept fun hok => absurd (hwrong.mp hok) (by decide)
  exact ⟨Prod.ext hanswer hsame, ((hleft (hright.mpr (by decide))).2.2 [0x60]).trans (by decide)⟩

end Engine
end TagFilter
