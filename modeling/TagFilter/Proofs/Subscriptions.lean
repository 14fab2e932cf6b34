import TagFilter.Proofs.Forests
import TagFilter.Proofs.Table
import TagFilter.Subscription.Basic

/-! # Maps of subscriptions as tables

A map made by insertions is flat: its patterns are in increasing order, made of
digits and not empty, and start at bit zero with nothing below them. Insertions
and removals change its table as they change an ordered map.
-/
namespace TagFilter
open OrderedMap

theorem Pattern.validate_iff {p : Pattern} : p.validate false = .ok () ↔ p.Digital := by
  have hnone : p.firstRefused false = none ↔ p.Digital := by
    rw [firstRefused, List.find?_eq_none, Digital]
    constructor
    · intro h c hc
      obtain ⟨i, hi, rfl⟩ := List.getElem_of_mem hc
      have hmem : (p[i], i) ∈ p.zipIdx := List.mk_mem_zipIdx_iff_getElem?.mpr (by simp [hi])
      simpa [isAllowed, or_iff_not_imp_left] using h _ hmem
    · rintro h ⟨c, i⟩ hmem
      have hc := h c (List.mem_of_getElem? (List.mk_mem_zipIdx_iff_getElem?.mp hmem))
      simpa [isAllowed, or_iff_not_imp_left] using hc
  rw [validate, ← hnone]
  cases p.firstRefused false with
  | none => simp
  | some refused => simp

namespace Subscriptions

def table (subs : Subscriptions) : Table := subs.labels.map fun s => (s.pattern, s.uri)

variable {offset : Nat} {subs subs' : Subscriptions} {s : Subscription} {p : Pattern} {u : String}
  {w : Weight}

@[simp] theorem table_nil : table .nil = [] := rfl

@[simp] theorem table_node (s : Subscription) (below rest : Subscriptions) :
    table (.node s below rest) = (s.pattern, s.uri) :: table rest := rfl

/-- A map of the entries of a table, in their order, with no weight. -/
def ofTable (m : Table) : Subscriptions :=
  Forest.ofSiblings (m.map fun e => (⟨e.1, e.2, Weight.zero, 0⟩, .nil))

theorem table_ofTable (m : Table) : (ofTable m).table = m := by
  simp [table, ofTable, Forest.labels, Function.comp_def]

def Top (offset : Nat) (tree : Subscription × Subscriptions) : Prop :=
  tree.1.pattern ≠ [] ∧ tree.1.offset = offset ∧ tree.2 = .nil

instance (offset : Nat) : DecidablePred (Top offset) := fun tree =>
  inferInstanceAs (Decidable (tree.1.pattern ≠ [] ∧ tree.1.offset = offset ∧ tree.2 = .nil))

structure FlatAt (offset : Nat) (subs : Subscriptions) : Prop where
  sorted : subs.table.Sorted
  digital : subs.table.Digital
  top : ∀ tree ∈ subs.siblings, Top offset tree

abbrev Flat : Subscriptions → Prop := FlatAt 0

inductive Inserted : Subscriptions → Prop where
  | nil : Inserted .nil
  | insert {subs subs' : Subscriptions} {p : Pattern} {u : String} {w : Weight}
    (h : Inserted subs) (hput : subs.insert p u w = .ok subs') : Inserted subs'

theorem table_put (s : Subscription) (below subs : Subscriptions) :
    (put s below subs).table = subs.table.insert s.pattern s.uri := by
  induction subs with
  | nil => rfl
  | node t subset rest _ ih =>
    rw [OrderedMap.insert] at ih
    simp only [put, table_node, OrderedMap.insert, alter]
    split
    · rfl
    · split
      · rfl
      · rw [table_node, ih]

theorem mem_siblings_put {below : Subscriptions} {tree : Subscription × Subscriptions}
    (h : tree ∈ (put s below subs).siblings) : tree = (s, below) ∨ tree ∈ subs.siblings := by
  induction subs with
  | nil => exact .inl (List.mem_singleton.mp h)
  | node t subset rest _ ih =>
    simp only [put] at h
    split at h
    · exact List.mem_cons.mp h
    · split at h
      · rcases List.mem_cons.mp h with h | h
        · exact .inl h
        · exact .inr (List.mem_cons_of_mem _ h)
      · rcases List.mem_cons.mp h with h | h
        · exact .inr (h ▸ List.mem_cons_self)
        · exact (ih h).imp_right (List.mem_cons_of_mem _)

theorem insert_eq_ok_iff : subs.insert p u w = .ok subs' ↔
    p ≠ [] ∧ p.Digital ∧ put ⟨p, u, w, 0⟩ .nil subs = subs' := by
  rw [← Pattern.validate_iff, insert]
  by_cases hp : p = []
  · simp [hp, Bind.bind, Except.bind, throw, throwThe, MonadExceptOf.throw]
  · cases hv : p.validate false with
    | error e => simp [hp, Bind.bind, Except.bind]
    | ok v => simp [hp, Bind.bind, Except.bind, pure, Except.pure]

theorem flat_nil : FlatAt offset .nil :=
  ⟨List.Pairwise.nil, by simp [Table.Digital], by simp [Forest.siblings]⟩

theorem FlatAt.proper (h : FlatAt offset subs) : ∀ p ∈ subs.table.map (·.1), p ≠ [] := by
  intro p hp
  simp only [table, Forest.labels, List.map_map, List.mem_map] at hp
  obtain ⟨tree, htree, rfl⟩ := hp
  exact (h.top tree htree).1

theorem FlatAt.head {below rest : Subscriptions} (h : FlatAt offset (.node s below rest)) :
    s.pattern ≠ [] ∧ s.offset = offset ∧ below = .nil := h.top _ List.mem_cons_self

theorem FlatAt.tail {below rest : Subscriptions} (h : FlatAt offset (.node s below rest)) :
    FlatAt offset rest :=
  ⟨(List.pairwise_cons.mp h.sorted).2, fun e he => h.digital e (List.mem_cons_of_mem _ he),
    fun tree htree => h.top tree (List.mem_cons_of_mem _ htree)⟩

theorem FlatAt.put (h : FlatAt offset subs) (hp : s.pattern.Digital) (hne : s.pattern ≠ [])
    (hoffset : s.offset = offset) : FlatAt offset (put s .nil subs) := by
  refine ⟨?_, ?_, ?_⟩
  · rw [table_put]
    exact h.sorted.insert
  · rw [table_put]
    exact h.digital.insert h.sorted hp
  · intro tree htree
    rcases mem_siblings_put htree with rfl | htree
    · exact ⟨hne, hoffset, rfl⟩
    · exact h.top tree htree

theorem Inserted.flat (h : Inserted subs) : Flat subs := by
  induction h with
  | nil => exact flat_nil
  | insert _ hput ih =>
    obtain ⟨hne, hp, rfl⟩ := insert_eq_ok_iff.mp hput
    exact ih.put hp hne rfl

theorem get?_node (s : Subscription) (below rest : Subscriptions) (p : Pattern) :
    get? (.node s below rest) p = if s.pattern = p then some (s, below) else rest.get? p := by
  simp [get?, Forest.findRoot?]

theorem get?_put (s : Subscription) (below subs : Subscriptions) (p : Pattern) :
    (put s below subs).get? p = if s.pattern = p then some (s, below) else subs.get? p := by
  induction subs with
  | nil => exact get?_node s below .nil p
  | node t subset rest _ ih =>
    rw [put]
    split
    · exact get?_node ..
    · split
      · rename_i hsame
        rw [get?_node, get?_node, ← hsame]
        split <;> rfl
      · rename_i hne
        rw [get?_node, ih, get?_node]
        by_cases ht : t.pattern = p
        · rw [if_pos ht, if_pos ht, if_neg fun hs => hne (hs.trans ht.symm)]
        · rw [if_neg ht, if_neg ht]

theorem get?_uri (subs : Subscriptions) (p : Pattern) :
    (subs.get? p).map (·.1.uri) = OrderedMap.get? subs.table p := by
  induction subs with
  | nil => rfl
  | node t subset rest _ ih =>
    simp only [get?, Forest.findRoot?, OrderedMap.get?, table_node, List.find?_cons] at ih ⊢
    by_cases h : t.pattern = p
    · simp [h]
    · simpa [h] using ih

theorem table_filterRoots {keep : Subscription → Bool} (keep' : Pattern × String → Bool)
    (h : ∀ s, keep s = keep' (s.pattern, s.uri)) (subs : Subscriptions) :
    table (subs.filterRoots keep) = subs.table.filter keep' := by
  induction subs with
  | nil => rfl
  | node t subset rest _ ih =>
    rw [Forest.filterRoots, table_node, List.filter_cons, ← h, ← ih]
    cases keep t <;> rfl

theorem table_erase (p : Pattern) (subs : Subscriptions) :
    (subs.erase p).table = subs.table.erase p :=
  table_filterRoots (fun e => e.1 ≠ p) (fun _ => rfl) subs

theorem FlatAt.filterRoots (h : FlatAt offset subs) {keep : Subscription → Bool}
    (keep' : Pattern × String → Bool) (hkeep : ∀ s, keep s = keep' (s.pattern, s.uri)) :
    FlatAt offset (subs.filterRoots keep) := by
  refine ⟨?_, ?_, ?_⟩
  · rw [table_filterRoots keep' hkeep]
    exact h.sorted.filter _
  · intro e he
    rw [table_filterRoots keep' hkeep] at he
    exact h.digital e (List.mem_filter.mp he).1
  · intro tree htree
    rw [Forest.siblings_filterRoots] at htree
    exact h.top tree (List.mem_filter.mp htree).1

theorem FlatAt.erase (h : FlatAt offset subs) (p : Pattern) : FlatAt offset (subs.erase p) :=
  h.filterRoots (fun e => e.1 ≠ p) fun _ => rfl

end Subscriptions
end TagFilter
