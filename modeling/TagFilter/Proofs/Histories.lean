import TagFilter.Engine.Blob
import TagFilter.Proofs.Contents

/-! # Histories of engines

After any sequence of changes and searches an engine of any kind holds the table
that the same changes make of the first one, so all kinds give the same answers.
The list and the trie hold it in one way only: they are what a build of the final
table would give.
-/
namespace TagFilter
open List (Perm)
open Table OrderedMap

inductive Use where
  | change (change : Change)
  | search (id : Identifier)
  deriving DecidableEq

namespace Use

def apply (engine : Engine) : Use → Engine
  | .change c => c.applyOrKeep engine
  | .search id => (engine.searchAdaptive id).2

def onTable (m : Table) : Use → Table
  | .change c => c.onTable m
  | .search _ => m

def Digital : Use → Prop
  | .change c => c.Digital
  | .search _ => True

instance : DecidablePred Digital
  | .change c => inferInstanceAs (Decidable c.Digital)
  | .search _ => inferInstanceAs (Decidable True)

end Use

namespace Engine

structure Tracks (m : Table) (engine : Engine) : Prop where
  holds : Holds m engine
  sorted : m.Sorted
  digital : m.Digital

variable {m : Table} {engine engine' : Engine} {uses : List Use} {changes : List Change}
  {subs : Subscriptions} {kind : EngineKind} {p : Pattern} {u : String}

theorem Tracks.change (h : Tracks m engine) (change : Change) (hc : change.Digital) :
    Tracks (change.onTable m) (change.applyOrKeep engine) :=
  ⟨h.holds.applyOrKeep h.sorted hc, change.onTable_sorted h.sorted,
    Change.onTable_digital hc h.sorted h.digital⟩

theorem Tracks.use (h : Tracks m engine) (use : Use) (huse : use.Digital) :
    Tracks (use.onTable m) (use.apply engine) := by
  cases use with
  | change change => exact h.change change huse
  | search id => exact ⟨h.holds.searchAdaptive id, h.sorted, h.digital⟩

theorem Tracks.after_uses (h : Tracks m engine) (huses : ∀ use ∈ uses, use.Digital) :
    Tracks (uses.foldl Use.onTable m) (uses.foldl Use.apply engine) := by
  induction uses generalizing m engine with
  | nil => exact h
  | cons use uses ih =>
    obtain ⟨hfirst, hrest⟩ := List.forall_mem_cons.mp huses
    exact ih (h.use use hfirst) hrest

theorem Tracks.after_changes (h : Tracks m engine) (hchanges : ∀ change ∈ changes, change.Digital) :
    Tracks (changes.foldl Change.onTable m) (changes.foldl Change.applyOrKeep engine) := by
  induction changes generalizing m engine with
  | nil => exact h
  | cons change changes ih =>
    obtain ⟨hfirst, hrest⟩ := List.forall_mem_cons.mp hchanges
    exact ih (h.change change hfirst) hrest

theorem Tracks.delete_isOk_iff (h : Tracks m engine) (hp : p.Digital) :
    (engine.delete p u).isOk = true ↔ m.get? p = some u := by
  rcases h.holds.delete h.sorted hp u with ⟨hget, engine', heq, -⟩ | ⟨hget, heq⟩
  · exact iff_of_true (by rw [heq]; rfl) hget
  · exact iff_of_false (by rw [heq]; exact Bool.false_ne_true) hget

/-- After any changes and searches, an engine of any kind reports exactly the
entries of the changed table that the identifier begins with, by increasing length. -/
theorem search_exact (hsubs : subs.Flat) (huses : ∀ use ∈ uses, use.Digital) (kind : EngineKind)
    (id : Identifier) :
    let m := uses.foldl Use.onTable subs.table
    let engine := uses.foldl Use.apply (build kind subs)
    m.Sorted ∧ (matching id.bits m).Pairwise (fun a b => a.1.length < b.1.length) ∧
      engine.search id = reported id m ∧ (engine.searchAdaptive id).1 = reported id m ∧
      engine.count = m.length ∧
      (∀ p u, p.Digital → ((engine.delete p u).isOk = true ↔ m.get? p = some u)) ∧
      ∀ other, (uses.foldl Use.apply (build other subs)).search id = engine.search id := by
  intro m engine
  have htracks (kind : EngineKind) : Tracks m (uses.foldl Use.apply (build kind subs)) :=
    Tracks.after_uses ⟨holds_build hsubs kind, hsubs.sorted, hsubs.digital⟩ huses
  obtain ⟨hholds, hsorted, hdigital⟩ := htracks kind
  have hsearch := hholds.search_eq hsorted hdigital id
  refine ⟨hsorted, hsorted.matching_lengths id.bits, hsearch,
    hholds.searchAdaptive_eq hsorted hdigital id, hholds.count_eq,
    fun p u hp => (htracks kind).delete_isOk_iff hp, ?_⟩
  intro other
  rw [hsearch]
  exact (htracks other).holds.search_eq hsorted hdigital id

/-- A history that searches, takes a pattern out above another and adds an empty one. -/
def sampleUses : List Use :=
  [.change (.add ['0', '1', '1'] "third"), .search [0x60], .change (.delete ['0'] "first"),
    .change (.add [] "all")]

def sampleMap : Subscriptions := Subscriptions.ofTable [(['0'], "first"), (['0', '1'], "second")]

theorem search_exact_sample :
    (sampleUses.foldl Use.apply (build .splayTree sampleMap)).search [0x60] =
      ["all", "second", "third"] := by
  have hflat : sampleMap.Flat := ⟨by decide, by decide, by decide⟩
  have huses : ∀ use ∈ sampleUses, use.Digital := by decide
  exact (search_exact hflat huses .splayTree [0x60]).2.2.1.trans (by decide)

/-- The kinds whose structure depends on their table alone. -/
def IsCanonical (kind : EngineKind) : Prop := kind = .list ∨ kind = .patriciaTrie

theorem holds_canonical_build (subs : Subscriptions) (hs : subs.table.Sorted)
    (hd : subs.table.Digital) (hkind : IsCanonical kind) : Holds subs.table (build kind subs) := by
  rcases hkind with rfl | rfl
  · exact SortedList.build_eq subs
  · exact Trie.build_canonical hs hd

theorem Holds.unique (h : Holds m engine) (h' : Holds m engine') (hkind : IsCanonical engine.kind)
    (hsame : engine.kind = engine'.kind) : engine = engine' := by
  cases engine with
  | list entries =>
    cases engine' with
    | list entries' =>
      have heq : entries = SortedList.ofTable m := h
      have heq' : entries' = SortedList.ofTable m := h'
      rw [heq, heq']
    | patriciaTrie | weightedTree | splayTree => exact absurd hsame (by simp [Engine.kind])
  | patriciaTrie trie =>
    cases engine' with
    | patriciaTrie trie' =>
      exact congrArg patriciaTrie (h.1.eq_of_perm h'.1 (h.2.trans h'.2.symm))
    | list | weightedTree | splayTree => exact absurd hsame (by simp [Engine.kind])
  | weightedTree | splayTree => exact absurd hkind (by simp [IsCanonical, Engine.kind])

theorem kind_changes (changes : List Change) (engine : Engine) :
    (changes.foldl Change.applyOrKeep engine).kind = engine.kind := by
  induction changes generalizing engine with
  | nil => rfl
  | cons change changes ih => exact (ih _).trans (kind_applyOrKeep change engine)

theorem Tracks.delete_add (h : Tracks m engine) (hkind : IsCanonical engine.kind)
    (hp : p.Digital) (habsent : m.get? p = none) : (engine.add p u).delete p u = .ok engine := by
  have hnot : ∀ e ∈ m, e.1 ≠ p := by
    rintro e he rfl
    exact absurd ((get?_eq_some_iff h.sorted.nodup).mpr he) (by simp [habsent])
  have hadd : Tracks (m.insert p u) (engine.add p u) := h.change (.add p u) hp
  have hget : (m.insert p u).get? p = some u :=
    (get?_eq_some_iff hadd.sorted.nodup).mpr ((perm_insert h.sorted).symm.subset List.mem_cons_self)
  have hback : (m.insert p u).erase p = m := by
    refine hadd.sorted.erase.eq_of_perm h.sorted (((perm_insert h.sorted).filter _).trans ?_)
    have hgone : erase ((p, u) :: erase m p) p = m := by
      rw [erase_cons_self, erase_of_absent hnot, erase_of_absent hnot]
    exact List.Perm.of_eq hgone
  rcases hadd.holds.delete hadd.sorted hp u with ⟨-, engine', heq, hholds⟩ | ⟨hnone, -⟩
  · rw [hback] at hholds
    have hkind' : engine'.kind = engine.kind := (kind_delete heq).trans (kind_add engine p u)
    rw [heq, hholds.unique h.holds (hkind' ▸ hkind) hkind']
  · exact absurd hget hnone

/-- The list and the trie that changes lead to are what a build of the final table
gives. Histories that end in one table end in one structure, every node of the trie
without a URI has two branches, and a pattern that comes and goes leaves no trace. -/
theorem changes_canonical (hkind : IsCanonical kind) (hs : subs.table.Sorted)
    (hd : subs.table.Digital) (hchanges : ∀ change ∈ changes, change.Digital) :
    let m := changes.foldl Change.onTable subs.table
    let engine := changes.foldl Change.applyOrKeep (build kind subs)
    engine = build kind (Subscriptions.ofTable m) ∧
      (∀ (subs' : Subscriptions) (changes' : List Change), subs'.table.Sorted →
        subs'.table.Digital → (∀ change ∈ changes', change.Digital) →
        changes'.foldl Change.onTable subs'.table = m →
        let engine' := changes'.foldl Change.applyOrKeep (build kind subs')
        engine' = engine ∧ engine'.dump = engine.dump ∧ engine'.toBytes = engine.toBytes) ∧
      (∀ trie, engine = patriciaTrie trie → trie.Branching) ∧
      ∀ p u, p.Digital → m.get? p = none → (engine.add p u).delete p u = .ok engine := by
  intro m engine
  have htracks {subs : Subscriptions} {changes : List Change} (hs : subs.table.Sorted)
      (hd : subs.table.Digital) (hchanges : ∀ change ∈ changes, change.Digital) :
      Tracks (changes.foldl Change.onTable subs.table)
        (changes.foldl Change.applyOrKeep (build kind subs)) :=
    Tracks.after_changes ⟨holds_canonical_build subs hs hd hkind, hs, hd⟩ hchanges
  have hthis := htracks hs hd hchanges
  have hkinds {subs : Subscriptions} {changes : List Change} :
      (changes.foldl Change.applyOrKeep (build kind subs)).kind = kind :=
    (kind_changes _ _).trans (kind_build _ _)
  have hcanonical {subs : Subscriptions} {changes : List Change} :
      IsCanonical (changes.foldl Change.applyOrKeep (build kind subs)).kind := by
    rw [hkinds]
    exact hkind
  refine ⟨?_, ?_, ?_,
    fun p u hp habsent => hthis.delete_add hcanonical hp habsent⟩
  · have hbuild : Holds m (build kind (Subscriptions.ofTable m)) := by
      have htable : (Subscriptions.ofTable m).table = m := Subscriptions.table_ofTable m
      have hholds := holds_canonical_build (Subscriptions.ofTable m)
        (htable.symm ▸ hthis.sorted) (htable.symm ▸ hthis.digital) hkind
      rwa [htable] at hholds
    exact hthis.holds.unique hbuild hcanonical (hkinds.trans (kind_build _ _).symm)
  · intro subs' changes' hs' hd' hchanges' hsame
    have hother := htracks hs' hd' hchanges'
    rw [hsame] at hother
    have heq := hother.holds.unique hthis.holds hcanonical (hkinds.trans hkinds.symm)
    exact ⟨heq, congrArg dump heq, congrArg toBytes heq⟩
  · intro trie htrie
    have hholds := hthis.holds
    rw [show changes.foldl Change.applyOrKeep (build kind subs) = patriciaTrie trie from htrie]
      at hholds
    exact hholds.1.branching

theorem changes_canonical_sample :
    [Change.add [] "all", .delete [] "all"].foldl Change.applyOrKeep
      (build .patriciaTrie sampleMap) = build .patriciaTrie sampleMap := by
  have hsorted : sampleMap.table.Sorted := by decide
  have hdigital : sampleMap.table.Digital := by decide
  have hchanges : ∀ change ∈ [Change.add [] "all", .delete [] "all"], change.Digital := by decide
  have hkind : IsCanonical .patriciaTrie := .inr rfl
  have hresult := changes_canonical hkind hsorted hdigital hchanges
  exact (hresult.2.1 sampleMap [] hsorted hdigital (by simp) (by decide)).1.symm

end Engine
end TagFilter
