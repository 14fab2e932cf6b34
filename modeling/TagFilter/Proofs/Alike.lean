import TagFilter.Proofs.Slots
import TagFilter.Proofs.Tree.Rearrangement

/-! # Engines and slots that searches cannot tell apart

Two engines are alike if they are equal but for the order of siblings in a splay tree, and
two slots if they differ in such engines and in their counters only. A search leaves
what is alike to what it found, and every operation on two slots that are alike gives the
same answer, publishes the same and leaves them alike.
-/
namespace TagFilter
open Forest

namespace Engine

inductive Alike : Engine → Engine → Prop where
  | same (engine : Engine) : Alike engine engine
  | splayed {t t' : SplayTree} : Rearranged t t' → Alike (splayTree t) (splayTree t')

variable {m : Table} {e e' e'' : Engine}

theorem Alike.symm (h : Alike e e') : Alike e' e := by
  cases h with
  | same => exact .same e
  | splayed ht => exact .splayed ht.symm

theorem Alike.trans (h : Alike e e') (h' : Alike e' e'') : Alike e e'' := by
  cases h with
  | same => exact h'
  | splayed ht =>
    cases h' with
    | same => exact .splayed ht
    | splayed ht' => exact .splayed (ht.trans ht')

theorem Alike.kind (h : Alike e e') : e.kind = e'.kind := by
  cases h <;> rfl

theorem kind_searchAdaptive (e : Engine) (id : Identifier) :
    (e.searchAdaptive id).2.kind = e.kind := by
  cases e <;> rfl

/-- The kinds that do not adjust themselves keep their structure. -/
theorem Alike.eq_of_kind (h : Alike e e') (hkind : e.kind ≠ .splayTree) : e = e' := by
  cases h with
  | same => rfl
  | splayed => exact absurd rfl hkind

theorem alike_searchAdaptive (e : Engine) (id : Identifier) :
    Alike (e.searchAdaptive id).2 e := by
  cases e with
  | splayTree t => exact .splayed (SplayTree.rearranged_moveToFront id t)
  | list | patriciaTrie | weightedTree => exact .same _

theorem Alike.add (h : Alike e e') (hholds : Holds m e) (p : Pattern) (u : String) :
    Alike (e.add p u) (e'.add p u) := by
  cases h with
  | same => exact .same _
  | splayed ht => exact .splayed (WeightedTree.add_congr ht hholds.1 p u)

theorem Alike.delete (h : Alike e e') (hholds : Holds m e) (p : Pattern) (u : String) :
    Agree Alike (e.delete p u) (e'.delete p u) := by
  have hdelete : Option.Rel Alike (e.delete? p u) (e'.delete? p u) := by
    cases h with
    | same => exact rel_self .same _
    | splayed ht =>
      exact rel_map (WeightedTree.delete?_congr ht hholds.1 p u) fun _ _ => .splayed
  rw [Engine.delete, Engine.delete]
  cases hleft : e.delete? p u with
  | none =>
    rw [rel_eq_none hdelete hleft]
    exact .error _
  | some left =>
    obtain ⟨left', hleft', halike⟩ := rel_eq_some hdelete hleft
    rw [hleft']
    exact .ok halike

theorem Alike.change (h : Alike e e') (hholds : Holds m e) (change : Change) :
    Agree Alike (change.apply e) (change.apply e') := by
  cases change with
  | add p u => exact .ok (h.add hholds p u)
  | delete p u => exact h.delete hholds p u

end Engine

namespace EngineSlot

/-- Slots with alike engines of their kind that differ otherwise in their counters only. -/
structure Alike (s s' : EngineSlot) : Prop where
  kind : s.kind = s'.kind
  lifecycle : s.lifecycle = s'.lifecycle
  backlog : s.backlog = s'.backlog
  build : s.build = s'.build
  engine : Option.Rel Engine.Alike s.engine s'.engine
  held : ∀ engine, s.engine = some engine → engine.kind = s.kind

variable {m : Table} {s s' : EngineSlot} {change : Change}

theorem alike_fresh (kind : EngineKind) : Alike (fresh kind) (fresh kind) :=
  ⟨rfl, rfl, rfl, rfl, .none, nofun⟩

theorem Alike.symm (h : Alike s s') : Alike s' s := by
  refine ⟨h.kind.symm, h.lifecycle.symm, h.backlog.symm, h.build.symm,
    rel_symm (fun _ _ => .symm) h.engine, fun engine' held' => ?_⟩
  cases hheld : s.engine with
  | none => cases (rel_eq_none h.engine hheld).symm.trans held'
  | some engine =>
    obtain ⟨other, hother, halike⟩ := rel_eq_some h.engine hheld
    obtain rfl := Option.some.inj (hother.symm.trans held')
    rw [← halike.kind, h.held engine hheld, h.kind]

theorem Alike.state (h : Alike s s') : s.state = s'.state := congrArg Lifecycle.state h.lifecycle

theorem Alike.announcement (h : Alike s s') : s.announcement = s'.announcement := by
  rw [EngineSlot.announcement, h.kind, ← EngineSlot.announcement]

/-- The engines of the kinds that do not adjust themselves are the same. -/
theorem Alike.engine_eq (h : Alike s s') (hkind : s.kind ≠ .splayTree) : s.engine = s'.engine := by
  cases hheld : s.engine with
  | none => exact (rel_eq_none h.engine hheld).symm
  | some engine =>
    obtain ⟨engine', held', halike⟩ := rel_eq_some h.engine hheld
    rw [held', halike.eq_of_kind (h.held engine hheld ▸ hkind)]

/-- A search shows in the counters and in the order of siblings only. -/
theorem Alike.search (h : Alike s s') (id : Identifier) (nanoseconds : Nat) :
    Alike (s.search id nanoseconds).2 s' := by
  rw [EngineSlot.search]
  split
  · exact h
  · next engine hfound =>
    have hheld : s.engine = some engine := by
      split at hfound
      · exact hfound
      · cases hfound
    obtain ⟨engine', held', halike⟩ := rel_eq_some h.engine hheld
    refine ⟨h.kind, h.lifecycle, h.backlog, h.build, ?_, ?_⟩
    · rw [held']
      exact .some ((engine.alike_searchAdaptive id).trans halike)
    · rintro _ ⟨⟩
      exact (engine.kind_searchAdaptive id).trans (h.held engine hheld)

theorem Alike.fire (h : Alike s s') (event : LifecycleEvent) :
    Agree Alike (s.fire event) (s'.fire event) := by
  cases hnext : s.state.next? event with
  | none =>
    have hnext' := hnext
    rw [h.state] at hnext'
    rw [fire_of_refused hnext, fire_of_refused hnext', h.state]
    exact .error _
  | some next =>
    have hnext' := hnext
    rw [h.state] at hnext'
    rw [fire_of_next hnext, fire_of_next hnext', h.lifecycle]
    exact .ok ⟨h.kind, rfl, h.backlog, h.build, h.engine, h.held⟩

theorem Alike.init (h : Alike s s') (subs : Subscriptions) :
    Agree Alike (s.init subs) (s'.init subs) := by
  rw [EngineSlot.init, EngineSlot.init]
  rcases (h.fire .init).cases with ⟨started, started', hok, hok', hstarted⟩ | ⟨e, herror, herror'⟩
  · rw [hok, hok']
    exact .ok ⟨hstarted.kind, hstarted.lifecycle, hstarted.backlog, rfl, hstarted.engine,
      hstarted.held⟩
  · rw [herror, herror']
    exact .error e

/-- A build starts from the same snapshot and catches up with the same changes. -/
theorem Alike.finish (h : Alike s s') (hs : s.Serves m) :
    Outcome.Agree Alike s.finish s'.finish := by
  cases hbuild : s.build with
  | none =>
    rw [finish_of_none hbuild, finish_of_none (h.build.symm.trans hbuild)]
    exact .quiet h ()
  | some subs =>
    have hstate : s.state = .generating ∨ s.state = .pending := by
      cases hs with
      | building state => exact state
      | waiting _ build | complete _ build => cases build.symm.trans hbuild
    have hstate' : s'.state = .generating ∨ s'.state = .pending := h.state ▸ hstate
    rw [finish_of_some hstate hbuild, finish_of_some hstate' (h.build.symm.trans hbuild),
      h.announcement, h.lifecycle, h.backlog, h.kind]
    refine ⟨rfl, ⟨rfl, rfl, rfl, rfl, .some (.same _), ?_⟩, rfl⟩
    rintro _ ⟨⟩
    exact (Engine.kind_changes _ _).trans (Engine.kind_build _ _)

theorem applied_alike {engine engine' : Engine} (h : Engine.Alike engine engine')
    (hholds : Engine.Holds m engine) (change : Change) :
    (applied change (some engine)).1 = (applied change (some engine')).1 ∧
      Engine.Alike (change.applyOrKeep engine) (change.applyOrKeep engine') := by
  rw [applied, applied, Change.applyOrKeep, Change.applyOrKeep]
  rcases (h.change hholds change).cases with
    ⟨changed, changed', hok, hok', hchanged⟩ | ⟨e, herror, herror'⟩
  · rw [hok, hok']
    exact ⟨rfl, hchanged⟩
  · rw [herror, herror']
    exact ⟨rfl, h⟩

theorem Alike.update (h : Alike s s') (hs : s.Serves m) (change : Change) :
    Outcome.Agree Alike (s.update change) (s'.update change) := by
  cases hs with
  | waiting state =>
    rw [update_of_unavailable state, update_of_unavailable (h.state ▸ state)]
    exact .quiet h _
  | building state =>
    rw [update_of_building state, update_of_building (h.state ▸ state), h.lifecycle, h.backlog]
    exact .quiet ⟨h.kind, rfl, rfl, h.build, h.engine, h.held⟩ _
  | complete state build backlog engine held tracks =>
    obtain ⟨engine', held', halike⟩ := rel_eq_some h.engine held
    obtain ⟨hanswer, hchanged⟩ := applied_alike halike tracks.holds change
    rw [update_of_complete state, update_of_complete (h.state ▸ state), held, held', hanswer,
      h.announcement, h.lifecycle]
    refine ⟨rfl, ⟨h.kind, rfl, h.backlog, h.build, .some hchanged, ?_⟩, rfl⟩
    rintro _ ⟨⟩
    exact (Engine.kind_applyOrKeep change engine).trans (h.held engine held)

end EngineSlot
end TagFilter
