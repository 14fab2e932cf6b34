import TagFilter.Proofs.Origins
import TagFilter.Proofs.Steps

/-! # What touches the counters of a slot

A search that reaches a complete engine is recorded in the counters of its slot, and a
report clears them. All other operations leave them as they are. A search of the
coordinator reaches the slot of the current engine, and all slots if there is shadow
searching.
-/
namespace TagFilter

namespace EngineSlot

variable {s s' : EngineSlot}

/-- What an operation other than a search or a report leaves of a slot. -/
structure Keeps (s s' : EngineSlot) : Prop where
  kind : s'.kind = s.kind
  metrics : s'.metrics = s.metrics
  coherent : s.Coherent → s'.Coherent

theorem keeps_self (s : EngineSlot) : Keeps s s := ⟨rfl, rfl, fun hs => hs⟩

theorem Keeps.trans {s'' : EngineSlot} (h : Keeps s s') (h' : Keeps s' s'') : Keeps s s'' :=
  ⟨h'.kind.trans h.kind, h'.metrics.trans h.metrics, fun hs => h'.coherent (h.coherent hs)⟩

theorem keeps_init {subs : Subscriptions} (h : s.init subs = .ok s') : Keeps s s' := by
  have hcoherent := fun hs : s.Coherent => hs.init h
  obtain ⟨-, rfl⟩ := init_eq_ok h
  exact ⟨rfl, rfl, hcoherent⟩

theorem keeps_deploy (h : s.deploy = .ok s') : Keeps s s' := by
  have hcoherent := fun hs : s.Coherent => hs.deploy h
  obtain ⟨-, rfl⟩ := deploy_eq_ok h
  exact ⟨rfl, rfl, hcoherent⟩

theorem keeps_retire (h : s.retire = .ok s') : Keeps s s' := by
  have hcoherent := fun hs : s.Coherent => hs.retire h
  obtain ⟨-, rfl⟩ := retire_eq_ok h
  exact ⟨rfl, rfl, hcoherent⟩

theorem keeps_finish (s : EngineSlot) : Keeps s s.finish.state := by
  refine ⟨s.finish_advances.2.1, ?_, fun hs => hs.finish⟩
  unfold finish
  split
  · rfl
  · dsimp only
    split
    · rename_i done hfire
      obtain ⟨-, -, rfl⟩ := fire_eq_ok hfire
      rfl
    · rfl

theorem keeps_update (s : EngineSlot) (change : Change) : Keeps s (s.update change).state := by
  refine ⟨(s.update_updates change).2.1, ?_, fun hs => hs.update change⟩
  rcases s.state_cases with hstate | hstate | hstate
  · rw [update_of_unavailable hstate]
    rfl
  · rw [update_of_building hstate]
    rfl
  · rw [update_of_complete hstate]

/-- A complete engine answers and counts its answer; any other slot is passed by. -/
theorem Coherent.search_cases (h : s.Coherent) (id : Identifier) (nanoseconds : Nat) :
    (s.isSearchable = true ∧ ∃ uris, (s.search id nanoseconds).1 = some uris ∧
      (s.search id nanoseconds).2.metrics = s.metrics.record nanoseconds (uris ≠ [])) ∨
    (s.isSearchable = false ∧ s.search id nanoseconds = (none, s)) := by
  cases hsearch : s.isSearchable with
  | false =>
    refine .inr ⟨rfl, ?_⟩
    rw [EngineSlot.search, hsearch]
    rfl
  | true =>
    obtain ⟨engine, hengine⟩ := Option.isSome_iff_exists.mp (h.isSearchable_iff.mp hsearch)
    refine .inl ⟨rfl, (engine.searchAdaptive id).1, ?_⟩
    rw [EngineSlot.search, hsearch, if_pos rfl, hengine]
    exact ⟨rfl, rfl⟩

theorem search_fst (s : EngineSlot) (id : Identifier) (nanoseconds nanoseconds' : Nat) :
    (s.search id nanoseconds).1 = (s.search id nanoseconds').1 := by
  unfold EngineSlot.search
  cases if s.isSearchable then s.engine else none <;> rfl

end EngineSlot

namespace Coordinator
open EngineSlot

variable {c : Coordinator} {s s' : EngineSlot}

theorem respected_keeps : Respected Keeps := ⟨keeps_self, Keeps.trans, keeps_deploy, keeps_retire⟩

theorem slot?_setSlot_of_slot? (hslot : c.slot? s'.kind = some s) (kind : EngineKind) :
    (c.setSlot s').slot? kind = if kind = s'.kind then some s' else c.slot? kind := by
  have hmap : (c.setSlot s').slot? kind =
      (c.slot? kind).map fun t => if t.kind = s'.kind then s' else t := by
    refine slot?_map (fun t => ?_) kind
    split
    · exact Eq.symm ‹_›
    · rfl
  rw [hmap]
  split
  · rename_i hkind
    rw [hkind, hslot, Option.map_some, if_pos (slot?_mem hslot).2]
  · rename_i hkind
    cases hother : c.slot? kind with
    | none => rfl
    | some t => rw [Option.map_some, if_neg ((slot?_mem hother).2 ▸ hkind)]

theorem slot?_shadow (c : Coordinator) (current kind : EngineKind) (id : Identifier)
    (cost : EngineKind → Nat) : (c.shadow current id cost).slot? kind =
      (c.slot? kind).map fun s =>
        if c.config.shadowSearch = true ∧ kind ≠ current then (s.search id (cost kind)).2 else s := by
  unfold shadow
  split
  · rename_i hshadow
    rw [slot?_map fun s => ?_]
    · cases hslot : c.slot? kind with
      | none => rfl
      | some s =>
        obtain ⟨-, rfl⟩ := slot?_mem hslot
        by_cases hkind : s.kind = current <;> simp [hkind, hshadow]
    · split
      · rfl
      · exact (s.search_state id _).2
  · rename_i hshadow
    simp [hshadow]

/-- A search succeeds through the slot of the current engine, which counts it, and then
the others may. -/
theorem search_cases (c : Coordinator) (id : Identifier) (cost : EngineKind → Nat) :
    ((c.search id cost).answer.toOption = none ∧ (c.search id cost).state = c) ∨
    ∃ current s uris, c.current = some current ∧ c.slot? current = some s ∧
      (s.search id (cost current)).1 = some uris ∧
      (c.search id cost).answer.toOption = some uris ∧
      ∀ kind, (c.search id cost).state.slot? kind = (c.slot? kind).map fun s =>
        if kind = current ∨ c.config.shadowSearch = true then (s.search id (cost kind)).2 else s := by
  unfold Coordinator.search
  cases hcurrent : c.current.bind c.slot? with
  | none => exact .inl ⟨rfl, rfl⟩
  | some s =>
    obtain ⟨current, hserving, hslot⟩ := Option.bind_eq_some_iff.mp hcurrent
    obtain ⟨-, rfl⟩ := slot?_mem hslot
    obtain ⟨-, hkind⟩ := s.search_state id (cost s.kind)
    dsimp only
    cases hsearch : s.search id (cost s.kind) with
    | mk uris searched =>
      cases uris with
      | none => exact .inl ⟨rfl, rfl⟩
      | some uris =>
        refine .inr ⟨s.kind, s, uris, hserving, hslot, by rw [hsearch], rfl, fun kind => ?_⟩
        rw [hsearch] at hkind
        have hset := slot?_setSlot_of_slot? (hkind.symm ▸ hslot) kind
        change ((c.setSlot searched).shadow s.kind id cost).slot? kind = _
        rw [slot?_shadow, hset, hkind]
        by_cases hsame : kind = s.kind
        · rw [hsame, hslot]
          simp [hsearch]
        · simp [hsame, setSlot]

theorem flatMap_slots {α : Type} (hnodup : (c.slots.map EngineSlot.kind).Nodup) (kind : EngineKind)
    (f : EngineSlot → List α) : c.slots.flatMap (fun s => if s.kind = kind then f s else []) =
      ((c.slot? kind).map f).getD [] := by
  rw [Coordinator.slot?]
  generalize c.slots = slots at hnodup
  induction slots with
  | nil => rfl
  | cons s rest ih =>
    rw [List.map_cons, List.nodup_cons] at hnodup
    rw [List.flatMap_cons, List.find?_cons]
    by_cases hkind : s.kind = kind
    · have hrest : rest.flatMap (fun s => if s.kind = kind then f s else []) = [] := by
        refine List.flatMap_eq_nil_iff.mpr fun t ht => if_neg ?_
        rintro hsame
        exact hnodup.1 (List.mem_map.mpr ⟨t, ht, hsame.trans hkind.symm⟩)
      simp [hkind, hrest]
    · simpa [hkind] using ih hnodup.2

theorem slot?_publishStats (c : Coordinator) (kind : EngineKind) :
    c.publishStats.state.slot? kind = (c.slot? kind).map fun s =>
      if s.isSearchable = true then { s with metrics := Metrics.fresh } else s := by
  rw [publishStats, onSlots, List.map_map]
  have hstate : ((·.state) ∘ fun s : EngineSlot =>
      if s.isSearchable = true then s.reportStats.map fun _ => () else .quiet () s) =
      fun s => if s.isSearchable = true then { s with metrics := Metrics.fresh } else s := by
    funext s
    cases hsearch : s.isSearchable <;> simp [hsearch] <;> rfl
  rw [hstate]
  refine slot?_map (fun s => ?_) kind
  split <;> rfl

end Coordinator
end TagFilter
