import Mathlib.Data.List.MinMax
import TagFilter.Proofs.Steps

/-! # Which engine serves

The lifecycles of the slots and the current engine fit together in every state that
a run reaches. The current engine is then the first of highest priority among those
whose announcement was handled while they were complete, in whatever order builds
finish, changes come and announcements are repeated.
-/
namespace TagFilter.Coordinator
open EngineState

/-- What every run keeps of the lifecycles, whatever is subscribed. -/
structure Steady (c : Coordinator) : Prop where
  kinds : c.slots.map EngineSlot.kind = EngineKind.all.filter (· ∈ c.config.engines)
  uniform : c.Idle ∨ c.Started
  deployed : ∀ kind s, c.slot? kind = some s → s.state = .deployed → c.current = some kind
  current : ∀ kind, c.current = some kind → ∃ s, c.slot? kind = some s ∧ s.isSearchable = true

variable {c c' : Coordinator} {s : EngineSlot} {kind : EngineKind} {t : Step} {config : Config}
  {subs : Subscriptions} {serving : Option EngineKind} {o : Outcome Coordinator Unit}
  {R : EngineKind → EngineState → EngineState → Prop}

theorem Steady.nodup (h : Steady c) : (c.slots.map EngineSlot.kind).Nodup :=
  h.kinds ▸ List.Nodup.filter _ (by decide)

theorem Steady.enabled (h : Steady c) (hs : c.slot? kind = some s) : kind ∈ c.config.engines := by
  obtain ⟨hmem, rfl⟩ := slot?_mem hs
  have hkind := List.mem_map_of_mem (f := EngineSlot.kind) hmem
  rw [h.kinds] at hkind
  simpa using (List.mem_filter.mp hkind).2

theorem Steady.slot_of_enabled (h : Steady c) (hkind : kind ∈ c.config.engines) :
    ∃ s, c.slot? kind = some s := by
  have hmem : kind ∈ c.slots.map EngineSlot.kind := by
    rw [h.kinds]
    exact List.mem_filter.mpr ⟨kind.mem_all, by simpa using hkind⟩
  obtain ⟨s, hs, rfl⟩ := List.mem_map.mp hmem
  exact ⟨s, slot?_of_mem h.nodup hs⟩

theorem make_steady (hmake : make config subs = .ok c) : Steady c ∧ c.current = none := by
  obtain ⟨-, rfl⟩ := make_eq_ok hmake
  have hfresh : ∀ s ∈ (EngineKind.all.filter (· ∈ config.engines)).map EngineSlot.fresh,
      s.state = .unavailable := by
    intro s hs
    obtain ⟨kind, -, rfl⟩ := List.mem_map.mp hs
    rfl
  refine ⟨⟨kinds_fresh _, .inl hfresh, ?_, by simp⟩, rfl⟩
  intro kind s hs hdeployed
  have hstate := hfresh s (slot?_mem hs).1
  rw [hdeployed] at hstate
  cases hstate

theorem Follows.mem (h : Follows R c c') (hnodup : (c.slots.map EngineSlot.kind).Nodup)
    (hs : s ∈ c'.slots) : ∃ s₀ ∈ c.slots, R s.kind s₀.state s.state := by
  obtain ⟨s₀, hs₀, hR⟩ := h.origin (slot?_of_mem (h.kinds ▸ hnodup) hs)
  exact ⟨s₀, (slot?_mem hs₀).1, hR⟩

theorem Follows.started (h : Follows R c c') (hnodup : (c.slots.map EngineSlot.kind).Nodup)
    (hR : ∀ s ∈ c.slots, ∀ kind b, R kind s.state b → b ≠ .unavailable) : c'.Started := by
  intro s hs
  obtain ⟨s₀, hs₀, hrel⟩ := h.mem hnodup hs
  exact hR s₀ hs₀ _ _ hrel

theorem Follows.uniform (h : Follows R c c') (hnodup : (c.slots.map EngineSlot.kind).Nodup)
    (huniform : c.Idle ∨ c.Started)
    (hR : ∀ kind a b, R kind a b → (b = .unavailable ↔ a = .unavailable)) :
    c'.Idle ∨ c'.Started := by
  refine huniform.imp (fun hidle s hs => ?_) fun hstarted => h.started hnodup fun s hs _ _ hrel =>
    mt (hR _ _ _ hrel).mp (hstarted s hs)
  obtain ⟨s₀, hs₀, hrel⟩ := h.mem hnodup hs
  exact (hR _ _ _ hrel).mpr (hidle s₀ hs₀)

/-- What a change of the states of the slots and of the current engine has to respect. -/
theorem Steady.follows (h : Steady c) (hf : Follows R { c with current := serving } c')
    (huniform : c'.Idle ∨ c'.Started)
    (hdeployed : ∀ kind a, R kind a .deployed → (a = .deployed → c.current = some kind) →
      serving = some kind)
    (hcurrent : ∀ kind, serving = some kind → ∃ s, c.slot? kind = some s ∧
      ∀ b, R kind s.state b → b.isSearchable = true) : Steady c' := by
  refine ⟨?_, huniform, ?_, ?_⟩
  · rw [hf.kinds, hf.config]
    exact h.kinds
  · intro kind s' hs' hstate
    obtain ⟨s, hs, hrel⟩ := hf.origin hs'
    rw [hf.current]
    exact hdeployed kind s.state (hstate ▸ hrel) (h.deployed kind s hs)
  · intro kind hkind
    rw [hf.current] at hkind
    obtain ⟨s, hs, hsearch⟩ := hcurrent kind hkind
    obtain ⟨s', hs', hrel⟩ := hf.next hs
    exact ⟨s', hs', hsearch _ hrel⟩

theorem Steady.effect (h : Steady c) (he : Effect c t o) : Steady o.state := by
  cases he with
  | quiet _ _ follows =>
    refine h.follows follows
      (follows.uniform h.nodup h.uniform fun _ _ _ => Advances.unavailable_iff)
      (fun _ _ hrel hserving => hserving (hrel.deployed rfl)) fun kind hkind => ?_
    obtain ⟨s, hs, hsearch⟩ := h.current kind hkind
    exact ⟨s, hs, fun b hrel => hrel.searchable hsearch ▸ hsearch⟩
  | started ht follows =>
    have hstarted : o.state.Started := follows.started h.nodup fun _ _ _ _ hrel => by simp [hrel.2]
    refine h.follows follows (.inr hstarted) (fun _ _ hrel => nomatch hrel.2) fun kind hkind => ?_
    -- A current engine is complete, but nothing was when the builds started.
    obtain ⟨s, hs, hsearch⟩ := h.current kind hkind
    obtain ⟨s', -, hidle, -⟩ := follows.next hs
    simp [EngineSlot.isSearchable_iff, hidle] at hsearch
  | spread _ subs change follows =>
    have hsame : Steady { c with subscriptions := subs } :=
      ⟨h.kinds, h.uniform, h.deployed, h.current⟩
    refine hsame.follows follows
      (follows.uniform h.nodup h.uniform fun _ _ _ => Updates.unavailable_iff)
      (fun _ _ hrel => absurd rfl hrel.ne_deployed) fun kind hkind => ?_
    obtain ⟨s, hs, hsearch⟩ := h.current kind hkind
    exact ⟨s, hs, fun b hrel => hrel.searchable hsearch ▸ rfl⟩
  | passed kind ht unchanged => exact unchanged ▸ h
  | redeployed kind ht serving s found ready follows =>
    refine h.follows follows
      (follows.uniform h.nodup h.uniform fun _ _ _ => Replaces.unavailable_iff) ?_ ?_
    · intro other a hrel hserving
      cases hrel with
      | deployed => exact serving
      | same => exact hserving rfl
    · rintro other hother
      obtain rfl := Option.some.inj (serving.symm.trans hother)
      exact ⟨s, found, fun b hrel => hrel.self ▸ rfl⟩
  | adopted kind ht s found ready displaced follows =>
    refine h.follows follows
      (follows.uniform h.nodup h.uniform fun _ _ _ => Replaces.unavailable_iff) ?_ ?_
    · intro other a hrel hserving
      cases hrel with
      | deployed => rfl
      | same _ hnot => exact absurd ⟨hserving rfl, rfl⟩ hnot
    · rintro _ ⟨⟩
      exact ⟨s, found, fun b hrel => hrel.self ▸ rfl⟩

theorem Steady.step (h : Steady c) (t : Step) : Steady (c.step t) :=
  state_outcome c t ▸ h.effect (step_effect h.uniform t)

theorem Steady.run (h : Steady c) (steps : List Step) : Steady (c.run steps) := by
  induction steps generalizing c with
  | nil => exact h
  | cons t steps ih => exact ih (h.step t)

/-- Once the builds have been started, no slot goes back. -/
theorem Started.effect (h : c.Started) (hnodup : (c.slots.map EngineSlot.kind).Nodup)
    (he : Effect c t o) : o.state.Started := by
  cases he with
  | quiet _ _ follows =>
    exact follows.started hnodup fun s hs _ _ hrel => mt hrel.unavailable_iff.mp (h s hs)
  | started _ follows => exact follows.started hnodup fun _ _ _ _ hrel => by simp [hrel.2]
  | spread _ _ _ follows =>
    exact follows.started hnodup fun s hs _ _ hrel => mt hrel.unavailable_iff.mp (h s hs)
  | passed _ _ unchanged => exact unchanged ▸ h
  | redeployed _ _ _ _ _ _ follows =>
    exact follows.started hnodup fun s hs _ _ hrel => mt hrel.unavailable_iff.mp (h s hs)
  | adopted _ _ _ _ _ _ follows =>
    exact follows.started hnodup fun s hs _ _ hrel => mt hrel.unavailable_iff.mp (h s hs)

theorem Steady.started_step (h : Steady c) (hstarted : c.Started) (t : Step) :
    (c.step t).Started :=
  state_outcome c t ▸ hstarted.effect h.nodup (step_effect h.uniform t)

theorem Steady.started_start (h : Steady c) : (c.step .start).Started := by
  rcases h.uniform with hidle | hstarted
  · intro s hs
    have hslots : (c.step .start).slots = _ := slots_startSlots_of_idle hidle
    rw [hslots] at hs
    obtain ⟨s₀, -, rfl⟩ := List.mem_map.mp hs
    exact EngineState.noConfusion
  · exact h.started_step hstarted .start

/-- The kind whose announcement a step handles while its engine is complete. -/
def hears (c : Coordinator) : Step → Option EngineKind
  | .onGenerated kind => if (c.slot? kind).any EngineSlot.isSearchable then some kind else none
  | _ => none

/-- The kinds whose announcements a run handles while their engines are complete, in
order. -/
def heard (c : Coordinator) : List Step → List EngineKind
  | [] => []
  | t :: steps => (c.hears t).toList ++ (c.step t).heard steps

/-- All that a run publishes. -/
def published (c : Coordinator) : List Step → List Event
  | [] => []
  | t :: steps => c.events t ++ (c.step t).published steps

/-- The kinds that become current in a run, one for each change. -/
def changes (c : Coordinator) : List Step → List EngineKind
  | [] => []
  | t :: steps =>
    (if (c.step t).current = c.current then [] else (c.step t).current.toList) ++
      (c.step t).changes steps

theorem hears_eq_some_iff : c.hears t = some kind ↔
    t = .onGenerated kind ∧ ∃ s, c.slot? kind = some s ∧ s.isSearchable = true := by
  cases t with
  | onGenerated other =>
    simp only [hears, Option.ite_none_right_eq_some, Option.any_eq_true, Option.some.injEq,
      Step.onGenerated.injEq]
    constructor
    · rintro ⟨hfound, rfl⟩
      exact ⟨rfl, hfound⟩
    · rintro ⟨rfl, hfound⟩
      exact ⟨hfound, rfl⟩
  | _ => simp [hears]

/-- A step lets the current engine serve on, and then no announcement that it hears
is of higher priority, or it says that it replaces it by one of higher priority. -/
inductive Selects (c c' : Coordinator) (heard : Option EngineKind) (said : List String) : Prop where
  | keeps (current : c'.current = c.current) (said : said = [])
    (outranked : ∀ kind, heard = some kind → ∃ current, c.current = some current ∧
      c.config.priority kind ≤ c.config.priority current)
  | switches (kind : EngineKind) (heard : heard = some kind) (current : c'.current = some kind)
    (said : said = [kind.name]) (higher : ∀ current, c.current = some current →
      current ≠ kind ∧ c.config.priority current < c.config.priority kind)

theorem Steady.selects (h : Steady c) (t : Step) : (c.step t).config = c.config ∧
    Selects c (c.step t) (c.hears t) (selections (c.events t)) := by
  have hunheard (ht : ∀ kind, t ≠ .onGenerated kind) (kind : EngineKind) :
      c.hears t ≠ some kind := fun hhears => ht kind (hears_eq_some_iff.mp hhears).1
  rw [← state_outcome]
  cases step_effect h.uniform t with
  | quiet unheard _ follows reported =>
    exact ⟨follows.config, .keeps follows.current (selections_eq_nil reported)
      fun kind hkind => absurd hkind (hunheard unheard kind)⟩
  | started ht follows silent =>
    refine ⟨follows.config, .keeps follows.current (congrArg selections silent) ?_⟩
    exact fun kind hkind => absurd hkind (hunheard (by simp [ht]) kind)
  | spread unheard subs change follows announced =>
    refine ⟨follows.config, .keeps follows.current ?_ ?_⟩
    · refine selections_eq_nil fun e he => ?_
      rw [events, announced] at he
      obtain ⟨s, -, he⟩ := List.mem_flatMap.mp he
      rw [(s.update_updates change).2.2.1 e he]
      trivial
    · exact fun kind hkind => absurd hkind (hunheard unheard kind)
  | passed kind ht unchanged outranked =>
    rw [events, unchanged]
    refine ⟨rfl, .keeps rfl rfl fun other hother => ?_⟩
    obtain ⟨hsame, s, hs, hsearch⟩ := hears_eq_some_iff.mp hother
    obtain rfl : kind = other := Step.onGenerated.inj (ht.symm.trans hsame)
    rcases EngineSlot.isSearchable_iff.mp hsearch with hready | hdeployed
    · obtain ⟨current, hcurrent, -, hle⟩ := outranked s hs hready
      exact ⟨current, hcurrent, hle⟩
    · exact ⟨kind, h.deployed kind s hs hdeployed, le_rfl⟩
  | redeployed kind ht serving s found ready follows silent =>
    refine ⟨follows.config, .keeps follows.current (congrArg selections silent) ?_⟩
    intro other hother
    obtain rfl : kind = other :=
      Step.onGenerated.inj (ht.symm.trans (hears_eq_some_iff.mp hother).1)
    exact ⟨kind, serving, le_rfl⟩
  | adopted kind ht s found ready displaced follows selected =>
    refine ⟨follows.config, .switches kind ?_ follows.current (congrArg selections selected)
      displaced⟩
    exact hears_eq_some_iff.mpr
      ⟨ht, s, found, EngineSlot.isSearchable_iff.mpr (.inl ready)⟩

theorem Steady.config_run (h : Steady c) (steps : List Step) :
    (c.run steps).config = c.config := by
  induction steps generalizing c with
  | nil => rfl
  | cons t steps ih => exact (ih (h.step t)).trans (h.selects t).1

/-- The current engine is the first of highest priority among those heard. -/
theorem Steady.current_run (h : Steady c) (steps : List Step) {before : List EngineKind}
    (hcurrent : c.current = before.argmax c.config.priority) :
    (c.run steps).current = (before ++ c.heard steps).argmax c.config.priority := by
  induction steps generalizing c before with
  | nil =>
    rw [heard, List.append_nil]
    exact hcurrent
  | cons t steps ih =>
    obtain ⟨hconfig, hselects⟩ := h.selects t
    rw [heard, ← List.append_assoc, ← hconfig]
    apply ih (h.step t)
    rw [hconfig]
    cases hselects with
    | keeps current said outranked =>
      rw [current]
      cases hheard : c.hears t with
      | none => rw [Option.toList_none, List.append_nil, hcurrent]
      | some kind =>
        obtain ⟨serving, hserving, hle⟩ := outranked kind hheard
        rw [Option.toList_some, List.argmax_concat, ← hcurrent, hserving]
        exact (if_neg (not_lt.mpr hle)).symm
    | switches kind hheard current said higher =>
      rw [hheard, current, Option.toList_some, List.argmax_concat, ← hcurrent]
      cases hserving : c.current with
      | none => rfl
      | some serving => exact (if_pos (higher serving hserving).2).symm

theorem Steady.selections_published (h : Steady c) (steps : List Step) :
    selections (c.published steps) = (c.changes steps).map EngineKind.name := by
  induction steps generalizing c with
  | nil => rfl
  | cons t steps ih =>
    rw [published, changes, selections, List.filterMap_append, List.map_append]
    refine congr (congrArg _ ?_) (ih (h.step t))
    cases (h.selects t).2 with
    | keeps current said =>
      rw [if_pos current]
      exact said
    | switches kind hheard current said higher =>
      have hchanged : (c.step t).current ≠ c.current := by
        rw [current]
        exact fun hsame => (higher kind hsame.symm).1 rfl
      rw [if_neg hchanged, current]
      exact said

theorem Steady.heard_enabled (h : Steady c) {steps : List Step} (hkind : kind ∈ c.heard steps) :
    kind ∈ c.config.engines := by
  induction steps generalizing c with
  | nil => cases hkind
  | cons t steps ih =>
    rcases List.mem_append.mp hkind with hkind | hkind
    · obtain ⟨-, s, hs, -⟩ := hears_eq_some_iff.mp (Option.mem_toList.mp hkind)
      exact h.enabled hs
    · rw [← (h.selects t).1]
      exact ih (h.step t) hkind

theorem Steady.current_onGenerated (h : Steady c) (hs : c.slot? kind = some s)
    (hsearch : s.isSearchable = true) : ∃ current, (c.onGenerated kind).state.current = some current ∧
      c.config.priority kind ≤ c.config.priority current := by
  have hheard : c.hears (.onGenerated kind) = some kind := hears_eq_some_iff.mpr ⟨rfl, s, hs, hsearch⟩
  cases (h.selects (.onGenerated kind)).2 with
  | keeps current _ outranked =>
    obtain ⟨serving, hserving, hle⟩ := outranked kind hheard
    exact ⟨serving, current.trans hserving, hle⟩
  | switches other hother current =>
    obtain rfl := Option.some.inj (hheard.symm.trans hother)
    exact ⟨kind, current, le_rfl⟩

theorem Steady.current_step (h : Steady c) (t : Step) {current : EngineKind}
    (hcurrent : c.current = some current) : ∃ next, (c.step t).current = some next ∧
      (next ≠ current → c.config.priority current < c.config.priority next) := by
  cases (h.selects t).2 with
  | keeps same => exact ⟨current, same.trans hcurrent, fun hne => absurd rfl hne⟩
  | switches next _ hnext _ higher => exact ⟨next, hnext, fun _ => (higher current hcurrent).2⟩

theorem engines_ne_nil (h : config.fault? = none) : config.engines ≠ [] := by
  rintro hnil
  simp [Config.fault?, hnil] at h

/-- The current engine follows the priorities, whatever the order of builds, changes
and announcements. It is only replaced by one of higher priority; an engine that is
complete when its announcement is handled is outranked afterwards or serves itself;
once all engines have been heard, the first one of the highest priority serves; and
the selections that are published are the changes of the current engine, in order. -/
theorem selection_follows_priority (hmake : make config subs = .ok c) (steps : List Step) :
    let now := c.run steps
    let heard := c.heard steps
    (∀ t current, now.current = some current → ∃ next, (now.step t).current = some next ∧
      (next ≠ current → config.priority current < config.priority next)) ∧
    (∀ kind s, now.slot? kind = some s → s.state = .ready ∨ s.state = .deployed →
      ∃ current, (now.onGenerated kind).state.current = some current ∧
        config.priority kind ≤ config.priority current) ∧
    now.current = heard.argmax config.priority ∧
    ((∀ kind ∈ config.engines, kind ∈ heard) → ∃ current ∈ config.engines,
      now.current = some current ∧ ∀ kind ∈ config.engines,
        config.priority kind ≤ config.priority current ∧
        (config.priority kind = config.priority current →
          heard.idxOf current ≤ heard.idxOf kind)) ∧
    selections (c.published steps) = (c.changes steps).map EngineKind.name := by
  intro now heard
  obtain ⟨hmade, hnone⟩ := make_steady hmake
  obtain ⟨hfault, hc⟩ := make_eq_ok hmake
  have hconfig : c.config = config := congrArg Coordinator.config hc
  have hnow : now.config = config := (hmade.config_run steps).trans hconfig
  have hsteady : Steady now := hmade.run steps
  have hargmax : now.current = heard.argmax config.priority := by
    have hrun : now.current = ([] ++ heard).argmax c.config.priority :=
      hmade.current_run steps hnone
    rwa [hconfig] at hrun
  refine ⟨?_, ?_, hargmax, ?_, hmade.selections_published steps⟩
  · intro t current hcurrent
    rw [← hnow]
    exact hsteady.current_step t hcurrent
  · intro kind s hs hstate
    rw [← hnow]
    exact hsteady.current_onGenerated hs (EngineSlot.isSearchable_iff.mpr hstate)
  · intro hall
    obtain ⟨first, hfirst⟩ := List.exists_mem_of_ne_nil _ (engines_ne_nil hfault)
    have hne : heard ≠ [] := List.ne_nil_of_mem (hall first hfirst)
    have hsome : heard.argmax config.priority ≠ none := mt List.argmax_eq_none.mp hne
    obtain ⟨current, hcurrent⟩ := Option.ne_none_iff_exists'.mp hsome
    obtain ⟨hmem, hmax, hearliest⟩ := List.argmax_eq_some_iff.mp hcurrent
    refine ⟨current, ?_, hargmax.trans hcurrent, fun kind hkind => ⟨hmax kind (hall kind hkind), ?_⟩⟩
    · rw [← hconfig]
      exact hmade.heard_enabled hmem
    · exact fun heq => hearliest kind (hall kind hkind) heq.ge

/-- All builds finish before the first announcement is handled; two announcements
are repeated and one comes after a change. -/
def sampleAnnouncements : List Step :=
  [.start, .onGenerated .list, .finishBuild .list, .finishBuild .splayTree,
    .onGenerated .splayTree, .finishBuild .patriciaTrie, .finishBuild .weightedTree,
    .onGenerated .list, .add ['0'] "first", .onGenerated .patriciaTrie, .onGenerated .weightedTree,
    .onGenerated .patriciaTrie, .onGenerated .splayTree]

theorem selection_follows_priority_sample :
    let now := sampleCoordinator.run sampleAnnouncements
    now.current = some .patriciaTrie ∧
      (∃ current ∈ Config.default.engines, now.current = some current) ∧
      selections (sampleCoordinator.published sampleAnnouncements) =
        ["SplayTree", "PatriciaTrie"] := by
  have hmake : make Config.default .nil = .ok sampleCoordinator := rfl
  have hheard : ∀ kind ∈ Config.default.engines,
      kind ∈ sampleCoordinator.heard sampleAnnouncements := by decide
  have hresult := selection_follows_priority hmake sampleAnnouncements
  obtain ⟨current, hmem, hcurrent, -⟩ := hresult.2.2.2.1 hheard
  exact ⟨hresult.2.2.1.trans rfl, ⟨current, hmem, hcurrent⟩, hresult.2.2.2.2.trans rfl⟩

end TagFilter.Coordinator
