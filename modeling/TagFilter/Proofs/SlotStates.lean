import TagFilter.Coordinator
import TagFilter.Proofs.Phases

/-! # The states of a slot

The state of a slot says what the slot has: whether a build is in flight, whether
there is an engine and whether changes wait. Every operation keeps this, accepted or
refused, so no slot is ever caught between two states and the branches that provide
for it are not taken.
-/
namespace TagFilter.EngineSlot

inductive Operation where
  | init (subs : Subscriptions)
  | finish
  | update (change : Change)
  | deploy
  | retire
  | search (id : Identifier) (nanoseconds : Nat)

def outcome (s : EngineSlot) : Operation → Outcome EngineSlot (Except FilterError Unit)
  | .init subs => Coordinator.attempt (init subs) s
  | .finish => s.finish.map .ok
  | .update change => s.update change
  | .deploy => Coordinator.attempt deploy s
  | .retire => Coordinator.attempt retire s
  | .search id nanoseconds => .quiet (.ok ()) (s.search id nanoseconds).2

def operate (s : EngineSlot) (operation : Operation) : EngineSlot := (s.outcome operation).state

def operateAll (s : EngineSlot) (operations : List Operation) : EngineSlot :=
  operations.foldl operate s

/-- What the state of a slot says about the rest of it. -/
def Coherent (s : EngineSlot) : Prop :=
  match s.state with
  | .unavailable => s.engine = none ∧ s.backlog = [] ∧ s.build = none
  | .generating => s.build.isSome = true ∧ s.engine = none ∧ s.backlog = []
  | .pending => s.build.isSome = true ∧ s.engine = none ∧ s.backlog ≠ []
  | .ready | .deployed => s.build = none ∧ s.engine.isSome = true ∧ s.backlog = []

variable {s s' : EngineSlot} {subs : Subscriptions} {change : Change}
  {event : LifecycleEvent} {operation : Operation} {error : FilterError}

theorem coherent_fresh (kind : EngineKind) : Coherent (fresh kind) := ⟨rfl, rfl, rfl⟩

theorem Coherent.building (h : Coherent s) (hstate : s.state = .generating ∨ s.state = .pending) :
    s.build.isSome = true ∧ s.engine = none := by
  rw [Coherent] at h
  rcases hstate with hstate | hstate <;> rw [hstate] at h <;> exact ⟨h.1, h.2.1⟩

theorem Coherent.complete (h : Coherent s) (hstate : s.state = .ready ∨ s.state = .deployed) :
    s.build = none ∧ s.engine.isSome = true ∧ s.backlog = [] := by
  rw [Coherent] at h
  rcases hstate with hstate | hstate <;> rwa [hstate] at h

theorem coherent_of_complete (hstate : s.state = .ready ∨ s.state = .deployed)
    (hbuild : s.build = none) (hengine : s.engine.isSome = true) (hbacklog : s.backlog = []) :
    Coherent s := by
  rw [Coherent]
  rcases hstate with hstate | hstate <;> rw [hstate] <;> exact ⟨hbuild, hengine, hbacklog⟩

theorem Coherent.building_of_build (h : Coherent s) (hbuild : s.build = some subs) :
    s.state = .generating ∨ s.state = .pending := by
  rw [Coherent] at h
  cases hstate : s.state with
  | generating => exact .inl rfl
  | pending => exact .inr rfl
  | unavailable =>
    rw [hstate] at h
    exact absurd (hbuild.symm.trans h.2.2) (by simp)
  | ready | deployed =>
    rw [hstate] at h
    exact absurd (hbuild.symm.trans h.1) (by simp)

theorem Coherent.isSearchable_iff (h : Coherent s) :
    s.isSearchable = true ↔ s.engine.isSome = true := by
  rw [EngineSlot.isSearchable_iff]
  rw [Coherent] at h
  cases hstate : s.state with
  | unavailable =>
    rw [hstate] at h
    simp [h.1]
  | generating | pending =>
    rw [hstate] at h
    simp [h.2.1]
  | ready | deployed =>
    rw [hstate] at h
    simp [h.2.1]

theorem fire_eq_ok (h : s.fire event = .ok s') : ∃ next, s.state.next? event = some next ∧
    s' = { s with lifecycle := ⟨next, s.lifecycle.transitions + 1⟩ } := by
  cases hnext : s.state.next? event with
  | none =>
    rw [fire_of_refused hnext] at h
    cases h
  | some next =>
    rw [fire_of_next hnext] at h
    exact ⟨next, rfl, (Except.ok.inj h).symm⟩

theorem deploy_eq_ok (h : s.deploy = .ok s') : s.state = .ready ∧
    s' = { s with lifecycle := ⟨.deployed, s.lifecycle.transitions + 1⟩ } := by
  obtain ⟨next, hnext, rfl⟩ := fire_eq_ok h
  cases hstate : s.state <;> rw [hstate] at hnext <;> cases hnext
  exact ⟨rfl, rfl⟩

theorem retire_eq_ok (h : s.retire = .ok s') : s.state = .deployed ∧
    s' = { s with lifecycle := ⟨.ready, s.lifecycle.transitions + 1⟩ } := by
  obtain ⟨next, hnext, rfl⟩ := fire_eq_ok h
  cases hstate : s.state <;> rw [hstate] at hnext <;> cases hnext
  exact ⟨rfl, rfl⟩

theorem Coherent.init (h : Coherent s) (hinit : s.init subs = .ok s') : Coherent s' := by
  obtain ⟨hstate, rfl⟩ := init_eq_ok hinit
  rw [Coherent, hstate] at h
  exact ⟨rfl, h.1, h.2.1⟩

theorem Coherent.finish (h : Coherent s) : Coherent s.finish.state := by
  cases hbuild : s.build with
  | none => rwa [finish_of_none hbuild]
  | some subs =>
    rw [finish_of_some (h.building_of_build hbuild) hbuild]
    exact coherent_of_complete (.inl rfl) rfl rfl rfl

theorem Coherent.update (h : Coherent s) (change : Change) : Coherent (s.update change).state := by
  rcases s.state_cases with hstate | hstate | hstate
  · rwa [update_of_unavailable hstate]
  · obtain ⟨hbuild, hengine⟩ := h.building hstate
    rw [update_of_building hstate]
    exact ⟨hbuild, hengine, List.concat_ne_nil _ _⟩
  · obtain ⟨hbuild, hengine, hbacklog⟩ := h.complete hstate
    rw [update_of_complete hstate]
    exact coherent_of_complete (.inl rfl) hbuild (by simpa using hengine) hbacklog

theorem Coherent.deploy (h : Coherent s) (hdeploy : s.deploy = .ok s') : Coherent s' := by
  obtain ⟨hstate, rfl⟩ := deploy_eq_ok hdeploy
  obtain ⟨hbuild, hengine, hbacklog⟩ := h.complete (.inl hstate)
  exact coherent_of_complete (.inr rfl) hbuild hengine hbacklog

theorem Coherent.retire (h : Coherent s) (hretire : s.retire = .ok s') : Coherent s' := by
  obtain ⟨hstate, rfl⟩ := retire_eq_ok hretire
  obtain ⟨hbuild, hengine, hbacklog⟩ := h.complete (.inr hstate)
  exact coherent_of_complete (.inl rfl) hbuild hengine hbacklog

theorem Coherent.search (h : Coherent s) (id : Identifier) (nanoseconds : Nat) :
    Coherent (s.search id nanoseconds).2 := by
  by_cases hsearch : s.isSearchable = true
  · have hstate := EngineSlot.isSearchable_iff.mp hsearch
    obtain ⟨hbuild, hengine, hbacklog⟩ := h.complete hstate
    obtain ⟨engine, hengine⟩ := Option.isSome_iff_exists.mp hengine
    rw [EngineSlot.search, if_pos hsearch, hengine]
    exact coherent_of_complete hstate hbuild rfl hbacklog
  · rwa [EngineSlot.search, if_neg hsearch]

theorem Coherent.attempt {f : EngineSlot → Except FilterError EngineSlot} (h : Coherent s)
    (hf : ∀ s', f s = .ok s' → Coherent s') : Coherent (Coordinator.attempt f s).state := by
  rw [Coordinator.attempt]
  cases hresult : f s with
  | error => exact h
  | ok s' => exact hf s' hresult

theorem Coherent.operate (h : Coherent s) (operation : Operation) :
    Coherent (s.operate operation) := by
  cases operation with
  | init subs => exact h.attempt fun _ => h.init
  | finish => exact h.finish
  | update change => exact h.update change
  | deploy => exact h.attempt fun _ => h.deploy
  | retire => exact h.attempt fun _ => h.retire
  | search id nanoseconds => exact h.search id nanoseconds

theorem Coherent.operateAll (h : Coherent s) (operations : List Operation) :
    Coherent (s.operateAll operations) := by
  induction operations generalizing s with
  | nil => exact h
  | cons operation operations ih => exact ih (h.operate operation)

theorem Coherent.search_eq_none_iff (h : Coherent s) (id : Identifier) (nanoseconds : Nat) :
    (s.search id nanoseconds).1 = none ↔ s.engine = none := by
  cases hengine : s.engine with
  | none =>
    have hsearch : ¬ s.isSearchable = true := by simp [h.isSearchable_iff, hengine]
    rw [EngineSlot.search, if_neg hsearch]
    simp
  | some engine =>
    have hsearch : s.isSearchable = true := by simp [h.isSearchable_iff, hengine]
    rw [EngineSlot.search, if_pos hsearch, hengine]
    simp

/-- A build that finishes installs its engine and is announced. -/
theorem Coherent.finish_installs (h : Coherent s) (hbuild : s.build = some subs) :
    s.finish.state.engine = some (s.backlog.foldl Change.applyOrKeep (Engine.build s.kind subs)) ∧
      s.finish.state.state = .ready ∧ s.finish.events = [s.announcement] := by
  rw [finish_of_some (h.building_of_build hbuild) hbuild]
  exact ⟨rfl, rfl, rfl⟩

/-- A change that need not wait finds an engine, and the slot is ready again at its end. -/
theorem Coherent.update_applies (h : Coherent s) (hbuilt : s.state ≠ .unavailable)
    (hbuilding : s.isBuilding = false) (change : Change) :
    ∃ engine, s.engine = some engine ∧
      (s.update change).state.engine = some (change.applyOrKeep engine) ∧
      (s.update change).state.state = .ready ∧ (s.update change).events = [s.announcement] := by
  have hstate : s.state = .ready ∨ s.state = .deployed := by
    rcases s.state_cases with hstate | hstate | hstate
    · exact absurd hstate hbuilt
    · have hwaits : s.isBuilding = true := by simpa [isBuilding] using hstate
      exact absurd (hbuilding.symm.trans hwaits) Bool.false_ne_true
    · exact hstate
  obtain ⟨-, hengine, -⟩ := h.complete hstate
  obtain ⟨engine, hengine⟩ := Option.isSome_iff_exists.mp hengine
  rw [update_of_complete hstate, hengine]
  exact ⟨engine, rfl, rfl, rfl, rfl⟩

theorem attempt_refused {f : EngineSlot → Except FilterError EngineSlot}
    (h : (Coordinator.attempt f s).answer = .error error) :
    Coordinator.attempt f s = .quiet (.error error) s := by
  rw [Coordinator.attempt] at h ⊢
  cases hresult : f s with
  | error =>
    rw [hresult] at h
    obtain rfl := Except.error.inj h
    rfl
  | ok s' =>
    rw [hresult] at h
    cases h

/-- A change itself can only fail because what it takes out is not there. -/
theorem applied_error {held : Option Engine} (h : (applied change held).1 = .error error) :
    ∃ p u, error = .notFound p u := by
  cases held with
  | none => cases h
  | some engine =>
    cases change with
    | add p u => cases h
    | delete p u =>
      rw [applied, Change.apply, Engine.delete] at h
      cases hdelete : engine.delete? p u with
      | none =>
        rw [hdelete] at h
        exact ⟨p, u, (Except.error.inj h).symm⟩
      | some left =>
        rw [hdelete] at h
        cases h

theorem update_refused {state : EngineState}
    (h : (s.update change).answer = .error (.invalidTransition state event)) :
    s.update change = .quiet (.error (.invalidTransition state event)) s := by
  rcases s.state_cases with hstate | hstate | hstate
  · rw [update_of_unavailable hstate] at h ⊢
    rw [← Except.error.inj h]
  · rw [update_of_building hstate] at h
    cases h
  · rw [update_of_complete hstate] at h
    obtain ⟨p, u, hnotFound⟩ := applied_error h
    cases hnotFound

theorem outcome_refused {state : EngineState}
    (h : (s.outcome operation).answer = .error (.invalidTransition state event)) :
    s.outcome operation = .quiet (.error (.invalidTransition state event)) s := by
  cases operation with
  | init subs => exact attempt_refused h
  | update change => exact update_refused h
  | deploy => exact attempt_refused h
  | retire => exact attempt_refused h
  | finish | search => cases h

/-- Whatever is done to a fresh slot, accepted or refused, its state says what it has.
So a search fails exactly if there is no engine, a build that finishes installs an engine
with all that waited and is announced, a change that need not wait finds an engine and is
announced, and a refused operation changes nothing and says nothing. -/
theorem states_coherent (kind : EngineKind) (operations : List Operation) :
    let s := (fresh kind).operateAll operations
    s.Coherent ∧
      (∀ id nanoseconds, (s.search id nanoseconds).1 = none ↔ s.engine = none) ∧
      (∀ subs, s.build = some subs →
        s.finish.state.engine =
            some (s.backlog.foldl Change.applyOrKeep (Engine.build s.kind subs)) ∧
          s.finish.state.state = .ready ∧ s.finish.events = [s.announcement]) ∧
      (∀ change, s.state ≠ .unavailable → s.isBuilding = false →
        ∃ engine, s.engine = some engine ∧
          (s.update change).state.engine = some (change.applyOrKeep engine) ∧
          (s.update change).state.state = .ready ∧
          (s.update change).events = [s.announcement]) ∧
      ∀ operation state event,
        (s.outcome operation).answer = .error (.invalidTransition state event) →
          (s.outcome operation).state = s ∧ (s.outcome operation).events = [] := by
  intro s
  have hs : Coherent s := (coherent_fresh kind).operateAll operations
  refine ⟨hs, hs.search_eq_none_iff, fun _ => hs.finish_installs,
    fun change hbuilt hbuilding => hs.update_applies hbuilt hbuilding change, ?_⟩
  intro operation state event hrefused
  rw [outcome_refused hrefused]
  exact ⟨rfl, rfl⟩

end TagFilter.EngineSlot
