import TagFilter.Proofs.Slots

/-! # Phases of a slot

How far an operation takes the lifecycle of a slot, whatever it holds. A build that
finishes makes it ready, a change takes it back to ready or leaves it waiting, and
only deploying makes it serve. What is complete stays complete.
-/
namespace TagFilter

/-- What a step other than a change or an announcement may make of a slot that has
been started. -/
inductive EngineState.Advances : EngineState → EngineState → Prop where
  | same (a : EngineState) : Advances a a
  | completed {a : EngineState} (building : a = .generating ∨ a = .pending) : Advances a .ready

/-- What a change makes of a slot. -/
inductive EngineState.Updates : EngineState → EngineState → Prop where
  | waiting : Updates .unavailable .unavailable
  | building {a : EngineState} (building : a = .generating ∨ a = .pending) : Updates a .pending
  | complete {a : EngineState} (complete : a = .ready ∨ a = .deployed) : Updates a .ready

/-- What deploying the engine of a kind in place of a previous one makes of the slot
of each kind. -/
inductive EngineState.Replaces (previous : Option EngineKind) (kind : EngineKind) :
    EngineKind → EngineState → EngineState → Prop where
  | deployed : Replaces previous kind kind .ready .deployed
  | retired {other : EngineKind} (hne : other ≠ kind) (hprevious : previous = some other) :
    Replaces previous kind other .deployed .ready
  | same {other : EngineKind} {a : EngineState} (hne : other ≠ kind)
    (hserving : ¬ (previous = some other ∧ a = .deployed)) : Replaces previous kind other a a

namespace EngineState

variable {a b : EngineState} {kind other : EngineKind} {previous : Option EngineKind}

theorem Advances.searchable (h : Advances a b) (ha : a.isSearchable = true) : b = a := by
  cases h with
  | same => rfl
  | completed building => rcases building with rfl | rfl <;> simp [isSearchable] at ha

theorem Advances.deployed (h : Advances a b) (hb : b = .deployed) : a = .deployed := by
  cases h with
  | same => exact hb
  | completed => cases hb

theorem Advances.unavailable_iff (h : Advances a b) : b = .unavailable ↔ a = .unavailable := by
  cases h with
  | same => rfl
  | completed building => rcases building with rfl | rfl <;> simp

theorem Advances.trans {d : EngineState} (h : Advances a b) (h' : Advances b d) :
    Advances a d := by
  cases h with
  | same => exact h'
  | completed building =>
    rw [h'.searchable rfl]
    exact .completed building

theorem Updates.searchable (h : Updates a b) (ha : a.isSearchable = true) : b = .ready := by
  cases h with
  | waiting => simp [isSearchable] at ha
  | building building => rcases building with rfl | rfl <;> simp [isSearchable] at ha
  | complete => rfl

theorem Updates.ne_deployed (h : Updates a b) : b ≠ .deployed := by
  cases h <;> simp

theorem Updates.unavailable_iff (h : Updates a b) : b = .unavailable ↔ a = .unavailable := by
  cases h with
  | waiting => rfl
  | building building => rcases building with rfl | rfl <;> simp
  | complete complete => rcases complete with rfl | rfl <;> simp

theorem Replaces.self (h : Replaces previous kind kind a b) : b = .deployed := by
  cases h with
  | deployed => rfl
  | retired hne => exact absurd rfl hne
  | same hne => exact absurd rfl hne

theorem Replaces.unavailable_iff (h : Replaces previous kind other a b) :
    b = .unavailable ↔ a = .unavailable := by
  cases h <;> simp

end EngineState

namespace EngineSlot
open EngineState

variable (s : EngineSlot) (change : Change)

theorem finish_advances : Advances s.state s.finish.state.state ∧
    s.finish.state.kind = s.kind ∧ ∀ e ∈ s.finish.events, e = s.announcement := by
  cases hbuild : s.build with
  | none =>
    rw [finish_of_none hbuild]
    exact ⟨.same _, rfl, by simp [Outcome.quiet]⟩
  | some subs =>
    by_cases hbuilding : s.state = .generating ∨ s.state = .pending
    · rw [finish_of_some hbuilding hbuild]
      exact ⟨.completed hbuilding, rfl, by simp⟩
    · have hrefused : s.state.next? .generated = none := by
        cases hstate : s.state <;> first | rfl | simp [hstate] at hbuilding
      have hfire : fire .generated { s with
          backlog := []
          engine := some (s.backlog.foldl Change.applyOrKeep (Engine.build s.kind subs))
          build := none } = .error _ := fire_of_refused hrefused
      rw [finish, hbuild]
      simp only [hfire]
      exact ⟨.same _, rfl, by simp [Outcome.quiet]⟩

theorem state_cases : s.state = .unavailable ∨ (s.state = .generating ∨ s.state = .pending) ∨
    s.state = .ready ∨ s.state = .deployed := by
  cases s.state <;> simp

theorem update_updates : Updates s.state (s.update change).state.state ∧
    (s.update change).state.kind = s.kind ∧
    (∀ e ∈ (s.update change).events, e = s.announcement) ∧
    (s.isSearchable = true → s.announcement ∈ (s.update change).events) := by
  rcases s.state_cases with h | h | h
  · rw [update_of_unavailable h]
    refine ⟨?_, rfl, by simp [Outcome.quiet], by simp [isSearchable_iff, h]⟩
    change Updates s.state s.state
    rw [h]
    exact .waiting
  · rw [update_of_building h]
    refine ⟨.building h, rfl, by simp [Outcome.quiet], ?_⟩
    rcases h with h | h <;> simp [isSearchable_iff, h]
  · rw [update_of_complete h]
    exact ⟨.complete h, rfl, by simp, by simp⟩

theorem search_state (id : Identifier) (nanoseconds : Nat) :
    (s.search id nanoseconds).2.state = s.state ∧ (s.search id nanoseconds).2.kind = s.kind := by
  rw [search]
  split <;> exact ⟨rfl, rfl⟩

end EngineSlot

end TagFilter
