import TagFilter.Proofs.Slots

/-! # Changes around a build

Changes that reach a slot while it builds wait in its backlog, and are applied to
the new engine before it is announced; later ones are applied as they come, each
with an announcement of its own. Wherever the build finishes among them, the slot
ends with the engine that all of them, in their order, make of a first build.
-/
namespace TagFilter.EngineSlot

/-- Hands changes to a slot one after another. -/
def receive (s : EngineSlot) : List Change → Outcome EngineSlot (List (Except FilterError Unit))
  | [] => .quiet [] s
  | change :: rest =>
    let o := s.update change
    let others := o.state.receive rest
    ⟨o.answer :: others.answer, others.state, o.events ++ others.events⟩

/-- What changes answer that are applied to an engine one after another. -/
def answers (engine : Engine) : List Change → List (Except FilterError Unit)
  | [] => []
  | change :: rest =>
    (change.apply engine).map (fun _ => ()) :: answers (change.applyOrKeep engine) rest

variable {s : EngineSlot} {engine : Engine}

theorem applied_some (change : Change) (engine : Engine) :
    (applied change (some engine)).1 = (change.apply engine).map fun _ => () := by
  rw [applied]
  cases change.apply engine <;> rfl

/-- A slot that builds accepts every change and only puts it into its backlog. -/
theorem receive_building (changes : List Change)
    (h : s.state = .generating ∨ s.state = .pending) :
    ∃ state, (state = .generating ∨ state = .pending) ∧ s.receive changes =
      .quiet (List.replicate changes.length (.ok ()))
        { s with
          lifecycle := ⟨state, s.lifecycle.transitions + changes.length⟩
          backlog := s.backlog ++ changes } := by
  induction changes generalizing s with
  | nil => exact ⟨s.state, h, by simp [receive, state]⟩
  | cons change rest ih =>
    have hupdate : s.update change = _ := update_of_building h
    obtain ⟨state, hstate, heq⟩ := ih (s := (s.update change).state) (by rw [hupdate]; exact .inr rfl)
    refine ⟨state, hstate, ?_⟩
    rw [receive, heq, hupdate]
    simp [Outcome.quiet, List.replicate_succ, Nat.add_comm 1, Nat.add_assoc]

/-- A slot with an engine applies every change as it comes and announces each. -/
theorem receive_ready (changes : List Change) (h : s.state = .ready)
    (hengine : s.engine = some engine) : s.receive changes =
      ⟨answers engine changes,
        { s with
          lifecycle := ⟨.ready, s.lifecycle.transitions + 2 * changes.length⟩
          engine := some (changes.foldl Change.applyOrKeep engine) },
        List.replicate changes.length s.announcement⟩ := by
  induction changes generalizing s engine with
  | nil =>
    obtain ⟨kind, ⟨state, transitions⟩, backlog, held, build, metrics⟩ := s
    obtain rfl : state = .ready := h
    obtain rfl : held = some engine := hengine
    rfl
  | cons change rest ih =>
    have hupdate : s.update change = _ := update_of_complete (.inl h)
    rw [hengine, applied_some] at hupdate
    have heq : (s.update change).state.receive rest = _ :=
      ih (by rw [hupdate]; rfl) (by rw [hupdate]; rfl)
    rw [receive, heq, hupdate]
    simp only [answers, List.foldl_cons, List.length_cons, List.replicate_succ, announcement,
      Nat.mul_succ, Nat.add_assoc, Nat.add_comm 2]
    rfl

/-- Changes around a build are neither lost nor repeated nor reordered: whenever it
finishes, the slot ends ready with nothing left to apply and the engine that all
changes make of the first build. Besides the number of transitions, what depends on
the time are the announcements, one for the build and one for each change after it,
and that a change before it never answers with an error. -/
theorem changes_around_build (kind : EngineKind) (subs : Subscriptions) (changes : List Change)
    (k : Nat) :
    ∃ started, (fresh kind).init subs = .ok started ∧
      let waiting := started.receive (changes.take k)
      let built := waiting.state.finish
      let done := built.state.receive (changes.drop k)
      let first := Engine.build kind subs
      let n := changes.length
      done.state =
        { fresh kind with
          lifecycle := ⟨.ready, 2 + min k n + 2 * (n - k)⟩
          engine := some (changes.foldl Change.applyOrKeep first) } ∧
      waiting.events ++ built.events ++ done.events =
        List.replicate (1 + (n - k)) (.engineGenerated kind.name) ∧
      waiting.answer = List.replicate (min k n) (.ok ()) ∧
      done.answer = answers ((changes.take k).foldl Change.applyOrKeep first) (changes.drop k) := by
  refine ⟨_, rfl, ?_⟩
  intro waiting built done first n
  obtain ⟨state, hstate, hwaiting⟩ := receive_building (changes.take k)
    (s := { fresh kind with lifecycle := ⟨.generating, 1⟩, build := some subs }) (.inl rfl)
  have hwaiting : waiting = _ := hwaiting
  have hbuild : waiting.state.build = some subs := by rw [hwaiting]; rfl
  have hbuilt : built = _ := finish_of_some (by rw [hwaiting]; exact hstate) hbuild
  have hengine : built.state.engine = some ((changes.take k).foldl Change.applyOrKeep first) := by
    rw [hbuilt, hwaiting]
    rfl
  have hdone : done = _ := receive_ready (changes.drop k) (by rw [hbuilt]; rfl) hengine
  have hfold : (changes.drop k).foldl Change.applyOrKeep
      ((changes.take k).foldl Change.applyOrKeep first) =
        changes.foldl Change.applyOrKeep first := by
    rw [← List.foldl_append, List.take_append_drop]
  rw [hfold, List.length_drop] at hdone
  refine ⟨?_, ?_, ?_, ?_⟩
  · rw [hdone, hbuilt, hwaiting]
    simp [Outcome.quiet, fresh, n]
    omega
  · have hsilent : waiting.events = [] := by rw [hwaiting]; rfl
    have hannounced : built.events = [.engineGenerated kind.name] := by
      rw [hbuilt, hwaiting]
      rfl
    have hagain : done.events = List.replicate (n - k) (.engineGenerated kind.name) := by
      rw [hdone, hbuilt, hwaiting]
      rfl
    rw [hsilent, hannounced, hagain, List.replicate_add]
    rfl
  · rw [hwaiting, List.length_take]
    rfl
  · rw [hdone]

end TagFilter.EngineSlot
