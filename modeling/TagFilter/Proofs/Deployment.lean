import TagFilter.Proofs.Selection

/-! # Deployment

Only the current engine is ever deployed. A change takes it out of service without a
word to the coordinator, but announces it as well, so it is ready instead of deployed
only as long as that announcement is still to be handled.
-/
namespace TagFilter.Coordinator
open EngineState

/-- After a run, an announcement of a kind is still to be handled, and no change came
after the step that published it. -/
def Outstanding (c : Coordinator) (kind : EngineKind) (steps : List Step) : Prop :=
  ∃ before t after, steps = before ++ t :: after ∧
    .engineGenerated kind.name ∈ (c.run before).events t ∧
    ∀ between t' rest, after = between ++ t' :: rest →
      t' ≠ .onGenerated kind ∧ ¬ (c.run (before ++ t :: between)).spreads t'

variable {c : Coordinator} {s : EngineSlot} {kind : EngineKind} {t : Step} {steps : List Step}
  {config : Config} {subs : Subscriptions}

theorem run_concat (c : Coordinator) (steps : List Step) (t : Step) :
    c.run (steps ++ [t]) = (c.run steps).step t := by
  rw [run, List.foldl_append]
  rfl

theorem outstanding_of_mem (h : .engineGenerated kind.name ∈ (c.run steps).events t) :
    c.Outstanding kind (steps ++ [t]) :=
  ⟨steps, t, [], rfl, h, by simp⟩

theorem Outstanding.concat (h : c.Outstanding kind steps) (ht : t ≠ .onGenerated kind)
    (hkept : ¬ (c.run steps).spreads t) : c.Outstanding kind (steps ++ [t]) := by
  obtain ⟨before, t₀, after, rfl, hmem, hafter⟩ := h
  refine ⟨before, t₀, after ++ [t], by simp, hmem, ?_⟩
  intro between t' rest hsplit
  rcases List.eq_nil_or_concat rest with rfl | ⟨rest, last, rfl⟩
  · obtain ⟨rfl, hlast⟩ := List.append_inj' hsplit rfl
    obtain rfl : t = t' := List.singleton_inj.mp hlast
    exact ⟨ht, hkept⟩
  · rw [List.concat_eq_append, ← List.cons_append, ← List.append_assoc] at hsplit
    exact hafter between t' rest (List.append_inj' hsplit rfl).1

/-- While the current engine is ready, the announcement by which it is deployed again
is outstanding. -/
theorem Steady.outstanding_run (h : Steady c) (hnone : c.current = none) (steps : List Step) :
    ∀ kind s, (c.run steps).current = some kind → (c.run steps).slot? kind = some s →
      s.state = .ready → c.Outstanding kind steps := by
  -- by the last step: either it published the announcement, or it left one outstanding
  induction steps using List.reverseRecOn with
  | nil =>
    intro kind s hcurrent
    cases hnone.symm.trans hcurrent
  | append_singleton steps t ih =>
    have hnow := h.run steps
    generalize hnow' : c.run steps = now at hnow ih
    have hcomplete {kind : EngineKind} {s₀ : EngineSlot} (hcurrent : now.current = some kind)
        (hs₀ : now.slot? kind = some s₀) : s₀.isSearchable = true := by
      obtain ⟨s₁, hs₁, hsearch⟩ := hnow.current kind hcurrent
      exact Option.some.inj (hs₁.symm.trans hs₀) ▸ hsearch
    intro kind s
    rw [run_concat, hnow', ← state_outcome]
    intro hcurrent hs hready
    cases step_effect hnow.uniform t with
    | quiet unheard kept follows =>
      rw [follows.current] at hcurrent
      obtain ⟨s₀, hs₀, hrel⟩ := follows.origin hs
      have hsame := hrel.searchable (hcomplete hcurrent hs₀)
      -- no build of a complete engine finishes, so it was ready before
      exact (ih kind s₀ hcurrent hs₀ (hsame ▸ hready)).concat (unheard kind) (hnow'.symm ▸ kept)
    | started ht follows =>
      obtain ⟨s₀, -, -, hgenerating⟩ := follows.origin hs
      cases hready.symm.trans hgenerating
    | spread unheard subs change follows announced =>
      rw [follows.current] at hcurrent
      obtain ⟨s₀, hs₀, -⟩ := follows.origin hs
      apply outstanding_of_mem
      obtain ⟨hmem, rfl⟩ := slot?_mem hs₀
      rw [hnow', events, announced]
      exact List.mem_flatMap.mpr
        ⟨s₀, hmem, (s₀.update_updates change).2.2.2 (hcomplete hcurrent hs₀)⟩
    | passed other ht unchanged outranked =>
      rw [unchanged] at hcurrent hs
      refine (ih kind s hcurrent hs hready).concat ?_ (by simp [ht, spreads])
      rintro rfl
      -- an announcement of the current engine itself would have deployed it again
      obtain rfl : other = kind := (Step.onGenerated.inj ht).symm
      obtain ⟨current, hserving, hne, -⟩ := outranked s hs hready
      exact hne (Option.some.inj (hserving.symm.trans hcurrent))
    | redeployed other ht serving s₀ found ready follows =>
      rw [follows.current, serving] at hcurrent
      obtain rfl := Option.some.inj hcurrent
      obtain ⟨s₁, -, hrel⟩ := follows.origin hs
      cases hready.symm.trans hrel.self
    | adopted other ht s₀ found ready displaced follows =>
      rw [follows.current] at hcurrent
      obtain rfl := Option.some.inj hcurrent
      obtain ⟨s₁, -, hrel⟩ := follows.origin hs
      cases hready.symm.trans hrel.self

theorem Steady.deployed_mem (h : Steady c) (hs : s ∈ c.slots) (hstate : s.state = .deployed) :
    c.current = some s.kind :=
  h.deployed s.kind s (slot?_of_mem h.nodup hs) hstate

theorem Steady.length_deployed (h : Steady c) :
    (c.slots.filter fun s => s.state = .deployed).length ≤ 1 := by
  have hserving : ∀ kind ∈ (c.slots.filter fun s => s.state = .deployed).map EngineSlot.kind,
      c.current = some kind := by
    intro kind hkind
    obtain ⟨s, hs, rfl⟩ := List.mem_map.mp hkind
    obtain ⟨hmem, hstate⟩ := List.mem_filter.mp hs
    exact h.deployed_mem hmem (by simpa using hstate)
  have hnodup : ((c.slots.filter fun s => s.state = .deployed).map EngineSlot.kind).Nodup :=
    h.nodup.sublist (List.filter_sublist.map _)
  rw [← List.length_map EngineSlot.kind]
  generalize (c.slots.filter fun s => s.state = .deployed).map EngineSlot.kind = kinds
    at hserving hnodup ⊢
  rcases kinds with _ | ⟨first, _ | ⟨second, rest⟩⟩
  · simp
  · simp
  · have hsame := (hserving first (by simp)).symm.trans (hserving second (by simp))
    simp [Option.some.inj hsame] at hnodup

/-- In every state that a run reaches at most one slot is deployed, and it is the one
of the current engine; the current engine is ready or deployed, and ready only while
an announcement that came with its last change or later is outstanding; and handling
an announcement of an enabled kind never fails. -/
theorem deployment_safe (hmake : make config subs = .ok c) (steps : List Step) :
    let now := c.run steps
    (now.slots.filter fun s => s.state = .deployed).length ≤ 1 ∧
    (∀ s ∈ now.slots, s.state = .deployed → now.current = some s.kind) ∧
    (∀ kind, now.current = some kind → ∃ s, now.slot? kind = some s ∧
      (s.state = .ready ∨ s.state = .deployed) ∧
      (s.state = .ready → c.Outstanding kind steps)) ∧
    ∀ kind ∈ config.engines, ∃ becomes, (now.onGenerated kind).answer = .ok becomes := by
  intro now
  obtain ⟨hmade, hnone⟩ := make_steady hmake
  have hnow : Steady now := hmade.run steps
  refine ⟨hnow.length_deployed, fun s => hnow.deployed_mem, ?_, ?_⟩
  · intro kind hcurrent
    obtain ⟨s, hs, hsearch⟩ := hnow.current kind hcurrent
    exact ⟨s, hs, EngineSlot.isSearchable_iff.mp hsearch,
      hmade.outstanding_run hnone steps kind s hcurrent hs⟩
  · intro kind hkind
    have hconfig : now.config = config := by
      rw [hmade.config_run steps, (make_eq_ok hmake).2]
    obtain ⟨s, hs⟩ := hnow.slot_of_enabled (hconfig ▸ hkind)
    rcases onGenerated_cases hs with ⟨heq, -⟩ | ⟨-, -, c', heq, -⟩ | ⟨-, -, c', heq, -⟩
    all_goals exact ⟨_, congrArg Outcome.answer heq⟩

/-- A change takes the engine in service out of it until the announcement is handled. -/
theorem deployment_safe_sample :
    let now := sampleCoordinator.run sampleSteps
    now.current = some .splayTree ∧ (now.slot? .splayTree).map EngineSlot.state = some .ready ∧
      (now.slots.filter fun s => s.state = .deployed).length ≤ 1 ∧
      sampleCoordinator.Outstanding .splayTree sampleSteps ∧
      ∃ becomes, (now.onGenerated .splayTree).answer = .ok becomes := by
  have hmake : make Config.default .nil = .ok sampleCoordinator := rfl
  obtain ⟨hlength, -, hcurrent, hanswer⟩ := deployment_safe hmake sampleSteps
  obtain ⟨s, hs, -, houtstanding⟩ := hcurrent .splayTree rfl
  have hready : (sampleCoordinator.run sampleSteps).slot? .splayTree = some s → s.state = .ready := by
    rintro ⟨⟩
    rfl
  exact ⟨rfl, rfl, hlength, houtstanding (hready hs), hanswer .splayTree (by decide)⟩

end TagFilter.Coordinator
