import TagFilter.Proofs.Histories

/-! # What a slot knows

A slot has not been started, or builds from a snapshot and has all later changes
in its backlog, or holds a complete engine with nothing left to apply. Every
operation leads from one of these to another, so a slot that can be searched has
every change, whenever it came.
-/
namespace TagFilter.EngineSlot
open Table OrderedMap

/-- How a slot stands to the table of the subscriptions. -/
inductive Serves (m : Table) (s : EngineSlot) : Prop where
  | waiting (state : s.state = .unavailable) (build : s.build = none) (backlog : s.backlog = [])
  | building (state : s.state = .generating ∨ s.state = .pending) (snapshot : Subscriptions)
    (build : s.build = some snapshot) (flat : snapshot.Flat)
    (digital : ∀ change ∈ s.backlog, change.Digital)
    (behind : s.backlog.foldl Change.onTable snapshot.table = m)
  | complete (state : s.state = .ready ∨ s.state = .deployed) (build : s.build = none)
    (backlog : s.backlog = []) (engine : Engine) (held : s.engine = some engine)
    (tracks : Engine.Tracks m engine)

/-- A slot that an operation leads to: it is of the same kind, and it can be
searched if it could be before. -/
structure Continues (m : Table) (s s' : EngineSlot) : Prop where
  serves : Serves m s'
  kind : s'.kind = s.kind
  searchable : s.isSearchable = true → s'.isSearchable = true

variable {m : Table} {s s' : EngineSlot} {subs : Subscriptions} {change : Change}
  {event : LifecycleEvent} {next : EngineState}

theorem isSearchable_iff : s.isSearchable = true ↔ s.state = .ready ∨ s.state = .deployed := by
  simp [isSearchable, EngineState.isSearchable]

theorem fire_of_next (h : s.state.next? event = some next) :
    s.fire event = .ok { s with lifecycle := ⟨next, s.lifecycle.transitions + 1⟩ } := by
  rw [fire, Lifecycle.fire?, ← state, h]
  rfl

theorem fire_of_refused (h : s.state.next? event = none) :
    s.fire event = .error (.invalidTransition s.state event) := by
  rw [fire, Lifecycle.fire?, ← state, h]
  rfl

theorem serves_fresh (m : Table) (kind : EngineKind) : Serves m (fresh kind) :=
  .waiting rfl rfl rfl

theorem Serves.refl (h : Serves m s) : Continues m s s := ⟨h, rfl, id⟩

theorem init_eq_ok (h : s.init subs = .ok s') : s.state = .unavailable ∧
    s' = { s with lifecycle := ⟨.generating, s.lifecycle.transitions + 1⟩, build := some subs } := by
  by_cases hstate : s.state = .unavailable
  · have hnext : s.state.next? .init = some .generating := by rw [hstate]; rfl
    rw [init, fire_of_next hnext] at h
    exact ⟨hstate, (Except.ok.inj h).symm⟩
  · have hrefused : s.state.next? .init = none := by
      cases hcase : s.state <;> first | rfl | exact absurd hcase hstate
    rw [init, fire_of_refused hrefused] at h
    cases h

theorem finish_of_none (h : s.build = none) : s.finish = .quiet () s := by
  rw [finish, h]

theorem finish_of_some (hstate : s.state = .generating ∨ s.state = .pending)
    (hbuild : s.build = some subs) : s.finish =
      ⟨(), { s with
        lifecycle := ⟨.ready, s.lifecycle.transitions + 1⟩
        backlog := []
        engine := some (s.backlog.foldl Change.applyOrKeep (Engine.build s.kind subs))
        build := none }, [s.announcement]⟩ := by
  have hnext : s.state.next? .generated = some .ready := by
    rcases hstate with h | h <;> rw [h] <;> rfl
  have hfire : fire .generated { s with
      backlog := []
      engine := some (s.backlog.foldl Change.applyOrKeep (Engine.build s.kind subs))
      build := none } = .ok _ := fire_of_next hnext
  rw [finish, hbuild]
  simp only [hfire]
  rfl

theorem update_of_unavailable (h : s.state = .unavailable) :
    s.update change = .quiet (.error (.invalidTransition .unavailable .update)) s := by
  have hrefused : s.state.next? .update = none := by rw [h]; rfl
  rw [update, fire_of_refused hrefused, h]

theorem update_of_building (h : s.state = .generating ∨ s.state = .pending) :
    s.update change = .quiet (.ok ())
      { s with
        lifecycle := ⟨.pending, s.lifecycle.transitions + 1⟩
        backlog := s.backlog ++ [change] } := by
  have hnext : s.state.next? .update = some .pending := by rcases h with h | h <;> rw [h] <;> rfl
  have hbuilding : s.isBuilding = true := by simpa [isBuilding] using h
  rw [update, fire_of_next hnext]
  simp only [hbuilding, if_true]

theorem update_of_complete (h : s.state = .ready ∨ s.state = .deployed) : s.update change =
    ⟨(applied change s.engine).1, { s with
      lifecycle := ⟨.ready, s.lifecycle.transitions + 2⟩
      engine := s.engine.map change.applyOrKeep }, [s.announcement]⟩ := by
  have hnext : s.state.next? .update = some .pending := by rcases h with h | h <;> rw [h] <;> rfl
  have hbuilding : s.isBuilding = false := by rcases h with h | h <;> simp [isBuilding, h]
  have happlied : (applied change s.engine).2 = s.engine.map change.applyOrKeep := by
    cases s.engine with
    | none => rfl
    | some engine =>
      rw [applied, Option.map_some, Change.applyOrKeep]
      cases change.apply engine <;> rfl
  rw [update, fire_of_next hnext]
  simp only [hbuilding, happlied]
  rfl

theorem Serves.init (h : s.init subs = .ok s') (hs : Serves subs.table s) (hsubs : subs.Flat) :
    Continues subs.table s s' := by
  obtain ⟨hstate, rfl⟩ := init_eq_ok h
  cases hs with
  | waiting state build backlog =>
    refine ⟨.building (.inl rfl) subs rfl hsubs (by simp [backlog]) (by simp [backlog]), rfl, ?_⟩
    intro hsearch
    simp [isSearchable_iff, hstate] at hsearch
  | building state => simp [hstate] at state
  | complete state => simp [hstate] at state

/-- A build that finishes has caught up with the changes since its snapshot. -/
theorem Serves.finish (h : Serves m s) : Continues m s s.finish.state := by
  cases h with
  | waiting state build backlog =>
    rw [finish_of_none build]
    exact (Serves.waiting state build backlog).refl
  | complete state build backlog engine held tracks =>
    rw [finish_of_none build]
    exact (Serves.complete state build backlog engine held tracks).refl
  | building state snapshot build flat digital behind =>
    rw [finish_of_some state build]
    have htracks := Engine.Tracks.after_changes
      ⟨Engine.holds_build flat s.kind, flat.sorted, flat.digital⟩ digital
    rw [behind] at htracks
    exact ⟨.complete (.inl rfl) rfl rfl _ rfl htracks, rfl, fun _ => rfl⟩

/-- A change reaches the engine, or waits for the build, or will be in the snapshot. -/
theorem Serves.update (h : Serves m s) (hc : change.Digital) :
    Continues (change.onTable m) s (s.update change).state := by
  cases h with
  | waiting state build backlog =>
    rw [update_of_unavailable state]
    exact (Serves.waiting state build backlog).refl
  | building state snapshot build flat digital behind =>
    rw [update_of_building state]
    refine ⟨.building (.inr rfl) snapshot build flat ?_ ?_, rfl, ?_⟩
    · exact fun c hin => (List.mem_append.mp hin).elim (digital c)
        fun hlast => List.mem_singleton.mp hlast ▸ hc
    · change (s.backlog ++ [change]).foldl Change.onTable snapshot.table = _
      rw [List.foldl_append, behind]
      rfl
    · intro hsearch
      rw [isSearchable_iff] at hsearch
      rcases state with h | h <;> simp [h] at hsearch
  | complete state build backlog engine held tracks =>
    rw [update_of_complete state, held]
    exact ⟨.complete (.inl rfl) build backlog _ rfl (tracks.change change hc), rfl, fun _ => rfl⟩

theorem Serves.engine (h : Serves m s) (hsearch : s.isSearchable = true) :
    s.build = none ∧ s.backlog = [] ∧ ∃ engine, s.engine = some engine ∧
      Engine.Tracks m engine := by
  rw [isSearchable_iff] at hsearch
  cases h with
  | waiting state => simp [state] at hsearch
  | building state => rcases state with h | h <;> simp [h] at hsearch
  | complete state build backlog engine held tracks => exact ⟨build, backlog, engine, held, tracks⟩

/-- A slot that has been started and has no build in flight has nothing left to do. -/
theorem Serves.settled (h : Serves m s) (hstarted : s.state ≠ .unavailable)
    (hbuild : s.build = none) : (s.state = .ready ∨ s.state = .deployed) ∧ s.backlog = [] ∧
      ∃ engine, s.engine = some engine ∧ Engine.Tracks m engine := by
  cases h with
  | waiting state => exact absurd state hstarted
  | building _ _ build => cases hbuild.symm.trans build
  | complete state _ backlog engine held tracks => exact ⟨state, backlog, engine, held, tracks⟩

theorem Serves.moved (h : Serves m s) (hsearch : s.isSearchable = true)
    (hnext : next = .ready ∨ next = .deployed) :
    Continues m s { s with lifecycle := ⟨next, s.lifecycle.transitions + 1⟩ } := by
  obtain ⟨build, backlog, engine, held, tracks⟩ := h.engine hsearch
  exact ⟨.complete hnext build backlog engine held tracks, rfl,
    fun _ => isSearchable_iff.mpr hnext⟩

theorem Serves.deploy (h : Serves m s) (hready : s.state = .ready) :
    ∃ s', s.deploy = .ok s' ∧ Continues m s s' := by
  have hnext : s.state.next? .deploy = some .deployed := by rw [hready]; rfl
  exact ⟨_, fire_of_next hnext, h.moved (isSearchable_iff.mpr (.inl hready)) (.inr rfl)⟩

theorem Serves.retire (h : Serves m s) (hdeployed : s.state = .deployed) :
    ∃ s', s.retire = .ok s' ∧ Continues m s s' := by
  have hnext : s.state.next? .retire = some .ready := by rw [hdeployed]; rfl
  exact ⟨_, fire_of_next hnext, h.moved (isSearchable_iff.mpr (.inr hdeployed)) (.inl rfl)⟩

theorem Serves.search (h : Serves m s) (hsearch : s.isSearchable = true) (id : Identifier)
    (nanoseconds : Nat) : (s.search id nanoseconds).1 = some (reported id m) := by
  obtain ⟨-, -, engine, held, tracks⟩ := h.engine hsearch
  rw [EngineSlot.search, if_pos hsearch, held]
  exact congrArg some (tracks.holds.searchAdaptive_eq tracks.sorted tracks.digital id)

theorem Serves.searched (h : Serves m s) (id : Identifier) (nanoseconds : Nat) :
    Continues m s (s.search id nanoseconds).2 := by
  by_cases hsearch : s.isSearchable = true
  · obtain ⟨build, backlog, engine, held, tracks⟩ := h.engine hsearch
    rw [EngineSlot.search, if_pos hsearch, held]
    exact ⟨.complete (isSearchable_iff.mp hsearch) build backlog _ rfl
      (tracks.use (.search id) trivial), rfl, fun h => h⟩
  · rw [EngineSlot.search, if_neg hsearch]
    exact h.refl

theorem Serves.reportStats (h : Serves m s) : Continues m s s.reportStats.state := by
  refine ⟨?_, rfl, id⟩
  cases h with
  | waiting state build backlog => exact .waiting state build backlog
  | building state snapshot build flat digital behind =>
    exact .building state snapshot build flat digital behind
  | complete state build backlog engine held tracks =>
    exact .complete state build backlog engine held tracks

end TagFilter.EngineSlot
