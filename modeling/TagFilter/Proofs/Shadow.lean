import TagFilter.Proofs.Alike
import TagFilter.Proofs.Selection

/-! # Shadow searches

Whether the engines that are not current search as well shows in no answer, in no event
and, but for counters and the order of siblings in the splay tree, in no state. A search
leaves a coordinator alike to what it found, with or without the shadow of it, and every
other step does the same to two coordinators that are alike.
-/
namespace TagFilter.Coordinator

/-- What a step answers. -/
inductive Reply where
  | started (answer : Except FilterError Nat)
  | built
  | added (answer : Except FilterError Bool)
  | deleted (answer : Except FilterError Unit)
  | handled (answer : Except FilterError Bool)
  | found (answer : Except FilterError (List String))
  | reported

/-- What comes of a step, with its answer. -/
def response (c : Coordinator) : Step → Outcome Coordinator Reply
  | .start => c.start.map .started
  | .finishBuild kind => (c.finishBuild kind).map fun _ => .built
  | .add pattern uri => (c.add pattern uri).map .added
  | .delete pattern uri => (c.delete pattern uri).map .deleted
  | .onGenerated kind => (c.onGenerated kind).map .handled
  | .search id cost => (c.search id cost).map .found
  | .publishStats => c.publishStats.map fun _ => .reported

def replies (c : Coordinator) : List Step → List Reply
  | [] => []
  | t :: steps => (c.response t).answer :: (c.step t).replies steps

/-- A step without the times that a search takes. -/
def Step.untimed : Step → Step
  | .search id _ => .search id fun _ => 0
  | t => t

def unshadowed (config : Config) : Config := { config with shadowSearch := false }

/-- Coordinators that differ in shadow searching, in their counters and in the order of
siblings in the splay tree only. -/
structure Alike (c c' : Coordinator) : Prop where
  config : unshadowed c.config = unshadowed c'.config
  subscriptions : c.subscriptions = c'.subscriptions
  slots : List.Forall₂ EngineSlot.Alike c.slots c'.slots
  current : c.current = c'.current
  throughput : c.throughput = c'.throughput

variable {c c' : Coordinator} {s s' : EngineSlot} {kind : EngineKind} {t t' : Step}
  {steps steps' : List Step} {subs : Subscriptions} {config : Config}

theorem step_eq_response (c : Coordinator) (t : Step) : c.step t = (c.response t).state := by
  cases t <;> rfl

theorem events_eq_response (c : Coordinator) (t : Step) : c.events t = (c.response t).events := by
  cases t <;> rfl

theorem forall₂_symm {slots slots' : List EngineSlot}
    (h : List.Forall₂ EngineSlot.Alike slots slots') :
    List.Forall₂ EngineSlot.Alike slots' slots := by
  induction h with
  | nil => exact .nil
  | cons hfirst _ ih => exact .cons hfirst.symm ih

theorem Alike.symm (h : Alike c c') : Alike c' c :=
  ⟨h.config.symm, h.subscriptions.symm, forall₂_symm h.slots, h.current.symm, h.throughput.symm⟩

theorem Alike.priority (h : Alike c c') (kind : EngineKind) :
    c.config.priority kind = c'.config.priority kind := by
  have hpriority : (unshadowed c.config).priority kind = (unshadowed c'.config).priority kind := by
    rw [h.config]
  exact hpriority

theorem Alike.slot? (h : Alike c c') (kind : EngineKind) :
    Option.Rel EngineSlot.Alike (c.slot? kind) (c'.slot? kind) := by
  rw [Coordinator.slot?, Coordinator.slot?]
  have hslots := h.slots
  generalize c.slots = slots at hslots
  generalize c'.slots = slots' at hslots
  induction hslots with
  | nil => exact .none
  | cons hfirst _ ih =>
    rw [List.find?_cons, List.find?_cons, hfirst.kind]
    split
    · exact .some hfirst
    · exact ih

theorem Alike.engine_eq (h : Alike c c') (hkind : kind ≠ .splayTree) :
    (c.slot? kind).bind EngineSlot.engine = (c'.slot? kind).bind EngineSlot.engine := by
  cases hslot : c.slot? kind with
  | none => rw [rel_eq_none (h.slot? _) hslot]
  | some s =>
    obtain ⟨s', hslot', hs⟩ := rel_eq_some (h.slot? _) hslot
    obtain ⟨-, rfl⟩ := slot?_mem hslot
    rw [hslot', Option.bind_some, Option.bind_some, hs.engine_eq hkind]

theorem Alike.setSlot (h : Alike c c') (hs : EngineSlot.Alike s s') :
    Alike (c.setSlot s) (c'.setSlot s') := by
  refine ⟨h.config, h.subscriptions, ?_, h.current, h.throughput⟩
  refine List.forall₂_map_left_iff.mpr (List.forall₂_map_right_iff.mpr (h.slots.imp ?_))
  intro t t' ht
  rw [ht.kind, hs.kind]
  split
  · exact hs
  · exact ht

/-- What is done to the slots of one side and does not show. -/
theorem Alike.mapSlots (h : Alike c c') {f : EngineSlot → EngineSlot}
    (hf : ∀ s ∈ c.slots, ∀ s', EngineSlot.Alike s s' → EngineSlot.Alike (f s) s') :
    Alike { c with slots := c.slots.map f } c' := by
  refine ⟨h.config, h.subscriptions, List.forall₂_map_left_iff.mpr ?_, h.current, h.throughput⟩
  exact ((List.forall₂_and_left ..).mpr ⟨fun _ hs => hs, h.slots⟩).imp
    fun s s' hs => hf s hs.1 s' hs.2

theorem Alike.shadow (h : Alike c c') (current : EngineKind) (id : Identifier)
    (cost : EngineKind → Nat) : Alike (c.shadow current id cost) c' := by
  rw [Coordinator.shadow]
  split
  · refine h.mapSlots fun s _ s' hs => ?_
    split
    · exact hs
    · exact hs.search id _
  · exact h

/-- A search shows in no other way than its answer, with or without its shadow. -/
theorem Alike.searched (h : Alike c c') (hc : Sound c) (id : Identifier)
    (cost : EngineKind → Nat) : Alike (c.search id cost).state c' := by
  rw [Coordinator.search]
  cases hcurrent : c.current.bind c.slot? with
  | none => exact h
  | some s =>
    obtain ⟨kind, -, hslot⟩ := Option.bind_eq_some_iff.mp hcurrent
    obtain ⟨hs, -⟩ := slot?_mem hslot
    obtain ⟨-, hkind⟩ := s.search_state id (cost s.kind)
    have hsearched (s' : EngineSlot) (halike : EngineSlot.Alike s s') :
        EngineSlot.Alike (s.search id (cost s.kind)).2 s' := halike.search id _
    dsimp only
    generalize s.search id (cost s.kind) = result at hkind hsearched
    obtain ⟨uris, searched⟩ := result
    cases uris with
    | none => exact h
    | some uris =>
      refine (h.mapSlots fun t ht t' halike => ?_).shadow s.kind id cost
      split
      · next hsame =>
        rw [List.inj_on_of_nodup_map hc.kinds ht hs (hsame.trans hkind)] at halike
        exact hsearched t' halike
      · exact halike

theorem Alike.search (h : Alike c c') (hc : Sound c) (hc' : Sound c') (id : Identifier)
    (cost cost' : EngineKind → Nat) :
    Outcome.Agree Alike (c.search id cost) (c'.search id cost') := by
  refine ⟨?_, ((h.searched hc id cost).symm.searched hc' id cost').symm, ?_⟩
  · rw [(hc.search id cost).2.2, (hc'.search id cost').2.2, h.current, h.subscriptions]
  · rw [(c.search_follows id cost).2, (c'.search_follows id cost').2]

theorem startSlots_alike (subs : Subscriptions) {slots slots' : List EngineSlot}
    (h : List.Forall₂ EngineSlot.Alike slots slots') :
    (startSlots subs slots).1 = (startSlots subs slots').1 ∧
      List.Forall₂ EngineSlot.Alike (startSlots subs slots).2 (startSlots subs slots').2 := by
  induction h with
  | nil => exact ⟨rfl, .nil⟩
  | cons hfirst hrest ih =>
    rw [startSlots, startSlots]
    rcases (hfirst.init subs).cases with
      ⟨started, started', hok, hok', hstarted⟩ | ⟨e, herror, herror'⟩
    · rw [hok, hok']
      exact ⟨congrArg (Except.map (· + 1)) ih.1, .cons hstarted ih.2⟩
    · rw [herror, herror']
      exact ⟨rfl, .cons hfirst hrest⟩

theorem Alike.start (h : Alike c c') : Outcome.Agree Alike c.start c'.start := by
  obtain ⟨hanswer, hslots⟩ := startSlots_alike c.subscriptions h.slots
  rw [Coordinator.start, Coordinator.start, ← h.subscriptions]
  exact ⟨hanswer, ⟨h.config, rfl, hslots, h.current, h.throughput⟩, rfl⟩

theorem Alike.finishBuild (h : Alike c c') (hc : Sound c) (kind : EngineKind) :
    Outcome.Agree Alike (c.finishBuild kind) (c'.finishBuild kind) := by
  rw [Coordinator.finishBuild, Coordinator.finishBuild]
  cases hslot : c.slot? kind with
  | none =>
    rw [rel_eq_none (h.slot? _) hslot]
    exact .quiet h ()
  | some s =>
    obtain ⟨s', hslot', hs⟩ := rel_eq_some (h.slot? _) hslot
    have hfinish := hs.finish (hc.serves s (slot?_mem hslot).1)
    rw [hslot']
    exact ⟨rfl, h.setSlot hfinish.state, hfinish.events⟩

theorem Alike.spread (h : Alike c c') (hc : Sound c) (subs : Subscriptions) (change : Change) :
    Outcome.Agree Alike ({ c with subscriptions := subs }.spread change)
      ({ c' with subscriptions := subs }.spread change) := by
  have hupdates : List.Forall₂ (fun s s' =>
      Outcome.Agree EngineSlot.Alike (s.update change) (s'.update change)) c.slots c'.slots :=
    ((List.forall₂_and_left ..).mpr ⟨hc.serves, h.slots⟩).imp fun _ _ hs => hs.2.update hs.1 change
  refine ⟨rfl, ⟨h.config, rfl, ?_, h.current, h.throughput⟩, ?_⟩
  · change List.Forall₂ EngineSlot.Alike ((c.slots.map _).map _) ((c'.slots.map _).map _)
    rw [List.map_map, List.map_map]
    exact List.forall₂_map_left_iff.mpr (List.forall₂_map_right_iff.mpr
      (hupdates.imp fun _ _ hs => hs.state))
  · rw [Coordinator.spread, events_onSlots, Coordinator.spread, events_onSlots]
    have hevents : c.slots.map (fun s => (s.update change).events) =
        c'.slots.map fun s => (s.update change).events := by
      rw [← List.forall₂_eq_eq_eq]
      exact List.forall₂_map_left_iff.mpr (List.forall₂_map_right_iff.mpr
        (hupdates.imp fun _ _ hs => hs.events))
    exact congrArg List.flatten hevents

theorem Alike.add (h : Alike c c') (hc : Sound c) (p : Pattern) (u : String) :
    Outcome.Agree Alike (c.add p u) (c'.add p u) := by
  rw [Coordinator.add, Coordinator.add, h.subscriptions]
  split
  · exact .quiet h _
  · dsimp only
    split
    · exact .quiet h _
    · next subs _ => exact (h.spread hc subs (.add p u)).map _

theorem Alike.delete (h : Alike c c') (hc : Sound c) (p : Pattern) (u : String) :
    Outcome.Agree Alike (c.delete p u) (c'.delete p u) := by
  rw [Coordinator.delete, Coordinator.delete, h.subscriptions]
  split
  · exact (h.spread hc _ (.delete p u)).map _
  · exact .quiet h _

theorem Alike.retireSlot (h : Alike c c') (kind : EngineKind) :
    Alike (c.retireSlot kind) (c'.retireSlot kind) := by
  rw [Coordinator.retireSlot, Coordinator.retireSlot]
  cases hslot : c.slot? kind with
  | none =>
    rw [rel_eq_none (h.slot? _) hslot]
    exact h
  | some s =>
    obtain ⟨s', hslot', hs⟩ := rel_eq_some (h.slot? _) hslot
    rw [hslot']
    dsimp only
    rw [hs.state, EngineSlot.retire, EngineSlot.retire]
    split
    · rcases (hs.fire .retire).cases with
        ⟨retired, retired', hok, hok', hretired⟩ | ⟨e, herror, herror'⟩
      · rw [hok, hok']
        exact h.setSlot hretired
      · rw [herror, herror']
        exact h
    · exact h

theorem Alike.adopt (h : Alike c c') (hs : EngineSlot.Alike s s') :
    Outcome.Agree Alike (c.adopt s) (c'.adopt s') := by
  rw [Coordinator.adopt, Coordinator.adopt, EngineSlot.deploy, EngineSlot.deploy]
  rcases (hs.fire .deploy).cases with
    ⟨deployed, deployed', hok, hok', hdeployed⟩ | ⟨e, herror, herror'⟩
  · have hset := h.setSlot hdeployed
    have hserving : Alike { c.setSlot deployed with current := some s'.kind }
        { c'.setSlot deployed' with current := some s'.kind } :=
      ⟨hset.config, hset.subscriptions, hset.slots, rfl, hset.throughput⟩
    rw [hok, hok', hs.kind, h.current]
    refine ⟨rfl, ?_, rfl⟩
    dsimp only
    split
    · exact hserving.retireSlot _
    · exact hserving
  · rw [herror, herror']
    exact .quiet h _

theorem Alike.onGenerated (h : Alike c c') (kind : EngineKind) :
    Outcome.Agree Alike (c.onGenerated kind) (c'.onGenerated kind) := by
  rw [Coordinator.onGenerated, Coordinator.onGenerated, Coordinator.slot, Coordinator.slot]
  cases hslot : c.slot? kind with
  | none =>
    rw [rel_eq_none (h.slot? _) hslot]
    exact .quiet h _
  | some s =>
    obtain ⟨s', hslot', hs⟩ := rel_eq_some (h.slot? _) hslot
    rw [hslot']
    dsimp only
    rw [hs.state, h.current, EngineSlot.deploy, EngineSlot.deploy]
    split
    · exact .quiet h _
    · split
      · exact h.adopt hs
      · rw [h.priority, h.priority]
        split
        · rcases (hs.fire .deploy).cases with
            ⟨deployed, deployed', hok, hok', hdeployed⟩ | ⟨e, herror, herror'⟩
          · rw [hok, hok']
            exact .quiet (h.setSlot hdeployed) _
          · rw [herror, herror']
            exact .quiet h _
        · split
          · exact h.adopt hs
          · exact .quiet h _

theorem untimed_cases (h : t.untimed = t'.untimed) :
    t = t' ∨ ∃ id cost cost', t = .search id cost ∧ t' = .search id cost' := by
  cases t with
  | search id cost =>
    cases t' with
    | search id' cost' =>
      obtain rfl : id = id' := (Step.search.inj h).1
      exact .inr ⟨id, cost, cost', rfl, rfl⟩
    | start | finishBuild | add | delete | onGenerated | publishStats => cases h
  | start | finishBuild | add | delete | onGenerated | publishStats =>
    cases t' with
    | search => cases h
    | start | finishBuild | add | delete | onGenerated | publishStats => exact .inl h

theorem Alike.response (h : Alike c c') (hc : Sound c) (hc' : Sound c')
    (ht : t.untimed = t'.untimed) (hunreported : t ≠ .publishStats) :
    Outcome.Agree Alike (c.response t) (c'.response t') := by
  rcases untimed_cases ht with rfl | ⟨id, cost, cost', rfl, rfl⟩
  · cases t with
    | start => exact h.start.map _
    | finishBuild kind => exact (h.finishBuild hc kind).map fun _ => Reply.built
    | add p u => exact (h.add hc p u).map _
    | delete p u => exact (h.delete hc p u).map _
    | onGenerated kind => exact (h.onGenerated kind).map _
    | search id cost => exact (h.search hc hc' id cost cost).map _
    | publishStats => exact absurd rfl hunreported
  · exact (h.search hc hc' id cost cost').map _

theorem Alike.run (h : Alike c c') (hc : Sound c) (hc' : Sound c')
    (hsteps : steps.map Step.untimed = steps'.map Step.untimed)
    (hunreported : .publishStats ∉ steps) :
    c.replies steps = c'.replies steps' ∧ c.published steps = c'.published steps' ∧
      Alike (c.run steps) (c'.run steps') := by
  induction steps generalizing c c' steps' with
  | nil =>
    obtain rfl : steps' = [] := List.map_eq_nil_iff.mp hsteps.symm
    exact ⟨rfl, rfl, h⟩
  | cons t steps ih =>
    obtain ⟨t', rest, rfl, ht, hrest⟩ := List.map_eq_cons_iff.mp hsteps.symm
    obtain ⟨hfirst, hlater⟩ : .publishStats ≠ t ∧ .publishStats ∉ steps := by
      simpa using hunreported
    have hresponse := h.response hc hc' ht.symm hfirst.symm
    have hstep : Alike (c.step t) (c'.step t') := by
      rw [step_eq_response, step_eq_response]
      exact hresponse.state
    obtain ⟨hreplies, hpublished, hrun⟩ :=
      ih hstep (hc.step t).1 (hc'.step t').1 hrest.symm hlater
    refine ⟨?_, ?_, hrun⟩
    · rw [replies, replies, hresponse.answer, hreplies]
    · rw [published, published, events_eq_response, events_eq_response, hresponse.events,
        hpublished]

theorem make_alike {shadowSearch : Bool} (hmake : make config subs = .ok c)
    (hmake' : make { config with shadowSearch } subs = .ok c') : Alike c c' := by
  obtain ⟨-, rfl⟩ := make_eq_ok hmake
  obtain ⟨-, rfl⟩ := make_eq_ok hmake'
  refine ⟨rfl, rfl, List.forall₂_same.mpr fun s hs => ?_, rfl, rfl⟩
  obtain ⟨kind, -, rfl⟩ := List.mem_map.mp hs
  exact EngineSlot.alike_fresh kind

/-- Two coordinators with the same subscriptions and settings, one with shadow searches
and one without, give the same answers and publish the same in every run without reports,
whatever time searches take. After every step they differ in their counters and in the
order of siblings in the splay tree only. -/
theorem shadow_invisible {shadowSearch : Bool} (hmake : make config subs = .ok c)
    (hmake' : make { config with shadowSearch } subs = .ok c') (hsubs : subs.Inserted)
    (hsteps : steps.map Step.untimed = steps'.map Step.untimed)
    (hunreported : .publishStats ∉ steps) :
    c.replies steps = c'.replies steps' ∧
      ∀ n, c.published (steps.take n) = c'.published (steps'.take n) ∧
        let now := c.run (steps.take n)
        let now' := c'.run (steps'.take n)
        Alike now now' ∧ ∀ kind, kind ≠ .splayTree →
          (now.slot? kind).bind EngineSlot.engine = (now'.slot? kind).bind EngineSlot.engine := by
  have hmade := make_alike hmake hmake'
  obtain ⟨hc, -⟩ := make_sound hmake hsubs.flat
  obtain ⟨hc', -⟩ := make_sound hmake' hsubs.flat
  refine ⟨(hmade.run hc hc' hsteps hunreported).1, fun n => ?_⟩
  have hprefix : (steps.take n).map Step.untimed = (steps'.take n).map Step.untimed := by
    rw [List.map_take, List.map_take, hsteps]
  obtain ⟨-, hpublished, halike⟩ :=
    hmade.run hc hc' hprefix fun hmem => hunreported (List.mem_of_mem_take hmem)
  exact ⟨hpublished, halike, fun kind hkind => halike.engine_eq hkind⟩

/-- The sample coordinator with shadow searches. -/
def shadowing : Coordinator :=
  { sampleCoordinator with config := { Config.default with shadowSearch := true } }

/-- Two patterns in a splay tree that is not current, and a search for the second. -/
def shadowedSteps : List Step :=
  [.start, .finishBuild .list, .finishBuild .splayTree, .onGenerated .list, .add ['0'] "first",
    .add ['1'] "second", .search [0x80] fun _ => 0]

def splayed? (c : Coordinator) : Option (List Pattern) :=
  ((c.slot? .splayTree).bind EngineSlot.engine).bind Engine.chainPatterns?

/-- The runs do come apart in the splay tree. -/
theorem shadow_invisible_sample :
    sampleCoordinator.replies shadowedSteps = shadowing.replies shadowedSteps ∧
      (sampleCoordinator.run shadowedSteps).splayed? = some [['0'], ['1']] ∧
      (shadowing.run shadowedSteps).splayed? = some [['1'], ['0']] := by
  have hmake : make Config.default .nil = .ok sampleCoordinator := rfl
  have hmake' : make { Config.default with shadowSearch := true } .nil = .ok shadowing := rfl
  have hunreported : Step.publishStats ∉ shadowedSteps := by simp [shadowedSteps]
  exact ⟨(shadow_invisible hmake hmake' .nil rfl hunreported).1, by decide +kernel,
    by decide +kernel⟩

end TagFilter.Coordinator
