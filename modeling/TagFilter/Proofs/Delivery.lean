import TagFilter.Proofs.Commands
import TagFilter.Proofs.Ledger
import TagFilter.Proofs.Selection
import TagFilter.Service

/-! # From the bus to the subscriptions

Handling a command queues announcements behind the commands that wait, and builds
finish in between. The subscriptions follow the commands alone: what has been taken
from the queue has been heeded, in order, and what is left of the commands is still
in the queue.
-/
namespace TagFilter

namespace Coordinator

variable {c c' : Coordinator} {said : List Event}

/-- What an event or an operation may come to for the coordinator. -/
inductive Turns (c c' : Coordinator) (said : List Event) : Prop where
  | step (t : Step) (state : c' = c.step t) (said : said = c.events t)
  | noted (kind : EngineKind) (micros : Float) (state : c' = c.recordThroughput kind micros)
    (said : said = [])
  | idle (state : c' = c) (said : said = [])

theorem handle_turns (c : Coordinator) (e : Event) :
    Turns c (c.handle e).state (c.handle e).events := by
  cases e with
  | addSubscription pattern uri => exact .step (.add pattern.toList uri) rfl rfl
  | deleteSubscription pattern uri => exact .step (.delete pattern.toList uri) rfl rfl
  | engineGenerated engine =>
    rw [handle, withKind]
    cases EngineKind.ofName? engine with
    | none => exact .idle rfl rfl
    | some kind => exact .step (.onGenerated kind) rfl rfl
  | engineStatus engine micros =>
    rw [handle, withKind]
    cases EngineKind.ofName? engine with
    | none => exact .idle rfl rfl
    | some kind => exact .noted kind micros rfl rfl
  | trafficStat | selectedEngine => exact .idle rfl rfl

theorem Sound.turns (h : Sound c) (ht : Turns c c' said) : Sound c' := by
  cases ht with
  | step t state => exact state ▸ (h.step t).1
  | noted kind micros state => exact state ▸ ⟨h.flat, h.kinds, h.serves, h.current⟩
  | idle state => exact state ▸ h

theorem Steady.turns (h : Steady c) (ht : Turns c c' said) : Steady c' := by
  cases ht with
  | step t state => exact state ▸ h.step t
  | noted kind micros state => exact state ▸ ⟨h.kinds, h.uniform, h.deployed, h.current⟩
  | idle state => exact state ▸ h

theorem Steady.started_turns (h : Steady c) (hstarted : c.Started) (ht : Turns c c' said) :
    c'.Started := by
  cases ht with
  | step t state => exact state ▸ h.started_step hstarted t
  | noted kind micros state => exact state ▸ hstarted
  | idle state => exact state ▸ hstarted

/-- The coordinator gives no orders about subscriptions. -/
theorem Steady.topic_events (h : Steady c) (t : Step) :
    ∀ e ∈ c.events t, e.topic ≠ .subscriptions := by
  intro e he
  rw [events] at he
  cases step_effect h.uniform t with
  | quiet _ _ _ reported => exact (reported e he).topic
  | started _ _ silent | redeployed _ _ _ _ _ _ _ silent =>
    rw [silent] at he
    cases he
  | spread _ _ change _ announced =>
    rw [announced] at he
    obtain ⟨s, -, he⟩ := List.mem_flatMap.mp he
    rw [(s.update_updates change).2.2.1 e he]
    exact Topic.noConfusion
  | passed _ _ unchanged =>
    rw [unchanged] at he
    cases he
  | adopted _ _ _ _ _ _ _ selected =>
    rw [selected] at he
    rw [List.mem_singleton.mp he]
    exact Topic.noConfusion

theorem Steady.topic_turns (h : Steady c) (ht : Turns c c' said) :
    ∀ e ∈ said, e.topic ≠ .subscriptions := by
  cases ht with
  | step t _ said => exact said ▸ h.topic_events t
  | noted _ _ _ said | idle _ said => exact said ▸ nofun

end Coordinator

namespace Service
open Bus

/-- What may happen to a service while its loop stays attached. -/
inductive Step where
  | publish (event : Event)
  | handleNext
  | start
  | finishBuild (kind : EngineKind)
  | search (id : Identifier) (cost : EngineKind → Nat)
  | publishStats
  | subscribe (filter : EventFilter)
  | receive (observer : Nat)
  | unsubscribe (observer : Nat)

def step (s : Service) : Step → Service
  | .publish event => (s.publish event).2
  | .handleNext => (s.handleNext?.map (·.2)).getD s
  | .start => (s.perform Coordinator.start).2
  | .finishBuild kind => s.finishBuild kind
  | .search id cost => (s.perform (Coordinator.search id cost)).2
  | .publishStats => s.publishStats
  | .subscribe filter => { s with bus := (s.bus.subscribe filter).2 }
  | .receive observer => { s with bus := (s.bus.receive observer).2 }
  | .unsubscribe observer => { s with bus := s.bus.unsubscribe observer }

def run (s : Service) (steps : List Step) : Service := steps.foldl step s

/-- The command that is handled next. -/
def next? (s : Service) : Option Event := s.handleNext?.map (·.1.1)

/-- What a step publishes. -/
def announces (s : Service) : Step → List Event
  | .publish event => [event]
  | .handleNext => s.next?.elim [] fun event => (s.coordinator.handle event).events
  | .start => s.coordinator.start.events
  | .finishBuild kind => (s.coordinator.finishBuild kind).events
  | .search id cost => (s.coordinator.search id cost).events
  | .publishStats => s.coordinator.publishStats.events
  | .subscribe _ => []
  | .receive _ => []
  | .unsubscribe _ => []

/-- All that is published in a run, by whomever. -/
def published (s : Service) : List Step → List Event
  | [] => []
  | t :: steps => s.announces t ++ (s.step t).published steps

/-- What a step takes from the queue. -/
def takes (s : Service) : Step → List Event
  | .handleNext => s.next?.toList
  | _ => []

def taken (s : Service) : List Step → List Event
  | [] => []
  | t :: steps => s.takes t ++ (s.step t).taken steps

/-- The event that comes from outside. -/
def Step.given? : Step → Option Event
  | .publish event => some event
  | _ => none

def given (steps : List Step) : List Event := steps.filterMap Step.given?

/-- The commands that wait for the loop. -/
def pending (s : Service) : List Event := s.stream.elim [] s.bus.queue

/-- The commands about subscriptions. -/
def changes (events : List Event) : List Event :=
  events.filter fun e => e.topic = .subscriptions

def Attached (queue : List Event) (s : Service) : Prop :=
  ∃ i, s.stream = some i ∧ s.bus.Attached i queue

variable {s : Service} {queue : List Event} {t : Step}

theorem Attached.pending_eq (h : s.Attached queue) : s.pending = queue := by
  obtain ⟨i, hi, hbus⟩ := h
  rw [pending, hi]
  exact hbus.queue_eq

theorem attached_attach (s : Service) : s.attach.Attached [] :=
  ⟨_, rfl, Bus.attached_attach s.bus⟩

theorem handleNext_cases (s : Service) : s.handleNext? = none ∨ ∃ e bus answer,
    s.handleNext? = some ((e, answer),
      ⟨(s.coordinator.handle e).state, bus, s.stream⟩) := by
  rw [handleNext?]
  split
  · exact .inl rfl
  · split
    · exact .inr ⟨_, _, _, rfl⟩
    · exact .inl rfl

/-- What a step publishes is what came from outside or what the coordinator said in
its turn. -/
theorem step_turns (s : Service) (t : Step) : ∃ said,
    Coordinator.Turns s.coordinator (s.step t).coordinator said ∧
      s.announces t = t.given?.toList ++ said := by
  cases t with
  | handleNext =>
    rcases s.handleNext_cases with hnone | ⟨e, bus, answer, hnext⟩
    · refine ⟨[], .idle ?_ rfl, ?_⟩
      · rw [step, hnone]
        rfl
      · rw [announces, next?, hnone]
        rfl
    · refine ⟨(s.coordinator.handle e).events, ?_, ?_⟩
      · rw [step, hnext]
        exact s.coordinator.handle_turns e
      · rw [announces, next?, hnext]
        rfl
  | start => exact ⟨_, .step .start rfl rfl, rfl⟩
  | finishBuild kind => exact ⟨_, .step (.finishBuild kind) rfl rfl, rfl⟩
  | search id cost => exact ⟨_, .step (.search id cost) rfl rfl, rfl⟩
  | publishStats => exact ⟨_, .step .publishStats rfl rfl, rfl⟩
  | publish | subscribe | receive | unsubscribe => exact ⟨[], .idle rfl rfl, rfl⟩

/-- What every turn of the coordinator keeps, a run keeps. -/
theorem coordinator_run {P : Coordinator → Prop}
    (hturns : ∀ c c' said, P c → Coordinator.Turns c c' said → P c') (h : P s.coordinator)
    (steps : List Step) : P (s.run steps).coordinator := by
  induction steps generalizing s with
  | nil => exact h
  | cons t steps ih =>
    obtain ⟨said, hturn, -⟩ := s.step_turns t
    exact ih (hturns _ _ _ h hturn)

theorem steady_run (h : s.coordinator.Steady) (steps : List Step) :
    (s.run steps).coordinator.Steady :=
  coordinator_run (fun _ _ _ => Coordinator.Steady.turns) h steps

theorem sound_run (h : s.coordinator.Sound) (steps : List Step) :
    (s.run steps).coordinator.Sound :=
  coordinator_run (fun _ _ _ => Coordinator.Sound.turns) h steps

theorem started_run (h : s.coordinator.Steady) {steps : List Step}
    (hstart : s.coordinator.Started ∨ .start ∈ steps) : (s.run steps).coordinator.Started := by
  induction steps generalizing s with
  | nil => exact hstart.resolve_right List.not_mem_nil
  | cons t steps ih =>
    obtain ⟨said, hturn, -⟩ := s.step_turns t
    refine ih (h.turns hturn) ?_
    -- Either all slots had been started, or this step starts them, or a later one does.
    rw [List.mem_cons, ← or_assoc] at hstart
    refine hstart.imp_left ?_
    rintro (hstarted | rfl)
    · exact h.started_turns hstarted hturn
    · exact h.started_start

theorem changes_append (events more : List Event) :
    changes (events ++ more) = changes events ++ changes more := List.filter_append ..

theorem changes_published (h : s.coordinator.Steady) (steps : List Step) :
    changes (s.published steps) = changes (given steps) := by
  induction steps generalizing s with
  | nil => rfl
  | cons t steps ih =>
    obtain ⟨said, hturn, hannounced⟩ := s.step_turns t
    have hsaid : changes said = [] := by
      refine List.filter_eq_nil_iff.mpr fun e he => ?_
      simpa using h.topic_turns hturn e he
    have hgiven : given (t :: steps) = t.given?.toList ++ given steps := by
      rw [given, List.filterMap_cons]
      cases t.given? <;> rfl
    rw [published, hannounced, hgiven, changes_append, changes_append, changes_append, hsaid,
      List.append_nil, ih (h.turns hturn)]

theorem Attached.handleNext_nil (h : s.Attached []) : s.handleNext? = none := by
  obtain ⟨i, hi, hbus⟩ := h
  rw [handleNext?, hi]
  simp only [hbus.receiveCommand_nil, ended]
  cases s.bus.isOpen <;> rfl

theorem Attached.handleNext_cons {e : Event} (h : s.Attached (e :: queue)) :
    ∃ answer next, s.handleNext? = some ((e, answer), next) ∧
      next.Attached (queue ++ commands (s.coordinator.handle e).events) := by
  obtain ⟨i, hi, hbus⟩ := h
  obtain ⟨bus, hreceived, hbus⟩ := hbus.receiveCommand_cons
  rw [handleNext?, hi]
  simp only [hreceived]
  exact ⟨_, _, rfl, i, rfl, hbus.publishAll _⟩

theorem Attached.perform {α : Type} (h : s.Attached queue)
    (f : Coordinator → Outcome Coordinator α) :
    (s.perform f).2.Attached (queue ++ commands (f s.coordinator).events) := by
  obtain ⟨i, hi, hbus⟩ := h
  exact ⟨i, hi, hbus.publishAll _⟩

/-- A step takes from the front of the queue and adds to its end. -/
theorem Attached.step (h : s.Attached queue) (t : Step) : ∃ rest, (s.step t).Attached rest ∧
    queue ++ commands (s.announces t) = s.takes t ++ rest := by
  cases t with
  | handleNext =>
    cases queue with
    | nil =>
      have hnone := h.handleNext_nil
      refine ⟨[], ?_, ?_⟩
      · rwa [Service.step, hnone]
      · rw [announces, takes, next?, hnone]
        rfl
    | cons e queue =>
      -- The command is off the queue before what it leads to goes to the end.
      obtain ⟨answer, next, hnext, hattached⟩ := h.handleNext_cons
      refine ⟨queue ++ commands (s.coordinator.handle e).events, ?_, ?_⟩
      · rw [Service.step, hnext]
        exact hattached
      · rw [announces, takes, next?, hnext]
        rfl
  | start => exact ⟨_, h.perform _, rfl⟩
  | finishBuild kind => exact ⟨_, h.perform _, rfl⟩
  | search id cost => exact ⟨_, h.perform _, rfl⟩
  | publishStats => exact ⟨_, h.perform _, rfl⟩
  | publish event =>
    obtain ⟨i, hi, hbus⟩ := h
    exact ⟨_, ⟨i, hi, hbus.publish event⟩, rfl⟩
  | subscribe filter =>
    obtain ⟨i, hi, hbus⟩ := h
    exact ⟨_, ⟨i, hi, hbus.subscribe filter⟩, List.append_nil _⟩
  | receive observer =>
    obtain ⟨i, hi, hbus⟩ := h
    exact ⟨_, ⟨i, hi, hbus.receive observer⟩, List.append_nil _⟩
  | unsubscribe observer =>
    obtain ⟨i, hi, hbus⟩ := h
    exact ⟨_, ⟨i, hi, hbus.unsubscribe observer⟩, List.append_nil _⟩

theorem Attached.run (h : s.Attached queue) (steps : List Step) :
    ∃ rest, (s.run steps).Attached rest ∧
      queue ++ commands (s.published steps) = s.taken steps ++ rest := by
  induction steps generalizing s queue with
  | nil => exact ⟨queue, h, List.append_nil _⟩
  | cons t steps ih =>
    obtain ⟨middle, hmiddle, hstep⟩ := h.step t
    obtain ⟨rest, hrest, hrun⟩ := ih hmiddle
    refine ⟨rest, hrest, ?_⟩
    rw [published, taken, commands_append, ← List.append_assoc, hstep, List.append_assoc, hrun,
      List.append_assoc]

theorem subscriptions_step (s : Service) (t : Step) : (s.step t).coordinator.subscriptions =
    (s.takes t).foldl Subscriptions.heed s.coordinator.subscriptions := by
  cases t with
  | handleNext =>
    rcases s.handleNext_cases with hnone | ⟨e, bus, answer, hnext⟩
    · rw [step, takes, next?, hnone]
      rfl
    · rw [step, takes, next?, hnext]
      exact s.coordinator.subscriptions_handle e
  | finishBuild kind => exact (s.coordinator.finishBuild_follows kind).1.subscriptions
  | search id cost => exact (s.coordinator.search_follows id cost).1.subscriptions
  | start | publish | publishStats | subscribe | receive | unsubscribe => rfl

theorem subscriptions_run (s : Service) (steps : List Step) :
    (s.run steps).coordinator.subscriptions =
      (s.taken steps).foldl Subscriptions.heed s.coordinator.subscriptions := by
  induction steps generalizing s with
  | nil => rfl
  | cons t steps ih =>
    rw [taken, List.foldl_append, ← subscriptions_step]
    exact ih (s.step t)

theorem foldl_heed_commands (subs : Subscriptions) (events : List Event) :
    (commands events).foldl Subscriptions.heed subs =
      (changes events).foldl Subscriptions.heed subs := by
  have hcommand (e : Event) (he : e.topic = .subscriptions) : e.isCommand = true := by
    cases e with
    | addSubscription | deleteSubscription => rfl
    | _ => cases he
  rw [commands, changes, Subscriptions.foldl_heed_filter hcommand,
    Subscriptions.foldl_heed_filter fun _ he => decide_eq_true he]

/-- A loop that has caught up has heeded everything since it was attached. -/
theorem Attached.subscriptions_run (h : s.Attached []) {steps : List Step}
    (hpending : (s.run steps).pending = []) : (s.run steps).coordinator.subscriptions =
      (changes (s.published steps)).foldl Subscriptions.heed s.coordinator.subscriptions := by
  obtain ⟨rest, hrest, hqueue⟩ := h.run steps
  rw [hrest.pending_eq.symm.trans hpending, List.append_nil, List.nil_append] at hqueue
  rw [Service.subscriptions_run, ← hqueue, foldl_heed_commands]

theorem stream_step (s : Service) (t : Step) : (s.step t).stream = s.stream := by
  cases t with
  | handleNext =>
    rcases s.handleNext_cases with hnone | ⟨e, bus, answer, hnext⟩
    · rw [step, hnone]
      rfl
    · rw [step, hnext]
      rfl
  | _ => rfl

theorem taken_of_detached (h : s.stream = none) (steps : List Step) : s.taken steps = [] := by
  induction steps generalizing s with
  | nil => rfl
  | cons t steps ih =>
    have hnone : s.handleNext? = none := by rw [handleNext?, h]
    have htakes : s.takes t = [] := by
      cases t with
      | handleNext =>
        rw [takes, next?, hnone]
        rfl
      | _ => rfl
    rw [taken, htakes, ih ((s.stream_step t).trans h)]
    rfl

/-- Once the queue is empty, the subscriptions are what the commands given so far make
of the first ones, each applied once and in the order of publication, whatever the
bus, its observers, the searches and the builds did meanwhile. If moreover the builds
have been started and all have finished, every slot is complete, and its engine holds
these subscriptions. -/
theorem commands_applied_in_order {config : Config} {subs : Subscriptions} {c : Coordinator}
    (hmake : Coordinator.make config subs = .ok c) (bus : Bus) (before steps : List Step) :
    let attached := ((⟨c, bus, none⟩ : Service).run before).attach
    let now := attached.run steps
    let ordered := changes (attached.published steps)
    let m := now.coordinator.subscriptions.table
    ordered = changes (given steps) ∧ (now.pending = [] →
      now.coordinator.subscriptions = ordered.foldl Subscriptions.heed subs ∧
      now.coordinator.subscriptions.ledger = ordered.foldl Ledger.heed subs.ledger ∧
      (subs.Inserted → .start ∈ before ++ steps → now.coordinator.building = [] →
        ∀ slot ∈ now.coordinator.slots,
          (slot.state = .ready ∨ slot.state = .deployed) ∧ slot.backlog = [] ∧
          ∃ engine, slot.engine = some engine ∧ engine.Tracks m ∧ engine.count = m.length ∧
            ∀ id, engine.search id = m.reported id)) := by
  intro attached now ordered m
  have hfirst : Coordinator.Steady (⟨c, bus, none⟩ : Service).coordinator :=
    (Coordinator.make_steady hmake).1
  have hattached : attached.coordinator.Steady := steady_run hfirst before
  -- Without a loop nothing is taken, so the first subscriptions stand until it is attached.
  have hsubs : attached.coordinator.subscriptions = subs := by
    obtain ⟨-, rfl⟩ := Coordinator.make_eq_ok hmake
    exact (subscriptions_run _ before).trans (by rw [taken_of_detached rfl before]; rfl)
  refine ⟨changes_published hattached steps, fun hpending => ?_⟩
  have hfold : now.coordinator.subscriptions = ordered.foldl Subscriptions.heed subs :=
    hsubs ▸ (attached_attach _).subscriptions_run hpending
  refine ⟨hfold, ?_, fun hinserted hstart hbuilding slot hslot => ?_⟩
  · rw [hfold, Subscriptions.ledger_foldl_heed]
  · have hsound : attached.coordinator.Sound :=
      sound_run (s := ⟨c, bus, none⟩) (Coordinator.make_sound hmake hinserted.flat).1 before
    have hstarted : now.coordinator.Started := by
      refine started_run hattached ((List.mem_append.mp hstart).imp_left fun hstart => ?_)
      exact started_run hfirst (.inr hstart)
    have hbuild : slot.build = none := by
      have hnot := List.filter_eq_nil_iff.mp (List.map_eq_nil_iff.mp hbuilding) slot hslot
      simpa using hnot
    obtain ⟨hstate, hbacklog, engine, hengine, htracks⟩ :=
      ((sound_run hsound steps).serves slot hslot).settled (hstarted slot hslot) hbuild
    exact ⟨hstate, hbacklog, engine, hengine, htracks, htracks.holds.count_eq,
      htracks.holds.search_eq htracks.sorted htracks.digital⟩

/-- An addition while the builds run and one behind an announcement, a pattern that is
refused, and an observer of a ring for one event that never reads. -/
def sampleTraffic : List Step :=
  [.publish (.addSubscription "0" "first"), .publish (.addSubscription "2" "refused"),
    .subscribe ⟨[], []⟩, .start, .handleNext, .handleNext, .finishBuild .list,
    .publish (.addSubscription "01" "second"), .finishBuild .splayTree,
    .finishBuild .patriciaTrie, .finishBuild .weightedTree] ++ List.replicate 9 .handleNext

def sampleLoop : Service :=
  (⟨Coordinator.sampleCoordinator, Bus.withCapacity 1, none⟩ : Service).attach

theorem commands_applied_in_order_sample :
    let now := sampleLoop.run sampleTraffic
    now.coordinator.subscriptions.ledger ['0', '1'] = some ("second", Weight.zero) ∧
      ∀ slot ∈ now.coordinator.slots, ∃ engine, slot.engine = some engine ∧
        engine.search [0x60] = ["first", "second"] := by
  have hmake : Coordinator.make Config.default .nil = .ok Coordinator.sampleCoordinator := rfl
  have hpending : (sampleLoop.run sampleTraffic).pending = [] :=
    List.isEmpty_iff.mp (by decide +kernel)
  have hbuilding : (sampleLoop.run sampleTraffic).coordinator.building = [] := by decide +kernel
  have hstart : .start ∈ [] ++ sampleTraffic := by simp [sampleTraffic]
  obtain ⟨-, hcaught⟩ := commands_applied_in_order hmake (Bus.withCapacity 1) [] sampleTraffic
  obtain ⟨-, hledger, hslots⟩ := hcaught hpending
  have hreported : (sampleLoop.run sampleTraffic).coordinator.subscriptions.table.reported [0x60] =
      ["first", "second"] := by decide +kernel
  refine ⟨?_, fun slot hslot => ?_⟩
  · exact (congrFun hledger ['0', '1']).trans (by decide +kernel)
  · obtain ⟨-, -, engine, hengine, -, -, hsearch⟩ := hslots .nil hstart hbuilding slot hslot
    exact ⟨engine, hengine, (hsearch [0x60]).trans hreported⟩

end Service
end TagFilter
