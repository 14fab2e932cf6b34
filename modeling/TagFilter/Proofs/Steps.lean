import TagFilter.Proofs.Phases
import TagFilter.Proofs.Runs

/-! # What a step does

Which engine serves depends on the states of the slots alone. A step finishes a
build or starts all of them, hands a change to every slot, or handles an
announcement: that passes over it, deploys the current engine again or puts another
in its place. Every invariant of selection follows from these cases.
-/
namespace TagFilter

namespace Event

/-- The engine that an event says is selected. -/
def selected? : Event → Option String
  | .selectedEngine engine => some engine
  | _ => none

/-- An event that tells how an engine is doing. -/
def Reports : Event → Prop
  | .engineGenerated _ => True
  | .trafficStat _ _ _ => True
  | .engineStatus _ _ => True
  | _ => False

variable {e : Event}

theorem Reports.unselected (h : e.Reports) : e.selected? = none := by
  cases e <;> first | rfl | exact absurd h id

theorem Reports.topic (h : e.Reports) : e.topic ≠ .subscriptions := by
  cases e <;> first | exact absurd h id | exact Topic.noConfusion

end Event

theorem Metrics.reports_windowEvents {kind : EngineKind} {window : Metrics} :
    ∀ e ∈ windowEvents kind window, e.Reports := by
  intro e he
  rw [windowEvents] at he
  cases hmicros : window.microsPerEvent? with
  | none =>
    rw [hmicros] at he
    obtain rfl := List.mem_singleton.mp he
    trivial
  | some micros =>
    rw [hmicros] at he
    rcases List.mem_pair.mp he with rfl | rfl <;> trivial

namespace Coordinator
open EngineState

/-- What comes of a step: the state after it and what it publishes. -/
def outcome (c : Coordinator) : Step → Outcome Coordinator Unit
  | .start => c.start.map fun _ => ()
  | .finishBuild kind => c.finishBuild kind
  | .add pattern uri => (c.add pattern uri).map fun _ => ()
  | .delete pattern uri => (c.delete pattern uri).map fun _ => ()
  | .onGenerated kind => (c.onGenerated kind).map fun _ => ()
  | .search id cost => (c.search id cost).map fun _ => ()
  | .publishStats => c.publishStats

def events (c : Coordinator) (t : Step) : List Event := (c.outcome t).events

theorem state_outcome (c : Coordinator) (t : Step) : (c.outcome t).state = c.step t := by
  cases t <;> rfl

/-- Whether a step hands a change to every slot. -/
def spreads (c : Coordinator) : Step → Prop
  | .add pattern uri => (c.add pattern uri).answer = .ok true
  | .delete pattern uri => (c.delete pattern uri).answer = .ok ()
  | _ => False

def selections (events : List Event) : List String := events.filterMap Event.selected?

/-- A state that differs from another in its slots only, and there as a relation for
each kind allows. -/
structure Follows (R : EngineKind → EngineState → EngineState → Prop) (c c' : Coordinator) :
    Prop where
  config : c'.config = c.config
  subscriptions : c'.subscriptions = c.subscriptions
  current : c'.current = c.current
  kinds : c'.slots.map EngineSlot.kind = c.slots.map EngineSlot.kind
  slots : ∀ kind, Option.Rel (fun s s' => R kind s.state s'.state) (c.slot? kind) (c'.slot? kind)

variable {c c' c'' : Coordinator} {s s' : EngineSlot} {kind previous : EngineKind} {t : Step}
  {R R' R'' : EngineKind → EngineState → EngineState → Prop}

theorem Follows.next (h : Follows R c c') (hs : c.slot? kind = some s) :
    ∃ s', c'.slot? kind = some s' ∧ R kind s.state s'.state := by
  have hslot := h.slots kind
  rw [hs] at hslot
  generalize c'.slot? kind = found at hslot
  cases hslot with
  | some hrel => exact ⟨_, rfl, hrel⟩

theorem Follows.origin (h : Follows R c c') (hs : c'.slot? kind = some s') :
    ∃ s, c.slot? kind = some s ∧ R kind s.state s'.state := by
  have hslot := h.slots kind
  rw [hs] at hslot
  generalize c.slot? kind = found at hslot
  cases hslot with
  | some hrel => exact ⟨_, rfl, hrel⟩

theorem Follows.trans (h : Follows R c c') (h' : Follows R' c' c'')
    (hR : ∀ kind a b d, R kind a b → R' kind b d → R'' kind a d) : Follows R'' c c'' := by
  refine ⟨h'.config.trans h.config, h'.subscriptions.trans h.subscriptions,
    h'.current.trans h.current, h'.kinds.trans h.kinds, ?_⟩
  intro kind
  have hfirst := h.slots kind
  have hsecond := h'.slots kind
  generalize c.slot? kind = x at hfirst ⊢
  generalize c'.slot? kind = y at hfirst hsecond
  generalize c''.slot? kind = z at hsecond ⊢
  cases hfirst with
  | none => cases hsecond with | none => exact .none
  | some hrel => cases hsecond with | some hrel' => exact .some (hR _ _ _ _ hrel hrel')

theorem follows_self (h : ∀ kind s, c.slot? kind = some s → R kind s.state s.state) :
    Follows R c c := by
  refine ⟨rfl, rfl, rfl, rfl, fun kind => ?_⟩
  cases hslot : c.slot? kind with
  | none => exact .none
  | some s => exact .some (h kind s hslot)

theorem slot?_map {f : EngineSlot → EngineSlot} (hkind : ∀ s, (f s).kind = s.kind)
    (kind : EngineKind) :
    slot? { c with slots := c.slots.map f } kind = (c.slot? kind).map f := by
  have hfound : (fun s : EngineSlot => decide (s.kind = kind)) ∘ f = fun s => decide (s.kind = kind) := by
    funext s
    simp [hkind]
  rw [slot?, List.find?_map, hfound]
  rfl

theorem follows_map {f : EngineSlot → EngineSlot} (hkind : ∀ s, (f s).kind = s.kind)
    (h : ∀ kind s, c.slot? kind = some s → R kind s.state (f s).state) :
    Follows R c { c with slots := c.slots.map f } := by
  refine ⟨rfl, rfl, rfl, by simp [hkind], fun kind => ?_⟩
  rw [slot?_map hkind]
  cases hslot : c.slot? kind with
  | none => exact .none
  | some s => exact .some (h kind s hslot)

theorem follows_setSlot (hslot : c.slot? s'.kind = some s) (hR : R s'.kind s.state s'.state)
    (hrest : ∀ kind s, c.slot? kind = some s → kind ≠ s'.kind → R kind s.state s.state) :
    Follows R c (c.setSlot s') := by
  refine follows_map (f := fun t => if t.kind = s'.kind then s' else t) ?_ ?_
  · intro t
    split
    · exact Eq.symm ‹_›
    · rfl
  · intro kind t ht
    obtain ⟨-, rfl⟩ := slot?_mem ht
    split
    · rename_i hkind
      rw [hkind, hslot] at ht
      rw [hkind, ← Option.some.inj ht]
      exact hR
    · exact hrest _ t ht ‹_›

theorem slots_startSlots_of_idle {subs : Subscriptions} {slots : List EngineSlot}
    (h : ∀ s ∈ slots, s.state = .unavailable) : (startSlots subs slots).2 = slots.map fun s =>
      { s with lifecycle := ⟨.generating, s.lifecycle.transitions + 1⟩, build := some subs } := by
  induction slots with
  | nil => rfl
  | cons s rest ih =>
    obtain ⟨hs, hrest⟩ := List.forall_mem_cons.mp h
    have hnext : s.state.next? .init = some .generating := by rw [hs]; rfl
    rw [startSlots, EngineSlot.init, EngineSlot.fire_of_next hnext]
    exact congrArg _ (ih hrest)

theorem slots_startSlots_of_started {subs : Subscriptions} {slots : List EngineSlot}
    (h : ∀ s ∈ slots, s.state ≠ .unavailable) : (startSlots subs slots).2 = slots := by
  cases slots with
  | nil => rfl
  | cons s rest =>
    have hrefused : s.state.next? .init = none := by
      cases hstate : s.state <;> first | rfl | exact absurd hstate (h s List.mem_cons_self)
    rw [startSlots, EngineSlot.init, EngineSlot.fire_of_refused hrefused]
    rfl

theorem onSlots_follows {α : Type} {f : EngineSlot → Outcome EngineSlot α}
    (hkind : ∀ s, (f s).state.kind = s.kind)
    (h : ∀ kind s, c.slot? kind = some s → R kind s.state (f s).state.state) :
    Follows R c (c.onSlots f).state := by
  have hmap : (c.onSlots f).state = { c with slots := c.slots.map fun s => (f s).state } := by
    rw [onSlots, List.map_map]
    rfl
  rw [hmap]
  exact follows_map hkind h

theorem events_onSlots {α : Type} (f : EngineSlot → Outcome EngineSlot α) (c : Coordinator) :
    (c.onSlots f).events = c.slots.flatMap fun s => (f s).events := by
  rw [onSlots, List.flatMap_map]

theorem selections_eq_nil {events : List Event} (h : ∀ e ∈ events, e.Reports) :
    selections events = [] :=
  List.filterMap_eq_nil_iff.mpr fun e he => (h e he).unselected

theorem finishBuild_follows (c : Coordinator) (kind : EngineKind) :
    Follows (fun _ => Advances) c (c.finishBuild kind).state ∧
      ∀ e ∈ (c.finishBuild kind).events, e.Reports := by
  unfold finishBuild
  cases hslot : c.slot? kind with
  | none => exact ⟨follows_self fun _ s _ => .same s.state, nofun⟩
  | some s =>
    obtain ⟨hadvances, hkind, hevents⟩ := s.finish_advances
    obtain ⟨-, rfl⟩ := slot?_mem hslot
    rw [← hkind] at hslot
    refine ⟨follows_setSlot hslot hadvances fun _ s _ _ => .same s.state, fun e he => ?_⟩
    rw [hevents e he]
    trivial

theorem shadow_follows (c : Coordinator) (current : EngineKind) (id : Identifier)
    (cost : EngineKind → Nat) : Follows (fun _ => Advances) c (c.shadow current id cost) := by
  unfold shadow
  split
  · refine follows_map (fun s => ?_) fun kind s _ => ?_
    · split
      · rfl
      · exact (s.search_state id _).2
    · split
      · exact .same s.state
      · rw [(s.search_state id _).1]
        exact .same s.state
  · exact follows_self fun _ s _ => .same s.state

theorem search_follows (c : Coordinator) (id : Identifier) (cost : EngineKind → Nat) :
    Follows (fun _ => Advances) c (c.search id cost).state ∧ (c.search id cost).events = [] := by
  unfold search
  cases hcurrent : c.current.bind c.slot? with
  | none => exact ⟨follows_self fun _ s _ => .same s.state, rfl⟩
  | some s =>
    obtain ⟨kind, -, hslot⟩ := Option.bind_eq_some_iff.mp hcurrent
    obtain ⟨-, rfl⟩ := slot?_mem hslot
    obtain ⟨hstate, hkind⟩ := s.search_state id (cost s.kind)
    dsimp only
    generalize s.search id (cost s.kind) = result at hstate hkind ⊢
    obtain ⟨uris, searched⟩ := result
    cases uris with
    | none => exact ⟨follows_self fun _ s _ => .same s.state, rfl⟩
    | some uris =>
      have hset : Follows (fun _ => Advances) c (c.setSlot searched) := by
        refine follows_setSlot (s := s) (hkind.symm ▸ hslot) ?_ fun _ s _ _ => .same s.state
        rw [hstate]
        exact .same s.state
      exact ⟨hset.trans (shadow_follows _ _ id cost) fun _ _ _ _ => Advances.trans, rfl⟩

theorem publishStats_follows (c : Coordinator) :
    Follows (fun _ => Advances) c c.publishStats.state ∧
      ∀ e ∈ c.publishStats.events, e.Reports := by
  rw [publishStats, events_onSlots]
  refine ⟨onSlots_follows (fun s => ?_) fun kind s _ => ?_, fun e he => ?_⟩
  · split <;> rfl
  · split <;> exact .same s.state
  · obtain ⟨s, -, he⟩ := List.mem_flatMap.mp he
    split at he
    · exact Metrics.reports_windowEvents e he
    · cases he

theorem spread_follows (change : Change) (c : Coordinator) :
    Follows (fun _ => Updates) c (c.spread change).state ∧
      (c.spread change).events = c.slots.flatMap fun s => (s.update change).events :=
  ⟨onSlots_follows (fun s => (s.update_updates change).2.1)
    fun _ s _ => (s.update_updates change).1, events_onSlots _ c⟩

theorem add_cases (c : Coordinator) (p : Pattern) (u : String) :
    (∃ answer, answer ≠ .ok true ∧ c.add p u = .quiet answer c) ∨
      ∃ subscriptions, c.add p u =
        ({ c with subscriptions }.spread (.add p u)).map fun _ => .ok true := by
  rw [add]
  split
  · exact .inl ⟨_, by simp, rfl⟩
  · dsimp only
    generalize (Option.map Subscription.weight _).getD Weight.zero = weight
    cases c.subscriptions.insert p u weight with
    | error e => exact .inl ⟨_, by simp, rfl⟩
    | ok subscriptions => exact .inr ⟨subscriptions, rfl⟩

theorem delete_cases (c : Coordinator) (p : Pattern) (u : String) :
    (∃ answer, answer ≠ .ok () ∧ c.delete p u = .quiet answer c) ∨
      ∃ subscriptions, c.delete p u =
        ({ c with subscriptions }.spread (.delete p u)).map .ok := by
  rw [delete]
  split
  · exact .inr ⟨_, rfl⟩
  · exact .inl ⟨_, by simp, rfl⟩

/-- Deploying the engine of a slot that is ready. -/
theorem deploy_follows (hslot : c.slot? kind = some s) (hready : s.state = .ready) :
    ∃ s', s.deploy = .ok s' ∧ Follows (Replaces none kind) c (c.setSlot s') := by
  obtain ⟨-, rfl⟩ := slot?_mem hslot
  have hnext : s.state.next? .deploy = some .deployed := by rw [hready]; rfl
  refine ⟨_, EngineSlot.fire_of_next hnext, follows_setSlot hslot ?_ fun kind t _ hne => ?_⟩
  · rw [hready]
    exact .deployed
  · exact .same hne (by simp)

/-- Retiring leaves every slot but a deployed one of the kind as it is. -/
theorem retireSlot_follows (c : Coordinator) (previous : EngineKind) :
    Follows (fun kind a b => b = if kind = previous ∧ a = .deployed then .ready else a) c
      (c.retireSlot previous) := by
  unfold retireSlot
  cases hslot : c.slot? previous with
  | none =>
    refine follows_self fun kind s hs => ?_
    rw [if_neg]
    rintro ⟨rfl, -⟩
    simp [hslot] at hs
  | some s =>
    obtain ⟨-, rfl⟩ := slot?_mem hslot
    by_cases hstate : s.state = .deployed
    · have hnext : s.state.next? .retire = some .ready := by rw [hstate]; rfl
      simp only [hstate, EngineSlot.retire, EngineSlot.fire_of_next hnext, if_true]
      exact follows_setSlot hslot (by simp [hstate]; rfl) fun _ _ _ hne => by simp [hne]
    · simp only [hstate, if_false]
      refine follows_self fun kind t ht => ?_
      rw [if_neg]
      rintro ⟨rfl, hdeployed⟩
      rw [hslot] at ht
      exact hstate (Option.some.inj ht ▸ hdeployed)

theorem adopt_follows (hslot : c.slot? kind = some s) (hready : s.state = .ready)
    (hother : c.current ≠ some kind) :
    ∃ c', c.adopt s = ⟨.ok true, c', [.selectedEngine kind.name]⟩ ∧
      Follows (Replaces c.current kind) { c with current := some kind } c' := by
  obtain ⟨-, hkind⟩ := slot?_mem hslot
  obtain ⟨s', hdeploy, hfollows⟩ :=
    deploy_follows (c := { c with current := some kind }) hslot hready
  rw [adopt, hdeploy, hkind]
  cases hcurrent : c.current with
  | none => exact ⟨_, rfl, hfollows⟩
  | some previous =>
    refine ⟨_, rfl, hfollows.trans (retireSlot_follows _ previous) ?_⟩
    intro k a b d hfirst hsecond
    -- The candidate is deployed first; retiring then finds only the previous engine.
    have hne : kind ≠ previous := fun h => hother (h ▸ hcurrent)
    cases hfirst with
    | deployed =>
      rw [hsecond, if_neg fun h => hne h.1]
      exact .deployed
    | retired _ hnone => cases hnone
    | same hk =>
      by_cases hserving : k = previous ∧ a = .deployed
      · rw [hsecond, if_pos hserving, hserving.2]
        exact .retired hk (congrArg some hserving.1.symm)
      · rw [hsecond, if_neg hserving]
        exact .same hk fun h => hserving ⟨(Option.some.inj h.1).symm, h.2⟩

/-- An announcement of an engine that is not ready or is outranked is passed over.
The current engine is deployed again, and an engine of higher priority takes its
place. -/
theorem onGenerated_cases (hslot : c.slot? kind = some s) :
    (c.onGenerated kind = .quiet (.ok false) c ∧ (s.state = .ready →
      ∃ current, c.current = some current ∧ current ≠ kind ∧
        c.config.priority kind ≤ c.config.priority current)) ∨
    (s.state = .ready ∧ c.current = some kind ∧ ∃ c',
      c.onGenerated kind = .quiet (.ok false) c' ∧ Follows (Replaces none kind) c c') ∨
    (s.state = .ready ∧ (∀ current, c.current = some current →
      current ≠ kind ∧ c.config.priority current < c.config.priority kind) ∧ ∃ c',
      c.onGenerated kind = ⟨.ok true, c', [.selectedEngine kind.name]⟩ ∧
        Follows (Replaces c.current kind) { c with current := some kind } c') := by
  rw [onGenerated, slot, hslot]
  dsimp only
  by_cases hready : s.state = .ready
  · rw [if_neg (not_not.mpr hready)]
    cases hcurrent : c.current with
    | none =>
      have hadopt := adopt_follows hslot hready (by simp [hcurrent])
      rw [hcurrent] at hadopt
      exact .inr (.inr ⟨hready, by simp, hadopt⟩)
    | some current =>
      by_cases hsame : current = kind
      · obtain ⟨s', hdeploy, hfollows⟩ := deploy_follows hslot hready
        simp only [if_pos hsame, hdeploy]
        exact .inr (.inl ⟨hready, congrArg some hsame, _, rfl, hfollows⟩)
      · have hadopt := adopt_follows hslot hready (by simpa [hcurrent] using hsame)
        rw [hcurrent] at hadopt
        by_cases hhigher : c.config.priority current < c.config.priority kind
        · simp only [if_neg hsame, Config.displaces, decide_eq_true hhigher, if_true]
          refine .inr (.inr ⟨hready, ?_, hadopt⟩)
          rintro _ ⟨⟩
          exact ⟨hsame, hhigher⟩
        · simp only [if_neg hsame, Config.displaces, decide_eq_false hhigher]
          exact .inl ⟨rfl, fun _ => ⟨current, rfl, hsame, not_lt.mp hhigher⟩⟩
  · rw [if_pos hready]
    exact .inl ⟨rfl, fun h => absurd h hready⟩

/-- What a step may come to. -/
inductive Effect (c : Coordinator) (t : Step) (o : Outcome Coordinator Unit) : Prop where
  | quiet (unheard : ∀ kind, t ≠ .onGenerated kind) (kept : ¬ c.spreads t)
    (follows : Follows (fun _ => Advances) c o.state) (reported : ∀ e ∈ o.events, e.Reports)
  | started (ht : t = .start) (follows : Follows (fun _ a b => a = .unavailable ∧ b = .generating)
    c o.state) (silent : o.events = [])
  | spread (unheard : ∀ kind, t ≠ .onGenerated kind) (subs : Subscriptions) (change : Change)
    (follows : Follows (fun _ => Updates) { c with subscriptions := subs } o.state)
    (announced : o.events = c.slots.flatMap fun s => (s.update change).events)
  | passed (kind : EngineKind) (ht : t = .onGenerated kind) (unchanged : o = .quiet () c)
    (outranked : ∀ s, c.slot? kind = some s → s.state = .ready →
      ∃ current, c.current = some current ∧ current ≠ kind ∧
        c.config.priority kind ≤ c.config.priority current)
  | redeployed (kind : EngineKind) (ht : t = .onGenerated kind) (serving : c.current = some kind)
    (s : EngineSlot) (found : c.slot? kind = some s) (ready : s.state = .ready)
    (follows : Follows (Replaces none kind) c o.state) (silent : o.events = [])
  | adopted (kind : EngineKind) (ht : t = .onGenerated kind)
    (s : EngineSlot) (found : c.slot? kind = some s) (ready : s.state = .ready)
    (displaced : ∀ current, c.current = some current →
      current ≠ kind ∧ c.config.priority current < c.config.priority kind)
    (follows : Follows (Replaces c.current kind) { c with current := some kind } o.state)
    (selected : o.events = [.selectedEngine kind.name])

def Idle (c : Coordinator) : Prop := ∀ s ∈ c.slots, s.state = .unavailable

def Started (c : Coordinator) : Prop := ∀ s ∈ c.slots, s.state ≠ .unavailable

theorem onGenerated_effect (c : Coordinator) (kind : EngineKind) :
    Effect c (.onGenerated kind) ((c.onGenerated kind).map fun _ => ()) := by
  cases hslot : c.slot? kind with
  | none =>
    refine .passed kind rfl ?_ (by simp [hslot])
    rw [onGenerated, slot, hslot]
    rfl
  | some s =>
    rcases onGenerated_cases hslot with
      ⟨heq, houtranked⟩ | ⟨hready, hserving, c', heq, hfollows⟩ |
        ⟨hready, hdisplaced, c', heq, hfollows⟩
    · refine .passed kind rfl (by rw [heq]; rfl) fun s' hs' => ?_
      exact Option.some.inj (hslot.symm.trans hs') ▸ houtranked
    · rw [heq]
      exact .redeployed kind rfl hserving s hslot hready hfollows rfl
    · rw [heq]
      exact .adopted kind rfl s hslot hready hdisplaced hfollows rfl

theorem start_effect (h : c.Idle ∨ c.Started) :
    Effect c .start (c.start.map fun _ => ()) := by
  rcases h with h | h
  · refine .started rfl ?_ rfl
    have hslots : c.start.state = { c with slots := _ } :=
      congrArg (fun slots => { c with slots }) (slots_startSlots_of_idle h)
    change Follows _ c c.start.state
    rw [hslots]
    exact follows_map (fun _ => rfl) fun kind s hs => ⟨h s (slot?_mem hs).1, rfl⟩
  · refine .quiet (by simp) id ?_ nofun
    have hslots : c.start.state = c :=
      congrArg (fun slots => { c with slots }) (slots_startSlots_of_started h)
    change Follows _ c c.start.state
    rw [hslots]
    exact follows_self fun _ s _ => .same s.state

theorem step_effect (h : c.Idle ∨ c.Started) (t : Step) : Effect c t (c.outcome t) := by
  have hself : Follows (fun _ => Advances) c c := follows_self fun _ s _ => .same s.state
  cases t with
  | start => exact start_effect h
  | finishBuild kind =>
    obtain ⟨hfollows, hreported⟩ := c.finishBuild_follows kind
    exact .quiet (by simp) not_false hfollows hreported
  | add p u =>
    rcases c.add_cases p u with ⟨answer, hanswer, heq⟩ | ⟨subs, heq⟩
    · rw [outcome, heq]
      exact .quiet (by simp) (by rw [spreads, heq]; exact hanswer) hself nofun
    · obtain ⟨hfollows, hevents⟩ := spread_follows (.add p u) { c with subscriptions := subs }
      rw [outcome, heq]
      exact .spread (by simp) subs (.add p u) hfollows hevents
  | delete p u =>
    rcases c.delete_cases p u with ⟨answer, hanswer, heq⟩ | ⟨subs, heq⟩
    · rw [outcome, heq]
      exact .quiet (by simp) (by rw [spreads, heq]; exact hanswer) hself nofun
    · obtain ⟨hfollows, hevents⟩ := spread_follows (.delete p u) { c with subscriptions := subs }
      rw [outcome, heq]
      exact .spread (by simp) subs (.delete p u) hfollows hevents
  | onGenerated kind => exact c.onGenerated_effect kind
  | search id cost =>
    obtain ⟨hfollows, hsilent⟩ := c.search_follows id cost
    refine .quiet (by simp) not_false hfollows ?_
    change ∀ e ∈ (c.search id cost).events, e.Reports
    rw [hsilent]
    exact nofun
  | publishStats =>
    obtain ⟨hfollows, hreported⟩ := c.publishStats_follows
    exact .quiet (by simp) not_false hfollows hreported

end Coordinator
end TagFilter
