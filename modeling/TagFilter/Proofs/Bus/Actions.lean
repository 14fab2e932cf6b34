import TagFilter.Proofs.Commands

/-! # Actions on the bus

Publishers, observers and command streams act on the bus in any order. Command streams
know only the lane of the bus that holds their queues, and an observer knows only the
ring and itself. What another party does on the rest of the bus does not reach them.
-/
namespace TagFilter

def Received.events : Received → List Event
  | .event e => [e]
  | _ => []

namespace Bus

inductive Action where
  | publish (e : Event)
  | subscribe (filter : EventFilter)
  | unsubscribe (i : Nat)
  | receive (i : Nat)
  | attach
  | take (i : Nat)
  | drop (i : Nat)

def act (bus : Bus) : Action → Bus
  | .publish e => (bus.publish e).2
  | .subscribe filter => (bus.subscribe filter).2
  | .unsubscribe i => bus.unsubscribe i
  | .receive i => (bus.receive i).2
  | .attach => bus.attach.2
  | .take i => (bus.receiveCommand i).2
  | .drop i => bus.drop i

def run (bus : Bus) (actions : List Action) : Bus := actions.foldl act bus

def Action.published : Action → List Event
  | .publish e => [e]
  | _ => []

def publications (actions : List Action) : List Event := actions.flatMap Action.published

/-- Everything that a run yields, where one action yields `yield`. -/
def collected (yield : Bus → Action → List Event) : Bus → List Action → List Event
  | _, [] => []
  | bus, action :: actions => yield bus action ++ collected yield (bus.act action) actions

/-- What a command stream yields by one action. -/
def handed (i : Nat) (bus : Bus) : Action → List Event
  | .take j => if j = i then (bus.receiveCommand i).1.events else []
  | _ => []

/-- What an observer yields by one action. -/
def shown (i : Nat) (bus : Bus) : Action → List Event
  | .receive j => if j = i then (bus.receive i).1.events else []
  | _ => []

def taken (bus : Bus) (i : Nat) (actions : List Action) : List Event :=
  collected (handed i) bus actions

def received (bus : Bus) (i : Nat) (actions : List Action) : List Event :=
  collected (shown i) bus actions

/-- What a receiver finds if this is the next event for it. -/
def reply (live : Bool) : Option Event → Received
  | some e => .event e
  | none => ended live

variable {bus bus' : Bus} {i : Nat} {action : Action} {actions : List Action}
  {yield : Bus → Action → List Event}

theorem run_cons (bus : Bus) (action : Action) (actions : List Action) :
    bus.run (action :: actions) = (bus.act action).run actions := rfl

theorem run_append (bus : Bus) (actions more : List Action) :
    bus.run (actions ++ more) = (bus.run actions).run more := List.foldl_append

theorem publications_append (actions more : List Action) :
    publications (actions ++ more) = publications actions ++ publications more :=
  List.flatMap_append

theorem collected_append (actions more : List Action) : collected yield bus (actions ++ more) =
    collected yield bus actions ++ collected yield (bus.run actions) more := by
  induction actions generalizing bus with
  | nil => rfl
  | cons action actions ih => simp [collected, ih, run]

theorem collected_filter {α : Type} {view : Bus → α} {sees : Action → Bool}
    (hunseen : ∀ bus action, sees action = false →
      view (bus.act action) = view bus ∧ yield bus action = [])
    (hseen : ∀ bus bus' action, view bus = view bus' → sees action = true →
      view (bus.act action) = view (bus'.act action) ∧ yield bus action = yield bus' action)
    (h : view bus = view bus') (actions : List Action) :
    view (bus.run actions) = view (bus'.run (actions.filter sees)) ∧
      collected yield bus actions = collected yield bus' (actions.filter sees) := by
  induction actions generalizing bus bus' with
  | nil => exact ⟨h, rfl⟩
  | cons action actions ih =>
    cases hsees : sees action with
    | true =>
      obtain ⟨hview, hyield⟩ := hseen bus bus' action h hsees
      obtain ⟨hrun, hrest⟩ := ih hview
      rw [List.filter_cons_of_pos hsees]
      exact ⟨hrun, by rw [collected, collected, hyield, hrest]⟩
    | false =>
      obtain ⟨hview, hyield⟩ := hunseen bus action hsees
      obtain ⟨hrun, hrest⟩ := ih (hview.trans h)
      rw [List.filter_cons_of_neg (by simp [hsees])]
      exact ⟨hrun, by rw [collected, hyield, hrest, List.nil_append]⟩

/-- Two runs that differ only in what a party does not see are the same to it. -/
theorem collected_eq_of_filter {α : Type} {view : Bus → α} {sees : Action → Bool}
    (hunseen : ∀ bus action, sees action = false →
      view (bus.act action) = view bus ∧ yield bus action = [])
    (hseen : ∀ bus bus' action, view bus = view bus' → sees action = true →
      view (bus.act action) = view (bus'.act action) ∧ yield bus action = yield bus' action)
    (h : view bus = view bus') {actions' : List Action}
    (hactions : actions.filter sees = actions'.filter sees) :
    view (bus.run actions) = view (bus'.run actions') ∧
      collected yield bus actions = collected yield bus' actions' := by
  obtain ⟨hrun, hyield⟩ := collected_filter hunseen hseen h actions
  obtain ⟨hrun', hyield'⟩ := collected_filter hunseen hseen (rfl : view bus' = view bus') actions'
  rw [hrun, hrun', hyield, hyield', hactions]
  exact ⟨rfl, rfl⟩

/-- What command streams know of the bus. -/
def lane (bus : Bus) : List (Option (List Event)) × Option Nat × Bool :=
  (bus.streams, bus.consumer, bus.isOpen)

theorem lane_broadcast (e : Event) (bus : Bus) : (bus.broadcast e).lane = bus.lane := by
  rw [Bus.broadcast]
  split <;> rfl

theorem lane_enqueue (h : bus.lane = bus'.lane) (e : Event) :
    (bus.enqueue e).lane = (bus'.enqueue e).lane := by
  simp only [lane, Prod.mk.injEq] at h ⊢
  obtain ⟨hstreams, hconsumer, hopen⟩ := h
  rw [Bus.enqueue, Bus.enqueue, hconsumer, hstreams]
  split
  · exact ⟨hstreams, hconsumer, hopen⟩
  · split
    · exact ⟨rfl, rfl, hopen⟩
    · exact ⟨rfl, rfl, hopen⟩

theorem lane_publish (e : Event) (bus : Bus) :
    (bus.publish e).2.lane = if e.isCommand then (bus.enqueue e).lane else bus.lane := by
  rw [Bus.publish, lane_broadcast]
  split
  · refine lane_enqueue ?_ e
    rfl
  · rfl

theorem lane_receive (i : Nat) (bus : Bus) : (bus.receive i).2.lane = bus.lane := by
  rw [Bus.receive]
  split
  · dsimp only
    split <;> rfl
  · rfl

/-- Whether an action is not one of observers. -/
def Action.onLane : Action → Bool
  | .subscribe _ | .unsubscribe _ | .receive _ => false
  | _ => true

theorem lane_act_of_observer (bus : Bus) (h : action.onLane = false) :
    (bus.act action).lane = bus.lane := by
  cases action with
  | subscribe | unsubscribe => rfl
  | receive i => exact lane_receive i bus
  | publish | attach | take | drop => cases h

theorem receiveCommand_lane (h : bus.lane = bus'.lane) (i : Nat) :
    (bus.receiveCommand i).1 = (bus'.receiveCommand i).1 ∧
      (bus.receiveCommand i).2.lane = (bus'.receiveCommand i).2.lane := by
  simp only [lane, Prod.mk.injEq] at h ⊢
  obtain ⟨hstreams, hconsumer, hopen⟩ := h
  rw [receiveCommand, receiveCommand, hstreams, hconsumer, hopen]
  split
  · exact ⟨rfl, rfl, rfl, rfl⟩
  · exact ⟨rfl, hstreams, hconsumer, hopen⟩
  · exact ⟨rfl, hstreams, hconsumer, hopen⟩

theorem lane_act (h : bus.lane = bus'.lane) (action : Action) :
    (bus.act action).lane = (bus'.act action).lane := by
  cases action with
  | publish e =>
    rw [act, act, lane_publish, lane_publish, lane_enqueue h e, h]
  | subscribe | unsubscribe => exact h
  | receive i => rw [act, act, lane_receive, lane_receive, h]
  | take i => exact (receiveCommand_lane h i).2
  | attach | drop =>
    simp only [lane, act, Bus.attach, Bus.drop, Prod.mk.injEq] at h ⊢
    simp [h]

theorem act_isOpen (bus : Bus) (action : Action) : (bus.act action).isOpen = bus.isOpen := by
  have hlane : (bus.act action).lane.2.2 = bus.lane.2.2 := by
    cases action with
    | publish e =>
      rw [act, lane_publish]
      split
      · rw [Bus.enqueue]
        split
        · rfl
        · split <;> rfl
      · rfl
    | take j =>
      rw [act, receiveCommand]
      split <;> rfl
    | receive j => rw [act, lane_receive]
    | subscribe | unsubscribe | attach | drop => rfl
  exact hlane

theorem run_isOpen (bus : Bus) (actions : List Action) : (bus.run actions).isOpen = bus.isOpen := by
  induction actions generalizing bus with
  | nil => rfl
  | cons action actions ih => exact (ih (bus.act action)).trans (act_isOpen bus action)

theorem handed_of_observer (bus : Bus) (h : action.onLane = false) : handed i bus action = [] := by
  cases action <;> first | rfl | cases h

theorem handed_lane (h : bus.lane = bus'.lane) (action : Action) :
    handed i bus action = handed i bus' action := by
  cases action with
  | take j => rw [handed, handed, (receiveCommand_lane h i).1]
  | publish | subscribe | unsubscribe | receive | attach | drop => rfl

end Bus
end TagFilter
