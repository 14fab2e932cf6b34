import TagFilter.Proofs.Bus.Account

/-! # Observers

An observer receives events in the order of publication, none twice, and only such as
its filter accepts. It misses one only if the ring has overwritten it before the
observer came to it. What other observers read makes no difference.
-/
namespace TagFilter.Bus

variable {bus bus' : Bus} {i : Nat} {action : Action} {actions : List Action}

/-- What an observer can notice: not the reads of other observers, and nothing of the
command streams. -/
def Action.heardBy (i : Nat) : Action → Bool
  | .receive j => j = i
  | .attach | .take _ | .drop _ => false
  | .publish _ | .subscribe _ | .unsubscribe _ => true

/-- Which observers are there. -/
def seats (bus : Bus) : List Bool := bus.observers.map Option.isSome

/-- What an observer knows of the bus. -/
def ear (i : Nat) (bus : Bus) :
    (Nat × List Event × Nat × Bool) × List Bool × Option (Option Observer) :=
  (bus.ring, bus.seats, bus.observers[i]?)

theorem observerCount_eq (bus : Bus) : bus.observerCount = bus.seats.countP id := by
  rw [observerCount, seats, List.countP_map]
  rfl

theorem length_seats (bus : Bus) : bus.seats.length = bus.observers.length := List.length_map ..

theorem receive_seats (i : Nat) (bus : Bus) : (bus.receive i).2.seats = bus.seats := by
  have hset (o o' : Observer) (h : bus.observers[i]? = some (some o)) :
      (bus.observers.set i (some o')).map Option.isSome = bus.observers.map Option.isSome := by
    obtain ⟨hlt, hi⟩ := List.getElem?_eq_some_iff.mp h
    have hlt' : i < (bus.observers.map Option.isSome).length := by rwa [List.length_map]
    have hseat : (bus.observers.map Option.isSome)[i] = true := by
      rw [List.getElem_map, hi]
      rfl
    rw [List.map_set, Option.isSome_some, ← hseat, List.set_getElem_self]
  rw [Bus.receive]
  split
  · next o h =>
    dsimp only
    split <;> exact hset o _ h
  · rfl

theorem ear_of_unheard (bus : Bus) (action : Action) (h : action.heardBy i = false) :
    ear i (bus.act action) = ear i bus ∧ shown i bus action = [] := by
  cases action with
  | receive j =>
    have hj : j ≠ i := by simpa [Action.heardBy] using h
    refine ⟨?_, by rw [shown, if_neg hj]⟩
    rw [ear, act, receive_ring, receive_observers_ne hj, receive_seats]
    rfl
  | take j =>
    obtain ⟨hring, hobservers⟩ := receiveCommand_ring j bus
    rw [ear, act, seats, hring, hobservers]
    exact ⟨rfl, rfl⟩
  | attach | drop => exact ⟨rfl, rfl⟩
  | publish | subscribe | unsubscribe => cases h

theorem receive_ear (h : ear i bus = ear i bus') : (bus.receive i).1 = (bus'.receive i).1 ∧
    ear i (bus.receive i).2 = ear i (bus'.receive i).2 := by
  simp only [ear, Prod.mk.injEq] at h
  obtain ⟨hring, hseats, hobserver⟩ := h
  have hlength : bus.observers.length = bus'.observers.length := by
    rw [← length_seats, hseats, length_seats]
  obtain ⟨-, hrecent, htail, hopen⟩ := ring_parts hring
  have hfound : (bus.receive i).1 = (bus'.receive i).1 ∧
      (bus.receive i).2.observers[i]? = (bus'.receive i).2.observers[i]? := by
    rw [Bus.receive, Bus.receive, hobserver]
    split
    · next o _ =>
      have hunread : bus.unread o = bus'.unread o := by
        rw [Bus.unread, Bus.unread, oldest, oldest, hrecent, htail]
      dsimp only
      rw [hunread, hopen, htail]
      split <;> exact ⟨rfl, by rw [List.getElem?_set, List.getElem?_set, hlength, hobserver]⟩
    · exact ⟨rfl, hobserver⟩
  refine ⟨hfound.1, ?_⟩
  rw [ear, ear, receive_ring, receive_ring, receive_seats, receive_seats, hfound.2, hring, hseats]

theorem ear_act (h : ear i bus = ear i bus') (hheard : action.heardBy i = true) :
    ear i (bus.act action) = ear i (bus'.act action) ∧
      shown i bus action = shown i bus' action := by
  have hview := h
  simp only [ear, Prod.mk.injEq] at h
  obtain ⟨hring, hseats, hobserver⟩ := h
  have hlength : bus.observers.length = bus'.observers.length := by
    rw [← length_seats, hseats, length_seats]
  cases action with
  | publish e =>
    obtain ⟨hpublished, hobservers⟩ := publish_ring e bus
    obtain ⟨hpublished', hobservers'⟩ := publish_ring e bus'
    have hcount : bus.observerCount = bus'.observerCount := by
      rw [observerCount_eq, hseats, observerCount_eq]
    refine ⟨?_, rfl⟩
    rw [ear, ear, act, act, seats, seats, hpublished, hpublished', hobservers, hobservers',
      broadcast_congr e hring hcount, hobserver]
    exact congrArg (_, ·, _) hseats
  | subscribe filter =>
    obtain ⟨-, -, htail, -⟩ := ring_parts hring
    refine ⟨?_, rfl⟩
    simp only [ear, Prod.mk.injEq]
    refine ⟨hring, ?_, ?_⟩
    · simp only [seats, act, Bus.subscribe, List.map_append] at hseats ⊢
      rw [hseats]
      rfl
    · simp only [act, Bus.subscribe]
      rw [List.getElem?_append, List.getElem?_append, hlength, hobserver, htail]
  | unsubscribe j =>
    refine ⟨?_, rfl⟩
    simp only [ear, Prod.mk.injEq]
    refine ⟨hring, ?_, ?_⟩
    · simp only [seats, act, Bus.unsubscribe, List.map_set] at hseats ⊢
      rw [hseats]
    · simp only [act, Bus.unsubscribe]
      rw [List.getElem?_set, List.getElem?_set, hlength, hobserver]
  | receive j =>
    obtain rfl : j = i := by simpa [Action.heardBy] using hheard
    obtain ⟨hreply, hnext⟩ := receive_ear hview
    exact ⟨hnext, by rw [shown, shown, if_pos rfl, if_pos rfl, hreply]⟩
  | attach | take | drop => cases hheard

theorem received_eq_of_filter (h : ear i bus = ear i bus') {actions' : List Action}
    (hactions : actions.filter (Action.heardBy i) = actions'.filter (Action.heardBy i)) :
    ear i (bus.run actions) = ear i (bus'.run actions') ∧
      bus.received i actions = bus'.received i actions' :=
  collected_eq_of_filter ear_of_unheard (fun _ _ _ h hheard => ear_act h hheard) h hactions

/-- An observer receives, in order and once each, events published since it was added
that its filter accepts. One that it does not receive was overwritten, by at least as
many events as the ring keeps, when the observer passed it, or the observer has not come
to it. A read finds nothing only if no event that the ring still has for the observer is
accepted. Reads of other observers change nothing. -/
theorem observer_ordered {capacity : Nat} {before after : List Action} {filter : EventFilter}
    {i : Nat} {bus : Bus}
    (hsubscribe : ((withCapacity capacity).run before).subscribe filter = (i, bus)) :
    let kept := 2 ^ Nat.clog 2 capacity
    let offered := publications after
    (∃ positions : List Nat, positions.Pairwise (· < ·) ∧
      (bus.received i after).map some = positions.map (offered[·]?) ∧
      (∀ e ∈ bus.received i after, filter.accepts e = true) ∧
      ∀ k e, offered[k]? = some e → filter.accepts e = true →
        k ∈ positions ∨ bus.Overrun kept i after k ∨ bus.Unreached i after k) ∧
    (.unsubscribe i ∉ after → ((bus.run after).receive i).1 = reply true
      ((offered.drop (horizon kept offered ((bus.run after).cursor i - bus.tail))).find?
        filter.accepts)) ∧
    ∀ before' after', before'.filter (Action.heardBy i) = before.filter (Action.heardBy i) →
      after'.filter (Action.heardBy i) = after.filter (Action.heardBy i) →
        let (i', bus') := ((withCapacity capacity).run before').subscribe filter
        i' = i ∧ bus'.received i after' = bus.received i after ∧
          ((bus'.run after').receive i).1 = ((bus.run after).receive i).1 := by
  intro kept offered
  have hi : (((withCapacity capacity).run before).subscribe filter).1 = i := by rw [hsubscribe]
  have hbus : (((withCapacity capacity).run before).subscribe filter).2 = bus := by rw [hsubscribe]
  have hlistening : bus.Listening i filter bus.tail [] 0 := by
    have hfits := (fits_withCapacity capacity).run before
    rw [← hi, ← hbus]
    exact listening_subscribe hfits filter
  have hkept : bus.retained = kept := by
    rw [retained_eq, ← hbus]
    exact congrArg (2 ^ Nat.clog 2 ·) (run_capacity (withCapacity capacity) before)
  have hopen : (bus.run after).isOpen = true := by
    rw [run_isOpen, ← hbus]
    exact run_isOpen (withCapacity capacity) before
  obtain ⟨read, positions, haccount, hstate⟩ := account_run hlistening after
  rw [hkept] at haccount
  refine ⟨⟨positions, haccount.increasing, haccount.received, haccount.accepted, ?_⟩, ?_, ?_⟩
  · intro k e he haccepts
    by_cases hk : k < read
    · exact (haccount.overrun k e hk he haccepts).imp_right .inl
    · refine .inr (.inr fun earlier hearlier => ?_)
      have hreached := haccount.reached earlier hearlier
      omega
  · intro hstays
    obtain hlast | ⟨hleft, -⟩ := hstate
    · rw [hlast.receive.1, hopen, run_retained, hkept, getElem?_upcoming, hlast.cursor_eq,
        Nat.add_sub_cancel_left]
    · exact absurd hleft hstays
  · intro before' after' hbefore hafter
    have hstart : ear i (withCapacity capacity) = ear i (withCapacity capacity) := rfl
    obtain ⟨hrun, -⟩ := received_eq_of_filter hstart hbefore
    have hlength : (((withCapacity capacity).run before').subscribe filter).1 = i := by
      rw [← hi]
      have hseats := congrArg (fun ear => ear.2.1.length) hrun
      exact (length_seats _).symm.trans (hseats.trans (length_seats _))
    have hsubscribed : ear i (((withCapacity capacity).run before').subscribe filter).2 =
        ear i bus := by
      have hheard : (Action.subscribe filter).heardBy i = true := rfl
      rw [← hbus]
      exact (ear_act hrun hheard).1
    obtain ⟨hfinal, hreceived⟩ := received_eq_of_filter hsubscribed hafter
    exact ⟨hlength, hreceived, (receive_ear hfinal).1⟩

theorem observer_ordered_lagging :
    let bus := ((withCapacity 2).subscribe ⟨[], []⟩).2
    let stat := Event.trafficStat "List" 1 1
    let after : List Action := [.publish (.addSubscription "0" "a"), .publish stat, .publish stat]
    Action.unsubscribe 0 ∉ after ∧ ((bus.run after).receive 0).1 = .event stat := by
  intro bus stat after
  have hstays : Action.unsubscribe 0 ∉ after := by simp [after]
  have hclog : Nat.clog 2 2 = 1 := by decide
  obtain ⟨-, hnext, -⟩ := @observer_ordered 2 [] after ⟨[], []⟩ 0 bus rfl
  rw [hclog] at hnext
  exact ⟨hstays, hnext hstays⟩

end TagFilter.Bus
