import Mathlib.Algebra.Order.Ring.Nat
import Mathlib.Data.Nat.Log
import TagFilter.Proofs.Bus.Actions

/-! # The ring as an observer sees it

The ring keeps a power of two of the latest events. For an observer it is a window on
the events published since the observer was added: a read takes the first event of the
window that the filter accepts, from the place the observer has reached or, if that
was overwritten, from the oldest event kept.
-/
namespace TagFilter.Bus

theorem doubled_eq (bound steps power : Nat) (h : Nat.clog 2 bound ≤ power + steps) :
    doubled bound steps (2 ^ power) = 2 ^ max power (Nat.clog 2 bound) := by
  induction steps generalizing power with
  | zero => rw [doubled, max_eq_left (Nat.add_zero power ▸ h)]
  | succ steps ih =>
    rw [doubled]
    by_cases hbound : bound ≤ 2 ^ power
    · rw [if_pos hbound, max_eq_left ((Nat.clog_le_iff_le_pow Nat.one_lt_two).mpr hbound)]
    · have hclog : power < Nat.clog 2 bound := by
        rw [← not_le, Nat.clog_le_iff_le_pow Nat.one_lt_two]
        exact hbound
      rw [if_neg hbound, ← Nat.pow_succ', ih (power + 1) (by omega), max_eq_right hclog,
        max_eq_right hclog.le]

/-- The ring keeps as many events as the least power of two that is not below the
capacity. -/
theorem retained_eq (bus : Bus) : bus.retained = 2 ^ Nat.clog 2 bus.capacity := by
  have hclog : Nat.clog 2 bus.capacity ≤ 0 + bus.capacity := by
    rw [Nat.zero_add, Nat.clog_le_iff_le_pow Nat.one_lt_two]
    exact Nat.lt_two_pow_self.le
  rw [retained, ← Nat.pow_zero 2, doubled_eq _ _ _ hclog, Nat.zero_max]

/-- What observers share. -/
def ring (bus : Bus) : Nat × List Event × Nat × Bool :=
  (bus.capacity, bus.recent, bus.tail, bus.isOpen)

variable {bus bus' : Bus} {i j : Nat} {o : Observer} {filter : EventFilter} {start read : Nat}
  {offered : List Event} {action : Action} {actions : List Action}

/-- The parts of two equal rings. -/
theorem ring_parts (h : bus'.ring = bus.ring) : bus'.retained = bus.retained ∧
    bus'.recent = bus.recent ∧ bus'.tail = bus.tail ∧ bus'.isOpen = bus.isOpen := by
  simp only [ring, Prod.mk.injEq] at h
  obtain ⟨hcapacity, hrest⟩ := h
  exact ⟨by rw [retained, hcapacity, retained], hrest⟩

theorem enqueue_ring (e : Event) (bus : Bus) :
    (bus.enqueue e).ring = bus.ring ∧ (bus.enqueue e).observers = bus.observers := by
  rw [Bus.enqueue]
  split
  · exact ⟨rfl, rfl⟩
  · split <;> exact ⟨rfl, rfl⟩

theorem receiveCommand_ring (i : Nat) (bus : Bus) : (bus.receiveCommand i).2.ring = bus.ring ∧
    (bus.receiveCommand i).2.observers = bus.observers := by
  rw [receiveCommand]
  split <;> exact ⟨rfl, rfl⟩

theorem broadcast_congr (e : Event) (hring : bus.ring = bus'.ring)
    (hcount : bus.observerCount = bus'.observerCount) :
    (bus.broadcast e).ring = (bus'.broadcast e).ring := by
  simp only [ring, Prod.mk.injEq] at hring
  obtain ⟨hcapacity, hrecent, htail, hopen⟩ := hring
  rw [Bus.broadcast, Bus.broadcast, hcount]
  split
  · simp [ring, hcapacity, hrecent, htail, hopen]
  · simp [ring, retained, hcapacity, hrecent, htail, hopen]

theorem broadcast_observers (e : Event) (bus : Bus) :
    (bus.broadcast e).observers = bus.observers := by
  rw [Bus.broadcast]
  split <;> rfl

/-- To the ring a publication is a broadcast. -/
theorem publish_ring (e : Event) (bus : Bus) : (bus.publish e).2.ring = (bus.broadcast e).ring ∧
    (bus.publish e).2.observers = bus.observers := by
  have hcounted : ({ bus with published := bus.published + 1 } : Bus).ring = bus.ring := rfl
  rw [Bus.publish]
  dsimp only
  split
  · obtain ⟨hring, hobservers⟩ := enqueue_ring e { bus with published := bus.published + 1 }
    refine ⟨broadcast_congr e (hring.trans hcounted) ?_, ?_⟩
    · rw [observerCount, hobservers, observerCount]
    · rw [broadcast_observers, hobservers]
  · exact ⟨broadcast_congr e hcounted rfl, broadcast_observers e _⟩

theorem receive_of_gone (h : bus.observers[i]? = some none) :
    bus.receive i = (.closed, bus) := by
  rw [Bus.receive, h]

theorem receive_ring (i : Nat) (bus : Bus) : (bus.receive i).2.ring = bus.ring := by
  rw [Bus.receive]
  split
  · dsimp only
    split <;> rfl
  · rfl

theorem receive_observers_ne (hj : j ≠ i) (bus : Bus) :
    (bus.receive j).2.observers[i]? = bus.observers[i]? := by
  rw [Bus.receive]
  split
  · dsimp only
    split <;> exact List.getElem?_set_ne hj
  · rfl

theorem act_capacity (bus : Bus) (action : Action) : (bus.act action).capacity = bus.capacity := by
  have hring : (bus.act action).ring.1 = bus.ring.1 := by
    cases action with
    | publish e =>
      rw [act, (publish_ring e bus).1, Bus.broadcast]
      split <;> rfl
    | receive i => rw [act, receive_ring]
    | take i => rw [act, (receiveCommand_ring i bus).1]
    | subscribe | unsubscribe | attach | drop => rfl
  exact hring

theorem run_capacity (bus : Bus) (actions : List Action) :
    (bus.run actions).capacity = bus.capacity := by
  induction actions generalizing bus with
  | nil => rfl
  | cons action actions ih => exact (ih (bus.act action)).trans (act_capacity bus action)

theorem run_retained (bus : Bus) (actions : List Action) :
    (bus.run actions).retained = bus.retained := by
  rw [retained, run_capacity, retained]

/-- The ring holds only what was published and only as much as it keeps. -/
structure Fits (bus : Bus) : Prop where
  le_retained : bus.recent.length ≤ bus.retained
  le_tail : bus.recent.length ≤ bus.tail

theorem fits_withCapacity (capacity : Nat) : (withCapacity capacity).Fits :=
  ⟨Nat.zero_le _, Nat.le_refl 0⟩

theorem Fits.of_ring (h : bus.Fits) (hring : bus'.ring = bus.ring) : bus'.Fits := by
  obtain ⟨hretained, hrecent, htail, -⟩ := ring_parts hring
  exact ⟨by rw [hrecent, hretained]; exact h.le_retained, by rw [hrecent, htail]; exact h.le_tail⟩

theorem Fits.broadcast (h : bus.Fits) (e : Event) : (bus.broadcast e).Fits := by
  have hle := h.le_tail
  rw [Bus.broadcast]
  split
  · exact h
  · refine ⟨?_, ?_⟩
    · change List.length (List.drop _ _) ≤ bus.retained
      rw [List.length_drop]
      omega
    · change List.length (List.drop _ _) ≤ bus.tail + 1
      rw [List.length_drop, List.length_append, List.length_singleton]
      omega

theorem Fits.act (h : bus.Fits) (action : Action) : (bus.act action).Fits := by
  cases action with
  | publish e => exact (h.broadcast e).of_ring (publish_ring e bus).1
  | receive i => exact h.of_ring (receive_ring i bus)
  | take i => exact h.of_ring (receiveCommand_ring i bus).1
  | subscribe | unsubscribe | attach | drop => exact ⟨h.le_retained, h.le_tail⟩

theorem Fits.run (h : bus.Fits) (actions : List Action) : (bus.run actions).Fits := by
  induction actions generalizing bus with
  | nil => exact h
  | cons action actions ih => exact ih (h.act action)

/-- This observer has been offered these events, the first at position `start`, and has
read so many of them. The ring ends with them. -/
structure Listening (i : Nat) (filter : EventFilter) (start : Nat) (offered : List Event)
    (read : Nat) (bus : Bus) : Prop where
  observer : bus.observers[i]? = some (some ⟨filter, start + read⟩)
  tail : bus.tail = start + offered.length
  recent : ∃ old, old.length ≤ start ∧
    bus.recent = (old ++ offered).drop ((old ++ offered).length - bus.retained)
  read_le : read ≤ offered.length

/-- Where the events begin that an observer can still read. -/
def horizon (kept : Nat) (offered : List Event) (read : Nat) : Nat :=
  max read (offered.length - kept)

/-- The position of the event that an observer reads next. -/
def upcoming (filter : EventFilter) (kept : Nat) (offered : List Event) (read : Nat) : Nat :=
  horizon kept offered read + (offered.drop (horizon kept offered read)).findIdx filter.accepts

theorem drop_latest_append (events : List Event) (kept : Nat) (e : Event) :
    (events.drop (events.length - kept) ++ [e]).drop
        ((events.drop (events.length - kept) ++ [e]).length - kept) =
      (events ++ [e]).drop ((events ++ [e]).length - kept) := by
  rw [← List.drop_append_of_le_length (Nat.sub_le ..), List.drop_drop]
  congr 1
  simp only [List.length_drop, List.length_append, List.length_singleton]
  omega

theorem listening_subscribe (h : bus.Fits) (filter : EventFilter) :
    (bus.subscribe filter).2.Listening (bus.subscribe filter).1 filter bus.tail [] 0 := by
  refine ⟨by simp [Bus.subscribe], rfl, ⟨bus.recent, h.le_tail, ?_⟩, Nat.le_refl 0⟩
  have hnone : bus.recent.length - bus.retained = 0 := Nat.sub_eq_zero_of_le h.le_retained
  rw [List.append_nil]
  change bus.recent = bus.recent.drop (bus.recent.length - bus.retained)
  rw [hnone, List.drop_zero]

theorem Listening.lt (h : bus.Listening i filter start offered read) : i < bus.observers.length :=
  (List.getElem?_eq_some_iff.mp h.observer).1

theorem Listening.of_ring (h : bus.Listening i filter start offered read)
    (hring : bus'.ring = bus.ring) (hobserver : bus'.observers[i]? = bus.observers[i]?) :
    bus'.Listening i filter start offered read := by
  obtain ⟨hretained, hrecent, htail, -⟩ := ring_parts hring
  exact ⟨hobserver.trans h.observer, htail.trans h.tail, by rw [hrecent, hretained]; exact h.recent,
    h.read_le⟩

theorem Listening.publish (h : bus.Listening i filter start offered read) (e : Event) :
    (bus.publish e).2.Listening i filter start (offered ++ [e]) read := by
  obtain ⟨hring, hobservers⟩ := publish_ring e bus
  have hcount : bus.observerCount ≠ 0 := by
    have hmem := List.mem_of_getElem? h.observer
    rw [observerCount, ← Nat.pos_iff_ne_zero, List.countP_pos_iff]
    exact ⟨_, hmem, rfl⟩
  have hlistening : (bus.broadcast e).Listening i filter start (offered ++ [e]) read := by
    obtain ⟨old, hold, hrecent⟩ := h.recent
    rw [Bus.broadcast, if_neg hcount]
    refine ⟨h.observer, ?_, ⟨old, hold, ?_⟩, ?_⟩
    · rw [List.length_append, List.length_singleton, ← Nat.add_assoc, ← h.tail]
    · rw [← List.append_assoc]
      change List.drop _ (bus.recent ++ [e]) = _
      rw [hrecent]
      exact drop_latest_append _ _ _
    · rw [List.length_append]
      exact Nat.le_add_right_of_le h.read_le
  refine hlistening.of_ring hring ?_
  rw [hobservers, broadcast_observers]

theorem Listening.unread (h : bus.Listening i filter start offered read) :
    bus.unread ⟨filter, start + read⟩ = offered.drop (horizon bus.retained offered read) := by
  obtain ⟨old, hold, hrecent⟩ := h.recent
  have hread := h.read_le
  have hshift : offered.drop (horizon bus.retained offered read) =
      (old ++ offered).drop (old.length + horizon bus.retained offered read) := by
    rw [List.drop_length_add_append]
  rw [Bus.unread, oldest, h.tail, hrecent, List.drop_drop, hshift]
  congr 1
  simp only [horizon, List.length_drop, List.length_append]
  omega

/-- A read takes the next event, or reaches the end without one. -/
theorem Listening.receive (h : bus.Listening i filter start offered read) :
    (bus.receive i).1 = reply bus.isOpen offered[upcoming filter bus.retained offered read]? ∧
      (bus.receive i).2.Listening i filter start offered
        (min (upcoming filter bus.retained offered read + 1) offered.length) := by
  have hunread : (bus.unread ⟨filter, start + read⟩).dropWhile
      (fun event => !filter.accepts event) =
        offered.drop (upcoming filter bus.retained offered read) := by
    rw [h.unread, List.dropWhile_eq_drop_findIdx_not, List.drop_drop]
    simp [upcoming]
  rw [Bus.receive, h.observer]
  dsimp only
  rw [hunread]
  by_cases hend : upcoming filter bus.retained offered read < offered.length
  · rw [List.drop_eq_getElem_cons hend, List.getElem?_eq_getElem hend, min_eq_left hend]
    have hcursor : bus.tail - (offered.drop (upcoming filter bus.retained offered read + 1)).length =
        start + (upcoming filter bus.retained offered read + 1) := by
      rw [h.tail, List.length_drop]
      omega
    exact ⟨rfl, by rw [← hcursor]; exact List.getElem?_set_self h.lt, h.tail, h.recent, hend⟩
  · have hle := Nat.le_of_not_lt hend
    rw [List.drop_eq_nil_of_le hle, List.getElem?_eq_none hle, min_eq_right (Nat.le_succ_of_le hle)]
    exact ⟨rfl, by rw [← h.tail]; exact List.getElem?_set_self h.lt, h.tail, h.recent, Nat.le_refl _⟩

/-- The actions that an observer takes itself. -/
def Action.isBy (i : Nat) : Action → Bool
  | .receive j | .unsubscribe j => j = i
  | _ => false

theorem Listening.act (h : bus.Listening i filter start offered read)
    (hother : action.isBy i = false) :
    (bus.act action).Listening i filter start (offered ++ action.published) read := by
  have hnone : offered ++ [] = offered := List.append_nil offered
  cases action with
  | publish e => exact h.publish e
  | subscribe other =>
    exact hnone.symm ▸ h.of_ring rfl (List.getElem?_append_left h.lt)
  | unsubscribe j =>
    have hj : j ≠ i := by simpa [Action.isBy] using hother
    exact hnone.symm ▸ h.of_ring rfl (List.getElem?_set_ne hj)
  | receive j =>
    have hj : j ≠ i := by simpa [Action.isBy] using hother
    exact hnone.symm ▸ h.of_ring (receive_ring j bus) (receive_observers_ne hj bus)
  | take j =>
    obtain ⟨hring, hobservers⟩ := receiveCommand_ring j bus
    exact hnone.symm ▸ h.of_ring hring (congrArg (·[i]?) hobservers)
  | attach | drop => exact hnone.symm ▸ h.of_ring rfl rfl

/-- An observer that was removed stays so. -/
theorem gone_act (h : bus.observers[i]? = some none) (action : Action) :
    (bus.act action).observers[i]? = some none := by
  have hlt : i < bus.observers.length := (List.getElem?_eq_some_iff.mp h).1
  cases action with
  | publish e => exact (congrArg (·[i]?) (publish_ring e bus).2).trans h
  | subscribe filter => exact (List.getElem?_append_left hlt).trans h
  | unsubscribe j =>
    by_cases hj : j = i
    · subst hj
      exact List.getElem?_set_self hlt
    · exact (List.getElem?_set_ne hj).trans h
  | receive j =>
    by_cases hj : j = i
    · subst hj
      rw [act, receive_of_gone h]
      exact h
    · exact (receive_observers_ne hj bus).trans h
  | take j => exact (congrArg (·[i]?) (receiveCommand_ring j bus).2).trans h
  | attach | drop => exact h

end TagFilter.Bus
