import TagFilter.Bus

/-! # The command queue

The attached stream loses no command and gets each one once, in the order of
publication. Neither the ring nor the observers that share it have a part in that.
-/
namespace TagFilter.Bus

def commands (events : List Event) : List Event := events.filter Event.isCommand

/-- Commands go to the queue of this stream, and these are waiting there. -/
structure Attached (i : Nat) (queue : List Event) (bus : Bus) : Prop where
  consumer : bus.consumer = some i
  waiting : bus.streams[i]? = some (some queue)

variable {bus : Bus} {i : Nat} {queue : List Event}

theorem commands_append (events more : List Event) :
    commands (events ++ more) = commands events ++ commands more := List.filter_append ..

theorem attached_attach (bus : Bus) : bus.attach.2.Attached bus.attach.1 [] :=
  ⟨rfl, by simp [attach]⟩

theorem Attached.queue_eq (h : bus.Attached i queue) : bus.queue i = queue := by
  rw [Bus.queue, h.waiting]
  rfl

theorem Attached.broadcast (h : bus.Attached i queue) (e : Event) :
    (bus.broadcast e).Attached i queue := by
  unfold Bus.broadcast
  split
  · exact h
  · exact ⟨h.consumer, h.waiting⟩

theorem Attached.enqueue (h : bus.Attached i queue) (e : Event) :
    (bus.enqueue e).Attached i (queue ++ [e]) := by
  have hlt : i < bus.streams.length := (List.getElem?_eq_some_iff.mp h.waiting).1
  rw [Bus.enqueue, h.consumer]
  simp only [h.waiting]
  exact ⟨rfl, List.getElem?_set_self hlt⟩

theorem Attached.publish (h : bus.Attached i queue) (e : Event) :
    (bus.publish e).2.Attached i (queue ++ commands [e]) := by
  have hcounted : Attached i queue { bus with published := bus.published + 1 } :=
    ⟨h.consumer, h.waiting⟩
  rw [Bus.publish]
  cases hcommand : e.isCommand with
  | true =>
    rw [commands, List.filter_cons_of_pos hcommand]
    exact (hcounted.enqueue e).broadcast e
  | false =>
    rw [commands, List.filter_cons_of_neg (by simp [hcommand]), List.filter_nil, List.append_nil]
    exact hcounted.broadcast e

theorem Attached.publishAll (h : bus.Attached i queue) (events : List Event) :
    (bus.publishAll events).Attached i (queue ++ commands events) := by
  induction events generalizing bus queue with
  | nil => rwa [commands, List.filter_nil, List.append_nil]
  | cons e events ih =>
    have hrest := ih (h.publish e)
    rwa [List.append_assoc, ← commands_append] at hrest

theorem Attached.receiveCommand_cons {e : Event} (h : bus.Attached i (e :: queue)) :
    ∃ bus', bus.receiveCommand i = (.event e, bus') ∧ bus'.Attached i queue := by
  have hlt : i < bus.streams.length := (List.getElem?_eq_some_iff.mp h.waiting).1
  rw [receiveCommand, h.waiting]
  exact ⟨_, rfl, h.consumer, List.getElem?_set_self hlt⟩

theorem Attached.receiveCommand_nil (h : bus.Attached i []) :
    bus.receiveCommand i = (ended bus.isOpen, bus) := by
  rw [receiveCommand, h.waiting]
  simp [h.consumer]

theorem Attached.subscribe (h : bus.Attached i queue) (filter : EventFilter) :
    (bus.subscribe filter).2.Attached i queue := ⟨h.consumer, h.waiting⟩

theorem Attached.unsubscribe (h : bus.Attached i queue) (observer : Nat) :
    (bus.unsubscribe observer).Attached i queue := ⟨h.consumer, h.waiting⟩

theorem Attached.receive (h : bus.Attached i queue) (observer : Nat) :
    (bus.receive observer).2.Attached i queue := by
  rw [Bus.receive]
  split
  · dsimp only
    split <;> exact ⟨h.consumer, h.waiting⟩
  · exact h

end TagFilter.Bus
