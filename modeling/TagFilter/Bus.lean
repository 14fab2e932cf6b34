import TagFilter.Event

/-! # Event bus

Every published event goes to two places. Observers share a ring that keeps only
the latest events: one that falls behind continues with the oldest event still
kept. Commands are also queued, without loss, for the stream that was attached
last. A stream that another has replaced, or whose bus is closed, ends once its
queue is empty; an observer of a closed bus ends once it has read the ring.
-/
namespace TagFilter

/-- An observer has read all events before its cursor. -/
structure Observer where
  filter : EventFilter
  cursor : Nat

structure Bus where
  capacity : Nat
  /-- The latest events, oldest first. -/
  recent : List Event
  /-- The position after the latest event. -/
  tail : Nat
  observers : List (Option Observer)
  /-- The queues of the streams that are not dropped. -/
  streams : List (Option (List Event))
  consumer : Option Nat
  published : Nat
  isOpen : Bool

/-- What a receiver finds. -/
inductive Received where
  | event (e : Event)
  | nothing
  | closed

namespace Bus

def withCapacity (capacity : Nat) : Bus := ⟨capacity, [], 0, [], [], none, 0, true⟩

/-- Doubles until a bound is reached. -/
def doubled (bound : Nat) : Nat → Nat → Nat
  | 0, power => power
  | steps + 1, power => if bound ≤ power then power else doubled bound steps (2 * power)

/-- The number of events the ring keeps: the capacity, rounded up to a power of
two. -/
def retained (bus : Bus) : Nat := doubled bus.capacity bus.capacity 1

def observerCount (bus : Bus) : Nat := bus.observers.countP Option.isSome

/-- The position of the oldest event in the ring. -/
def oldest (bus : Bus) : Nat := bus.tail - bus.recent.length

/-- Puts an event into the ring. Without observers it is not kept. -/
def broadcast (event : Event) (bus : Bus) : Bus :=
  if bus.observerCount = 0 then bus
  else
    let events := bus.recent ++ [event]
    { bus with recent := events.drop (events.length - bus.retained), tail := bus.tail + 1 }

/-- Queues a command for the attached stream. One that was dropped is detached. -/
def enqueue (event : Event) (bus : Bus) : Bus :=
  match bus.consumer with
  | none => bus
  | some i =>
    match bus.streams[i]? with
    | some (some queue) => { bus with streams := bus.streams.set i (some (queue ++ [event])) }
    | _ => { bus with consumer := none }

/-- Publishes an event and counts the observers it reaches. -/
def publish (event : Event) (bus : Bus) : Nat × Bus :=
  let counted := { bus with published := bus.published + 1 }
  let queued := if event.isCommand then counted.enqueue event else counted
  (bus.observerCount, queued.broadcast event)

def publishAll (events : List Event) (bus : Bus) : Bus :=
  events.foldl (fun bus event => (bus.publish event).2) bus

/-- Adds an observer of everything published from now on. -/
def subscribe (filter : EventFilter) (bus : Bus) : Nat × Bus :=
  (bus.observers.length,
    { bus with observers := bus.observers ++ [some ⟨filter, bus.tail⟩] })

def unsubscribe (i : Nat) (bus : Bus) : Bus := { bus with observers := bus.observers.set i none }

/-- The events of the ring that an observer has not read. -/
def unread (bus : Bus) (o : Observer) : List Event := bus.recent.drop (o.cursor - bus.oldest)

def ended (isOpen : Bool) : Received := if isOpen then .nothing else .closed

/-- The next event that an observer's filter accepts. Those before it are passed
over. -/
def receive (i : Nat) (bus : Bus) : Received × Bus :=
  match bus.observers[i]? with
  | some (some o) =>
    let moved (cursor : Nat) : Bus :=
      { bus with observers := bus.observers.set i (some { o with cursor }) }
    match (bus.unread o).dropWhile fun event => !o.filter.accepts event with
    | [] => (ended bus.isOpen, moved bus.tail)
    | event :: rest => (.event event, moved (bus.tail - rest.length))
  | _ => (.closed, bus)

/-- Attaches a new stream in place of the present one. -/
def attach (bus : Bus) : Nat × Bus :=
  (bus.streams.length,
    { bus with streams := bus.streams ++ [some []], consumer := some bus.streams.length })

/-- Drops a stream with its queue. -/
def drop (i : Nat) (bus : Bus) : Bus := { bus with streams := bus.streams.set i none }

def queue (bus : Bus) (i : Nat) : List Event := (bus.streams[i]?.getD none).getD []

def receiveCommand (i : Nat) (bus : Bus) : Received × Bus :=
  match bus.streams[i]? with
  | some (some (event :: rest)) =>
    (.event event, { bus with streams := bus.streams.set i (some rest) })
  | some (some []) => (ended (bus.isOpen && bus.consumer = some i), bus)
  | _ => (.closed, bus)

/-- Whether a stream is attached and not dropped. -/
def hasConsumer (bus : Bus) : Bool :=
  match bus.consumer with
  | none => false
  | some i => (bus.streams[i]?.getD none).isSome

/-- Ends the bus; what it has delivered can still be received. -/
def close (bus : Bus) : Bus := { bus with isOpen := false, consumer := none }

end Bus
end TagFilter
