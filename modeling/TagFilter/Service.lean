import TagFilter.Bus
import TagFilter.Coordinator

/-! # Service

The coordinator on its event bus. What the coordinator's operations announce is
published, and the coordination loop takes the queued commands one by one, in
the order in which they were published, and hands them to the coordinator. The
loop also reports statistics at fixed intervals.
-/
namespace TagFilter

structure Service where
  coordinator : Coordinator
  bus : Bus
  /-- The command stream of the loop. -/
  stream : Option Nat

namespace Service

def make (coordinator : Coordinator) : Service :=
  ⟨coordinator, Bus.withCapacity coordinator.config.channelCapacity, none⟩

/-- Carries out an operation of the coordinator and publishes its events. -/
def perform {α : Type} (f : Coordinator → Outcome Coordinator α) (s : Service) : α × Service :=
  let o := f s.coordinator
  (o.answer, { s with coordinator := o.state, bus := s.bus.publishAll o.events })

def publish (event : Event) (s : Service) : Nat × Service :=
  let (count, bus) := s.bus.publish event
  (count, { s with bus })

def finishBuild (kind : EngineKind) (s : Service) : Service :=
  (s.perform (Coordinator.finishBuild kind)).2

def finishBuilds (kinds : List EngineKind) (s : Service) : Service :=
  kinds.foldl (fun s kind => s.finishBuild kind) s

/-- Starts a loop; an earlier one ends with its stream. -/
def attach (s : Service) : Service :=
  let (stream, bus) := s.bus.attach
  { s with bus, stream := some stream }

/-- Ends the loop. -/
def detach (s : Service) : Service :=
  match s.stream with
  | some stream => { s with bus := s.bus.drop stream, stream := none }
  | none => s

/-- A command and how it was handled. -/
abbrev Handled := Event × Except FilterError Unit

/-- Handles the next queued command. -/
def handleNext? (s : Service) : Option (Handled × Service) :=
  match s.stream with
  | none => none
  | some stream =>
    match s.bus.receiveCommand stream with
    | (.event event, bus) =>
      let (answer, next) := { s with bus }.perform (Coordinator.handle event)
      some ((event, answer), next)
    | _ => none

/-- Handles at most the given number of commands, those included that are
published meanwhile. -/
def pump : Nat → Service → List Handled × Service
  | 0, s => ([], s)
  | steps + 1, s =>
    match s.handleNext? with
    | none => ([], s)
    | some (handled, next) =>
      let (others, last) := pump steps next
      (handled :: others, last)

/-- The most commands that handling one command can lead to, itself included: a
change is announced by every slot, and announcements lead to no commands. -/
def commandCost (s : Service) : Event → Nat
  | .addSubscription _ _ => 1 + s.coordinator.slots.length
  | .deleteSubscription _ _ => 1 + s.coordinator.slots.length
  | _ => 1

def totalCost (s : Service) : List Event → Nat
  | [] => 0
  | event :: rest => s.commandCost event + s.totalCost rest

/-- Handles all commands. -/
def drain (s : Service) : List Handled × Service :=
  match s.stream with
  | none => ([], s)
  | some stream => s.pump (s.totalCost (s.bus.queue stream))

def publishStats (s : Service) : Service := (s.perform Coordinator.publishStats).2

/-- Reports statistics a number of times in a row. -/
def repeatStats : Nat → Service → Service
  | 0, s => s
  | count + 1, s => repeatStats count s.publishStats

end Service

/-- The clock of the loop: when the next report is due, in seconds. -/
structure Ticker where
  interval : Nat
  now : Nat
  next : Nat
  deriving DecidableEq, Repr

namespace Ticker

/-- The first report is due one interval after the start. -/
def start (interval : Nat) : Ticker := ⟨interval, 0, interval⟩

/-- The reports that fall due when time passes, each missed one counted. -/
def advance (seconds : Nat) (t : Ticker) : Nat × Ticker :=
  let now := t.now + seconds
  let due := if now < t.next then 0 else (now - t.next) / t.interval + 1
  (due, { t with now, next := t.next + due * t.interval })

end Ticker
end TagFilter
