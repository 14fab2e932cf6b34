import TagFilter.Service
import TagFilter.Settings
import TagFilter.Subscription.Csv

/-! # Sessions

A session is the service as it is set up from settings: it loads the
subscriptions, builds the engines, and replays traffic through the engine that
serves. When it is stopped nothing is left to handle commands. A session that
waits for an engine reports for how long: in the largest of the units second,
millisecond, microsecond and nanosecond of which there is at least one, as a
decimal fraction without trailing zeros.
-/
namespace TagFilter

namespace Text.Duration

/-- The decimal places of a fraction, without trailing zeros. -/
def places (width part : Nat) : List Char :=
  let digits := Nat.toDigits 10 part
  let padded := List.replicate (width - digits.length) '0' ++ digits
  (padded.reverse.dropWhile (· = '0')).reverse

/-- A number of nanoseconds in a unit of a power of ten of them. -/
def inUnit (power : Nat) (unit : String) (nanoseconds : Nat) : String :=
  let fraction := places power (nanoseconds % Nat.pow 10 power)
  let point := if fraction = [] then [] else ['.']
  String.ofList (Nat.toDigits 10 (nanoseconds / Nat.pow 10 power) ++ point ++ fraction) ++ unit

def ofNanoseconds (count : Nat) : String :=
  if 1000000000 ≤ count then inUnit 9 "s" count
  else if 1000000 ≤ count then inUnit 6 "ms" count
  else if 1000 ≤ count then inUnit 3 "µs" count
  else inUnit 0 "ns" count

end Text.Duration

structure Session where
  service : Service
  isStopped : Bool

/-- What a replay has seen: identifiers, those that matched, and reports due. -/
structure ReplaySummary where
  events : Nat
  matched : Nat
  reports : Nat
  deriving DecidableEq, Repr

namespace ReplaySummary

def empty : ReplaySummary := ⟨0, 0, 0⟩

/-- Counts one search with the URIs it found. -/
def count (uris : List String) (r : ReplaySummary) : ReplaySummary where
  events := r.events + 1
  matched := r.matched + if uris = [] then 0 else 1
  reports := r.reports + uris.length

end ReplaySummary

namespace Session

/-- Sets a session up from settings and the bytes of the subscription file. -/
def load (settings : Settings) (contents : Except FileFault (List UInt8)) :
    Except Failure Session := do
  let config ← settings.coordinatorConfig
  match Subscriptions.ofFile contents with
  | .error error =>
    .error ((Failure.ofError error).within ("Failed to load " ++ settings.subscriptions))
  | .ok subs =>
    match Coordinator.make config subs with
    | .error error => .error (Failure.ofError error)
    | .ok coordinator => .ok ⟨Service.make coordinator, false⟩

/-- The engine that serves. -/
def current (s : Session) : Option EngineKind := s.service.coordinator.current

/-- Carries out an operation of the coordinator. -/
def perform {α : Type} (f : Coordinator → Outcome Coordinator α) (s : Session) : α × Session :=
  let (answer, service) := s.service.perform f
  (answer, { s with service })

/-- Starts the coordination loop and the builds. A loop that starts in a stopped
session ends at once. -/
def start (s : Session) : Except FilterError Unit × Session :=
  let looped := if s.isStopped then s else { s with service := s.service.attach }
  let (answer, started) := looped.perform Coordinator.start
  (answer.map fun _ => (), started)

/-- Handles all commands. -/
def drain (s : Session) : Session := { s with service := s.service.drain.2 }

/-- Finishes the builds in flight and handles all commands. -/
def settle (s : Session) : Session :=
  drain { s with service := s.service.finishBuilds s.service.coordinator.building }

/-- What is reported when no engine serves within a time. -/
def lateFailure (nanoseconds : Nat) : Failure :=
  ⟨[], ["No engine ready after " ++ Text.Duration.ofNanoseconds nanoseconds]⟩

/-- The engine that serves after a settled session was given some time. -/
def awaitEngine (nanoseconds : Nat) (s : Session) : Except Failure EngineKind :=
  match s.current with
  | some kind => .ok kind
  | none => .error (lateFailure nanoseconds)

/-- Searches identifiers one after the other, up to the first that fails. -/
def replayFrom (cost : EngineKind → Nat) :
    ReplaySummary → List Identifier → Session → Except FilterError ReplaySummary × Session
  | summary, [], s => (.ok summary, s)
  | summary, id :: rest, s =>
    match s.perform (Coordinator.search id cost) with
    | (.error error, searched) => (.error error, searched)
    | (.ok uris, searched) => replayFrom cost (summary.count uris) rest searched

def replay (ids : List Identifier) (cost : EngineKind → Nat) (s : Session) :
    Except FilterError ReplaySummary × Session :=
  replayFrom cost .empty ids s

def locality (ids : List Identifier) (s : Session) : Except FilterError Report :=
  s.service.coordinator.analyze ids

/-- The text of a locality report file. -/
def localityText (ids : List Identifier) (s : Session) : Except FilterError String :=
  (s.locality ids).map fun report => report.toJson.pretty

def writeFailure (path : String) (fault : FileFault) : Failure :=
  ⟨["Failed to write " ++ path], [fault.message]⟩

/-- Reports a last statistics window and ends the loop. -/
def stop (s : Session) : Session := ⟨s.service.publishStats.detach, true⟩

end Session
end TagFilter
