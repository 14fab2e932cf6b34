import TagFilter.Json.Record

/-! # Management events

What is announced on the event bus. Commands are the events that the
coordination loop has to act on. Observers choose events by topic and by the
engine they concern; an event that concerns no engine passes every choice of
engines. An operation on a part of the service comes to an outcome: its answer,
the state it leaves, and the events it publishes, in order.
-/
namespace TagFilter

inductive Event where
  | addSubscription (pattern uri : String)
  | deleteSubscription (pattern uri : String)
  | engineGenerated (engine : String)
  | selectedEngine (engine : String)
  | trafficStat (engine : String) (events matched : Nat)
  | engineStatus (engine : String) (microsPerEvent : Float)

inductive Topic where
  | subscriptions
  | engines
  | traffic
  | all
  deriving DecidableEq, Repr

def Topic.name : Topic → String
  | subscriptions => "Subscriptions"
  | engines => "Engines"
  | traffic => "Traffic"
  | all => "All"

def Topic.every : List Topic := [subscriptions, engines, traffic, all]

/-- The topics and engines an observer chooses; no choice means everything. -/
structure EventFilter where
  topics : List Topic
  engines : List String
  deriving DecidableEq, Repr

namespace Event

def topic : Event → Topic
  | addSubscription _ _ => .subscriptions
  | deleteSubscription _ _ => .subscriptions
  | engineGenerated _ => .engines
  | selectedEngine _ => .engines
  | trafficStat _ _ _ => .traffic
  | engineStatus _ _ => .traffic

def isCommand : Event → Bool
  | selectedEngine _ => false
  | trafficStat _ _ _ => false
  | _ => true

def engine? : Event → Option String
  | addSubscription _ _ => none
  | deleteSubscription _ _ => none
  | engineGenerated engine => some engine
  | selectedEngine engine => some engine
  | trafficStat engine _ _ => some engine
  | engineStatus engine _ => some engine

def case (name : String) (fields : List (String × Json.Value)) : Json.Value :=
  .record [(name, .record fields)]

def toJson : Event → Json.Value
  | addSubscription pattern uri =>
    case "AddSubscription" [("pattern", .ofText pattern), ("report_uri", .ofText uri)]
  | deleteSubscription pattern uri =>
    case "DeleteSubscription" [("pattern", .ofText pattern), ("report_uri", .ofText uri)]
  | engineGenerated engine => case "EngineGenerated" [("engine", .ofText engine)]
  | selectedEngine engine => case "SelectedEngine" [("engine", .ofText engine)]
  | trafficStat engine events matched =>
    case "TrafficStat" [("engine", .ofText engine), ("event_count", .ofNat events),
      ("matched_count", .ofNat matched)]
  | engineStatus engine micros =>
    case "EngineStatus" [("engine", .ofText engine), ("micros_per_event", .ofFloat micros)]

/-- The texts of the named fields of a record. -/
def texts? (names : List String) (value : Json.Value) : Option (List String) := do
  (← value.fields? names).mapM fun field => do (← field).text?

def ofCase? (name : String) (value : Json.Value) : Option Event :=
  match name with
  | "AddSubscription" => do
    let [pattern, uri] ← texts? ["pattern", "report_uri"] value | none
    return addSubscription pattern uri
  | "DeleteSubscription" => do
    let [pattern, uri] ← texts? ["pattern", "report_uri"] value | none
    return deleteSubscription pattern uri
  | "EngineGenerated" => do
    let [engine] ← texts? ["engine"] value | none
    return engineGenerated engine
  | "SelectedEngine" => do
    let [engine] ← texts? ["engine"] value | none
    return selectedEngine engine
  | "TrafficStat" => do
    let [engine, events, matched] ←
      value.fields? ["engine", "event_count", "matched_count"] | none
    return trafficStat (← (← engine).text?) (← (← events).nat? Json.wordLimit)
      (← (← matched).nat? Json.wordLimit)
  | "EngineStatus" => do
    let [engine, micros] ← value.fields? ["engine", "micros_per_event"] | none
    return engineStatus (← (← engine).text?) (← (← micros).float?)
  | _ => none

def ofJson? : Json.Value → Option Event
  | .object [(some name, value)] => ofCase? name value
  | _ => none

end Event

def EventFilter.accepts (f : EventFilter) (event : Event) : Bool :=
  (f.topics = [] || Topic.all ∈ f.topics || event.topic ∈ f.topics) &&
    (f.engines = [] || match event.engine? with
      | some engine => engine ∈ f.engines
      | none => true)

structure Outcome (σ α : Type) where
  answer : α
  state : σ
  events : List Event

namespace Outcome

/-- An operation that publishes nothing. -/
def quiet {σ α : Type} (answer : α) (state : σ) : Outcome σ α := ⟨answer, state, []⟩

def map {σ α β : Type} (f : α → β) (o : Outcome σ α) : Outcome σ β :=
  ⟨f o.answer, o.state, o.events⟩

end Outcome
end TagFilter
