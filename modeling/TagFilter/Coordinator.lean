import TagFilter.Config
import TagFilter.EngineSlot
import TagFilter.Locality.Report

/-! # Coordinator

The coordinator holds the subscriptions and a slot for each enabled engine, in
the order of the kinds. Changes of the subscriptions go to all slots, so that
any engine can take over. When an engine is announced it is adopted if there is
no current one or if its priority is strictly higher; the current engine itself
is only deployed again.
-/
namespace TagFilter

structure Coordinator where
  config : Config
  subscriptions : Subscriptions
  slots : List EngineSlot
  current : Option EngineKind
  /-- The last reported cost of a search, in microseconds. -/
  throughput : OrderedMap EngineKind Float

namespace Coordinator

def make (config : Config) (subs : Subscriptions) : Except FilterError Coordinator := do
  config.validate
  let enabled := EngineKind.all.filter (· ∈ config.engines)
  return ⟨config, subs, enabled.map EngineSlot.fresh, none, []⟩

def slot? (c : Coordinator) (kind : EngineKind) : Option EngineSlot :=
  c.slots.find? fun s => s.kind = kind

/-- The slot of a kind that is enabled. -/
def slot (c : Coordinator) (kind : EngineKind) : Except FilterError EngineSlot :=
  match c.slot? kind with
  | some s => .ok s
  | none => .error (.engineNotRegistered kind)

/-- Replaces the slot of a kind. -/
def setSlot (s : EngineSlot) (c : Coordinator) : Coordinator :=
  { c with slots := c.slots.map fun t => if t.kind = s.kind then s else t }

/-- Carries out an operation on every slot, in order. -/
def onSlots {α : Type} (f : EngineSlot → Outcome EngineSlot α) (c : Coordinator) :
    Outcome Coordinator Unit :=
  let outcomes := c.slots.map f
  ⟨(), { c with slots := outcomes.map (·.state) }, outcomes.flatMap (·.events)⟩

/-- Carries out an operation on the slot of one kind. -/
def onSlot {α : Type} (kind : EngineKind)
    (f : EngineSlot → Outcome EngineSlot (Except FilterError α)) (c : Coordinator) :
    Outcome Coordinator (Except FilterError α) :=
  match c.slot kind with
  | .error error => .quiet (.error error) c
  | .ok s =>
    let o := f s
    ⟨o.answer, c.setSlot o.state, o.events⟩

/-- An operation on a slot that either changes it or fails. -/
def attempt (f : EngineSlot → Except FilterError EngineSlot) (s : EngineSlot) :
    Outcome EngineSlot (Except FilterError Unit) :=
  match f s with
  | .ok changed => .quiet (.ok ()) changed
  | .error error => .quiet (.error error) s

/-- Starts the builds of slots in order, up to the first that refuses. -/
def startSlots (subs : Subscriptions) :
    List EngineSlot → Except FilterError Nat × List EngineSlot
  | [] => (.ok 0, [])
  | s :: rest =>
    match s.init subs with
    | .error error => (.error error, s :: rest)
    | .ok started =>
      let (answer, others) := startSlots subs rest
      (answer.map (· + 1), started :: others)

/-- Starts building every enabled engine, and counts the builds. -/
def start (c : Coordinator) : Outcome Coordinator (Except FilterError Nat) :=
  let (answer, slots) := startSlots c.subscriptions c.slots
  .quiet answer { c with slots }

/-- Finishes the build in flight of one kind. -/
def finishBuild (kind : EngineKind) (c : Coordinator) : Outcome Coordinator Unit :=
  match c.slot? kind with
  | none => .quiet () c
  | some s =>
    let o := s.finish
    ⟨(), c.setSlot o.state, o.events⟩

/-- The kinds whose build is in flight. -/
def building (c : Coordinator) : List EngineKind :=
  (c.slots.filter fun s => s.build.isSome).map EngineSlot.kind

/-- Takes a deployed engine out of service. -/
def retireSlot (kind : EngineKind) (c : Coordinator) : Coordinator :=
  match c.slot? kind with
  | none => c
  | some s =>
    if s.state = .deployed then
      match s.retire with
      | .ok retired => c.setSlot retired
      | .error _ => c
    else c

/-- Deploys a candidate in place of the current engine. -/
def adopt (candidate : EngineSlot) (c : Coordinator) :
    Outcome Coordinator (Except FilterError Bool) :=
  match candidate.deploy with
  | .error error => .quiet (.error error) c
  | .ok deployed =>
    let serving := { c.setSlot deployed with current := some candidate.kind }
    let settled := match c.current with
      | some previous => serving.retireSlot previous
      | none => serving
    ⟨.ok true, settled, [.selectedEngine candidate.kind.name]⟩

/-- Handles the announcement of an engine, and says whether it became the current
one. An announcement that is out of date is passed over. -/
def onGenerated (kind : EngineKind) (c : Coordinator) :
    Outcome Coordinator (Except FilterError Bool) :=
  match c.slot kind with
  | .error error => .quiet (.error error) c
  | .ok candidate =>
    if candidate.state ≠ .ready then .quiet (.ok false) c
    else
      match c.current with
      | none => c.adopt candidate
      | some current =>
        if current = kind then
          match candidate.deploy with
          | .ok deployed => .quiet (.ok false) (c.setSlot deployed)
          | .error error => .quiet (.error error) c
        else if Config.displaces (c.config.priority current) (c.config.priority kind) then
          c.adopt candidate
        else .quiet (.ok false) c

/-- Hands a change to every slot. A slot that has not been started refuses it; its
snapshot will have the change. -/
def spread (change : Change) (c : Coordinator) : Outcome Coordinator Unit :=
  c.onSlots (EngineSlot.update change)

/-- Adds a subscription, or gives a pattern another URI and keeps its weight. The
answer is false if the very subscription was there. -/
def add (pattern : Pattern) (uri : String) (c : Coordinator) :
    Outcome Coordinator (Except FilterError Bool) :=
  let present := (c.subscriptions.get? pattern).map (·.1)
  if present.map Subscription.uri = some uri then .quiet (.ok false) c
  else
    let weight := (present.map Subscription.weight).getD Weight.zero
    match c.subscriptions.insert pattern uri weight with
    | .error error => .quiet (.error error) c
    | .ok subscriptions =>
      ({ c with subscriptions }.spread (.add pattern uri)).map fun _ => .ok true

/-- Removes a subscription if pattern and URI are both as given. -/
def delete (pattern : Pattern) (uri : String) (c : Coordinator) :
    Outcome Coordinator (Except FilterError Unit) :=
  if (c.subscriptions.get? pattern).map (·.1.uri) = some uri then
    let subscriptions := c.subscriptions.erase pattern
    ({ c with subscriptions }.spread (.delete pattern uri)).map .ok
  else .quiet (.error (.notFound pattern uri)) c

/-- Lets the engines that are not current search as well. -/
def shadow (current : EngineKind) (id : Identifier) (cost : EngineKind → Nat)
    (c : Coordinator) : Coordinator :=
  if c.config.shadowSearch then
    let searched (s : EngineSlot) : EngineSlot :=
      if s.kind = current then s else (s.search id (cost s.kind)).2
    { c with slots := c.slots.map searched }
  else c

/-- Searches the current engine. The cost is the time a search takes in each
engine, in nanoseconds. -/
def search (id : Identifier) (cost : EngineKind → Nat) (c : Coordinator) :
    Outcome Coordinator (Except FilterError (List String)) :=
  match c.current.bind c.slot? with
  | none => .quiet (.error .noEngineReady) c
  | some s =>
    match s.search id (cost s.kind) with
    | (none, _) => .quiet (.error .noEngineReady) c
    | (some uris, searched) =>
      .quiet (.ok uris) ((c.setSlot searched).shadow s.kind id cost)

/-- Searches in the engine of one kind alone. -/
def searchSlot (kind : EngineKind) (id : Identifier) (nanoseconds : Nat) (c : Coordinator) :
    Outcome Coordinator (Except FilterError (Option (List String))) :=
  c.onSlot kind fun s =>
    let (uris, searched) := s.search id nanoseconds
    .quiet (.ok uris) searched

/-- Reports a statistics window for every complete engine. -/
def publishStats (c : Coordinator) : Outcome Coordinator Unit :=
  c.onSlots fun s =>
    if s.isSearchable then s.reportStats.map fun _ => () else .quiet () s

def recordThroughput (kind : EngineKind) (micros : Float) (c : Coordinator) : Coordinator :=
  { c with throughput := c.throughput.insert kind micros }

/-- The structure of the current engine. -/
def dump (c : Coordinator) : Option String :=
  ((c.current.bind c.slot?).bind EngineSlot.engine).map Engine.dump

/-- Replays identifiers through the current engine without changing it. -/
def analyze (ids : List Identifier) (c : Coordinator) : Except FilterError Report :=
  match (c.current.bind c.slot?).bind EngineSlot.engine with
  | some engine => .ok (Report.analyze engine ids)
  | none => .error .noEngineReady

def withKind {α : Type} (name : String) (c : Coordinator)
    (f : EngineKind → Outcome Coordinator (Except FilterError α)) :
    Outcome Coordinator (Except FilterError α) :=
  match EngineKind.ofName? name with
  | some kind => f kind
  | none => .quiet (.error (.invalidConfig (.unknownEngine name))) c

/-- Acts on one event. -/
def handle (event : Event) (c : Coordinator) : Outcome Coordinator (Except FilterError Unit) :=
  match event with
  | .addSubscription pattern uri => (c.add pattern.toList uri).map (·.map fun _ => ())
  | .deleteSubscription pattern uri => c.delete pattern.toList uri
  | .engineGenerated engine =>
    c.withKind engine fun kind => (c.onGenerated kind).map (·.map fun _ => ())
  | .engineStatus engine micros =>
    c.withKind engine fun kind => .quiet (.ok ()) (c.recordThroughput kind micros)
  | .trafficStat _ _ _ => .quiet (.ok ()) c
  | .selectedEngine _ => .quiet (.ok ()) c

end Coordinator
end TagFilter
