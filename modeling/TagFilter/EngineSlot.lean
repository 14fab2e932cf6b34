import TagFilter.Engine.Basic
import TagFilter.Metrics

/-! # Engine slots

A slot holds the engine of one kind for its whole life. A build starts from a
snapshot of the subscriptions and finishes later; changes that arrive meanwhile
wait in a backlog and are applied to the new engine before it is announced. At
other times a change is applied at once and the engine announced again.
-/
namespace TagFilter

/-- One change of the subscriptions. -/
inductive Change where
  | add (pattern : Pattern) (uri : String)
  | delete (pattern : Pattern) (uri : String)
  deriving DecidableEq, Repr

def Change.apply (change : Change) (engine : Engine) : Except FilterError Engine :=
  match change with
  | .add pattern uri => .ok (engine.add pattern uri)
  | .delete pattern uri => engine.delete pattern uri

/-- A change that fails leaves the engine as it was. -/
def Change.applyOrKeep (engine : Engine) (change : Change) : Engine :=
  match change.apply engine with
  | .ok changed => changed
  | .error _ => engine

structure EngineSlot where
  kind : EngineKind
  lifecycle : Lifecycle
  backlog : List Change
  engine : Option Engine
  /-- The snapshot that a build in flight started from. -/
  build : Option Subscriptions
  metrics : Metrics

namespace EngineSlot

def fresh (kind : EngineKind) : EngineSlot :=
  ⟨kind, Lifecycle.fresh, [], none, none, Metrics.fresh⟩

def state (s : EngineSlot) : EngineState := s.lifecycle.state

def isSearchable (s : EngineSlot) : Bool := s.state.isSearchable

def fire (event : LifecycleEvent) (s : EngineSlot) : Except FilterError EngineSlot :=
  match s.lifecycle.fire? event with
  | some lifecycle => .ok { s with lifecycle }
  | none => .error (.invalidTransition s.state event)

def announcement (s : EngineSlot) : Event := .engineGenerated s.kind.name

/-- Starts a build from a snapshot. -/
def init (subs : Subscriptions) (s : EngineSlot) : Except FilterError EngineSlot := do
  let s ← s.fire .init
  return { s with build := some subs }

/-- Finishes the build in flight, if there is one. -/
def finish (s : EngineSlot) : Outcome EngineSlot Unit :=
  match s.build with
  | none => .quiet () s
  | some subs =>
    let engine := s.backlog.foldl Change.applyOrKeep (Engine.build s.kind subs)
    let installed := { s with backlog := [], engine := some engine, build := none }
    match installed.fire .generated with
    | .ok done => ⟨(), done, [done.announcement]⟩
    | .error _ => .quiet () installed

/-- Whether a change has to wait for a build. -/
def isBuilding (s : EngineSlot) : Bool := s.state = .generating || s.state = .pending

/-- Applies a change to the engine. The second part is the engine afterwards. -/
def applied (change : Change) : Option Engine → Except FilterError Unit × Option Engine
  | none => (.ok (), none)
  | some engine =>
    match change.apply engine with
    | .ok changed => (.ok (), some changed)
    | .error error => (.error error, some engine)

def update (change : Change) (s : EngineSlot) : Outcome EngineSlot (Except FilterError Unit) :=
  match s.fire .update with
  | .error error => .quiet (.error error) s
  | .ok updating =>
    if s.isBuilding then
      .quiet (.ok ()) { updating with backlog := updating.backlog ++ [change] }
    else
      let (answer, engine) := applied change updating.engine
      let changed := { updating with engine }
      match changed.fire .generated with
      | .ok done => ⟨answer, done, [done.announcement]⟩
      | .error error => .quiet (.error error) changed

def deploy (s : EngineSlot) : Except FilterError EngineSlot := s.fire .deploy

def retire (s : EngineSlot) : Except FilterError EngineSlot := s.fire .retire

/-- Searches a complete engine, and counts the search with the time it took. -/
def search (id : Identifier) (nanoseconds : Nat) (s : EngineSlot) :
    Option (List String) × EngineSlot :=
  match if s.isSearchable then s.engine else none with
  | none => (none, s)
  | some engine =>
    let (uris, engine) := engine.searchAdaptive id
    (some uris,
      { s with engine := some engine, metrics := s.metrics.record nanoseconds (uris ≠ []) })

def reportStats (s : EngineSlot) : Outcome EngineSlot Metrics :=
  let (window, metrics) := s.metrics.takeWindow
  ⟨window, { s with metrics }, window.windowEvents s.kind⟩

end EngineSlot
end TagFilter
