/-! # Lifecycle of an engine

An engine is built once and then alternates between being ready, serving and
being updated. `next?` is the table of accepted events; only a ready or deployed
engine has a complete structure to search.
-/
namespace TagFilter

inductive EngineState where
  | unavailable
  | generating
  | pending
  | ready
  | deployed
  deriving DecidableEq, Repr

inductive LifecycleEvent where
  | init
  | generated
  | deploy
  | update
  | retire
  deriving DecidableEq, Repr

namespace EngineState

def all : List EngineState := [unavailable, generating, pending, ready, deployed]

def name : EngineState → String
  | unavailable => "Unavailable"
  | generating => "Generating"
  | pending => "Pending"
  | ready => "Ready"
  | deployed => "Deployed"

/-- How a state is shown to an operator. -/
def display : EngineState → String
  | unavailable => "unavailable"
  | generating => "generating"
  | pending => "pending"
  | ready => "ready"
  | deployed => "deployed"

def isSearchable (s : EngineState) : Bool := s = ready || s = deployed

def next? : EngineState → LifecycleEvent → Option EngineState
  | unavailable, .init => some generating
  | generating, .generated => some ready
  | pending, .generated => some ready
  | ready, .deploy => some deployed
  | generating, .update => some pending
  | pending, .update => some pending
  | ready, .update => some pending
  | deployed, .update => some pending
  | deployed, .retire => some ready
  | _, _ => none

end EngineState

namespace LifecycleEvent

def all : List LifecycleEvent := [init, generated, deploy, update, retire]

def name : LifecycleEvent → String
  | init => "Init"
  | generated => "Generated"
  | deploy => "Deploy"
  | update => "Update"
  | retire => "Retire"

end LifecycleEvent

/-- A state with the number of events accepted so far. -/
structure Lifecycle where
  state : EngineState
  transitions : Nat
  deriving DecidableEq, Repr

namespace Lifecycle

def fresh : Lifecycle := ⟨.unavailable, 0⟩

def accepts (l : Lifecycle) (event : LifecycleEvent) : Bool := (l.state.next? event).isSome

/-- The lifecycle after an event, none when it is not accepted. -/
def fire? (l : Lifecycle) (event : LifecycleEvent) : Option Lifecycle :=
  (l.state.next? event).map fun state => ⟨state, l.transitions + 1⟩

end Lifecycle
end TagFilter
