import TagFilter.Engine.Kind
import TagFilter.Event

/-! # Traffic counters

How many identifiers an engine searched, how many of them it reported to anyone,
and the time this took. Times are counted in nanoseconds with sixty-four bits
and wrap around. A window is read and reset at once, and told on the event bus.
-/
namespace TagFilter

structure Metrics where
  events : Nat
  matched : Nat
  searchTime : UInt64
  deriving DecidableEq, Repr

namespace Metrics

def fresh : Metrics := ⟨0, 0, 0⟩

def record (nanoseconds : Nat) (matched : Bool) (m : Metrics) : Metrics where
  events := m.events + 1
  matched := m.matched + if matched then 1 else 0
  searchTime := m.searchTime + UInt64.ofNat nanoseconds

/-- The counters, and what is left of them. -/
def takeWindow (m : Metrics) : Metrics × Metrics := (m, fresh)

/-- The average search time, none if nothing was searched. -/
def microsPerEvent? (m : Metrics) : Option Float :=
  if m.events = 0 then none
  else some (Float.ofNat m.searchTime.toNat / 1000 / Float.ofNat m.events)

def matchRate (m : Metrics) : Float :=
  if m.events = 0 then 0 else Float.ofNat m.matched / Float.ofNat m.events

/-- The events that report a statistics window. The cost of a search is reported
only if there was one. -/
def windowEvents (kind : EngineKind) (window : Metrics) : List Event :=
  .trafficStat kind.name window.events window.matched ::
    match window.microsPerEvent? with
    | some micros => [.engineStatus kind.name micros]
    | none => []

end Metrics
end TagFilter
