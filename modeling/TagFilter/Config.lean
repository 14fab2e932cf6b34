import TagFilter.Error
import TagFilter.Json.Record
import TagFilter.OrderedMap

/-! # Configuration of the coordinator

Which engines are built, and how the one that serves is chosen: a finished
engine displaces the current one only if its priority is strictly higher. An
engine that the table does not list has priority zero.
-/
namespace TagFilter

structure Config where
  engines : List EngineKind
  priorities : OrderedMap EngineKind Nat
  statIntervalSecs : Nat
  shadowSearch : Bool
  channelCapacity : Nat
  deriving DecidableEq, Repr

namespace Config

/-- Table entries are single bytes. -/
def priorityLimit : Nat := 256

def defaultPriorities : OrderedMap EngineKind Nat :=
  OrderedMap.ofList [(.list, 1), (.weightedTree, 2), (.splayTree, 3), (.patriciaTrie, 4)]

def default : Config where
  engines := EngineKind.all
  priorities := defaultPriorities
  statIntervalSecs := 5
  shadowSearch := false
  channelCapacity := 1000

instance : Inhabited Config := ⟨default⟩

def priority (c : Config) (kind : EngineKind) : Nat := (c.priorities.get? kind).getD 0

/-- Whether a candidate displaces the current engine, by their priorities. -/
def displaces (current candidate : Nat) : Bool := current < candidate

/-- The first engine that is listed a second time. -/
def firstRepeated : List EngineKind → List EngineKind → Option EngineKind
  | _, [] => none
  | seen, kind :: rest => if kind ∈ seen then some kind else firstRepeated (kind :: seen) rest

def fault? (c : Config) : Option ConfigFault :=
  if c.engines = [] then some .noEngines
  else
    match firstRepeated [] c.engines with
    | some kind => some (.repeatedEngine kind)
    | none =>
      if c.statIntervalSecs = 0 then some .zeroInterval
      else if c.channelCapacity = 0 then some .zeroCapacity
      else none

def validate (c : Config) : Except FilterError Unit :=
  match c.fault? with
  | some fault => .error (.invalidConfig fault)
  | none => .ok ()

def withPriority (kind : EngineKind) (priority : Nat) (c : Config) : Config :=
  { c with priorities := c.priorities.insert kind priority }

def toJson (c : Config) : Json.Value :=
  .record
    [("engines", .array (c.engines.map fun kind => .ofText kind.name)),
      ("priorities", .record (c.priorities.map fun (kind, n) => (kind.name, .ofNat n))),
      ("stat_interval_secs", .ofNat c.statIntervalSecs),
      ("shadow_search", .bool c.shadowSearch),
      ("channel_capacity", .ofNat c.channelCapacity)]

def kindOfJson? (value : Json.Value) : Option EngineKind :=
  value.caseName?.bind EngineKind.ofExactName?

/-- A later entry for the same engine counts. -/
def prioritiesOfJson? : Json.Value → Option (OrderedMap EngineKind Nat)
  | .object members => do
    let entries ← members.mapM fun (key, value) => do
      return (← EngineKind.ofExactName? (← key), ← value.nat? priorityLimit)
    return OrderedMap.ofList entries
  | _ => none

def ofJson? (value : Json.Value) : Option Config := do
  let [engines, priorities, interval, shadow, capacity] ←
    value.fields? ["engines", "priorities", "stat_interval_secs", "shadow_search",
      "channel_capacity"] | none
  let .array engines ← engines | none
  return {
    engines := ← engines.mapM kindOfJson?
    priorities := ← prioritiesOfJson? (← priorities)
    statIntervalSecs := ← (← interval).nat? Json.wordLimit
    shadowSearch := ← (← shadow).bool?
    channelCapacity := ← (← capacity).nat? Json.wordLimit }

end Config

/-- Settings that are given; the others keep their defaults. -/
structure ConfigDraft where
  engines : Option (List EngineKind) := none
  priorities : OrderedMap EngineKind Nat := []
  statIntervalSecs : Option Nat := none
  shadowSearch : Option Bool := none
  channelCapacity : Option Nat := none
  deriving DecidableEq, Repr

namespace ConfigDraft

def complete (d : ConfigDraft) : Config where
  engines := d.engines.getD Config.default.engines
  priorities := d.priorities.foldl (fun table entry => table.insert entry.1 entry.2)
    Config.default.priorities
  statIntervalSecs := d.statIntervalSecs.getD Config.default.statIntervalSecs
  shadowSearch := d.shadowSearch.getD Config.default.shadowSearch
  channelCapacity := d.channelCapacity.getD Config.default.channelCapacity

def build (d : ConfigDraft) : Except FilterError Config := do
  d.complete.validate
  return d.complete

end ConfigDraft
end TagFilter
