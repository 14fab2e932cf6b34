import TagFilter.Engine.Basic
import TagFilter.Locality.Visits

/-! # Tracing

An identifier that is traced goes through an index as if it were searched, and each
node is counted when it gets there. Where the way ends depends on the index: the list
is compared to its end, the trie is left at the first node that does not match or has
nowhere to go, and the tree at a branch with nothing below or beside it. Tracing
changes nothing in the index.
-/
namespace TagFilter
open LocalityMap

/-- Goes on from an entry, given the labels before it and whether any of them matched. -/
def SortedList.traceFrom (id : Identifier) (path : List String) (matched : Bool) :
    SortedList → LocalityMap → LocalityMap
  | [], m => recordEnd path matched m
  | entry :: rest, m =>
    let path := path ++ [entry.uri]
    traceFrom id path (matched || entry.filter.accepts id) rest (record path m)

/-- Goes on from a node. The end counts as a match if a node with a URI matched. -/
def Trie.traceFrom (id : Identifier) (path : List String) (matched : Bool) :
    Trie → LocalityMap → LocalityMap
  | empty, m => recordEnd path matched m
  | node uri filter one zero, m =>
    let path := path ++ [label uri filter]
    let m := record path m
    if filter.accepts id then
      let matched := matched || uri.isSome
      match id.bitAt (filter.endIn id) with
      | some true => traceFrom id path matched one m
      | some false => traceFrom id path matched zero m
      | none => recordEnd path matched m
    else recordEnd path matched m

namespace WeightedTree

/-- Counts the end of a way that does not go on. -/
def recordIfLast (path : List String) (matched : Bool) (next : WeightedTree) (m : LocalityMap) :
    LocalityMap :=
  if next.isEmpty then recordEnd path matched m else m

/-- Goes on from a branch. The end says how the last branch compared. -/
def traceFrom (id : Identifier) (path : List String) : WeightedTree → LocalityMap → LocalityMap
  | .nil, m => m
  | .node b below rest, m =>
    let path := path ++ [b.uri]
    let m := record path m
    if b.filter.accepts id then traceFrom id path below (recordIfLast path true below m)
    else traceFrom id path rest (recordIfLast path false rest m)

def trace (id : Identifier) (t : WeightedTree) (m : LocalityMap) : LocalityMap :=
  if t.isEmpty then recordEnd [] false m else traceFrom id [] t m

end WeightedTree

def Engine.trace (id : Identifier) (engine : Engine) (m : LocalityMap) : LocalityMap :=
  match engine with
  | list entries => entries.traceFrom id [] false m
  | patriciaTrie trie => trie.traceFrom id [] false m
  | weightedTree tree => WeightedTree.trace id tree m
  | splayTree tree => WeightedTree.trace id tree m

/-- Counts the ways of a list of identifiers. -/
def LocalityMap.trace (engine : Engine) (ids : List Identifier) : LocalityMap :=
  ids.foldl (fun m id => engine.trace id (sample m)) fresh

end TagFilter
