import TagFilter.Error
import TagFilter.Forest

/-! # Subscriptions

A subscription sends the identifiers that a pattern matches to a report URI, and
says how much traffic is expected. A map of subscriptions is a forest whose
levels are in increasing pattern order. Maps made by `insert` are flat: their
patterns start at bit zero and have nothing below them. `Nesting` makes deeper
ones, where a pattern holds what follows the patterns above it.
-/
namespace TagFilter

structure Subscription where
  pattern : Pattern
  uri : String
  weight : Weight
  offset : Nat
  deriving DecidableEq, Repr

abbrev Subscriptions := Forest Subscription

namespace Subscriptions

/-- Puts a tree at its place, instead of one with the same pattern. -/
def put (s : Subscription) (below : Subscriptions) : Subscriptions → Subscriptions
  | .nil => .node s below .nil
  | .node t subset rest =>
    if s.pattern < t.pattern then .node s below (.node t subset rest)
    else if s.pattern = t.pattern then .node s below rest
    else .node t subset (put s below rest)

/-- Puts a tree at its place unless its pattern is already there. -/
def putNew (s : Subscription) (below : Subscriptions) : Subscriptions → Subscriptions
  | .nil => .node s below .nil
  | .node t subset rest =>
    if s.pattern < t.pattern then .node s below (.node t subset rest)
    else if s.pattern = t.pattern then .node t subset rest
    else .node t subset (putNew s below rest)

/-- A map of trees, with any patterns and anything below them. A tree that comes later
replaces one with the same pattern. -/
def collect (trees : List (Subscription × Subscriptions)) : Subscriptions :=
  trees.foldl (fun level tree => put tree.1 tree.2 level) .nil

/-- Adds a top-level subscription, or replaces the one with the same pattern.
An empty pattern would be a prefix of all others and is refused. -/
def insert (pattern : Pattern) (uri : String) (weight : Weight) (subs : Subscriptions) :
    Except FilterError Subscriptions := do
  if pattern = [] then throw .emptyPattern
  pattern.validate false
  return put ⟨pattern, uri, weight, 0⟩ .nil subs

def get? (subs : Subscriptions) (pattern : Pattern) : Option (Subscription × Subscriptions) :=
  subs.findRoot? fun s => s.pattern = pattern

def erase (pattern : Pattern) (subs : Subscriptions) : Subscriptions :=
  subs.filterRoots fun s => s.pattern ≠ pattern

def count (subs : Subscriptions) : Nat := subs.siblings.length

def patterns (subs : Subscriptions) : List Pattern := subs.labels.map Subscription.pattern

/-- The own weight of a subscription and the weights of everything below it. -/
def weightOf (s : Subscription) (below : Subscriptions) : Weight :=
  Forest.treeWeight Subscription.weight s below

/-- The trees of the top level, heaviest first; equal weights stay in pattern order. -/
def byWeight (subs : Subscriptions) : List (Subscription × Subscriptions) :=
  subs.siblings.mergeSort fun a b => (weightOf b.1 b.2).rank ≤ (weightOf a.1 a.2).rank

/-- Whether two maps hold equal numbers and texts. A weight that is not a number
equals none, and the two zeros are equal. -/
def sameAs : Subscriptions → Subscriptions → Bool
  | .nil, .nil => true
  | .node s below rest, .node t below' rest' =>
    s.pattern = t.pattern && s.uri = t.uri && s.offset = t.offset &&
      s.weight.equals t.weight && sameAs below below' && sameAs rest rest'
  | _, _ => false

end Subscriptions
end TagFilter
