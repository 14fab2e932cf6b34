import TagFilter.Filter
import TagFilter.Subscription.Nesting

/-! # Weight-ordered tree

The top-level subscriptions form a chain that is searched in order, the heaviest
first. What extends a pattern lies below it and holds only the remaining bits.
No pattern of a chain is a prefix of another, so at most one matches and the
search leaves the chain there. `add` and `delete?` place nodes by the same order
as `build`: descending weight of the whole subtree, then pattern.
-/
namespace TagFilter

structure Branch where
  uri : String
  filter : Filter
  weight : Weight
  deriving DecidableEq, Repr

abbrev WeightedTree := Forest Branch

namespace WeightedTree

/-- The branches of one level with the weights they are sorted by. -/
def growSiblings : Subscriptions → List (Weight × Branch × WeightedTree)
  | .nil => []
  | .node s below rest =>
    let sorted := (growSiblings below).mergeSort fun a b => b.1.rank ≤ a.1.rank
    (Subscriptions.weightOf s below,
      ⟨s.uri, Filter.encode s.pattern s.offset, s.weight⟩,
      Forest.ofSiblings (sorted.map (·.2))) :: growSiblings rest

/-- Sorts every level, heaviest first; equal weights stay in pattern order. -/
def grow (subs : Subscriptions) : WeightedTree :=
  Forest.ofSiblings
    (((growSiblings subs).mergeSort fun a b => b.1.rank ≤ a.1.rank).map (·.2))

def build (subs : Subscriptions) : WeightedTree := grow subs.nested

def weightOf (b : Branch) (below : WeightedTree) : Weight :=
  Forest.treeWeight Branch.weight b below

/-- Whether a branch stands before another in a chain. -/
def precedes (a : Branch × WeightedTree) (b : Branch × WeightedTree) : Bool :=
  let left := (weightOf a.1 a.2).rank
  let right := (weightOf b.1 b.2).rank
  right < left || (left = right && a.1.filter.pattern < b.1.filter.pattern)

/-- Puts a branch before the first that it precedes. -/
def place (b : Branch) (below : WeightedTree) : WeightedTree → WeightedTree
  | .nil => .node b below .nil
  | .node c subset rest =>
    if precedes (b, below) (c, subset) then .node b below (.node c subset rest)
    else .node c subset (place b below rest)

/-- Places the branches of one level one after the other. -/
def placeAll : WeightedTree → WeightedTree → WeightedTree
  | .nil, chain => chain
  | .node b below rest, chain => placeAll rest (place b below chain)

/-- A branch seen from below a parent with the given pattern. -/
def demoted (parent : Pattern) (b : Branch) : Branch :=
  let remaining := b.filter.pattern.drop parent.length
  { b with filter := Filter.encode remaining (b.filter.offset + parent.size) }

/-- A branch moved up into the place of its parent. -/
def promoted (parent : Filter) (b : Branch) : Branch :=
  { b with filter := Filter.encode (parent.pattern ++ b.filter.pattern) parent.offset }

/-- Adds a pattern that no branch of the chain is a prefix of. Branches that
extend it move below it. -/
def addNew (pattern : Pattern) (offset : Nat) (uri : String) (chain : WeightedTree) :
    WeightedTree :=
  let isExtension (b : Branch) : Bool := pattern.isPrefixOf b.filter.pattern
  let below := (chain.filterRoots isExtension).mapRoots (demoted pattern)
  place ⟨uri, Filter.encode pattern offset, Weight.zero⟩ below
    (chain.filterRoots fun b => !isExtension b)

/-- Adds a pattern at or below the first branch that is a prefix of it, if there
is one in the chain. -/
def addBelow? (uri : String) : Pattern → Nat → WeightedTree → Option WeightedTree
  | _, _, .nil => none
  | pattern, offset, .node b below rest =>
    let prior := b.filter.pattern
    if prior.isPrefixOf pattern then
      if prior.length = pattern.length then some (.node { b with uri } below rest)
      else
        let remaining := pattern.drop prior.length
        let next := offset + prior.size
        some (.node b
          ((addBelow? uri remaining next below).getD (addNew remaining next uri below)) rest)
    else (addBelow? uri pattern offset rest).map (.node b below ·)

def add (pattern : Pattern) (uri : String) (t : WeightedTree) : WeightedTree :=
  (addBelow? uri pattern 0 t).getD (addNew pattern 0 uri t)

/-- Takes out a pattern that is there with the given URI. Beside what remains of
the chain come the branches that lay below it, to be placed in the same chain. -/
def detach? (uri : String) : Pattern → WeightedTree → Option (WeightedTree × WeightedTree)
  | _, .nil => none
  | pattern, .node b below rest =>
    let prior := b.filter.pattern
    if prior.isPrefixOf pattern then
      if prior.length < pattern.length then
        (detach? uri (pattern.drop prior.length) below).map fun (remaining, freed) =>
          (.node b (placeAll freed remaining) rest, .nil)
      else if b.uri = uri then some (rest, below.mapRoots (promoted b.filter))
      else none
    else (detach? uri pattern rest).map fun (remaining, freed) =>
      (.node b below remaining, freed)

/-- Removes a pattern that is there with the given URI. -/
def delete? (pattern : Pattern) (uri : String) (t : WeightedTree) : Option WeightedTree :=
  (detach? uri pattern t).map fun (remaining, freed) => placeAll freed remaining

def search (id : Identifier) : WeightedTree → List String
  | .nil => []
  | .node b below rest =>
    if b.filter.accepts id then b.uri :: search id below else search id rest

/-- The patterns of the top-level chain, in search order. -/
def chainPatterns (t : WeightedTree) : List Pattern := t.labels.map (·.filter.pattern)

/-- The lines of a chain whose head has its own indentation written already. -/
def dumpFrom (indent : Nat) (lead : List Char) : WeightedTree → List Char
  | .nil => []
  | .node b below rest =>
    let deeper := List.replicate (indent + 2) ' '
    lead ++ ("--" ++ b.filter.display ++ " -> " ++ b.uri ++ "\n").toList ++
      dumpFrom (indent + 2) (deeper ++ ['o', 'k']) below ++
      dumpFrom (indent + 2) (deeper ++ ['n', 'g']) rest

def dump (t : WeightedTree) : String := String.ofList (dumpFrom 0 [] t)

end WeightedTree
end TagFilter
