import TagFilter.Engine.Basic

/-! # Deleting in place

Deleting works on an index where it lies. A tree takes apart the chains on the way to
a pattern and puts them together again, and only below them does it find out whether
the pattern is there with the given URI. So each operation here gives, beside the
answer, the index as it is afterwards, whatever the answer is.
-/
namespace TagFilter

def SortedList.remove (pattern : Pattern) (uri : String) (entries : SortedList) :
    Bool × SortedList :=
  match entries.place pattern with
  | .found i =>
    if entries[i]?.map ListEntry.uri = some uri then (true, entries.eraseIdx i) else (false, entries)
  | .absent _ => (false, entries)

/-- Branches that lost something are compacted on the way back up. -/
def Trie.remove (pattern : Pattern) (uri : String) : Trie → Bool × Trie
  | empty => (false, empty)
  | node held filter one zero =>
    match pattern.dropSize? filter.offset with
    | none => (false, node held filter one zero)
    | some rest =>
      if filter.pattern.isPrefixOf rest then
        let below := rest.drop filter.pattern.length
        if below = [] then
          if held = some uri then (true, compact (node none filter one zero))
          else (false, node held filter one zero)
        else if Pattern.turnsToOne below then
          let (removed, one) := remove pattern uri one
          let left := node held filter one zero
          (removed, if removed then compact left else left)
        else
          let (removed, zero) := remove pattern uri zero
          let left := node held filter one zero
          (removed, if removed then compact left else left)
      else (false, node held filter one zero)

namespace WeightedTree

/-- What a removal makes of a chain: the nodes that stay linked, and those that are
still to be placed among them. -/
structure Removal where
  removed : Bool
  chain : WeightedTree
  freed : WeightedTree

/-- The chain that is put together again. -/
def Removal.relinked (r : Removal) : WeightedTree := placeAll r.freed r.chain

/-- Takes a pattern out of a chain, or out of the chain below the first branch that
is a proper prefix of it. -/
def takeOut (uri : String) : Pattern → WeightedTree → Removal
  | _, .nil => ⟨false, .nil, .nil⟩
  | pattern, .node b below rest =>
    let prior := b.filter.pattern
    if prior.isPrefixOf pattern then
      if prior.length < pattern.length then
        let inner := takeOut uri (pattern.drop prior.length) below
        ⟨inner.removed, .node b inner.relinked rest, .nil⟩
      else if b.uri = uri then ⟨true, rest, below.mapRoots (promoted b.filter)⟩
      else ⟨false, .node b below rest, .nil⟩
    else
      let later := takeOut uri pattern rest
      ⟨later.removed, .node b below later.chain, later.freed⟩

def remove (pattern : Pattern) (uri : String) (t : WeightedTree) : Bool × WeightedTree :=
  let outcome := takeOut uri pattern t
  (outcome.removed, outcome.relinked)

end WeightedTree

namespace Engine

def takeOut (engine : Engine) (pattern : Pattern) (uri : String) : Bool × Engine :=
  match engine with
  | list entries => (entries.remove pattern uri).map id list
  | patriciaTrie trie => (trie.remove pattern uri).map id patriciaTrie
  | weightedTree tree => (WeightedTree.remove pattern uri tree).map id weightedTree
  | splayTree tree => (WeightedTree.remove pattern uri tree).map id splayTree

/-- Removes a pattern that is there with exactly the given URI. The second part is
the engine afterwards. -/
def remove (engine : Engine) (pattern : Pattern) (uri : String) :
    Except FilterError Unit × Engine :=
  let (removed, left) := engine.takeOut pattern uri
  (if removed then .ok () else .error (.notFound pattern uri), left)

end Engine
end TagFilter
