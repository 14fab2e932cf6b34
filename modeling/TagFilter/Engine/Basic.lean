import TagFilter.Engine.SortedList
import TagFilter.Engine.SplayTree
import TagFilter.Engine.Trie

/-! # Engines

An index of any kind. All kinds answer the same searches; they differ in layout,
in what a search costs and in how a search may change them.
-/
namespace TagFilter

inductive Engine where
  | list (entries : SortedList)
  | patriciaTrie (trie : Trie)
  | weightedTree (tree : WeightedTree)
  | splayTree (tree : SplayTree)
  deriving DecidableEq, Repr

namespace Engine

def kind : Engine → EngineKind
  | list _ => .list
  | patriciaTrie _ => .patriciaTrie
  | weightedTree _ => .weightedTree
  | splayTree _ => .splayTree

def build (kind : EngineKind) (subs : Subscriptions) : Engine :=
  match kind with
  | .list => list (SortedList.build subs)
  | .patriciaTrie => patriciaTrie (Trie.build subs)
  | .weightedTree => weightedTree (WeightedTree.build subs)
  | .splayTree => splayTree (WeightedTree.build subs)

@[simp] theorem kind_build (kind : EngineKind) (subs : Subscriptions) :
    (build kind subs).kind = kind := by cases kind <;> rfl

/-- The URIs of the patterns that an identifier matches. -/
def search (engine : Engine) (id : Identifier) : List String :=
  match engine with
  | list entries => entries.search id
  | patriciaTrie trie => trie.search id
  | weightedTree tree => WeightedTree.search id tree
  | splayTree tree => WeightedTree.search id tree

/-- Searches, and lets an index of the self-adjusting kind change its order. -/
def searchAdaptive (engine : Engine) (id : Identifier) : List String × Engine :=
  match engine with
  | splayTree tree =>
    let (uris, tree) := SplayTree.searchAdaptive id tree
    (uris, splayTree tree)
  | other => (other.search id, other)

/-- Adds a pattern, or replaces the URI of one that is there. -/
def add (engine : Engine) (pattern : Pattern) (uri : String) : Engine :=
  match engine with
  | list entries => list (entries.add pattern uri)
  | patriciaTrie trie => patriciaTrie (trie.add pattern uri)
  | weightedTree tree => weightedTree (WeightedTree.add pattern uri tree)
  | splayTree tree => splayTree (WeightedTree.add pattern uri tree)

def delete? (engine : Engine) (pattern : Pattern) (uri : String) : Option Engine :=
  match engine with
  | list entries => (entries.delete? pattern uri).map list
  | patriciaTrie trie => (trie.delete? pattern uri).map patriciaTrie
  | weightedTree tree => (WeightedTree.delete? pattern uri tree).map weightedTree
  | splayTree tree => (WeightedTree.delete? pattern uri tree).map splayTree

/-- Removes a pattern that is there with exactly the given URI. -/
def delete (engine : Engine) (pattern : Pattern) (uri : String) : Except FilterError Engine :=
  match engine.delete? pattern uri with
  | some engine => .ok engine
  | none => .error (.notFound pattern uri)

def dump : Engine → String
  | list entries => entries.dump
  | patriciaTrie trie => trie.dump
  | weightedTree tree => WeightedTree.dump tree
  | splayTree tree => WeightedTree.dump tree

/-- The number of subscriptions held. -/
def count : Engine → Nat
  | list entries => entries.length
  | patriciaTrie trie => trie.count
  | weightedTree tree => tree.size
  | splayTree tree => tree.size

/-- The order of the top-level chain, for the kinds that have one. -/
def chainPatterns? : Engine → Option (List Pattern)
  | weightedTree tree => some (WeightedTree.chainPatterns tree)
  | splayTree tree => some (WeightedTree.chainPatterns tree)
  | _ => none

end Engine
end TagFilter
