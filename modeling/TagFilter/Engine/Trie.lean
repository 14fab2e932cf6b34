import TagFilter.Filter
import TagFilter.Subscription.Basic

/-! # Radix trie

Each node holds the longest common prefix of the patterns below it, from where
the node above ends. After a node matches, the next bit of the identifier
chooses the branch. Nodes without a URI have two branches: `add` splits a node
where a new pattern leaves it, and `delete?` merges what it leaves behind, so
the shape depends on the patterns alone.
-/
namespace TagFilter

inductive Trie where
  | empty
  | node (uri : Option String) (filter : Filter) (one zero : Trie)
  deriving DecidableEq, Repr

namespace Trie

instance : Inhabited Trie := ⟨empty⟩

/-- The rest of a pattern with its URI. -/
abbrev Entry := Pattern × String

/-- The trie of what follows at a bit offset. The first argument counts down
from more than the length of the longest entry. -/
def grow : Nat → List Entry → Nat → Trie
  | 0, _, _ => empty
  | _ + 1, [], _ => empty
  | steps + 1, entries, offset =>
    let edge := Pattern.longestCommonPrefix (entries.map (·.1))
    let rests := entries.map fun (p, uri) => (p.drop edge.length, uri)
    let below := rests.filter fun (p, _) => p ≠ []
    let next := offset + edge.size
    node ((rests.find? fun (p, _) => p = []).map (·.2)) (Filter.encode edge offset)
      (grow steps (below.filter fun (p, _) => p.turnsToOne) next)
      (grow steps (below.filter fun (p, _) => !p.turnsToOne) next)

def longest (entries : List Entry) : Nat := (entries.map (·.1.length)).foldl max 0

def build (subs : Subscriptions) : Trie :=
  let entries := subs.labels.map fun s => (s.pattern, s.uri)
  grow (longest entries + 2) entries 0

def leaf (pattern : Pattern) (offset : Nat) (uri : String) : Trie :=
  node (some uri) (Filter.encode pattern offset) empty empty

/-- Puts a branch where a pattern turns to, in place of what is there. -/
def branch (turn : Bool) (t : Trie) : Trie → Trie
  | empty => empty
  | node uri filter one zero => if turn then node uri filter t zero else node uri filter one t

/-- Adds the rest of a pattern at a bit offset. -/
def addAt (uri : String) : Pattern → Nat → Trie → Trie
  | rest, offset, empty => leaf rest offset uri
  | rest, offset, node held filter one zero =>
    let edge := filter.pattern
    let common := Pattern.commonPrefix edge rest
    let below := rest.drop common.length
    let next := offset + common.size
    if common.length = edge.length then
      if below = [] then node (some uri) filter one zero
      else if Pattern.turnsToOne below then node held filter (addAt uri below next one) zero
      else node held filter one (addAt uri below next zero)
    else
      let remaining := edge.drop common.length
      let lower := node held (Filter.encode remaining next) one zero
      let upper := branch (Pattern.turnsToOne remaining) lower
        (node none (Filter.encode common offset) empty empty)
      if below = [] then
        match upper with
        | empty => empty
        | node _ f o z => node (some uri) f o z
      else branch (Pattern.turnsToOne below) (leaf below next uri) upper

def add (pattern : Pattern) (uri : String) (t : Trie) : Trie := addAt uri pattern 0 t

/-- A node under the edge of a node that is dropped above it. -/
def merge (upper : Filter) : Trie → Trie
  | empty => empty
  | node uri filter one zero =>
    node uri (Filter.encode (upper.pattern ++ filter.pattern) upper.offset) one zero

/-- Drops a node without URI and branches, or merges it into its only branch. -/
def compact : Trie → Trie
  | empty => empty
  | node (some uri) filter one zero => node (some uri) filter one zero
  | node none filter one zero =>
    match one, zero with
    | empty, below => merge filter below
    | below, empty => merge filter below
    | one, zero => node none filter one zero

/-- Removes a pattern that is there with the given URI. -/
def delete? (pattern : Pattern) (uri : String) : Trie → Option Trie
  | empty => none
  | node held filter one zero => do
    let rest ← pattern.dropSize? filter.offset
    if filter.pattern.isPrefixOf rest then
      let below := rest.drop filter.pattern.length
      if below = [] then
        if held = some uri then some (compact (node none filter one zero)) else none
      else if Pattern.turnsToOne below then
        (delete? pattern uri one).map fun one => compact (node held filter one zero)
      else (delete? pattern uri zero).map fun zero => compact (node held filter one zero)
    else none

/-- An identifier that ends where a node does goes no further, and that is no
mismatch. -/
def search (id : Identifier) : Trie → List String
  | empty => []
  | node uri filter one zero =>
    if filter.accepts id then
      uri.toList ++ match id.bitAt (filter.endIn id) with
        | some true => search id one
        | some false => search id zero
        | none => []
    else []

/-- Nodes without a URI are labelled with their filter. -/
def label (uri : Option String) (filter : Filter) : String := uri.getD filter.display

def count : Trie → Nat
  | empty => 0
  | node uri _ one zero => (if uri.isSome then 1 else 0) + count one + count zero

def dumpAt (indent : Nat) : Trie → List Char
  | empty => []
  | node uri filter one zero =>
    let target := match uri with
      | some uri => " -> " ++ uri
      | none => ""
    List.replicate indent ' ' ++ ("--" ++ filter.display ++ target ++ "\n").toList ++
      dumpAt (indent + 2) one ++ dumpAt (indent + 2) zero

def dump (t : Trie) : String := String.ofList (dumpAt 0 t)

end Trie
end TagFilter
