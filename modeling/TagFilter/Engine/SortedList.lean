import TagFilter.Filter
import TagFilter.Subscription.Basic

/-! # Sorted list

The simplest index: filters in pattern order, found by halving, and all of them
compared with every identifier.
-/
namespace TagFilter

structure ListEntry where
  uri : String
  filter : Filter
  deriving DecidableEq, Repr

abbrev SortedList := List ListEntry

namespace SortedList

/-- Halves a stretch of `size` places from `base` until one is left, given how
the entry at each place compares with what is sought. -/
def bisect (order : Nat → Ordering) : Nat → Nat → Nat → Nat
  | 0, _, base => base
  | steps + 1, size, base =>
    if size ≤ 1 then base
    else
      let half := size / 2
      let middle := base + half
      bisect order steps (size - half) (if order middle = .gt then base else middle)

def orderAt (entries : SortedList) (pattern : Pattern) (i : Nat) : Ordering :=
  match entries[i]? with
  | some entry =>
    if entry.filter.pattern < pattern then .lt
    else if entry.filter.pattern = pattern then .eq
    else .gt
  | none => .gt

/-- Where a pattern is, or where it would have to be added. -/
inductive Place where
  | found (i : Nat)
  | absent (i : Nat)
  deriving DecidableEq, Repr

def place (entries : SortedList) (pattern : Pattern) : Place :=
  if entries = [] then .absent 0
  else
    let i := bisect (orderAt entries pattern) entries.length entries.length 0
    match orderAt entries pattern i with
    | .eq => .found i
    | .lt => .absent (i + 1)
    | .gt => .absent i

def build (subs : Subscriptions) : SortedList :=
  subs.labels.map fun s => ⟨s.uri, Filter.encode s.pattern 0⟩

def search (entries : SortedList) (id : Identifier) : List String :=
  (entries.filter fun entry => entry.filter.accepts id).map ListEntry.uri

def add (pattern : Pattern) (uri : String) (entries : SortedList) : SortedList :=
  match entries.place pattern with
  | .found i => entries.modify i fun entry => { entry with uri }
  | .absent i => entries.insertIdx i ⟨uri, Filter.encode pattern 0⟩

/-- Removes a pattern that is there with the given URI. -/
def delete? (pattern : Pattern) (uri : String) (entries : SortedList) : Option SortedList :=
  match entries.place pattern with
  | .found i => if entries[i]?.map ListEntry.uri = some uri then some (entries.eraseIdx i) else none
  | .absent _ => none

def dump (entries : SortedList) : String :=
  String.join (entries.map fun entry => entry.filter.display ++ " -> " ++ entry.uri ++ "\n")

end SortedList
end TagFilter
