import TagFilter.OrderedMap

/-! # Visit counts

How often each node of an index is visited when identifiers are replayed. A
visit is counted for the labels on the way to the node, so a node reached in two
ways is counted apart. Every way ends with a marker that says whether it
matched.
-/
namespace TagFilter

structure LocalityMap where
  samples : Nat
  counts : OrderedMap (List String) Nat
  deriving DecidableEq, Repr

namespace LocalityMap

def fresh : LocalityMap := ⟨0, []⟩

def entryLabel : String := "Entry"
def matchLabel : String := "Match"
def mismatchLabel : String := "Mismatch"

def marker (matched : Bool) : String := if matched then matchLabel else mismatchLabel

/-- Counts one more identifier. -/
def sample (m : LocalityMap) : LocalityMap := { m with samples := m.samples + 1 }

/-- Counts a visit to the node at the end of a path. -/
def record (path : List String) (m : LocalityMap) : LocalityMap :=
  { m with counts := OrderedMap.alter path (fun count => count.getD 0 + 1) m.counts }

/-- Counts the marker below a path. -/
def recordEnd (path : List String) (matched : Bool) (m : LocalityMap) : LocalityMap :=
  record (path ++ [marker matched]) m

def visits (m : LocalityMap) (path : List String) : Nat := (m.counts.get? path).getD 0

end LocalityMap
end TagFilter
