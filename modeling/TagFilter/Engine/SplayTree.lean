import TagFilter.Engine.WeightedTree

/-! # Self-adjusting tree

A weight-ordered tree whose adaptive search moves the top-level branch that
matches to the front of its chain. Deeper chains keep their order.
-/
namespace TagFilter

abbrev SplayTree := Forest Branch

namespace SplayTree

/-- Takes out the first top-level branch that accepts an identifier. -/
def extract? (id : Identifier) : SplayTree → Option (Branch × SplayTree × SplayTree)
  | .nil => none
  | .node b below rest =>
    if b.filter.accepts id then some (b, below, rest)
    else (extract? id rest).map fun (c, subset, others) => (c, subset, .node b below others)

def moveToFront (id : Identifier) (t : SplayTree) : SplayTree :=
  match extract? id t with
  | some (b, below, others) => .node b below others
  | none => t

/-- Searches, and leaves the matching branch in front. -/
def searchAdaptive (id : Identifier) (t : SplayTree) : List String × SplayTree :=
  let moved := moveToFront id t
  (WeightedTree.search id moved, moved)

end SplayTree
end TagFilter
