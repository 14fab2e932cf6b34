import TagFilter.Weight

/-! # Forests

Ordered forests of labelled trees. A node holds its label, the forest below it
(its subset) and the siblings that follow it, so every function on forests is
a structural recursion. `siblings` views one level as a list.
-/
namespace TagFilter

inductive Forest (α : Type) where
  | nil
  | node (label : α) (subset rest : Forest α)
  deriving DecidableEq, Repr

namespace Forest

variable {α β : Type}

instance : Inhabited (Forest α) := ⟨nil⟩

/-- The roots of a level with what is below each. -/
def siblings : Forest α → List (α × Forest α)
  | nil => []
  | node label subset rest => (label, subset) :: rest.siblings

def ofSiblings : List (α × Forest α) → Forest α
  | [] => nil
  | (label, subset) :: rest => node label subset (ofSiblings rest)

@[simp] theorem siblings_ofSiblings (trees : List (α × Forest α)) :
    (ofSiblings trees).siblings = trees := by
  induction trees with
  | nil => rfl
  | cons tree rest ih => simp [ofSiblings, siblings, ih]

@[simp] theorem ofSiblings_siblings (f : Forest α) : ofSiblings f.siblings = f := by
  induction f with
  | nil => rfl
  | node label subset rest _ ih => simp [ofSiblings, siblings, ih]

def labels (f : Forest α) : List α := f.siblings.map (·.1)

/-- The number of nodes at all levels. -/
def size : Forest α → Nat
  | nil => 0
  | node _ subset rest => 1 + subset.size + rest.size

def isEmpty : Forest α → Bool
  | nil => true
  | node _ _ _ => false

def append : Forest α → Forest α → Forest α
  | nil, g => g
  | node label subset rest, g => node label subset (rest.append g)

@[simp] theorem siblings_append (f g : Forest α) :
    (f.append g).siblings = f.siblings ++ g.siblings := by
  induction f with
  | nil => rfl
  | node label subset rest _ ih => simp [append, siblings, ih]

/-- Changes the labels of one level and leaves everything below as it is. -/
def mapRoots (f : α → α) : Forest α → Forest α
  | nil => nil
  | node label subset rest => node (f label) subset (rest.mapRoots f)

/-- Keeps the trees of one level whose root passes a test. -/
def filterRoots (keep : α → Bool) : Forest α → Forest α
  | nil => nil
  | node label subset rest =>
    if keep label then node label subset (rest.filterRoots keep) else rest.filterRoots keep

/-- The first root that passes a test, with what is below it. -/
def findRoot? (p : α → Bool) : Forest α → Option (α × Forest α)
  | nil => none
  | node label subset rest => if p label then some (label, subset) else rest.findRoot? p

/-- Changes the first tree whose root passes a test, or ends the level with one
made from a fresh root. -/
def upsert (p : α → Bool) (fresh : α) (change : α → Forest α → α × Forest α) :
    Forest α → Forest α
  | nil => let (label, subset) := change fresh nil; node label subset nil
  | node label subset rest =>
    if p label then let (label, subset) := change label subset; node label subset rest
    else node label subset (rest.upsert p fresh change)

/-- Adds the weight of every tree of one level, from left to right, each being
its root's own weight plus the sum of the level below. -/
def totalFrom (weight : α → Weight) (start : Weight) : Forest α → Weight
  | nil => start
  | node label subset rest =>
    rest.totalFrom weight (start + (weight label + subset.totalFrom weight Weight.negZero))

/-- The weight of a tree: an empty sum is negative zero. -/
def treeWeight (weight : α → Weight) (label : α) (subset : Forest α) : Weight :=
  weight label + subset.totalFrom weight Weight.negZero

end Forest
end TagFilter
