import TagFilter.Pattern
import TagFilter.Subscription.Basic

/-! # Nesting by prefix

`nested` moves every pattern that extends another one of its level below it,
where it keeps only what follows. No pattern of the result is a proper, nonempty
prefix of a sibling. What moves starts where the pattern above it ends, and the offsets
are words that can count the bits of all the patterns.
-/
namespace TagFilter.Subscriptions

/-- Whether a pattern belongs below another. The empty pattern takes none in. -/
def isBelow (parent : Pattern) (s : Subscription) : Bool :=
  parent ≠ [] && parent.isPrefixOf s.pattern

/-- The number of bits of the patterns at all levels. -/
def bitCount : Subscriptions → Nat
  | .nil => 0
  | .node s below rest => s.pattern.size + bitCount below + bitCount rest

variable (bits : Nat)

/-- A subscription seen from below a parent it extends. -/
def demoted (parent s : Subscription) : Subscription :=
  { s with
    pattern := s.pattern.drop parent.pattern.length
    offset := wrapped bits (parent.offset + parent.pattern.size) }

variable {bits} {parent s : Subscription}

theorem demoted_of_le (h : parent.offset + parent.pattern.size ≤ bits) :
    demoted bits parent s =
      { s with
        pattern := s.pattern.drop parent.pattern.length
        offset := parent.offset + parent.pattern.size } := by
  rw [demoted, wrapped_of_le h]

theorem offset_demoted (h : bits < UInt64.size) :
    (demoted bits parent s).offset = (parent.offset + parent.pattern.size) % UInt64.size :=
  wrapped_eq_mod h

/-- As long as a word can count the bits, their number does not matter. -/
theorem demoted_zero (h : bits < UInt64.size) : demoted bits = demoted 0 := by
  funext parent s
  have hoffset : (demoted bits parent s).offset = (demoted 0 parent s).offset := by
    rw [offset_demoted h, offset_demoted (by decide)]
  exact congrArg (fun offset => { demoted 0 parent s with offset }) hoffset

variable (bits)

/-- Adds the trees of a level to what is below a parent; what is there stays. -/
def adopt (parent : Subscription) : Subscriptions → Subscriptions → Subscriptions
  | .nil, below => below
  | .node s subset rest, below => adopt parent rest (putNew (demoted bits parent s) subset below)

/-- The steps count down from at least the size of the forest. -/
def nestedWithin : Nat → Subscriptions → Subscriptions
  | 0, _ => .nil
  | _ + 1, .nil => .nil
  | steps + 1, .node s subset rest =>
    let extensions := rest.filterRoots (isBelow s.pattern)
    let others := rest.filterRoots fun t => !isBelow s.pattern t
    .node s (nestedWithin steps (adopt bits s extensions subset)) (nestedWithin steps others)

def nested (subs : Subscriptions) : Subscriptions := nestedWithin subs.bitCount subs.size subs

end TagFilter.Subscriptions
