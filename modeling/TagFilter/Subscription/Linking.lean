import TagFilter.OrderedMap
import TagFilter.Subscription.Nesting

/-! # Nesting in one pass

One pass over a map, in pattern order, makes roots of the patterns that go on from no
root before them, and sends each other pattern to the shortest root that it goes on
from. What is sent to a root joins what lies below it, and is divided in the same way.
-/
namespace TagFilter.Subscriptions

/-- The roots so far, and by their patterns what is sent below them. -/
structure Pass where
  roots : Subscriptions
  sent : OrderedMap Pattern Subscriptions

variable (bits : Nat)

namespace Pass

def start : Pass := ⟨.nil, []⟩

/-- The root that is the shortest proper prefix of a pattern, the empty one left out. -/
def rootOf? (pass : Pass) (pattern : Pattern) : Option Subscription :=
  (List.range' 1 (pattern.length - 1)).findSome? fun length =>
    (pass.roots.get? (pattern.take length)).map (·.1)

def sentTo (pass : Pass) (root : Subscription) : Subscriptions :=
  (pass.sent.get? root.pattern).getD .nil

def visit (pass : Pass) (tree : Subscription × Subscriptions) : Pass :=
  match pass.rootOf? tree.1.pattern with
  | some root =>
    let level := put (demoted bits root tree.1) tree.2 (pass.sentTo root)
    { pass with sent := pass.sent.insert root.pattern level }
  | none => { pass with roots := put tree.1 tree.2 pass.roots }

end Pass

def divide (subs : Subscriptions) : Pass := subs.siblings.foldl (Pass.visit bits) .start

/-- Puts trees at their places in a level; what is there stays. -/
def joined (level : Subscriptions) (trees : Subscriptions) : Subscriptions :=
  trees.siblings.foldl (fun level tree => putNew tree.1 tree.2 level) level

/-- The steps count down from at least the size of the forest. -/
def linkedWithin : Nat → Subscriptions → Subscriptions
  | 0, _ => .nil
  | steps + 1, subs =>
    let pass := divide bits subs
    .ofSiblings (pass.roots.siblings.map fun tree =>
      (tree.1, linkedWithin steps (joined tree.2 (pass.sentTo tree.1))))

def linked (subs : Subscriptions) : Subscriptions := linkedWithin subs.bitCount subs.size subs

variable {bits}

theorem linkedWithin_zero (h : bits < UInt64.size) (steps : Nat) (subs : Subscriptions) :
    linkedWithin bits steps subs = linkedWithin 0 steps subs := by
  have hvisit : Pass.visit bits = Pass.visit 0 := by
    funext pass tree
    rw [Pass.visit, Pass.visit, demoted_zero h]
  induction steps generalizing subs with
  | zero => rfl
  | succ steps ih => simp only [linkedWithin, divide, hvisit, ih]

/-- A map whose bits a word can count is linked with offsets that are added as plain words. -/
theorem linked_of_lt {subs : Subscriptions} (h : subs.bitCount < UInt64.size) :
    subs.linked = linkedWithin 0 subs.size subs := linkedWithin_zero h subs.size subs

end TagFilter.Subscriptions
