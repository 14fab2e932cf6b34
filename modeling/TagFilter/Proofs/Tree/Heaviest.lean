import TagFilter.Engine.Basic
import TagFilter.Proofs.Linking
import TagFilter.Proofs.Tree.Sorting

/-! # The chains of a new tree

Building turns each level of a linked map into a chain, the heaviest subscription first. A
subscription weighs as much as everything it stands for, itself and all that lies below it,
and may weigh anything: infinities, the two zeros and what is not a number are ordered like
all other weights.
-/
namespace TagFilter
open List (Perm)
open Forest

namespace Subscriptions

variable {f : Subscriptions} {a b : Subscription × Subscriptions}

/-- Whether a subscription comes before another by the weight of all that it stands for, or
by its pattern when they weigh the same. -/
def Leads (a b : Subscription × Subscriptions) : Prop :=
  (weightOf b.1 b.2).rank < (weightOf a.1 a.2).rank ∨
    (weightOf a.1 a.2).rank = (weightOf b.1 b.2).rank ∧ a.1.pattern < b.1.pattern

instance (a b : Subscription × Subscriptions) : Decidable (Leads a b) :=
  inferInstanceAs (Decidable (_ ∨ _))

end Subscriptions

namespace WeightedTree
open Subscriptions

variable {f subs : Subscriptions}

end WeightedTree
end TagFilter
