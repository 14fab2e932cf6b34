import TagFilter.Proofs.Steps

/-! # Ledgers

What commands make of the subscriptions. Seen as a function from patterns, an
addition sets one value and keeps the weight that was there, and a deletion clears it
if the URI agrees; patterns that no subscription may have are passed over.
-/
namespace TagFilter

abbrev Ledger := Pattern → Option (String × Weight)

namespace Ledger

def enter (p : Pattern) (u : String) (l : Ledger) : Ledger :=
  if p ≠ [] ∧ p.Digital then Function.update l p (some (u, (l p).elim Weight.zero (·.2))) else l

def strike (p : Pattern) (u : String) (l : Ledger) : Ledger :=
  if (l p).map (·.1) = some u then Function.update l p none else l

def heed (l : Ledger) : Event → Ledger
  | .addSubscription pattern uri => l.enter pattern.toList uri
  | .deleteSubscription pattern uri => l.strike pattern.toList uri
  | _ => l

end Ledger

namespace Subscriptions

def ledger (subs : Subscriptions) : Ledger := fun p =>
  (subs.get? p).map fun entry => (entry.1.uri, entry.1.weight)

/-- Adds a subscription, with the weight of the one it replaces, unless its pattern is
not allowed or the very subscription is there. -/
def enter (p : Pattern) (u : String) (subs : Subscriptions) : Subscriptions :=
  let present := (subs.get? p).map (·.1)
  if p ≠ [] ∧ p.Digital ∧ present.map Subscription.uri ≠ some u then
    put ⟨p, u, (present.map Subscription.weight).getD Weight.zero, 0⟩ .nil subs
  else subs

/-- Removes a subscription if pattern and URI are both as given. -/
def strike (p : Pattern) (u : String) (subs : Subscriptions) : Subscriptions :=
  if (subs.get? p).map (·.1.uri) = some u then subs.erase p else subs

/-- What the subscriptions are once an event has been handled. -/
def heed (subs : Subscriptions) : Event → Subscriptions
  | .addSubscription pattern uri => subs.enter pattern.toList uri
  | .deleteSubscription pattern uri => subs.strike pattern.toList uri
  | _ => subs

variable {subs : Subscriptions} {s : Subscription} {p : Pattern} {u : String}

theorem get?_erase (p q : Pattern) (subs : Subscriptions) :
    (subs.erase p).get? q = if q = p then none else subs.get? q := by
  induction subs with
  | nil => exact (ite_self none).symm
  | node t subset rest _ ih =>
    rw [get?_node]
    by_cases ht : t.pattern = p
    · have hgone : erase p (.node t subset rest) = erase p rest := by
        simp [erase, Forest.filterRoots, ht]
      rw [hgone, ih, ht]
      split
      · rfl
      · rename_i hq
        rw [if_neg (Ne.symm hq)]
    · have hkept : erase p (.node t subset rest) = .node t subset (erase p rest) := by
        simp [erase, Forest.filterRoots, ht]
      rw [hkept, get?_node, ih]
      by_cases hq : t.pattern = q
      · rw [if_pos hq, if_pos hq, if_neg (hq ▸ ht)]
      · rw [if_neg hq, if_neg hq]

theorem ledger_put (s : Subscription) (below subs : Subscriptions) :
    (put s below subs).ledger = Function.update subs.ledger s.pattern (some (s.uri, s.weight)) := by
  funext p
  by_cases hp : s.pattern = p
  · subst hp
    simp [ledger, get?_put]
  · rw [Function.update_of_ne (Ne.symm hp), ledger, get?_put, if_neg hp]
    rfl

theorem ledger_erase (p : Pattern) (subs : Subscriptions) :
    (subs.erase p).ledger = Function.update subs.ledger p none := by
  funext q
  by_cases hq : q = p
  · subst hq
    simp [ledger, get?_erase]
  · rw [Function.update_of_ne hq, ledger, get?_erase, if_neg hq]
    rfl

theorem ledger_enter (p : Pattern) (u : String) (subs : Subscriptions) :
    (subs.enter p u).ledger = subs.ledger.enter p u := by
  have hweight : ((subs.get? p).map (·.1.weight)).getD Weight.zero =
      (subs.ledger p).elim Weight.zero (·.2) := by
    rw [ledger]
    cases subs.get? p <;> rfl
  -- Setting what is there already changes nothing, so the ledger needs no case for it.
  have hsame : (subs.get? p).map (·.1.uri) = some u →
      Function.update subs.ledger p (some (u, (subs.ledger p).elim Weight.zero (·.2))) =
        subs.ledger := by
    intro hu
    obtain ⟨entry, hentry, rfl⟩ := Option.map_eq_some_iff.mp hu
    rw [Function.update_eq_self_iff, ledger, hentry]
    rfl
  rw [enter, Ledger.enter]
  simp only [Option.map_map, Function.comp_def]
  by_cases hp : p ≠ [] ∧ p.Digital
  · rw [if_pos hp]
    split
    · rw [ledger_put, hweight]
    · rename_i hnot
      rw [hsame (not_not.mp fun hne => hnot ⟨hp.1, hp.2, hne⟩)]
  · rw [if_neg hp, if_neg fun h => hp ⟨h.1, h.2.1⟩]

theorem ledger_strike (p : Pattern) (u : String) (subs : Subscriptions) :
    (subs.strike p u).ledger = subs.ledger.strike p u := by
  have huri : (subs.ledger p).map (·.1) = (subs.get? p).map (·.1.uri) := by
    rw [ledger, Option.map_map]
    rfl
  rw [strike, Ledger.strike, huri]
  split
  · exact ledger_erase p subs
  · rfl

theorem ledger_heed (subs : Subscriptions) (e : Event) :
    (subs.heed e).ledger = subs.ledger.heed e := by
  cases e with
  | addSubscription pattern uri => exact ledger_enter pattern.toList uri subs
  | deleteSubscription pattern uri => exact ledger_strike pattern.toList uri subs
  | _ => rfl

theorem ledger_foldl_heed (subs : Subscriptions) (events : List Event) :
    (events.foldl heed subs).ledger = events.foldl Ledger.heed subs.ledger := by
  induction events generalizing subs with
  | nil => rfl
  | cons e events ih => rw [List.foldl_cons, List.foldl_cons, ih, ledger_heed]

theorem heed_of_topic {e : Event} (h : e.topic ≠ .subscriptions) : subs.heed e = subs := by
  cases e with
  | addSubscription | deleteSubscription => exact absurd rfl h
  | _ => rfl

theorem foldl_heed_filter {keep : Event → Bool}
    (h : ∀ e : Event, e.topic = .subscriptions → keep e = true) (subs : Subscriptions)
    (events : List Event) : (events.filter keep).foldl heed subs = events.foldl heed subs := by
  induction events generalizing subs with
  | nil => rfl
  | cons e events ih =>
    by_cases hkeep : keep e = true
    · rw [List.filter_cons_of_pos hkeep, List.foldl_cons, List.foldl_cons, ih]
    · rw [List.filter_cons_of_neg hkeep, List.foldl_cons, heed_of_topic (mt (h e) hkeep), ih]

end Subscriptions

namespace Coordinator

variable (c : Coordinator) (kind : EngineKind) (p : Pattern) (u : String)

theorem subscriptions_add : (c.add p u).state.subscriptions = c.subscriptions.enter p u := by
  rw [add, Subscriptions.enter]
  by_cases hsame : ((c.subscriptions.get? p).map (·.1)).map Subscription.uri = some u
  · simp only [if_pos hsame]
    rw [if_neg fun h => h.2.2 hsame]
    rfl
  · simp only [if_neg hsame]
    generalize (Option.map Subscription.weight _).getD Weight.zero = weight
    cases hinsert : c.subscriptions.insert p u weight with
    | ok subs =>
      obtain ⟨hne, hp, rfl⟩ := Subscriptions.insert_eq_ok_iff.mp hinsert
      rw [if_pos ⟨hne, hp, hsame⟩]
      rfl
    | error e =>
      rw [if_neg]
      · rfl
      · rintro ⟨hne, hp, -⟩
        have hok := Subscriptions.insert_eq_ok_iff.mpr
          ⟨hne, hp, Eq.refl (Subscriptions.put ⟨p, u, weight, 0⟩ .nil c.subscriptions)⟩
        cases hinsert.symm.trans hok

theorem subscriptions_delete : (c.delete p u).state.subscriptions = c.subscriptions.strike p u := by
  rw [delete, Subscriptions.strike]
  split <;> rfl

theorem subscriptions_onGenerated : (c.onGenerated kind).state.subscriptions = c.subscriptions := by
  cases hslot : c.slot? kind with
  | none =>
    rw [onGenerated, slot, hslot]
    rfl
  | some s =>
    rcases onGenerated_cases hslot with ⟨heq, -⟩ | ⟨-, -, c', heq, hfollows⟩ |
      ⟨-, -, c', heq, hfollows⟩
    · rw [heq]
      rfl
    all_goals
      rw [heq]
      exact hfollows.subscriptions

theorem subscriptions_handle (e : Event) :
    (c.handle e).state.subscriptions = c.subscriptions.heed e := by
  cases e with
  | addSubscription pattern uri => exact c.subscriptions_add pattern.toList uri
  | deleteSubscription pattern uri => exact c.subscriptions_delete pattern.toList uri
  | engineGenerated engine =>
    rw [handle, withKind]
    cases EngineKind.ofName? engine with
    | none => rfl
    | some kind => exact c.subscriptions_onGenerated kind
  | engineStatus engine micros =>
    rw [handle, withKind]
    cases EngineKind.ofName? engine <;> rfl
  | trafficStat | selectedEngine => rfl

end Coordinator
end TagFilter
