import Mathlib.Data.List.Basic
import TagFilter.EngineSlot

/-! # Statistics windows among events

A window tells how many searches an engine made and how many of them found anything. What
a search costs is told right after a window that has one to tell of.
-/
namespace TagFilter

theorem EngineKind.name_inj {kind other : EngineKind} : kind.name = other.name ↔ kind = other := by
  cases kind <;> cases other <;> decide

namespace Event

/-- The numbers of a statistics window of an engine. -/
def window? (kind : EngineKind) : Event → Option (Nat × Nat)
  | .trafficStat engine events matched =>
    if engine = kind.name then some (events, matched) else none
  | _ => none

/-- The windows of an engine among some events. -/
def windows (kind : EngineKind) (events : List Event) : List (Nat × Nat) :=
  events.filterMap (window? kind)

/-- Events where each statistics window has no more matches than searches, and the cost of
a search comes right after a window that has any, and nowhere else. -/
inductive Accounts : List Event → Prop where
  | nil : Accounts []
  | other {e : Event} {rest : List Event} (h : e.topic ≠ .traffic) (hrest : Accounts rest) :
    Accounts (e :: rest)
  | idle {engine : String} {rest : List Event} (hrest : Accounts rest) :
    Accounts (.trafficStat engine 0 0 :: rest)
  | busy {engine : String} {events matched : Nat} {micros : Float} {rest : List Event}
    (hne : events ≠ 0) (hle : matched ≤ events) (hrest : Accounts rest) :
    Accounts (.trafficStat engine events matched :: .engineStatus engine micros :: rest)

variable {events before after rest : List Event} {engine : String} {searched matched : Nat}
  {micros : Float} {kind : EngineKind} {metrics : Metrics}

theorem not_accounts_engineStatus : ¬ Accounts (.engineStatus engine micros :: rest) := by
  rintro (_ | ⟨h, -⟩)
  exact h rfl

theorem Accounts.append (h : Accounts events) (hrest : Accounts rest) :
    Accounts (events ++ rest) := by
  induction h with
  | nil => exact hrest
  | other h _ ih => exact .other h ih
  | idle _ ih => exact .idle ih
  | busy hne hle _ ih => exact .busy hne hle ih

theorem accounts_of_topic (h : ∀ e ∈ events, e.topic ≠ .traffic) : Accounts events := by
  induction events with
  | nil => exact .nil
  | cons e events ih =>
    obtain ⟨he, hevents⟩ := List.forall_mem_cons.mp h
    exact .other he (ih hevents)

theorem accounts_flatMap {α : Type} {f : α → List Event} {xs : List α}
    (h : ∀ x ∈ xs, Accounts (f x)) : Accounts (xs.flatMap f) := by
  induction xs with
  | nil => exact .nil
  | cons x xs ih =>
    obtain ⟨hx, hxs⟩ := List.forall_mem_cons.mp h
    exact hx.append (ih hxs)

/-- The cost of a search comes right after a window if and only if the window has any. -/
theorem Accounts.window (h : Accounts events)
    (hsplit : events = before ++ .trafficStat engine searched matched :: after) :
    matched ≤ searched ∧
      ((∃ micros rest, after = .engineStatus engine micros :: rest) ↔ searched ≠ 0) := by
  -- The window is the first event or a later one. The cost of a search is never the first.
  induction h generalizing before with
  | nil => simp at hsplit
  | other h _ ih =>
    cases before with
    | nil =>
      obtain ⟨rfl, -⟩ := List.cons.inj hsplit
      exact absurd rfl h
    | cons _ before => exact ih (List.cons.inj hsplit).2
  | idle hrest ih =>
    cases before with
    | nil =>
      obtain ⟨heq, rfl⟩ := List.cons.inj hsplit
      obtain ⟨-, rfl, rfl⟩ := Event.trafficStat.inj heq
      refine ⟨Nat.le_refl 0, iff_of_false ?_ (by simp)⟩
      rintro ⟨micros, rest, rfl⟩
      exact not_accounts_engineStatus hrest
    | cons _ before => exact ih (List.cons.inj hsplit).2
  | busy hne hle _ ih =>
    match before with
    | [] =>
      obtain ⟨heq, rfl⟩ := List.cons.inj hsplit
      obtain ⟨rfl, rfl, rfl⟩ := Event.trafficStat.inj heq
      exact ⟨hle, iff_of_true ⟨_, _, rfl⟩ hne⟩
    | [_] => cases (List.cons.inj (List.cons.inj hsplit).2).1
    | _ :: _ :: before => exact ih (List.cons.inj (List.cons.inj hsplit).2).2

theorem Accounts.status (h : Accounts events)
    (hsplit : events = before ++ .engineStatus engine micros :: after) :
    ∃ first searched matched, before = first ++ [.trafficStat engine searched matched] := by
  induction h generalizing before with
  | nil => simp at hsplit
  | other h _ ih =>
    cases before with
    | nil =>
      obtain ⟨rfl, -⟩ := List.cons.inj hsplit
      exact absurd rfl h
    | cons e before =>
      obtain ⟨first, searched, matched, rfl⟩ := ih (List.cons.inj hsplit).2
      exact ⟨e :: first, searched, matched, rfl⟩
  | idle _ ih =>
    cases before with
    | nil => cases (List.cons.inj hsplit).1
    | cons e before =>
      obtain ⟨first, searched, matched, rfl⟩ := ih (List.cons.inj hsplit).2
      exact ⟨e :: first, searched, matched, rfl⟩
  | busy _ _ _ ih =>
    match before with
    | [] => cases (List.cons.inj hsplit).1
    | [e] =>
      obtain ⟨rfl, htail⟩ := List.cons.inj hsplit
      obtain ⟨rfl, -⟩ := Event.engineStatus.inj (List.cons.inj htail).1
      exact ⟨[], _, _, rfl⟩
    | e :: e' :: before =>
      obtain ⟨first, searched, matched, rfl⟩ := ih (List.cons.inj (List.cons.inj hsplit).2).2
      exact ⟨e :: e' :: first, searched, matched, rfl⟩

theorem windows_eq_nil (h : ∀ e ∈ events, e.topic ≠ .traffic) : windows kind events = [] := by
  refine List.filterMap_eq_nil_iff.mpr fun e he => ?_
  cases e with
  | trafficStat => exact absurd rfl (h _ he)
  | _ => rfl

theorem windows_windowEvents (kind other : EngineKind) (metrics : Metrics) :
    windows kind (Metrics.windowEvents other metrics) =
      if other = kind then [(metrics.events, metrics.matched)] else [] := by
  unfold windows Metrics.windowEvents
  by_cases hkind : other = kind
  · subst hkind
    cases metrics.microsPerEvent? <;> simp [window?]
  · have hname : other.name ≠ kind.name := mt EngineKind.name_inj.mp hkind
    cases metrics.microsPerEvent? <;> simp [window?, hkind, hname]

theorem accounts_windowEvents (h : metrics.matched ≤ metrics.events) :
    Accounts (Metrics.windowEvents kind metrics) := by
  rw [Metrics.windowEvents, Metrics.microsPerEvent?]
  by_cases hevents : metrics.events = 0
  · have hmatched : metrics.matched = 0 := by omega
    rw [if_pos hevents, hevents, hmatched]
    exact .idle .nil
  · rw [if_neg hevents]
    exact .busy hevents h .nil

end Event
end TagFilter
