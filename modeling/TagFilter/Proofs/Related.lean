import Mathlib.Data.List.Forall2
import TagFilter.Event

/-! # Results and how they are related

An operation that may fail succeeds if all its parts do. Two results are related if both
are missing, both fail in the same way, or both are there and what they hold is related.
Two outcomes agree if they give the same answer, publish the same and leave related states.
-/
namespace TagFilter

variable {α β ε σ : Type} {R : α → α → Prop}

section
variable {R' : β → β → Prop} {x y z : Option α} {a b : α}

theorem rel_map {f g : α → β} (h : Option.Rel R x y) (hfg : ∀ a b, R a b → R' (f a) (g b)) :
    Option.Rel R' (x.map f) (y.map g) := by
  cases h with
  | none => exact .none
  | some hab => exact .some (hfg _ _ hab)

theorem rel_self (hR : ∀ a, R a a) (x : Option α) : Option.Rel R x x := by
  cases x with
  | none => exact .none
  | some a => exact .some (hR a)

theorem rel_symm (hR : ∀ a b, R a b → R b a) (h : Option.Rel R x y) : Option.Rel R y x := by
  cases h with
  | none => exact .none
  | some hab => exact .some (hR _ _ hab)

theorem rel_trans (hR : ∀ a b c, R a b → R b c → R a c) (h : Option.Rel R x y)
    (h' : Option.Rel R y z) : Option.Rel R x z := by
  cases h with
  | none => exact h'
  | some hab =>
    cases h' with
    | some hbc => exact .some (hR _ _ _ hab hbc)

theorem rel_getD (h : Option.Rel R x y) (hab : R a b) : R (x.getD a) (y.getD b) := by
  cases h with
  | none => exact hab
  | some h => exact h

theorem rel_eq_some (h : Option.Rel R x y) (hx : x = some a) : ∃ b, y = some b ∧ R a b := by
  subst hx
  cases h with
  | some hab => exact ⟨_, rfl, hab⟩

theorem rel_eq_none (h : Option.Rel R x y) (hx : x = none) : y = none := by
  subst hx
  cases h
  rfl

end

theorem bind_eq_ok_iff {x : Except ε α} {next : α → Except ε β} {b : β} :
    x >>= next = .ok b ↔ ∃ a, x = .ok a ∧ next a = .ok b := by
  cases x with
  | error e => simp [bind, Except.bind]
  | ok a => simp [bind, Except.bind]

theorem pure_eq_ok_iff {a b : α} : (pure a : Except ε α) = .ok b ↔ a = b := by
  simp [pure, Except.pure]

theorem throw_ne_ok {e : ε} {a : α} : (throw e : Except ε α) ≠ .ok a := by
  simp [throw, throwThe, MonadExceptOf.throw]

theorem mapM_eq_ok_iff {f : α → Except ε β} {xs : List α} {ys : List β} :
    xs.mapM f = .ok ys ↔ List.Forall₂ (fun x y => f x = .ok y) xs ys := by
  induction xs generalizing ys with
  | nil =>
    simp only [List.mapM_nil, pure_eq_ok_iff, List.forall₂_nil_left_iff]
    exact eq_comm
  | cons x xs ih =>
    simp only [List.mapM_cons, bind_eq_ok_iff, pure_eq_ok_iff, ih, List.forall₂_cons_left_iff]
    constructor
    · rintro ⟨y, hy, rest, hrest, rfl⟩
      exact ⟨y, rest, hy, hrest, rfl⟩
    · rintro ⟨y, rest, hy, hrest, rfl⟩
      exact ⟨y, hy, rest, hrest, rfl⟩

inductive Agree (R : α → α → Prop) : Except ε α → Except ε α → Prop where
  | ok {a b : α} : R a b → Agree R (.ok a) (.ok b)
  | error (e : ε) : Agree R (.error e) (.error e)

theorem Agree.cases {x y : Except ε α} (h : Agree R x y) :
    (∃ a b, x = .ok a ∧ y = .ok b ∧ R a b) ∨ ∃ e, x = .error e ∧ y = .error e := by
  cases h with
  | ok hab => exact .inl ⟨_, _, rfl, rfl, hab⟩
  | error e => exact .inr ⟨e, rfl, rfl⟩

structure Outcome.Agree (R : σ → σ → Prop) (o o' : Outcome σ α) : Prop where
  answer : o.answer = o'.answer
  state : R o.state o'.state
  events : o.events = o'.events

theorem Outcome.Agree.map {R : σ → σ → Prop} {o o' : Outcome σ α} (h : Outcome.Agree R o o')
    (f : α → β) : Outcome.Agree R (o.map f) (o'.map f) :=
  ⟨congrArg f h.answer, h.state, h.events⟩

theorem Outcome.Agree.quiet {R : σ → σ → Prop} {s s' : σ} (h : R s s') (answer : α) :
    Outcome.Agree R (.quiet answer s) (.quiet answer s') := ⟨rfl, h, rfl⟩

end TagFilter
