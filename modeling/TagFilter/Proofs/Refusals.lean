import TagFilter.Proofs.Backlog
import TagFilter.Proofs.Deployment
import TagFilter.Proofs.Ledger
import TagFilter.Proofs.Origins

/-! # Changes that are refused

A change is handed to every slot, and what a slot answers is not passed on. Only a
slot that has not been started refuses one, and its build then starts from a snapshot
that has the change. A change that waits for a build finds what it takes out when its
turn comes, because the table has gone through the same changes in the same order.
-/
namespace TagFilter
open Table OrderedMap

/-- Whether a table has what a change takes out of it. -/
def Change.Fits (m : Table) : Change → Prop
  | .add _ _ => True
  | .delete p u => m.get? p = some u

/-- Whether every change fits when its turn comes. -/
def Change.AllFit : Table → List Change → Prop
  | _, [] => True
  | m, change :: rest => change.Fits m ∧ AllFit (change.onTable m) rest

theorem Change.allFit_append {m : Table} {changes more : List Change} :
    AllFit m (changes ++ more) ↔
      AllFit m changes ∧ AllFit (changes.foldl onTable m) more := by
  induction changes generalizing m with
  | nil => exact (true_and _).symm ▸ Iff.rfl
  | cons change rest ih => rw [List.cons_append, AllFit, AllFit, ih, and_assoc, List.foldl_cons]

namespace Engine

variable {m : Table} {engine : Engine} {change : Change} {changes : List Change}

theorem Tracks.apply (h : Tracks m engine) (hc : change.Digital) (hfits : change.Fits m) :
    change.apply engine = .ok (change.applyOrKeep engine) := by
  cases change with
  | add p u => rfl
  | delete p u =>
    rcases h.holds.delete h.sorted hc u with ⟨-, engine', heq, -⟩ | ⟨habsent, -⟩
    · rw [Change.applyOrKeep, Change.apply, heq]
    · exact absurd hfits habsent

theorem Tracks.applyAll (h : Tracks m engine) (hchanges : ∀ change ∈ changes, change.Digital)
    (hfits : Change.AllFit m changes) :
    changes.foldlM (fun engine change => change.apply engine) engine =
      .ok (changes.foldl Change.applyOrKeep engine) := by
  induction changes generalizing m engine with
  | nil => rfl
  | cons change rest ih =>
    obtain ⟨hfirst, hrest⟩ := List.forall_mem_cons.mp hchanges
    rw [List.foldlM_cons, h.apply hfirst hfits.1]
    exact ih (h.change change hfirst) hrest hfits.2

end Engine

namespace EngineSlot

variable {m : Table} {s s' s'' : EngineSlot} {change : Change}

/-- Only a slot that has not been started refuses a change that fits. -/
theorem Serves.update_answer (h : Serves m s) (hc : change.Digital) (hfits : change.Fits m) :
    (s.update change).answer = if s.state = .unavailable
      then .error (.invalidTransition .unavailable .update) else .ok () := by
  cases h with
  | waiting state =>
    rw [update_of_unavailable state, if_pos state]
    rfl
  | building state =>
    rw [update_of_building state, if_neg (by rcases state with h | h <;> simp [h])]
    rfl
  | complete state _ _ engine held tracks =>
    rw [update_of_complete state, if_neg (by rcases state with h | h <;> simp [h]), held,
      applied_some, tracks.apply hc hfits]
    rfl

theorem Serves.idle (h : Serves m s) (hstate : s.state = .unavailable) :
    s.build = none ∧ s.backlog = [] := by
  cases h with
  | waiting _ build backlog => exact ⟨build, backlog⟩
  | building state | complete state => simp [hstate] at state

/-- Installing an engine applies every change that waits for it. -/
theorem Serves.installs (h : Serves m s) {snapshot : Subscriptions}
    (hbuild : s.build = some snapshot) (hfits : Change.AllFit snapshot.table s.backlog) :
    ∃ engine, s.backlog.foldlM (fun engine change => change.apply engine)
        (Engine.build s.kind snapshot) = .ok engine ∧ s.finish.state.engine = some engine := by
  cases h with
  | waiting _ build | complete _ build => cases hbuild.symm.trans build
  | building state _ build flat digital =>
    obtain rfl := Option.some.inj (hbuild.symm.trans build)
    have htracks : Engine.Tracks snapshot.table (Engine.build s.kind snapshot) :=
      ⟨Engine.holds_build flat s.kind, flat.sorted, flat.digital⟩
    rw [finish_of_some state hbuild]
    exact ⟨_, htracks.applyAll digital hfits, rfl⟩

/-- What a step that neither starts a build nor hands out a change makes of a slot:
what waits in it stays as it is until the build is finished. -/
structure Rests (s s' : EngineSlot) : Prop where
  kind : s'.kind = s.kind
  idle : s'.state = .unavailable → s.state = .unavailable
  waits : ∀ snapshot, s'.build = some snapshot → s.build = some snapshot ∧ s'.backlog = s.backlog

theorem rests_self (s : EngineSlot) : Rests s s := ⟨rfl, id, fun _ h => ⟨h, rfl⟩⟩

theorem Rests.trans (h : Rests s s') (h' : Rests s' s'') : Rests s s'' := by
  refine ⟨h'.kind.trans h.kind, fun hidle => h.idle (h'.idle hidle), fun snapshot hbuild => ?_⟩
  obtain ⟨hbuild', hbacklog'⟩ := h'.waits snapshot hbuild
  obtain ⟨hbuild, hbacklog⟩ := h.waits snapshot hbuild'
  exact ⟨hbuild, hbacklog'.trans hbacklog⟩

theorem rests_finish (s : EngineSlot) : Rests s s.finish.state := by
  obtain ⟨hadvances, hkind, -⟩ := s.finish_advances
  refine ⟨hkind, hadvances.unavailable_iff.mp, fun snapshot hbuild => ?_⟩
  have hnone : s.finish.state.build = none := by
    rw [finish]
    cases hbuild : s.build with
    | none => exact hbuild
    | some subs =>
      dsimp only
      split
      · rename_i done hfire
        obtain ⟨-, -, rfl⟩ := fire_eq_ok hfire
        rfl
      · rfl
  cases hnone.symm.trans hbuild

theorem rests_deploy (h : s.deploy = .ok s') : Rests s s' := by
  obtain ⟨-, rfl⟩ := deploy_eq_ok h
  exact ⟨rfl, EngineState.noConfusion, fun _ hbuild => ⟨hbuild, rfl⟩⟩

theorem rests_retire (h : s.retire = .ok s') : Rests s s' := by
  obtain ⟨-, rfl⟩ := retire_eq_ok h
  exact ⟨rfl, EngineState.noConfusion, fun _ hbuild => ⟨hbuild, rfl⟩⟩

theorem rests_search (s : EngineSlot) (id : Identifier) (nanoseconds : Nat) :
    Rests s (s.search id nanoseconds).2 := by
  rw [search]
  split <;> exact ⟨rfl, fun hidle => hidle, fun _ hbuild => ⟨hbuild, rfl⟩⟩

end EngineSlot

namespace Coordinator
open EngineSlot

/-- The change that a step hands to every slot. -/
def hands? (c : Coordinator) : Step → Option Change
  | .add p u =>
    match (c.add p u).answer with
    | .ok true => some (.add p u)
    | _ => none
  | .delete p u =>
    match (c.delete p u).answer with
    | .ok () => some (.delete p u)
    | _ => none
  | _ => none

/-- The change that a step hands to a slot which answers with an error. -/
def refuses? (c : Coordinator) (kind : EngineKind) (t : Step) : Option Change :=
  (c.hands? t).filter fun change => (c.slot? kind).any fun s => !(s.update change).answer.isOk

/-- The changes that a run hands out, in order. -/
def handed (c : Coordinator) : List Step → List Change
  | [] => []
  | t :: steps => (c.hands? t).toList ++ (c.step t).handed steps

/-- Those of the changes that the slot of a kind refuses. -/
def refused (c : Coordinator) (kind : EngineKind) : List Step → List Change
  | [] => []
  | t :: steps => (c.refuses? kind t).toList ++ (c.step t).refused kind steps

variable {c c' c'' : Coordinator} {s s' : EngineSlot} {kind : EngineKind} {t : Step}
  {change : Change} {config : Config} {subs : Subscriptions}

theorem handed_concat (c : Coordinator) (steps : List Step) (t : Step) :
    c.handed (steps ++ [t]) = c.handed steps ++ ((c.run steps).hands? t).toList := by
  induction steps generalizing c with
  | nil => exact List.append_nil _
  | cons first steps ih => rw [List.cons_append, handed, ih, handed, List.append_assoc]; rfl

theorem refused_concat (c : Coordinator) (kind : EngineKind) (steps : List Step) (t : Step) :
    c.refused kind (steps ++ [t]) = c.refused kind steps ++ ((c.run steps).refuses? kind t).toList := by
  induction steps generalizing c with
  | nil => exact List.append_nil _
  | cons first steps ih => rw [List.cons_append, refused, ih, refused, List.append_assoc]; rfl

theorem add_hands {p : Pattern} {u : String} (h : (c.add p u).answer = .ok true) :
    p.Digital ∧ ∃ subs, subs.table = c.subscriptions.table.insert p u ∧
      (c.add p u).state = ({ c with subscriptions := subs }.spread (.add p u)).state := by
  unfold add at h ⊢
  by_cases hsame : ((c.subscriptions.get? p).map (·.1)).map Subscription.uri = some u
  · simp only [if_pos hsame] at h
    cases h
  · simp only [if_neg hsame] at h ⊢
    generalize (Option.map Subscription.weight _).getD Weight.zero = weight at h ⊢
    cases hinsert : c.subscriptions.insert p u weight with
    | error e =>
      rw [hinsert] at h
      cases h
    | ok subs =>
      obtain ⟨-, hp, rfl⟩ := Subscriptions.insert_eq_ok_iff.mp hinsert
      exact ⟨hp, _, Subscriptions.table_put .., rfl⟩

theorem delete_hands {p : Pattern} {u : String} (h : (c.delete p u).answer = .ok ()) :
    c.subscriptions.table.get? p = some u ∧ ∃ subs, subs.table = c.subscriptions.table.erase p ∧
      (c.delete p u).state = ({ c with subscriptions := subs }.spread (.delete p u)).state := by
  rw [delete, Subscriptions.get?_uri] at h ⊢
  by_cases hget : c.subscriptions.table.get? p = some u
  · rw [if_pos hget]
    exact ⟨hget, _, Subscriptions.table_erase .., rfl⟩
  · rw [if_neg hget] at h
    cases h

theorem Sound.hands (h : Sound c) (ht : c.hands? t = some change) :
    change.Digital ∧ change.Fits c.subscriptions.table ∧ ∃ subs,
      subs.table = change.onTable c.subscriptions.table ∧
        c.step t = ({ c with subscriptions := subs }.spread change).state := by
  cases t with
  | add p u =>
    rw [hands?] at ht
    split at ht
    · rename_i hanswer
      obtain rfl := Option.some.inj ht
      obtain ⟨hp, hsubs⟩ := add_hands hanswer
      exact ⟨hp, trivial, hsubs⟩
    · cases ht
  | delete p u =>
    rw [hands?] at ht
    split at ht
    · rename_i hanswer
      obtain rfl := Option.some.inj ht
      obtain ⟨hget, hsubs⟩ := delete_hands hanswer
      have hin := (get?_eq_some_iff h.flat.sorted.nodup).mp hget
      refine ⟨h.flat.digital _ hin, hget, ?_⟩
      rwa [Change.onTable, if_pos hget]
    · cases ht
  | start | finishBuild | onGenerated | search | publishStats => cases ht

theorem slots_spread (change : Change) (c : Coordinator) :
    (c.spread change).state.slots = c.slots.map fun s => (s.update change).state := by
  rw [spread, onSlots, List.map_map]
  rfl

/-- No step changes the subscriptions without handing the change out. -/
theorem subscriptions_of_unhanded (c : Coordinator) (ht : c.hands? t = none) :
    (c.step t).subscriptions = c.subscriptions := by
  cases t with
  | start => rfl
  | finishBuild kind => exact (c.finishBuild_follows kind).1.subscriptions
  | add p u =>
    rcases c.add_cases p u with ⟨answer, -, heq⟩ | ⟨subs, heq⟩
    · rw [step, heq]
      rfl
    · rw [hands?, heq] at ht
      cases ht
  | delete p u =>
    rcases c.delete_cases p u with ⟨answer, -, heq⟩ | ⟨subs, heq⟩
    · rw [step, heq]
      rfl
    · rw [hands?, heq] at ht
      cases ht
  | onGenerated kind => exact c.subscriptions_onGenerated kind
  | search id cost => exact (c.search_follows id cost).1.subscriptions
  | publishStats => exact c.publishStats_follows.1.subscriptions

/-- The subscriptions go through the changes that are handed out. -/
theorem Sound.table_run (h : Sound c) (steps : List Step) :
    (c.run steps).subscriptions.table =
      (c.handed steps).foldl Change.onTable c.subscriptions.table ∧
    Change.AllFit c.subscriptions.table (c.handed steps) := by
  induction steps generalizing c with
  | nil => exact ⟨rfl, trivial⟩
  | cons t steps ih =>
    obtain ⟨htable, hfit⟩ := ih (h.step t).1
    rw [handed, List.foldl_append, Change.allFit_append]
    cases ht : c.hands? t with
    | none =>
      rw [subscriptions_of_unhanded c ht] at htable hfit
      exact ⟨htable, trivial, hfit⟩
    | some change =>
      obtain ⟨-, hfits, subs, hsubs, hstep⟩ := h.hands ht
      have hchanged : (c.step t).subscriptions.table = change.onTable c.subscriptions.table := by
        rw [hstep]
        exact hsubs
      rw [hchanged] at htable hfit
      exact ⟨htable, ⟨hfits, trivial⟩, hfit⟩

/-- Whether every slot comes from one that it leaves at rest. -/
def Resting (c c' : Coordinator) : Prop := ∀ s' ∈ c'.slots, ∃ s ∈ c.slots, Rests s s'

theorem respected_rests : Respected Rests :=
  ⟨EngineSlot.rests_self, Rests.trans, rests_deploy, rests_retire⟩

theorem rests_reportStats (s : EngineSlot) : Rests s s.reportStats.state :=
  ⟨rfl, id, fun _ hbuild => ⟨hbuild, rfl⟩⟩

theorem resting_step (c : Coordinator) (ht : c.hands? t = none) (hstart : t ≠ .start) :
    Resting c (c.step t) := by
  cases t with
  | start => exact absurd rfl hstart
  | finishBuild kind => exact respected_rests.derives_finishBuild c kind rests_finish
  | add p u =>
    rcases c.add_cases p u with ⟨answer, -, heq⟩ | ⟨subs, heq⟩
    · rw [step, heq]
      exact respected_rests.derives_self c
    · rw [hands?, heq] at ht
      cases ht
  | delete p u =>
    rcases c.delete_cases p u with ⟨answer, -, heq⟩ | ⟨subs, heq⟩
    · rw [step, heq]
      exact respected_rests.derives_self c
    · rw [hands?, heq] at ht
      cases ht
  | onGenerated kind => exact respected_rests.derives_onGenerated c kind
  | search id cost => exact respected_rests.derives_search c id cost fun s => s.rests_search id
  | publishStats => exact respected_rests.derives_publishStats c rests_reportStats

/-- How the changes of a run stand to a slot: one that has not been started has refused
them all, and one that builds has the ones it refused in its snapshot and the others in
its backlog. -/
structure Accounted (m : Table) (handed refused : List Change) (s : EngineSlot) : Prop where
  idle : s.state = .unavailable → refused = handed
  waits : ∀ snapshot, s.build = some snapshot →
    handed = refused ++ s.backlog ∧ snapshot.table = refused.foldl Change.onTable m

theorem refuses?_of_mem (h : Sound c) (hs : s ∈ c.slots) (ht : c.hands? t = some change) :
    c.refuses? s.kind t = if s.state = .unavailable then some change else none := by
  obtain ⟨hc, hfits, -⟩ := h.hands ht
  have hanswer := (h.serves s hs).update_answer hc hfits
  rw [refuses?, ht, slot?_of_mem h.kinds hs]
  split
  · rename_i hstate
    simp [hanswer, hstate, Except.isOk, Except.toBool]
  · rename_i hstate
    simp [hanswer, hstate, Except.isOk, Except.toBool]

theorem Accounted.start (h : Sound c) (huniform : c.Idle ∨ c.Started) {m : Table}
    {handed : List Change} (hm : c.subscriptions.table = handed.foldl Change.onTable m)
    (refused : EngineKind → List Change)
    (hslots : ∀ s ∈ c.slots, Accounted m handed (refused s.kind) s) :
    ∀ s ∈ (c.step .start).slots, Accounted m handed (refused s.kind) s := by
  intro s' hs'
  have hstarted : (c.step .start).slots = (startSlots c.subscriptions c.slots).2 := rfl
  rw [hstarted] at hs'
  rcases huniform with hidle | hstarted
  · rw [slots_startSlots_of_idle hidle] at hs'
    obtain ⟨s, hs, rfl⟩ := List.mem_map.mp hs'
    refine ⟨EngineState.noConfusion, ?_⟩
    rintro _ ⟨⟩
    have hall : refused s.kind = handed := (hslots s hs).idle (hidle s hs)
    change handed = refused s.kind ++ s.backlog ∧ _
    rw [((h.serves s hs).idle (hidle s hs)).2, List.append_nil]
    exact ⟨hall.symm, hall ▸ hm⟩
  · rw [slots_startSlots_of_started hstarted] at hs'
    exact hslots s' hs'

theorem Accounted.update {m now : Table} {handed refused : List Change}
    (h : Accounted m handed refused s) (hserves : s.Serves now) (change : Change) :
    Accounted m (handed ++ [change])
      (refused ++ (if s.state = .unavailable then some change else none).toList)
      (s.update change).state := by
  cases hserves with
  | waiting state build =>
    rw [update_of_unavailable state, if_pos state]
    refine ⟨fun _ => congrArg (· ++ [change]) (h.idle state), fun snapshot hbuild => ?_⟩
    cases hbuild.symm.trans build
  | building state =>
    have hstate : s.state ≠ .unavailable := by rcases state with h | h <;> simp [h]
    rw [update_of_building state, if_neg hstate]
    refine ⟨EngineState.noConfusion, fun snapshot hbuild => ?_⟩
    obtain ⟨hhanded, hsnapshot⟩ := h.waits snapshot hbuild
    simp only [Option.toList_none, List.append_nil, Outcome.quiet]
    exact ⟨by rw [hhanded, List.append_assoc], hsnapshot⟩
  | complete state build =>
    rw [update_of_complete state]
    refine ⟨EngineState.noConfusion, fun snapshot hbuild => ?_⟩
    cases hbuild.symm.trans build

theorem Accounted.rests {m : Table} {handed refused : List Change}
    (h : Accounted m handed refused s) (hrests : Rests s s') : Accounted m handed refused s' := by
  refine ⟨fun hidle => h.idle (hrests.idle hidle), fun snapshot hbuild => ?_⟩
  obtain ⟨hbuild, hbacklog⟩ := hrests.waits snapshot hbuild
  exact hbacklog ▸ h.waits snapshot hbuild

theorem Sound.accounted_run (h : Sound c) (hsteady : Steady c) (hidle : c.Idle)
    (steps : List Step) :
    ∀ s ∈ (c.run steps).slots,
      Accounted c.subscriptions.table (c.handed steps) (c.refused s.kind steps) s := by
  induction steps using List.reverseRecOn with
  | nil =>
    intro s hs
    refine ⟨fun _ => rfl, fun snapshot hbuild => ?_⟩
    cases hbuild.symm.trans ((h.serves s hs).idle (hidle s hs)).1
  | append_singleton steps t ih =>
    have hnow := (h.run steps).1
    have hsteady' := hsteady.run steps
    have htable := (h.table_run steps).1
    rw [run_concat, handed_concat]
    simp only [refused_concat]
    generalize c.run steps = now at ih hnow hsteady' htable ⊢
    cases ht : now.hands? t with
    | some change =>
      obtain ⟨-, -, subs, -, hstep⟩ := hnow.hands ht
      intro s' hs'
      rw [hstep, slots_spread] at hs'
      obtain ⟨s, hs, rfl⟩ := List.mem_map.mp hs'
      rw [(s.update_updates change).2.1, refuses?_of_mem hnow hs ht]
      exact (ih s hs).update (hnow.serves s hs) change
    | none =>
      have hrefuses (kind : EngineKind) : now.refuses? kind t = none := by rw [refuses?, ht]; rfl
      simp only [hrefuses, Option.toList_none, List.append_nil]
      by_cases hstart : t = .start
      · rw [hstart]
        exact Accounted.start hnow hsteady'.uniform htable (c.refused · steps) ih
      · intro s' hs'
        obtain ⟨s, hs, hrests⟩ := now.resting_step ht hstart s' hs'
        rw [hrests.kind]
        exact (ih s hs).rests hrests

/-- In every state that a run reaches, a change of the subscriptions is handed to every
slot, and all slots accept it but those that have not been started. A slot that builds
has all changes of the run: those that it refused are in its snapshot, and those in its
backlog can be applied one after another, each without an error, to the engine built
from the snapshot. That gives the engine that is installed. -/
theorem changes_accepted (hmake : make config subs = .ok c) (hsubs : subs.Inserted)
    (steps : List Step) :
    let now := c.run steps
    (∀ t, now.hands? t = none → (now.step t).subscriptions = now.subscriptions) ∧
    (∀ t change, now.hands? t = some change →
      (now.step t).slots = now.slots.map (fun s => (s.update change).state) ∧
      ∀ s ∈ now.slots, (s.update change).answer = if s.state = .unavailable
        then .error (.invalidTransition .unavailable .update) else .ok ()) ∧
    ∀ s ∈ now.slots, ∀ snapshot, s.build = some snapshot →
      c.handed steps = c.refused s.kind steps ++ s.backlog ∧
      snapshot.table = (c.refused s.kind steps).foldl Change.onTable subs.table ∧
      ∃ engine, s.backlog.foldlM (fun engine change => change.apply engine)
          (Engine.build s.kind snapshot) = .ok engine ∧ s.finish.state.engine = some engine := by
  intro now
  obtain ⟨hmade, -⟩ := make_sound hmake hsubs.flat
  obtain ⟨hsteady, -⟩ := make_steady hmake
  obtain ⟨-, hc⟩ := make_eq_ok hmake
  have hinitial : c.subscriptions = subs := congrArg Coordinator.subscriptions hc
  have hidle : c.Idle := by
    rw [hc]
    intro s hs
    obtain ⟨kind, -, rfl⟩ := List.mem_map.mp hs
    rfl
  have hnow : Sound now := (hmade.run steps).1
  refine ⟨fun t => subscriptions_of_unhanded now, fun t change ht => ?_, fun s hs snapshot hbuild => ?_⟩
  · obtain ⟨hdigital, hfits, subs', -, hstep⟩ := hnow.hands ht
    refine ⟨?_, fun s hs => (hnow.serves s hs).update_answer hdigital hfits⟩
    rw [hstep, slots_spread]
  · obtain ⟨hhanded, hsnapshot⟩ :=
      (hmade.accounted_run hsteady hidle steps s hs).waits snapshot hbuild
    have hfits := (hmade.table_run steps).2
    rw [hhanded, Change.allFit_append, ← hsnapshot] at hfits
    exact ⟨hhanded, hinitial ▸ hsnapshot, (hnow.serves s hs).installs hbuild hfits.2⟩

/-- A change before the builds are started, and two while they run. -/
def sampleChanges : List Step :=
  [.add ['0'] "first", .start, .delete ['0'] "first", .add ['1'] "second"]

theorem changes_accepted_sample :
    let now := sampleCoordinator.run sampleChanges
    sampleCoordinator.refused .list sampleChanges = [.add ['0'] "first"] ∧
      ∃ s ∈ now.slots, s.backlog = [.delete ['0'] "first", .add ['1'] "second"] ∧
        ∃ engine, s.backlog.foldlM (fun engine change => change.apply engine)
            (Engine.build .list (Subscriptions.ofTable [(['0'], "first")])) = .ok engine ∧
          s.finish.state.engine = some engine := by
  have hmake : make Config.default .nil = .ok sampleCoordinator := rfl
  obtain ⟨-, -, hslots⟩ := changes_accepted hmake .nil sampleChanges
  refine ⟨by decide, _, List.mem_cons_self, rfl, ?_⟩
  exact (hslots _ List.mem_cons_self _ rfl).2.2

end Coordinator
end TagFilter
