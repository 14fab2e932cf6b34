import Mathlib.Algebra.Ring.Nat
import TagFilter.Proofs.Counters
import TagFilter.Proofs.Selection
import TagFilter.Proofs.Windows

/-! # What statistics count

A step of the coordinator keeps the books of every engine: what it reports is taken off
the counters, and a search that the engine takes part in is put on. So in a whole run the
windows reported for an engine and what is left in its counters add up to the searches
that it took part in, and to those of them in which it found anything.
-/
namespace TagFilter.Coordinator
open EngineSlot

def Step.isSearch : Step → Bool
  | .search _ _ => true
  | _ => false

/-- What a step answers if it is a search that succeeds. -/
def answered (c : Coordinator) : Step → Option (List String)
  | .search id cost => (c.search id cost).answer.toOption
  | _ => none

/-- Whether the engine of a kind takes part in a search that succeeds: it is the current
one, or it is complete and there is shadow searching. -/
def counts (kind : EngineKind) (c : Coordinator) (t : Step) : Bool :=
  (c.answered t).isSome && (c.current = some kind ||
    c.config.shadowSearch && (c.slot? kind).any EngineSlot.isSearchable)

/-- What the engine of a kind itself finds in a search. -/
def found (kind : EngineKind) (c : Coordinator) : Step → List String
  | .search id _ => ((c.slot? kind).bind fun s => (s.search id 0).1).getD []
  | _ => []

def finds (kind : EngineKind) (c : Coordinator) (t : Step) : Bool :=
  counts kind c t && found kind c t ≠ []

/-- How many steps of a run something holds of. -/
def tally (holds : Coordinator → Step → Bool) (c : Coordinator) : List Step → Nat
  | [] => 0
  | t :: steps => (holds c t).toNat + tally holds (c.step t) steps

/-- The counters of the slot of a kind. -/
def live (c : Coordinator) (kind : EngineKind) : Metrics :=
  ((c.slot? kind).map EngineSlot.metrics).getD Metrics.fresh

variable {c c' : Coordinator} {s s' : EngineSlot} {kind current : EngineKind} {t : Step}
  {config : Config} {subs : Subscriptions}

theorem windows_publishStats (hnodup : (c.slots.map EngineSlot.kind).Nodup) (kind : EngineKind) :
    Event.windows kind c.publishStats.events = ((c.slot? kind).map fun s =>
      if s.isSearchable = true then [(s.metrics.events, s.metrics.matched)] else []).getD [] := by
  rw [← flatMap_slots hnodup, publishStats, events_onSlots, Event.windows, List.filterMap_flatMap]
  refine congrArg (c.slots.flatMap ·) (funext fun s => ?_)
  cases s.isSearchable with
  | true => exact Event.windows_windowEvents kind s.kind s.metrics
  | false => exact (ite_self _).symm

/-- What every run keeps of the counters. -/
structure Metered (c : Coordinator) : Prop where
  steady : Steady c
  coherent : ∀ kind s, c.slot? kind = some s → s.Coherent
  bounded : ∀ kind, (c.live kind).matched ≤ (c.live kind).events

/-- What a step makes of the counters of an engine: what it reports is taken off, and a
search that the engine takes part in is put on. -/
structure Books (kind : EngineKind) (c : Coordinator) (t : Step) : Prop where
  coherent : ∀ s, (c.step t).slot? kind = some s → s.Coherent
  bounded : ((c.step t).live kind).matched ≤ ((c.step t).live kind).events
  events : ((Event.windows kind (c.events t)).map (·.1)).sum + ((c.step t).live kind).events =
    (c.live kind).events + (counts kind c t).toNat
  matched : ((Event.windows kind (c.events t)).map (·.2)).sum + ((c.step t).live kind).matched =
    (c.live kind).matched + (finds kind c t).toNat

theorem keeps_slot? (h : Steady c) (h' : Steady c') (hconfig : c'.config = c.config)
    (hkeeps : Derives Keeps c c') (kind : EngineKind) :
    Option.Rel Keeps (c.slot? kind) (c'.slot? kind) := by
  cases hslot' : c'.slot? kind with
  | some s' =>
    obtain ⟨hmem, rfl⟩ := slot?_mem hslot'
    obtain ⟨s, hs, hrel⟩ := hkeeps s' hmem
    rw [hrel.kind, slot?_of_mem h.nodup hs]
    exact .some hrel
  | none =>
    cases hslot : c.slot? kind with
    | none => exact .none
    | some s =>
      obtain ⟨s', hs'⟩ := h'.slot_of_enabled (hconfig ▸ h.enabled hslot)
      cases hslot'.symm.trans hs'

theorem counts_of_unanswered (h : c.answered t = none) : counts kind c t = false := by
  rw [counts, h]
  rfl

theorem finds_of_not_counts (h : counts kind c t = false) : finds kind c t = false := by
  rw [finds, h, Bool.false_and]

theorem live_of_slot? (h : c.slot? kind = some s) : c.live kind = s.metrics := by
  rw [live, h]
  rfl

/-- Nothing is reported for an engine and nothing counted. -/
theorem Metered.books_of_live (h : Metered c)
    (hcoherent : ∀ s, (c.step t).slot? kind = some s → s.Coherent)
    (hlive : (c.step t).live kind = c.live kind) (hwindows : Event.windows kind (c.events t) = [])
    (hcounts : counts kind c t = false) : Books kind c t := by
  refine ⟨hcoherent, ?_, ?_, ?_⟩
  · rw [hlive]
    exact h.bounded kind
  · rw [hwindows, hlive, hcounts]
    exact Nat.zero_add _
  · rw [hwindows, hlive, finds_of_not_counts hcounts]
    exact Nat.zero_add _

theorem Metered.books_of_slot? (h : Metered c) (hslot : (c.step t).slot? kind = c.slot? kind)
    (hwindows : Event.windows kind (c.events t) = []) (hcounts : counts kind c t = false) :
    Books kind c t :=
  h.books_of_live (fun s hs => h.coherent kind s (hslot ▸ hs)) (by rw [live, hslot, live]) hwindows
    hcounts

theorem Metered.books_of_keeps (h : Metered c) (hkeeps : Derives Keeps c (c.step t))
    (hanswered : c.answered t = none) (hevents : ∀ e ∈ c.events t, e.topic ≠ .traffic)
    (kind : EngineKind) : Books kind c t := by
  have hrel := keeps_slot? h.steady (h.steady.step t) (h.steady.selects t).1 hkeeps kind
  have hcoherent := h.coherent kind
  have hlive : c.live kind = ((c.slot? kind).map EngineSlot.metrics).getD Metrics.fresh := rfl
  refine h.books_of_live ?_ ?_ (Event.windows_eq_nil hevents) (counts_of_unanswered hanswered)
  · intro s' hs'
    rw [hs'] at hrel
    generalize c.slot? kind = found at hrel hcoherent
    cases hrel with
    | some hs => exact hs.coherent (hcoherent _ rfl)
  · rw [hlive, live]
    generalize c.slot? kind = x at hrel
    generalize (c.step t).slot? kind = y at hrel
    cases hrel with
    | some hs => exact congrArg (Option.getD · _) (congrArg some hs.metrics)
    | none => rfl

theorem counts_search {id : Identifier} {cost : EngineKind → Nat} {uris : List String}
    (hcurrent : c.current = some current)
    (hanswer : (c.search id cost).answer.toOption = some uris) (kind : EngineKind) :
    counts kind c (.search id cost) = true ↔ kind = current ∨
      c.config.shadowSearch = true ∧ (c.slot? kind).any EngineSlot.isSearchable = true := by
  rw [counts, answered, hanswer, hcurrent]
  simp only [Option.isSome_some, Bool.true_and, Bool.or_eq_true, Bool.and_eq_true,
    decide_eq_true_eq, Option.some.injEq]
  exact or_congr_left eq_comm

theorem found_search {id : Identifier} {cost : EngineKind → Nat} {uris : List String}
    (hslot : c.slot? kind = some s) (huris : (s.search id (cost kind)).1 = some uris) :
    found kind c (.search id cost) = uris := by
  rw [found, hslot, Option.bind_some, s.search_fst id 0 (cost kind), huris, Option.getD_some]

/-- A complete engine that takes part in a search books what it finds. -/
theorem Metered.books_record (h : Metered c) {id : Identifier} {cost : EngineKind → Nat}
    {uris : List String} (hslot : c.slot? kind = some s)
    (hslot' : (c.step (.search id cost)).slot? kind = some (s.search id (cost kind)).2)
    (hwindows : Event.windows kind (c.events (.search id cost)) = [])
    (hcounts : counts kind c (.search id cost) = true)
    (huris : (s.search id (cost kind)).1 = some uris)
    (hmetrics : (s.search id (cost kind)).2.metrics = s.metrics.record (cost kind) (uris ≠ [])) :
    Books kind c (.search id cost) := by
  have hlive := live_of_slot? hslot
  have hlive' := live_of_slot? hslot'
  have hbounded := h.bounded kind
  have hfinds : finds kind c (.search id cost) = decide (uris ≠ []) := by
    rw [finds, hcounts, Bool.true_and, found_search hslot huris]
  refine ⟨fun s' hs' => ?_, ?_, ?_, ?_⟩
  · obtain rfl := Option.some.inj (hslot'.symm.trans hs')
    exact (h.coherent kind s hslot).search id (cost kind)
  · rw [hlive] at hbounded
    rw [hlive', hmetrics, Metrics.record]
    dsimp only
    split <;> omega
  · rw [hwindows, hlive, hlive', hmetrics, hcounts]
    exact Nat.zero_add _
  · rw [hwindows, hlive, hlive', hmetrics, hfinds]
    cases uris <;> exact Nat.zero_add _

theorem Metered.books_search (h : Metered c) (id : Identifier) (cost : EngineKind → Nat)
    (kind : EngineKind) : Books kind c (.search id cost) := by
  have hwindows : Event.windows kind (c.events (.search id cost)) = [] := by
    change Event.windows kind (c.search id cost).events = []
    rw [(c.search_follows id cost).2]
    rfl
  rcases c.search_cases id cost with ⟨hrefused, hstate⟩ |
    ⟨current, serving, uris, hcurrent, hserving, huris, hanswer, hstate⟩
  · have hslot : (c.step (.search id cost)).slot? kind = c.slot? kind :=
      congrArg (Coordinator.slot? · kind) hstate
    exact h.books_of_slot? hslot hwindows (counts_of_unanswered hrefused)
  · have hslot' : (c.step (.search id cost)).slot? kind = _ := hstate kind
    have hcounts := counts_search hcurrent hanswer kind
    cases hslot : c.slot? kind with
    | none =>
      have hne : kind ≠ current := fun hsame => by cases hslot.symm.trans (hsame ▸ hserving)
      rw [hslot] at hslot' hcounts
      refine h.books_of_slot? (hslot'.trans hslot.symm) hwindows ?_
      simpa [hne] using hcounts
    | some s =>
      have hcoherent := h.coherent kind s hslot
      rw [hslot, Option.map_some] at hslot'
      rw [hslot, Option.any_some] at hcounts
      -- The search counts for a complete engine that it reaches. A slot that it does not
      -- reach, or that passes, is left as it was.
      rcases hcoherent.search_cases id (cost kind) with
        ⟨hsearch, found, hfound, hmetrics⟩ | ⟨hsearch, hpassed⟩
      · by_cases htaken : kind = current ∨ c.config.shadowSearch = true
        · rw [if_pos htaken] at hslot'
          exact h.books_record hslot hslot' hwindows (hcounts.mpr (by simpa [hsearch] using htaken))
            hfound hmetrics
        · rw [if_neg htaken] at hslot'
          refine h.books_of_slot? (hslot'.trans hslot.symm) hwindows ?_
          simpa [hsearch, htaken] using hcounts
      · have hne : kind ≠ current := by
          rintro rfl
          obtain rfl := Option.some.inj (hserving.symm.trans hslot)
          rw [hpassed] at huris
          cases huris
        rw [hpassed, ite_self] at hslot'
        refine h.books_of_slot? (hslot'.trans hslot.symm) hwindows ?_
        simpa [hsearch, hne] using hcounts

theorem Metered.books_publishStats (h : Metered c) (kind : EngineKind) :
    Books kind c .publishStats := by
  have hslot' : (c.step .publishStats).slot? kind = _ := c.slot?_publishStats kind
  have hwindows : Event.windows kind (c.events .publishStats) = _ :=
    windows_publishStats h.steady.nodup kind
  cases hslot : c.slot? kind with
  | none =>
    rw [hslot] at hslot' hwindows
    exact h.books_of_slot? (hslot'.trans hslot.symm) hwindows rfl
  | some s =>
    have hcoherent := h.coherent kind s hslot
    rw [hslot, Option.map_some] at hslot' hwindows
    cases hsearch : s.isSearchable with
    | false =>
      simp only [hsearch, Bool.false_eq_true, if_false] at hslot' hwindows
      exact h.books_of_slot? (hslot'.trans hslot.symm) hwindows rfl
    | true =>
      simp only [hsearch, if_true] at hslot' hwindows
      have hlive := live_of_slot? hslot
      have hlive' := live_of_slot? hslot'
      refine ⟨fun s' hs' => ?_, ?_, ?_, ?_⟩
      · obtain rfl := Option.some.inj (hslot'.symm.trans hs')
        exact hcoherent
      · rw [hlive']
        exact Nat.le_refl 0
      · rw [hwindows, hlive, hlive']
        rfl
      · rw [hwindows, hlive, hlive']
        rfl

theorem topic_events (c : Coordinator) (ht : t ≠ .publishStats) :
    ∀ e ∈ c.events t, e.topic ≠ .traffic := by
  have hupdates (change : Change) :
      ∀ e ∈ c.slots.flatMap fun s => (s.update change).events, e.topic ≠ .traffic := by
    intro e he
    obtain ⟨s, -, he⟩ := List.mem_flatMap.mp he
    rw [(s.update_updates change).2.2.1 e he]
    exact Topic.noConfusion
  cases t with
  | start => exact List.forall_mem_nil _
  | finishBuild kind =>
    change ∀ e ∈ (c.finishBuild kind).events, e.topic ≠ .traffic
    unfold finishBuild
    cases c.slot? kind with
    | none => exact List.forall_mem_nil _
    | some s =>
      intro e he
      rw [s.finish_advances.2.2 e he]
      exact Topic.noConfusion
  | add p u =>
    rw [events, outcome]
    rcases c.add_cases p u with ⟨answer, -, heq⟩ | ⟨subs, heq⟩
    · rw [heq]
      exact List.forall_mem_nil _
    · rw [heq]
      exact (spread_follows (.add p u) { c with subscriptions := subs }).2 ▸ hupdates _
  | delete p u =>
    rw [events, outcome]
    rcases c.delete_cases p u with ⟨answer, -, heq⟩ | ⟨subs, heq⟩
    · rw [heq]
      exact List.forall_mem_nil _
    · rw [heq]
      exact (spread_follows (.delete p u) { c with subscriptions := subs }).2 ▸ hupdates _
  | onGenerated kind =>
    rw [events, outcome]
    cases hslot : c.slot? kind with
    | none =>
      rw [onGenerated, slot, hslot]
      exact List.forall_mem_nil _
    | some s =>
      rcases onGenerated_cases hslot with ⟨heq, -⟩ | ⟨-, -, c', heq, -⟩ | ⟨-, -, c', heq, -⟩
      · rw [heq]
        exact List.forall_mem_nil _
      · rw [heq]
        exact List.forall_mem_nil _
      · rw [heq]
        exact List.forall_mem_singleton.mpr Topic.noConfusion
  | search id cost =>
    change ∀ e ∈ (c.search id cost).events, e.topic ≠ .traffic
    rw [(c.search_follows id cost).2]
    exact List.forall_mem_nil _
  | publishStats => exact absurd rfl ht

theorem derives_keeps (c : Coordinator) (hsearch : t.isSearch = false) (ht : t ≠ .publishStats) :
    Derives Keeps c (c.step t) := by
  cases t with
  | start => exact respected_keeps.derives_start c keeps_init
  | finishBuild kind => exact respected_keeps.derives_finishBuild c kind keeps_finish
  | add p u => exact respected_keeps.derives_add c p u fun s => s.keeps_update _
  | delete p u => exact respected_keeps.derives_delete c p u fun s => s.keeps_update _
  | onGenerated kind => exact respected_keeps.derives_onGenerated c kind
  | search => cases hsearch
  | publishStats => exact absurd rfl ht

theorem answered_of_not_search (hsearch : t.isSearch = false) : c.answered t = none := by
  cases t with
  | search => cases hsearch
  | _ => rfl

theorem Metered.books (h : Metered c) (t : Step) (kind : EngineKind) : Books kind c t := by
  cases hsearch : t.isSearch with
  | true =>
    cases t with
    | search id cost => exact h.books_search id cost kind
    | _ => cases hsearch
  | false =>
    by_cases ht : t = .publishStats
    · exact ht ▸ h.books_publishStats kind
    · exact h.books_of_keeps (c.derives_keeps hsearch ht) (answered_of_not_search hsearch)
        (c.topic_events ht) kind

theorem Metered.step (h : Metered c) (t : Step) : Metered (c.step t) :=
  ⟨h.steady.step t, fun kind => (h.books t kind).coherent, fun kind => (h.books t kind).bounded⟩

theorem Metered.accounts (h : Metered c) (t : Step) : Event.Accounts (c.events t) := by
  by_cases ht : t = .publishStats
  · subst ht
    change Event.Accounts c.publishStats.events
    rw [publishStats, events_onSlots]
    refine Event.accounts_flatMap fun s hs => ?_
    have hbounded := h.bounded s.kind
    rw [live_of_slot? (slot?_of_mem h.steady.nodup hs)] at hbounded
    split
    · exact Event.accounts_windowEvents hbounded
    · exact .nil
  · exact Event.accounts_of_topic (c.topic_events ht)

theorem make_metered (hmake : make config subs = .ok c) :
    Metered c ∧ ∀ kind, c.live kind = Metrics.fresh := by
  obtain ⟨-, hc⟩ := make_eq_ok hmake
  have hfresh : ∀ s ∈ c.slots, s = EngineSlot.fresh s.kind := by
    intro s hs
    rw [hc] at hs
    obtain ⟨kind, -, rfl⟩ := List.mem_map.mp hs
    rfl
  have hlive (kind : EngineKind) : c.live kind = Metrics.fresh := by
    cases hslot : c.slot? kind with
    | none =>
      rw [live, hslot]
      rfl
    | some s =>
      rw [live_of_slot? hslot, hfresh s (slot?_mem hslot).1]
      rfl
  refine ⟨⟨(make_steady hmake).1, fun kind s hslot => ?_, fun kind => ?_⟩, hlive⟩
  · rw [hfresh s (slot?_mem hslot).1]
    exact coherent_fresh s.kind
  · rw [hlive]
    exact Nat.le_refl 0

/-- What was in the counters and what is counted has been reported or is still there. -/
theorem Metered.conserves (h : Metered c) (steps : List Step) (kind : EngineKind) :
    ((Event.windows kind (c.published steps)).map (·.1)).sum + ((c.run steps).live kind).events =
        (c.live kind).events + tally (counts kind) c steps ∧
      ((Event.windows kind (c.published steps)).map (·.2)).sum +
          ((c.run steps).live kind).matched =
        (c.live kind).matched + tally (finds kind) c steps := by
  -- The books of the first step and the induction hypothesis for the state after it add up.
  induction steps generalizing c with
  | nil => exact ⟨Nat.add_comm .., Nat.add_comm ..⟩
  | cons t steps ih =>
    obtain ⟨hevents, hmatched⟩ := ih (h.step t)
    have hbooks := h.books t kind
    have hbooked := hbooks.events
    have hfound := hbooks.matched
    have hwindows : Event.windows kind (c.published (t :: steps)) =
        Event.windows kind (c.events t) ++ Event.windows kind ((c.step t).published steps) :=
      List.filterMap_append
    have hrun : c.run (t :: steps) = (c.step t).run steps := rfl
    rw [hwindows, hrun, List.map_append, List.map_append, List.sum_append, List.sum_append, tally,
      tally]
    omega

theorem Metered.accounts_run (h : Metered c) (steps : List Step) :
    Event.Accounts (c.published steps) := by
  induction steps generalizing c with
  | nil => exact .nil
  | cons t steps ih => exact (h.accounts t).append (ih (h.step t))

theorem tally_le (kind : EngineKind) (c : Coordinator) (steps : List Step) :
    tally (counts kind) c steps ≤ steps.countP Step.isSearch := by
  induction steps generalizing c with
  | nil => exact Nat.le_refl 0
  | cons t steps ih =>
    have hrest := ih (c.step t)
    have hcounts : t.isSearch = false → counts kind c t = false := fun hsearch =>
      counts_of_unanswered (answered_of_not_search hsearch)
    rw [tally, List.countP_cons]
    cases hsearch : t.isSearch with
    | true =>
      have hone := Bool.toNat_le (counts kind c t)
      rw [if_pos rfl]
      omega
    | false =>
      rw [hcounts hsearch]
      simpa using hrest

/-- As long as the subscriptions are flat, an engine that takes part in a search finds what
the search answers. -/
theorem Sound.found_eq (h : Sound c) (hcounts : counts kind c t = true) :
    c.answered t = some (found kind c t) := by
  cases t with
  | search id cost =>
    rw [counts, Bool.and_eq_true, Bool.or_eq_true, Bool.and_eq_true, decide_eq_true_eq] at hcounts
    obtain ⟨hanswered, htakes⟩ := hcounts
    have hslot : ∃ s, c.slot? kind = some s ∧ s.isSearchable = true := by
      rcases htakes with hcurrent | ⟨-, hcomplete⟩
      · exact h.current kind hcurrent
      · exact (Option.any_eq_true ..).mp hcomplete
    obtain ⟨s, hslot, hsearch⟩ := hslot
    have huris := (h.serves s (slot?_mem hslot).1).search hsearch id (cost kind)
    rw [found_search hslot huris]
    rw [answered, (h.search id cost).2.2] at hanswered ⊢
    split at hanswered
    · rename_i hcurrent
      rw [if_pos hcurrent]
      rfl
    · cases hanswered
  | start | finishBuild | add | delete | onGenerated | publishStats =>
    cases (counts_of_unanswered rfl).symm.trans hcounts

theorem Sound.tally_finds (h : Sound c) (kind : EngineKind) (steps : List Step) :
    tally (finds kind) c steps =
      tally (fun c t => counts kind c t && c.answered t ≠ some []) c steps := by
  induction steps generalizing c with
  | nil => rfl
  | cons t steps ih =>
    have hsame : finds kind c t = (counts kind c t && decide (c.answered t ≠ some [])) := by
      cases hcounts : counts kind c t with
      | false => rw [finds, hcounts, Bool.false_and, Bool.false_and]
      | true =>
        rw [finds, hcounts, h.found_eq hcounts]
        simp
    rw [tally, tally, hsame, ih (h.step t).1]

/-- The statistics of a whole run account for its searches. For every engine the windows
that are reported and what is left in its counters add up to the searches that it took part
in, and to those of them that found anything, in the engine itself or, if the subscriptions
were made by insertions, in the answer. So no counter goes past the number of searches.
Every window has no more matches than searches, and the cost of a search is told right after
a window if and only if it has any. -/
theorem statistics_conserved (hmake : make config subs = .ok c) (steps : List Step) :
    let published := c.published steps
    (∀ kind,
      let reported := Event.windows kind published
      let left := (c.run steps).live kind
      (reported.map (·.1)).sum + left.events = tally (counts kind) c steps ∧
      (reported.map (·.2)).sum + left.matched = tally (finds kind) c steps ∧
      (subs.Inserted → tally (finds kind) c steps =
        tally (fun c t => counts kind c t && c.answered t ≠ some []) c steps) ∧
      tally (counts kind) c steps ≤ steps.countP Step.isSearch) ∧
    (∀ before engine searched matched after,
      published = before ++ .trafficStat engine searched matched :: after →
        matched ≤ searched ∧
          ((∃ micros rest, after = .engineStatus engine micros :: rest) ↔ searched ≠ 0)) ∧
    ∀ before engine micros after, published = before ++ .engineStatus engine micros :: after →
      ∃ first searched matched, before = first ++ [.trafficStat engine searched matched] := by
  intro published
  obtain ⟨hmetered, hfresh⟩ := make_metered hmake
  have haccounts := hmetered.accounts_run steps
  refine ⟨fun kind => ?_, fun _ _ _ _ _ => haccounts.window, fun _ _ _ _ => haccounts.status⟩
  obtain ⟨hevents, hmatched⟩ := hmetered.conserves steps kind
  rw [hfresh kind, Metrics.fresh, Nat.zero_add] at hevents hmatched
  exact ⟨hevents, hmatched, fun hsubs => (make_sound hmake hsubs.flat).1.tally_finds kind steps,
    tally_le kind c steps⟩

/-- Two engines are built, and searches reach one of them before and both of them after the
other is complete, with a report in between. -/
def sampleTraffic : List Step :=
  [.start, .add ['0'] "u", .finishBuild .list, .onGenerated .list,
    .search [0x30] fun _ => 1000, .search [0xF0] fun _ => 1000, .publishStats,
    .finishBuild .splayTree, .search [0x30] fun _ => 1000, .onGenerated .splayTree,
    .publishStats, .publishStats, .search [0x30] fun _ => 1000]

theorem statistics_conserved_sample :
    let config := { Config.default with shadowSearch := true }
    let c : Coordinator := ⟨config, .nil, EngineKind.all.map EngineSlot.fresh, none, []⟩
    make config .nil = .ok c ∧
    Event.windows .list (c.published sampleTraffic) = [(2, 1), (1, 1), (0, 0)] ∧
    3 + ((c.run sampleTraffic).live .list).events = 4 ∧
    2 + ((c.run sampleTraffic).live .list).matched = 3 ∧
    tally (finds .list) c sampleTraffic =
      tally (fun c t => counts .list c t && c.answered t ≠ some []) c sampleTraffic ∧
    Event.windows .splayTree (c.published sampleTraffic) = [(1, 1), (0, 0)] ∧
    1 + ((c.run sampleTraffic).live .splayTree).events = 2 := by
  intro config c
  have hmake : make config .nil = .ok c := rfl
  have hlist : Event.windows .list (c.published sampleTraffic) = [(2, 1), (1, 1), (0, 0)] := by
    decide +kernel
  have hsplay : Event.windows .splayTree (c.published sampleTraffic) = [(1, 1), (0, 0)] := by
    decide +kernel
  have hconserved := (statistics_conserved hmake sampleTraffic).1
  obtain ⟨hevents, hmatched, hanswers, -⟩ := hconserved .list
  have hevents' := (hconserved .splayTree).1
  rw [hlist] at hevents hmatched
  rw [hsplay] at hevents'
  have hcounted : tally (counts .list) c sampleTraffic = 4 := by decide +kernel
  have hfound : tally (finds .list) c sampleTraffic = 3 := by decide +kernel
  have hshadowed : tally (counts .splayTree) c sampleTraffic = 2 := by decide +kernel
  exact ⟨hmake, hlist, hevents.trans hcounted, hmatched.trans hfound, hanswers .nil, hsplay,
    hevents'.trans hshadowed⟩

end TagFilter.Coordinator
