import TagFilter.Coordinator
import TagFilter.Proofs.Slots

/-! # Runs of the coordinator

A run is any sequence of starts, finished builds, changes, announcements, searches
and reports. In every state it reaches, each slot has its part of the current
subscriptions and the engine in service can be searched, so searches are exact from
the first adoption on.
-/
namespace TagFilter.Coordinator
open Table OrderedMap

inductive Step where
  | start
  | finishBuild (kind : EngineKind)
  | add (pattern : Pattern) (uri : String)
  | delete (pattern : Pattern) (uri : String)
  | onGenerated (kind : EngineKind)
  | search (id : Identifier) (cost : EngineKind → Nat)
  | publishStats

def step (c : Coordinator) : Step → Coordinator
  | .start => c.start.state
  | .finishBuild kind => (c.finishBuild kind).state
  | .add pattern uri => (c.add pattern uri).state
  | .delete pattern uri => (c.delete pattern uri).state
  | .onGenerated kind => (c.onGenerated kind).state
  | .search id cost => (c.search id cost).state
  | .publishStats => c.publishStats.state

def run (c : Coordinator) (steps : List Step) : Coordinator := steps.foldl step c

/-- Whether a step is an announcement after which its engine becomes the current one. -/
def adopts (c : Coordinator) : Step → Prop
  | .onGenerated kind => (c.onGenerated kind).answer = .ok true
  | _ => False

def Adopted (c : Coordinator) : List Step → Prop
  | [] => False
  | s :: steps => c.adopts s ∨ Adopted (c.step s) steps

/-- What every run keeps. -/
structure Sound (c : Coordinator) : Prop where
  flat : c.subscriptions.Flat
  kinds : (c.slots.map EngineSlot.kind).Nodup
  serves : ∀ s ∈ c.slots, s.Serves c.subscriptions.table
  current : ∀ kind, c.current = some kind → ∃ s, c.slot? kind = some s ∧ s.isSearchable = true

variable {c : Coordinator} {s s' : EngineSlot} {kind : EngineKind} {subs : Subscriptions}
  {config : Config} {p : Pattern} {u : String}

theorem slot?_mem (h : c.slot? kind = some s) : s ∈ c.slots ∧ s.kind = kind := by
  have hkind := List.find?_some h
  exact ⟨List.mem_of_find?_eq_some h, by simpa using hkind⟩

theorem slot?_of_mem (hkinds : (c.slots.map EngineSlot.kind).Nodup) (hs : s ∈ c.slots) :
    c.slot? s.kind = some s := by
  cases hfind : c.slot? s.kind with
  | none =>
    have hnone := List.find?_eq_none.mp hfind s hs
    simp at hnone
  | some t =>
    obtain ⟨ht, hkind⟩ := slot?_mem hfind
    rw [List.inj_on_of_nodup_map hkinds ht hs hkind]

theorem forall₂_continues {m : Table} {slots slots' : List EngineSlot}
    (h : List.Forall₂ (EngineSlot.Continues m) slots slots') :
    slots'.map EngineSlot.kind = slots.map EngineSlot.kind ∧ (∀ s ∈ slots', s.Serves m) ∧
      ∀ s ∈ slots, ∃ s' ∈ slots', s.Continues m s' := by
  induction h with
  | nil => simp
  | cons hfirst _ ih =>
    obtain ⟨hkinds, hserves, hcontinued⟩ := ih
    refine ⟨by rw [List.map_cons, List.map_cons, hfirst.kind, hkinds],
      List.forall_mem_cons.mpr ⟨hfirst.serves, hserves⟩,
      List.forall_mem_cons.mpr ⟨⟨_, List.mem_cons_self, hfirst⟩, ?_⟩⟩
    intro s hs
    obtain ⟨s', hs', hss'⟩ := hcontinued s hs
    exact ⟨s', List.mem_cons_of_mem _ hs', hss'⟩

theorem Sound.replace (h : Sound c) (hsubs : subs.Flat) {slots' : List EngineSlot}
    (hslots : List.Forall₂ (EngineSlot.Continues subs.table) c.slots slots') :
    Sound { c with subscriptions := subs, slots := slots' } := by
  obtain ⟨hkinds, hserves, hcontinued⟩ := forall₂_continues hslots
  have hnodup := hkinds ▸ h.kinds
  refine ⟨hsubs, hnodup, hserves, ?_⟩
  intro kind hkind
  obtain ⟨s, hs, hsearch⟩ := h.current kind hkind
  obtain ⟨hmem, rfl⟩ := slot?_mem hs
  obtain ⟨s', hs', hss'⟩ := hcontinued s hmem
  have hfound := slot?_of_mem (c := { c with subscriptions := subs, slots := slots' }) hnodup hs'
  rw [hss'.kind] at hfound
  exact ⟨s', hfound, hss'.searchable hsearch⟩

theorem Sound.mapSlots (h : Sound c) (hsubs : subs.Flat) {f : EngineSlot → EngineSlot}
    (hf : ∀ s ∈ c.slots, s.Continues subs.table (f s)) :
    Sound { c with subscriptions := subs, slots := c.slots.map f } :=
  h.replace hsubs (List.forall₂_map_right_iff.mpr (List.forall₂_same.mpr hf))

theorem Sound.setSlot (h : Sound c) (hs : s ∈ c.slots)
    (hcontinues : s.Continues c.subscriptions.table s') : Sound (c.setSlot s') := by
  apply h.mapSlots h.flat
  intro t ht
  split
  · rename_i hkind
    rw [hcontinues.kind] at hkind
    rwa [List.inj_on_of_nodup_map h.kinds ht hs hkind]
  · exact (h.serves t ht).refl

theorem slot?_setSlot (h : Sound c) (hs : s ∈ c.slots)
    (hcontinues : s.Continues c.subscriptions.table s') :
    (c.setSlot s').slot? s'.kind = some s' := by
  refine slot?_of_mem (h.setSlot hs hcontinues).kinds ?_
  exact List.mem_map.mpr ⟨s, hs, if_pos hcontinues.kind.symm⟩

theorem make_eq_ok (h : make config subs = .ok c) : config.fault? = none ∧
    c = ⟨config, subs, (EngineKind.all.filter (· ∈ config.engines)).map EngineSlot.fresh, none, []⟩ := by
  rw [make, Config.validate] at h
  cases hfault : config.fault? with
  | some fault =>
    rw [hfault] at h
    cases h
  | none =>
    rw [hfault] at h
    exact ⟨rfl, (Except.ok.inj h).symm⟩

theorem kinds_fresh (kinds : List EngineKind) :
    (kinds.map EngineSlot.fresh).map EngineSlot.kind = kinds := by
  rw [List.map_map]
  exact List.map_id _

theorem make_sound (hmake : make config subs = .ok c) (hsubs : subs.Flat) :
    Sound c ∧ c.current = none := by
  obtain ⟨-, rfl⟩ := make_eq_ok hmake
  refine ⟨⟨hsubs, ?_, ?_, ?_⟩, rfl⟩
  · rw [kinds_fresh]
    exact List.Nodup.filter _ (by decide)
  · intro s hs
    obtain ⟨kind, -, rfl⟩ := List.mem_map.mp hs
    exact EngineSlot.serves_fresh _ kind
  · intro kind hkind
    cases hkind

theorem startSlots_continues (hsubs : subs.Flat) {slots : List EngineSlot}
    (h : ∀ s ∈ slots, s.Serves subs.table) :
    List.Forall₂ (EngineSlot.Continues subs.table) slots (startSlots subs slots).2 := by
  induction slots with
  | nil => exact .nil
  | cons s rest ih =>
    obtain ⟨hs, hrest⟩ := List.forall_mem_cons.mp h
    rw [startSlots]
    cases hinit : s.init subs with
    | error e =>
      exact .cons hs.refl (List.forall₂_same.mpr fun t ht => (hrest t ht).refl)
    | ok started => exact .cons (EngineSlot.Serves.init hinit hs hsubs) (ih hrest)

theorem Sound.start (h : Sound c) : Sound c.start.state :=
  h.replace h.flat (startSlots_continues h.flat h.serves)

theorem Sound.finishBuild (h : Sound c) (kind : EngineKind) :
    Sound (c.finishBuild kind).state ∧ (c.finishBuild kind).state.current = c.current := by
  unfold Coordinator.finishBuild
  cases hslot : c.slot? kind with
  | none => exact ⟨h, rfl⟩
  | some s =>
    obtain ⟨hs, -⟩ := slot?_mem hslot
    exact ⟨h.setSlot hs (h.serves s hs).finish, rfl⟩

theorem Sound.publishStats (h : Sound c) : Sound c.publishStats.state := by
  rw [Coordinator.publishStats, onSlots]
  simp only [List.map_map]
  apply h.mapSlots h.flat
  intro s hs
  simp only [Function.comp]
  split
  · exact (h.serves s hs).reportStats
  · exact (h.serves s hs).refl

theorem Sound.spread (h : Sound c) (hsubs : subs.Flat) (change : Change) (hc : change.Digital)
    (htable : change.onTable c.subscriptions.table = subs.table) :
    Sound ({ c with subscriptions := subs }.spread change).state := by
  rw [Coordinator.spread, onSlots]
  simp only [List.map_map]
  apply h.mapSlots hsubs
  intro s hs
  rw [← htable]
  exact (h.serves s hs).update hc

theorem Sound.add (h : Sound c) (p : Pattern) (u : String) :
    Sound (c.add p u).state ∧ (c.add p u).state.current = c.current := by
  rw [Coordinator.add]
  split
  · exact ⟨h, rfl⟩
  · simp only
    generalize (Option.map Subscription.weight _).getD Weight.zero = weight
    cases hinsert : c.subscriptions.insert p u weight with
    | error e => exact ⟨h, rfl⟩
    | ok subs =>
      obtain ⟨hne, hp, rfl⟩ := Subscriptions.insert_eq_ok_iff.mp hinsert
      refine ⟨h.spread (h.flat.put hp hne rfl) (.add p u) hp ?_, rfl⟩
      rw [Subscriptions.table_put]
      rfl

theorem Sound.delete (h : Sound c) (p : Pattern) (u : String) :
    Sound (c.delete p u).state ∧ (c.delete p u).state.current = c.current := by
  rw [Coordinator.delete, Subscriptions.get?_uri]
  split
  · rename_i hget
    have hin := (get?_eq_some_iff h.flat.sorted.nodup).mp hget
    refine ⟨h.spread (h.flat.erase p) (.delete p u) (h.flat.digital _ hin) ?_, rfl⟩
    rw [Change.onTable, if_pos hget, Subscriptions.table_erase]
  · exact ⟨h, rfl⟩

theorem Sound.retireSlot (h : Sound c) (kind : EngineKind) :
    Sound (c.retireSlot kind) ∧ (c.retireSlot kind).current = c.current := by
  unfold Coordinator.retireSlot
  cases hslot : c.slot? kind with
  | none => exact ⟨h, rfl⟩
  | some s =>
    obtain ⟨hs, -⟩ := slot?_mem hslot
    dsimp only
    by_cases hstate : s.state = .deployed
    · obtain ⟨retired, hretire, hcontinues⟩ := (h.serves s hs).retire hstate
      rw [if_pos hstate, hretire]
      exact ⟨h.setSlot hs hcontinues, rfl⟩
    · rw [if_neg hstate]
      exact ⟨h, rfl⟩

theorem Sound.adopt (h : Sound c) (hs : s ∈ c.slots) (hready : s.state = .ready) :
    Sound (c.adopt s).state ∧ (c.adopt s).answer = .ok true ∧
      (c.adopt s).state.current = some s.kind := by
  obtain ⟨deployed, hdeploy, hcontinues⟩ := (h.serves s hs).deploy hready
  have hset := h.setSlot hs hcontinues
  have hserving : Sound { c.setSlot deployed with current := some s.kind } := by
    refine ⟨hset.flat, hset.kinds, hset.serves, ?_⟩
    intro kind hkind
    obtain rfl := Option.some.inj hkind
    have hfound := slot?_setSlot h hs hcontinues
    rw [hcontinues.kind] at hfound
    exact ⟨deployed, hfound, hcontinues.searchable (EngineSlot.isSearchable_iff.mpr (.inl hready))⟩
  rw [Coordinator.adopt, hdeploy]
  cases c.current with
  | none => exact ⟨hserving, rfl, rfl⟩
  | some previous =>
    obtain ⟨hretired, hcurrent⟩ := hserving.retireSlot previous
    exact ⟨hretired, rfl, hcurrent⟩

/-- What an announcement may come to: the engines in service change by adoption only. -/
def Settles (c : Coordinator) (o : Outcome Coordinator (Except FilterError Bool)) : Prop :=
  Sound o.state ∧
    (o.state.current.isSome = true ↔ c.current.isSome = true ∨ o.answer = .ok true)

theorem Sound.settles_adopt (h : Sound c) (hs : s ∈ c.slots) (hready : s.state = .ready) :
    Settles c (c.adopt s) := by
  obtain ⟨hsound, hanswer, hcurrent⟩ := h.adopt hs hready
  exact ⟨hsound, by simp [hanswer, hcurrent]⟩

theorem settles_quiet {c' : Coordinator} {answer : Except FilterError Bool} (h : Sound c')
    (hcurrent : c'.current = c.current) (hanswer : answer ≠ .ok true) :
    Settles c (.quiet answer c') :=
  ⟨h, (congrArg (·.isSome = true) hcurrent).to_iff.trans (or_iff_left hanswer).symm⟩

theorem Sound.onGenerated (h : Sound c) (kind : EngineKind) : Settles c (c.onGenerated kind) := by
  rw [Coordinator.onGenerated, Coordinator.slot]
  cases hslot : c.slot? kind with
  | none => exact settles_quiet h rfl (by simp)
  | some s =>
    obtain ⟨hs, -⟩ := slot?_mem hslot
    dsimp only
    by_cases hready : s.state = .ready
    · rw [if_neg (not_not.mpr hready)]
      cases hcurrent : c.current with
      | none => exact h.settles_adopt hs hready
      | some current =>
        simp only
        split
        · obtain ⟨deployed, hdeploy, hcontinues⟩ := (h.serves s hs).deploy hready
          rw [hdeploy]
          exact settles_quiet (h.setSlot hs hcontinues) rfl (by simp)
        · split
          · exact h.settles_adopt hs hready
          · exact settles_quiet h rfl (by simp)
    · rw [if_pos hready]
      exact settles_quiet h rfl (by simp)

theorem Sound.shadow (h : Sound c) (current : EngineKind) (id : Identifier)
    (cost : EngineKind → Nat) : Sound (c.shadow current id cost) ∧
      (c.shadow current id cost).current = c.current := by
  unfold Coordinator.shadow
  split
  · refine ⟨h.mapSlots h.flat ?_, rfl⟩
    intro s hs
    split
    · exact (h.serves s hs).refl
    · exact (h.serves s hs).searched id _
  · exact ⟨h, rfl⟩

theorem Sound.search (h : Sound c) (id : Identifier) (cost : EngineKind → Nat) :
    Sound (c.search id cost).state ∧ (c.search id cost).state.current = c.current ∧
      (c.search id cost).answer = if c.current.isSome = true
        then .ok (reported id c.subscriptions.table) else .error .noEngineReady := by
  unfold Coordinator.search
  cases hcurrent : c.current with
  | none => exact ⟨h, hcurrent, rfl⟩
  | some kind =>
    obtain ⟨s, hslot, hsearch⟩ := h.current kind hcurrent
    obtain ⟨hs, -⟩ := slot?_mem hslot
    have huris := (h.serves s hs).search hsearch id (cost s.kind)
    have hcontinues := (h.serves s hs).searched id (cost s.kind)
    rw [Option.bind_some, hslot]
    simp only
    generalize s.search id (cost s.kind) = result at huris hcontinues
    obtain ⟨uris, searched⟩ := result
    obtain rfl : uris = some (reported id c.subscriptions.table) := huris
    obtain ⟨hsound, hshadow⟩ := (h.setSlot hs hcontinues).shadow s.kind id cost
    exact ⟨hsound, hshadow.trans hcurrent, rfl⟩

theorem Sound.step (h : Sound c) (t : Step) : Sound (c.step t) ∧
    ((c.step t).current.isSome = true ↔ c.current.isSome = true ∨ c.adopts t) := by
  have hkeep {c' : Coordinator} (hc' : Sound c' ∧ c'.current = c.current) :
      Sound c' ∧ (c'.current.isSome = true ↔ c.current.isSome = true ∨ False) :=
    ⟨hc'.1, by rw [hc'.2, or_false]⟩
  cases t with
  | start => exact hkeep ⟨h.start, rfl⟩
  | finishBuild kind => exact hkeep (h.finishBuild kind)
  | add p u => exact hkeep (h.add p u)
  | delete p u => exact hkeep (h.delete p u)
  | onGenerated kind => exact h.onGenerated kind
  | search id cost => exact hkeep ⟨(h.search id cost).1, (h.search id cost).2.1⟩
  | publishStats => exact hkeep ⟨h.publishStats, rfl⟩

theorem Sound.run (h : Sound c) (steps : List Step) : Sound (c.run steps) ∧
    ((c.run steps).current.isSome = true ↔ c.current.isSome = true ∨ c.Adopted steps) := by
  induction steps generalizing c with
  | nil => exact ⟨h, (or_false _).symm ▸ Iff.rfl⟩
  | cons t steps ih =>
    obtain ⟨hsound, hcurrent⟩ := h.step t
    obtain ⟨hrun, hlast⟩ := ih hsound
    refine ⟨hrun, ?_⟩
    rw [Adopted, ← or_assoc, ← hcurrent]
    exact hlast

theorem adopted_append {steps : List Step} (more : List Step) (h : c.Adopted steps) :
    c.Adopted (steps ++ more) := by
  induction steps generalizing c with
  | nil => exact absurd h id
  | cons t steps ih => exact h.imp_right ih

/-- In every state that a run reaches, a search fails exactly if no engine has been
adopted on the way, and otherwise reports the entries of the current subscriptions
that the identifier begins with, the shortest first. It never fails again. -/
theorem search_exact_on_runs (hmake : make config subs = .ok c) (hsubs : subs.Inserted)
    (steps : List Step) (id : Identifier) (cost : EngineKind → Nat) :
    let now := c.run steps
    let m := now.subscriptions.table
    m.Sorted ∧ (matching id.bits m).Pairwise (fun a b => a.1.length < b.1.length) ∧
      ((now.search id cost).answer = .error .noEngineReady ↔ ¬ c.Adopted steps) ∧
      (c.Adopted steps → (now.search id cost).answer = .ok (reported id m) ∧
        ∀ more, ((now.run more).search id cost).answer =
          .ok (reported id (now.run more).subscriptions.table)) := by
  intro now m
  obtain ⟨hmade, hnone⟩ := make_sound hmake hsubs.flat
  have hreached (steps : List Step) : Sound (c.run steps) ∧
      ((c.run steps).current.isSome = true ↔ c.Adopted steps) := by
    obtain ⟨hsound, hcurrent⟩ := hmade.run steps
    rw [hnone] at hcurrent
    exact ⟨hsound, hcurrent.trans (or_iff_right Bool.false_ne_true)⟩
  have hanswer {steps : List Step} (h : c.Adopted steps) :
      ((c.run steps).search id cost).answer =
        .ok (reported id (c.run steps).subscriptions.table) := by
    obtain ⟨hsound, hcurrent⟩ := hreached steps
    rw [(hsound.search id cost).2.2, if_pos (hcurrent.mpr h)]
  obtain ⟨hsound, hcurrent⟩ := hreached steps
  refine ⟨hsound.flat.sorted, hsound.flat.sorted.matching_lengths id.bits, ?_,
    fun h => ⟨hanswer h, ?_⟩⟩
  · rw [(hsound.search id cost).2.2, ← hcurrent]
    split
    · simp [*]
    · simp [*]
  · intro more
    have hmore := hanswer (adopted_append more h)
    rwa [run, List.foldl_append] at hmore

/-- A coordinator with nothing subscribed, as the default settings make it. -/
def sampleCoordinator : Coordinator :=
  ⟨Config.default, .nil, EngineKind.all.map EngineSlot.fresh, none, []⟩

/-- A change during the build, an adoption, and a change of the engine in service. -/
def sampleSteps : List Step :=
  [.start, .add ['0'] "first", .finishBuild .splayTree, .onGenerated .splayTree,
    .add ['0', '1'] "second"]

theorem search_exact_on_runs_sample :
    ((sampleCoordinator.run sampleSteps).search [0x60] fun _ => 0).answer =
      .ok ["first", "second"] := by
  have hmake : make Config.default .nil = .ok sampleCoordinator := rfl
  have hadopted : sampleCoordinator.Adopted sampleSteps :=
    .inr (.inr (.inr (.inl rfl)))
  have hexact := search_exact_on_runs hmake .nil sampleSteps [0x60] fun _ => 0
  exact (hexact.2.2.2 hadopted).1.trans rfl

end TagFilter.Coordinator
