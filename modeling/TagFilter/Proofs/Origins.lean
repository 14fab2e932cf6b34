import TagFilter.Proofs.SlotStates
import TagFilter.Proofs.Steps

/-! # Where slots come from

A step does to slots what their own operations do. So what holds between a slot and what
is left of it after each operation holds between the slots before and after a step: every
slot comes from one that it is related to.
-/
namespace TagFilter.Coordinator

variable {R : EngineSlot → EngineSlot → Prop} {c c' c'' : Coordinator} {s s' : EngineSlot}
  {kind : EngineKind}

/-- Relations that putting engines into service and out of it respects. -/
structure Respected (R : EngineSlot → EngineSlot → Prop) : Prop where
  self : ∀ s, R s s
  trans : ∀ {s s' s''}, R s s' → R s' s'' → R s s''
  deploy : ∀ {s s'}, s.deploy = .ok s' → R s s'
  retire : ∀ {s s'}, s.retire = .ok s' → R s s'

/-- Whether every slot comes from one that it is related to. -/
def Derives (R : EngineSlot → EngineSlot → Prop) (c c' : Coordinator) : Prop :=
  ∀ s' ∈ c'.slots, ∃ s ∈ c.slots, R s s'

theorem Respected.derives_self (h : Respected R) (c : Coordinator) : Derives R c c :=
  fun s hs => ⟨s, hs, h.self s⟩

theorem Respected.derives_trans (h : Respected R) (hfirst : Derives R c c')
    (hsecond : Derives R c' c'') : Derives R c c'' := by
  intro s'' hs''
  obtain ⟨s', hs', hrel'⟩ := hsecond s'' hs''
  obtain ⟨s, hs, hrel⟩ := hfirst s' hs'
  exact ⟨s, hs, h.trans hrel hrel'⟩

theorem derives_map {f : EngineSlot → EngineSlot} (hf : ∀ s ∈ c.slots, R s (f s)) :
    Derives R c { c with slots := c.slots.map f } := by
  intro s' hs'
  obtain ⟨s, hs, rfl⟩ := List.mem_map.mp hs'
  exact ⟨s, hs, hf s hs⟩

theorem Respected.derives_setSlot (h : Respected R) (hs : s ∈ c.slots) (hrel : R s s') :
    Derives R c (c.setSlot s') := by
  intro t' ht'
  obtain ⟨t, ht, rfl⟩ := List.mem_map.mp ht'
  split
  · exact ⟨s, hs, hrel⟩
  · exact ⟨t, ht, h.self t⟩

theorem Respected.derives_start (h : Respected R) (c : Coordinator)
    (hinit : ∀ {s s'}, s.init c.subscriptions = .ok s' → R s s') : Derives R c c.start.state := by
  have hslots (slots : List EngineSlot) :
      ∀ s' ∈ (startSlots c.subscriptions slots).2, ∃ s ∈ slots, R s s' := by
    induction slots with
    | nil => exact nofun
    | cons s rest ih =>
      rw [startSlots]
      cases hstart : s.init c.subscriptions with
      | error e => exact fun t ht => ⟨t, ht, h.self t⟩
      | ok started =>
        refine List.forall_mem_cons.mpr ⟨⟨s, List.mem_cons_self, hinit hstart⟩, fun t ht => ?_⟩
        obtain ⟨t₀, ht₀, hrel⟩ := ih t ht
        exact ⟨t₀, List.mem_cons_of_mem _ ht₀, hrel⟩
  exact hslots c.slots

theorem Respected.derives_finishBuild (h : Respected R) (c : Coordinator) (kind : EngineKind)
    (hfinish : ∀ s : EngineSlot, R s s.finish.state) : Derives R c (c.finishBuild kind).state := by
  rw [finishBuild]
  split
  · exact h.derives_self c
  · rename_i s hslot
    exact h.derives_setSlot (slot?_mem hslot).1 (hfinish s)

theorem derives_onSlots {α : Type} {f : EngineSlot → Outcome EngineSlot α}
    (hf : ∀ s ∈ c.slots, R s (f s).state) : Derives R c (c.onSlots f).state := by
  rw [onSlots, List.map_map]
  exact derives_map hf

theorem Respected.derives_add (h : Respected R) (c : Coordinator) (p : Pattern) (u : String)
    (hupdate : ∀ s : EngineSlot, R s (s.update (.add p u)).state) :
    Derives R c (c.add p u).state := by
  rcases c.add_cases p u with ⟨answer, -, heq⟩ | ⟨subs, heq⟩
  · rw [heq]
    exact h.derives_self c
  · rw [heq]
    exact derives_onSlots (c := { c with subscriptions := subs }) fun s _ => hupdate s

theorem Respected.derives_delete (h : Respected R) (c : Coordinator) (p : Pattern) (u : String)
    (hupdate : ∀ s : EngineSlot, R s (s.update (.delete p u)).state) :
    Derives R c (c.delete p u).state := by
  rcases c.delete_cases p u with ⟨answer, -, heq⟩ | ⟨subs, heq⟩
  · rw [heq]
    exact h.derives_self c
  · rw [heq]
    exact derives_onSlots (c := { c with subscriptions := subs }) fun s _ => hupdate s

theorem Respected.derives_retireSlot (h : Respected R) (c : Coordinator) (kind : EngineKind) :
    Derives R c (c.retireSlot kind) := by
  rw [retireSlot]
  split
  · exact h.derives_self c
  · rename_i s hslot
    split
    · split
      · rename_i retired hretire
        exact h.derives_setSlot (slot?_mem hslot).1 (h.retire hretire)
      · exact h.derives_self c
    · exact h.derives_self c

theorem Respected.derives_adopt (h : Respected R) (hs : s ∈ c.slots) :
    Derives R c (c.adopt s).state := by
  rw [adopt]
  split
  · exact h.derives_self c
  · rename_i deployed hdeploy
    have hset : Derives R c { c.setSlot deployed with current := some s.kind } :=
      h.derives_setSlot hs (h.deploy hdeploy)
    dsimp only
    split
    · exact h.derives_trans hset (h.derives_retireSlot _ _)
    · exact hset

theorem Respected.derives_onGenerated (h : Respected R) (c : Coordinator) (kind : EngineKind) :
    Derives R c (c.onGenerated kind).state := by
  rw [onGenerated, slot]
  cases hslot : c.slot? kind with
  | none => exact h.derives_self c
  | some s =>
    have hs := (slot?_mem hslot).1
    dsimp only
    by_cases hready : s.state = .ready
    · rw [if_neg (not_not.mpr hready)]
      cases c.current with
      | none => exact h.derives_adopt hs
      | some current =>
        by_cases hsame : current = kind
        · simp only [if_pos hsame]
          cases hdeploy : s.deploy with
          | ok deployed => exact h.derives_setSlot hs (h.deploy hdeploy)
          | error e => exact h.derives_self c
        · simp only [if_neg hsame]
          split
          · exact h.derives_adopt hs
          · exact h.derives_self c
    · rw [if_pos hready]
      exact h.derives_self c

theorem Respected.derives_search (h : Respected R) (c : Coordinator) (id : Identifier)
    (cost : EngineKind → Nat)
    (hsearch : ∀ (s : EngineSlot) (nanoseconds : Nat), R s (s.search id nanoseconds).2) :
    Derives R c (c.search id cost).state := by
  rw [search]
  cases hcurrent : c.current.bind c.slot? with
  | none => exact h.derives_self c
  | some s =>
    obtain ⟨kind, -, hslot⟩ := Option.bind_eq_some_iff.mp hcurrent
    have hrel := hsearch s (cost s.kind)
    dsimp only
    generalize s.search id (cost s.kind) = result at hrel
    obtain ⟨uris, searched⟩ := result
    cases uris with
    | none => exact h.derives_self c
    | some uris =>
      refine h.derives_trans (h.derives_setSlot (slot?_mem hslot).1 hrel) ?_
      unfold Outcome.quiet shadow
      dsimp only
      split
      · refine derives_map fun s _ => ?_
        split
        · exact h.self s
        · exact hsearch s _
      · exact h.derives_self _

theorem Respected.derives_publishStats (h : Respected R) (c : Coordinator)
    (hreport : ∀ s : EngineSlot, R s s.reportStats.state) : Derives R c c.publishStats.state := by
  refine derives_onSlots fun s _ => ?_
  split
  · exact hreport s
  · exact h.self s

end TagFilter.Coordinator
