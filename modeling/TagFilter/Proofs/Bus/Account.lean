import Mathlib.Data.List.Infix
import TagFilter.Proofs.Bus.Ring

/-! # The account of an observer

What an observer has received and what it has missed, by the positions of the events among
those published since it was added. Every action extends the account: a read takes the next
event that the filter accepts, and passes over what the ring no longer has.
-/
namespace TagFilter.Bus

/-- How far an observer has come. -/
def cursor (bus : Bus) (i : Nat) : Nat :=
  match bus.observers[i]? with
  | some (some o) => o.cursor
  | _ => 0

/-- A read took the observer past this event when the ring, which keeps `kept`, held
only newer ones. -/
def Overrun (bus : Bus) (kept i : Nat) (actions : List Action) (k : Nat) : Prop :=
  ∃ earlier, earlier ++ [.receive i] <+: actions ∧ (bus.run earlier).cursor i ≤ bus.tail + k ∧
    bus.tail + k < (bus.run (earlier ++ [.receive i])).cursor i ∧
    k + 1 + kept ≤ (publications earlier).length

/-- The observer has never come to this event. -/
def Unreached (bus : Bus) (i : Nat) (actions : List Action) (k : Nat) : Prop :=
  ∀ earlier, earlier <+: actions → (bus.run earlier).cursor i ≤ bus.tail + k

variable {bus : Bus} {i k kept : Nat} {filter : EventFilter} {start read : Nat}
  {offered : List Event} {positions : List Nat} {action : Action} {actions after : List Action}
  {e : Event}

theorem Listening.cursor_eq (h : bus.Listening i filter start offered read) :
    bus.cursor i = start + read := by
  rw [cursor, h.observer]

theorem Overrun.append (h : bus.Overrun kept i actions k) (more : List Action) :
    bus.Overrun kept i (actions ++ more) k := by
  obtain ⟨earlier, hprefix, hlost⟩ := h
  exact ⟨earlier, hprefix.trans (List.prefix_append ..), hlost⟩

theorem le_upcoming : read ≤ upcoming filter kept offered read :=
  (le_max_left ..).trans (Nat.le_add_right ..)

theorem getElem?_upcoming : offered[upcoming filter kept offered read]? =
    (offered.drop (horizon kept offered read)).find? filter.accepts := by
  rw [List.find?_eq_getElem?_findIdx, List.getElem?_drop, upcoming]

/-- What is passed over although it is accepted is no longer in the ring. -/
theorem overwritten_of_lt_upcoming (hread : read ≤ k) (hk : k < upcoming filter kept offered read)
    (he : offered[k]? = some e) (haccepts : filter.accepts e = true) :
    k + 1 + kept ≤ offered.length := by
  by_cases hhorizon : k < horizon kept offered read
  · rw [horizon] at hhorizon
    omega
  · obtain ⟨t, rfl⟩ := Nat.exists_eq_add_of_le (Nat.le_of_not_lt hhorizon)
    have ht : t < (offered.drop (horizon kept offered read)).findIdx filter.accepts := by
      rw [upcoming] at hk
      omega
    have hrejects := List.not_of_lt_findIdx ht
    rw [List.getElem_drop, (List.getElem?_eq_some_iff.mp he).2, haccepts] at hrejects
    cases hrejects

/-- What an observer has received, by the positions of the events among those published
since it was added, and what became of the rest. -/
structure Account (bus : Bus) (kept i : Nat) (filter : EventFilter) (after : List Action)
    (read : Nat) (positions : List Nat) : Prop where
  increasing : positions.Pairwise (· < ·)
  behind : ∀ p ∈ positions, p < read
  received : (bus.received i after).map some = positions.map ((publications after)[·]?)
  accepted : ∀ e ∈ bus.received i after, filter.accepts e = true
  overrun : ∀ k e, k < read → (publications after)[k]? = some e → filter.accepts e = true →
    k ∈ positions ∨ bus.Overrun kept i after k
  reached : ∀ earlier, earlier <+: after → (bus.run earlier).cursor i ≤ bus.tail + read
  read_le : read ≤ (publications after).length

theorem received_append_singleton (bus : Bus) (i : Nat) (after : List Action) (action : Action) :
    bus.received i (after ++ [action]) =
      bus.received i after ++ shown i (bus.run after) action := by
  rw [received, collected_append, collected, collected, List.append_nil]
  rfl

theorem run_append_singleton (bus : Bus) (after : List Action) (action : Action) :
    bus.run (after ++ [action]) = (bus.run after).act action := run_append ..

theorem account_nil (h : bus.Listening i filter bus.tail [] 0) :
    bus.Account kept i filter [] 0 [] where
  increasing := .nil
  behind := by simp
  received := rfl
  accepted := by simp [Bus.received, collected]
  overrun := by simp
  reached := by
    intro earlier hearlier
    rw [List.prefix_nil.mp hearlier]
    exact h.cursor_eq.le
  read_le := Nat.le_refl 0

/-- The events known by their positions stay where they are. -/
theorem Account.getElem?_append (h : bus.Account kept i filter after read positions)
    (hk : k < read) (more : List Event) :
    (publications after ++ more)[k]? = (publications after)[k]? :=
  List.getElem?_append_left (hk.trans_le h.read_le)

/-- An action that shows the observer nothing. -/
theorem Account.idle (h : bus.Account kept i filter after read positions)
    (hshown : shown i (bus.run after) action = [])
    (hcursor : ((bus.run after).act action).cursor i ≤ bus.tail + read) :
    bus.Account kept i filter (after ++ [action]) read positions where
  increasing := h.increasing
  behind := h.behind
  received := by
    rw [received_append_singleton, hshown, List.append_nil, h.received, publications_append]
    exact List.map_congr_left fun p hp => (h.getElem?_append (h.behind p hp) _).symm
  accepted := by
    rw [received_append_singleton, hshown, List.append_nil]
    exact h.accepted
  overrun := by
    intro k e hk he haccepts
    rw [publications_append, h.getElem?_append hk] at he
    exact (h.overrun k e hk he haccepts).imp_right fun hlost => hlost.append [action]
  reached := by
    intro earlier hearlier
    rcases List.prefix_concat_iff.mp hearlier with rfl | hearlier
    · rwa [run_append_singleton]
    · exact h.reached earlier hearlier
  read_le := by
    rw [publications_append, List.length_append]
    exact Nat.le_add_right_of_le h.read_le

/-- The position of the next event, if there is one. -/
def caught (p : Nat) (offered : List Event) : List Nat := if p < offered.length then [p] else []

theorem mem_caught {p q : Nat} : q ∈ caught p offered ↔ q = p ∧ p < offered.length := by
  rw [caught]
  split
  · next hp => simp [hp]
  · next hp => simp [hp]

theorem events_reply (live : Bool) (p : Nat) (offered : List Event) :
    (reply live offered[p]?).events.map some = (caught p offered).map (offered[·]?) := by
  rw [caught]
  split
  · next hp => simp [List.getElem?_eq_getElem hp, reply, Received.events]
  · next hp =>
    rw [List.getElem?_eq_none (Nat.le_of_not_lt hp)]
    cases live <;> rfl

theorem Account.receive (h : bus.Account kept i filter after read positions)
    (hkept : (bus.run after).retained = kept)
    (hlistening : (bus.run after).Listening i filter bus.tail (publications after) read) :
    ∃ read' positions', bus.Account kept i filter (after ++ [.receive i]) read' positions' ∧
      (bus.run (after ++ [.receive i])).Listening i filter bus.tail
        (publications (after ++ [.receive i])) read' := by
  obtain ⟨hreply, hnext⟩ := hlistening.receive
  rw [hkept] at hreply hnext
  have hpublished : publications (after ++ [.receive i]) = publications after := by
    rw [publications_append]
    exact List.append_nil _
  have hle : read ≤ upcoming filter kept (publications after) read := le_upcoming
  have hread := h.read_le
  generalize hp : upcoming filter kept (publications after) read = p at hreply hnext hle
  have hshown : (shown i (bus.run after) (.receive i)).map some =
      (caught p (publications after)).map ((publications after)[·]?) := by
    rw [shown, if_pos rfl, hreply, events_reply]
  have hcursor := hnext.cursor_eq
  refine ⟨min (p + 1) (publications after).length, positions ++ caught p (publications after),
    ?_, ?_⟩
  · constructor
    case increasing =>
      refine List.pairwise_append.mpr ⟨h.increasing, ?_, ?_⟩
      · rw [caught]
        split <;> simp
      · intro q hq q' hq'
        exact (h.behind q hq).trans_le ((mem_caught.mp hq').1 ▸ hle)
    case behind =>
      intro q hq
      rcases List.mem_append.mp hq with hq | hq
      · have hlt := h.behind q hq
        omega
      · obtain ⟨rfl, hlt⟩ := mem_caught.mp hq
        omega
    case received =>
      rw [received_append_singleton, hpublished, List.map_append, List.map_append, h.received, hshown]
    case accepted =>
      intro e he
      rw [received_append_singleton] at he
      rcases List.mem_append.mp he with he | he
      · exact h.accepted e he
      · have hfound := List.mem_map_of_mem (f := some) he
        rw [hshown] at hfound
        obtain ⟨q, hq, hqe⟩ := List.mem_map.mp hfound
        rw [(mem_caught.mp hq).1, ← hp, getElem?_upcoming] at hqe
        exact List.find?_some hqe
    case overrun =>
      intro k e hk he haccepts
      rw [hpublished] at he
      -- An event that only this read has passed is the one it caught, or the ring had lost it.
      by_cases hread : k < read
      · rcases h.overrun k e hread he haccepts with hmem | hlost
        · exact .inl (List.mem_append_left _ hmem)
        · exact .inr (hlost.append _)
      · by_cases hcaught : k = p
        · have hlt : k < (publications after).length := (List.getElem?_eq_some_iff.mp he).1
          exact .inl (List.mem_append_right _ (mem_caught.mpr ⟨hcaught, hcaught ▸ hlt⟩))
        · have hk : k < upcoming filter kept (publications after) read := by omega
          refine .inr ⟨after, List.prefix_refl _, ?_, ?_, overwritten_of_lt_upcoming
            (Nat.le_of_not_lt hread) hk he haccepts⟩
          · rw [hlistening.cursor_eq]
            omega
          · rw [run_append_singleton, act, hcursor]
            omega
    case reached =>
      intro earlier hearlier
      rcases List.prefix_concat_iff.mp hearlier with rfl | hearlier
      · rw [run_append_singleton, act, hcursor]
      · have hreached := h.reached earlier hearlier
        omega
    case read_le =>
      rw [hpublished]
      exact min_le_right ..
  · rw [run_append_singleton, hpublished]
    exact hnext

theorem shown_of_other (bus : Bus) (hother : action.isBy i = false) : shown i bus action = [] := by
  cases action with
  | receive j =>
    have hj : j ≠ i := by simpa [Action.isBy] using hother
    rw [shown, if_neg hj]
  | publish | subscribe | unsubscribe | attach | take | drop => rfl

theorem shown_of_gone (h : bus.observers[i]? = some none) (action : Action) :
    shown i bus action = [] := by
  cases action with
  | receive j =>
    rw [shown, receive_of_gone h]
    exact ite_self []
  | publish | subscribe | unsubscribe | attach | take | drop => rfl

theorem cursor_of_gone (h : bus.observers[i]? = some none) : bus.cursor i = 0 := by
  rw [cursor, h]

/-- Every run has an account, up to the point where the observer is removed. -/
theorem account_run (h : bus.Listening i filter bus.tail [] 0) (after : List Action) :
    ∃ read positions, bus.Account bus.retained i filter after read positions ∧
      ((bus.run after).Listening i filter bus.tail (publications after) read ∨
        .unsubscribe i ∈ after ∧ (bus.run after).observers[i]? = some none) := by
  -- By the last action, since the positions already in the account stay the same.
  induction after using List.reverseRecOn with
  | nil => exact ⟨0, [], account_nil h, .inl h⟩
  | append_singleton after action ih =>
    obtain ⟨read, positions, haccount, hlistening | ⟨hleft, hgone⟩⟩ := ih
    · cases hby : action.isBy i with
      | false =>
        have hnext := hlistening.act hby
        refine ⟨read, positions, haccount.idle (shown_of_other _ hby) hnext.cursor_eq.le, .inl ?_⟩
        rw [run_append_singleton, publications_append]
        simpa [publications] using hnext
      | true =>
        cases action with
        | receive j =>
          obtain rfl : j = i := by simpa [Action.isBy] using hby
          obtain ⟨read', positions', haccount, hnext⟩ :=
            haccount.receive (run_retained bus after) hlistening
          exact ⟨read', positions', haccount, .inl hnext⟩
        | unsubscribe j =>
          obtain rfl : j = i := by simpa [Action.isBy] using hby
          have hgone : ((bus.run after).act (.unsubscribe j)).observers[j]? = some none :=
            List.getElem?_set_self hlistening.lt
          refine ⟨read, positions, haccount.idle rfl ?_, .inr ⟨by simp, ?_⟩⟩
          · rw [cursor_of_gone hgone]
            exact Nat.zero_le _
          · rwa [run_append_singleton]
        | publish | subscribe | attach | take | drop => cases hby
    · have hnext := gone_act hgone action
      refine ⟨read, positions, haccount.idle (shown_of_gone hgone action) ?_,
        .inr ⟨List.mem_append_left _ hleft, ?_⟩⟩
      · rw [cursor_of_gone hnext]
        exact Nat.zero_le _
      · rwa [run_append_singleton]

end TagFilter.Bus
