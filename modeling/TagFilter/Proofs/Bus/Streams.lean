import TagFilter.Proofs.Bus.Actions

/-! # Command streams

A stream is handed every command published while it was attached, in order and once
each, however its reads fall between the publications. One that was replaced keeps its
queue and ends when that is empty.
-/
namespace TagFilter.Bus

def Action.isAttach : Action → Bool
  | .attach => true
  | _ => false

/-- The actions up to the next attachment. -/
def tenure (actions : List Action) : List Action :=
  actions.takeWhile fun action => !action.isAttach

/-- These commands wait for a stream, which is the attached one or a replaced one. -/
structure Waiting (i : Nat) (queue : List Event) (current : Bool) (bus : Bus) : Prop where
  queued : bus.streams[i]? = some (some queue)
  consumer : bus.consumer = some i ↔ current = true

variable {bus bus' : Bus} {i : Nat} {queue : List Event} {current : Bool} {action : Action}
  {actions : List Action}

theorem waiting_attach (bus : Bus) : bus.attach.2.Waiting bus.attach.1 [] true :=
  ⟨(attached_attach bus).waiting, by simp [(attached_attach bus).consumer]⟩

theorem Waiting.of_lane (h : bus.Waiting i queue current) (hlane : bus'.lane = bus.lane) :
    bus'.Waiting i queue current := by
  simp only [lane, Prod.mk.injEq] at hlane
  exact ⟨hlane.1 ▸ h.queued, hlane.2.1 ▸ h.consumer⟩

theorem Waiting.lt (h : bus.Waiting i queue current) : i < bus.streams.length :=
  (List.getElem?_eq_some_iff.mp h.queued).1

theorem Waiting.queue_eq (h : bus.Waiting i queue current) : bus.queue i = queue := by
  rw [Bus.queue, h.queued]
  rfl

/-- A command goes to the attached stream only. -/
theorem Waiting.enqueue (h : bus.Waiting i queue current) (e : Event) :
    (bus.enqueue e).Waiting i (queue ++ if current then [e] else []) current := by
  cases current with
  | true =>
    have hattached : bus.Attached i queue := ⟨h.consumer.mpr rfl, h.queued⟩
    have hnext := hattached.enqueue e
    exact ⟨hnext.waiting, by simp [hnext.consumer]⟩
  | false =>
    have hother : bus.consumer ≠ some i := fun hi => Bool.noConfusion (h.consumer.mp hi)
    rw [if_neg (by simp), List.append_nil, Bus.enqueue]
    cases hconsumer : bus.consumer with
    | none => exact ⟨h.queued, by simp [hconsumer]⟩
    | some j =>
      have hji : j ≠ i := fun hji => hother (hji ▸ hconsumer)
      dsimp only
      split
      · exact ⟨by simpa [List.getElem?_set_ne hji] using h.queued, by simp [hji]⟩
      · exact ⟨h.queued, by simp⟩

theorem Waiting.publish (h : bus.Waiting i queue current) (e : Event) :
    (bus.publish e).2.Waiting i (queue ++ if current then commands [e] else []) current := by
  have hlane := lane_publish e bus
  cases hcommand : e.isCommand with
  | true =>
    rw [if_pos hcommand] at hlane
    rw [commands, List.filter_cons_of_pos hcommand, List.filter_nil]
    exact (h.enqueue e).of_lane hlane
  | false =>
    rw [if_neg (by simp [hcommand])] at hlane
    rw [commands, List.filter_cons_of_neg (by simp [hcommand]), List.filter_nil, ite_self,
      List.append_nil]
    exact h.of_lane hlane

theorem Waiting.attach (h : bus.Waiting i queue current) : bus.attach.2.Waiting i queue false := by
  have hlt := h.lt
  refine ⟨?_, ?_⟩
  · rw [Bus.attach, List.getElem?_append_left hlt, h.queued]
  · simp [Bus.attach, Nat.ne_of_gt hlt]

theorem Waiting.drop (h : bus.Waiting i queue current) {j : Nat} (hj : j ≠ i) :
    (bus.drop j).Waiting i queue current :=
  ⟨by simpa [Bus.drop, List.getElem?_set_ne hj] using h.queued, h.consumer⟩

theorem Waiting.take_ne (h : bus.Waiting i queue current) {j : Nat} (hj : j ≠ i) :
    (bus.receiveCommand j).2.Waiting i queue current := by
  rw [receiveCommand]
  split
  · exact ⟨by simpa [List.getElem?_set_ne hj] using h.queued, h.consumer⟩
  · exact h
  · exact h

theorem Waiting.take (h : bus.Waiting i queue current) : ∃ queue',
    (bus.receiveCommand i).2.Waiting i queue' current ∧
      (bus.receiveCommand i).1.events ++ queue' = queue := by
  cases queue with
  | nil =>
    rw [receiveCommand, h.queued]
    refine ⟨[], h, ?_⟩
    dsimp only [ended]
    split <;> rfl
  | cons e rest =>
    rw [receiveCommand, h.queued]
    exact ⟨rest, ⟨List.getElem?_set_self h.lt, h.consumer⟩, rfl⟩

theorem Waiting.act (h : bus.Waiting i queue current) (hattach : action.isAttach = false)
    (hkept : action ≠ .drop i) : ∃ queue', (bus.act action).Waiting i queue' current ∧
      handed i bus action ++ queue' =
        queue ++ if current then commands action.published else [] := by
  have hnothing : queue = queue ++ if current then commands [] else [] := by simp [commands]
  cases action with
  | publish e => exact ⟨_, h.publish e, rfl⟩
  | subscribe | unsubscribe => exact ⟨queue, h.of_lane rfl, hnothing⟩
  | receive j => exact ⟨queue, h.of_lane (lane_receive j bus), hnothing⟩
  | attach => cases hattach
  | take j =>
    by_cases hj : j = i
    · subst hj
      obtain ⟨queue', hnext, hqueue⟩ := h.take
      rw [handed, if_pos rfl]
      exact ⟨queue', hnext, hqueue.trans hnothing⟩
    · rw [handed, if_neg hj]
      exact ⟨queue, h.take_ne hj, hnothing⟩
  | drop j =>
    have hj : j ≠ i := fun hj => hkept (hj ▸ rfl)
    exact ⟨queue, h.drop hj, hnothing⟩

theorem tenure_cons (action : Action) (actions : List Action) : tenure (action :: actions) =
    if action.isAttach then [] else action :: tenure actions := by
  rw [tenure, List.takeWhile_cons]
  cases action.isAttach <;> rfl

theorem taken_cons (bus : Bus) (i : Nat) (action : Action) (actions : List Action) :
    bus.taken i (action :: actions) = handed i bus action ++ (bus.act action).taken i actions := rfl

/-- What was handed over and what waits is what waited and the commands since. -/
theorem Waiting.run (h : bus.Waiting i queue current) (hkept : .drop i ∉ actions) : ∃ queue',
    (bus.run actions).Waiting i queue' (current && !actions.any Action.isAttach) ∧
      bus.taken i actions ++ queue' =
        queue ++ if current then commands (publications (tenure actions)) else [] := by
  induction actions generalizing bus queue current with
  | nil =>
    have hnow : bus.Waiting i queue (current && !false) := by simpa using h
    exact ⟨queue, hnow, by simp [taken, collected, tenure, publications, commands]⟩
  | cons action actions ih =>
    obtain ⟨hhead, htail⟩ : .drop i ≠ action ∧ .drop i ∉ actions := by simpa using hkept
    rw [run_cons, taken_cons, tenure_cons, List.any_cons]
    cases hattach : action.isAttach with
    | true =>
      obtain rfl : action = .attach := by
        cases action <;> first | rfl | cases hattach
      obtain ⟨queue', hlast, hrest⟩ := ih h.attach htail
      have hended : (bus.attach.2.run actions).Waiting i queue' (current && !true) := by
        simpa using hlast
      have hnothing : (if current then commands (publications []) else []) = [] := ite_self []
      exact ⟨queue', hended, by rw [if_pos rfl, hnothing]; exact hrest⟩
    | false =>
      obtain ⟨waiting, hnext, hstep⟩ := h.act hattach hhead.symm
      obtain ⟨queue', hlast, hrest⟩ := ih hnext htail
      refine ⟨queue', hlast, ?_⟩
      rw [List.append_assoc, hrest, ← List.append_assoc, hstep, List.append_assoc]
      cases current with
      | true => simp [publications, commands_append]
      | false => rfl

theorem Waiting.receiveCommand (h : bus.Waiting i queue current) (hopen : bus.isOpen = true) :
    (bus.receiveCommand i).1 = reply current queue.head? := by
  rw [Bus.receiveCommand, h.queued]
  cases queue with
  | cons e rest => rfl
  | nil =>
    rw [hopen]
    cases current <;> simp [h.consumer, reply]

theorem taken_eq_of_filter (hlane : bus.lane = bus'.lane) {actions' : List Action}
    (h : actions.filter Action.onLane = actions'.filter Action.onLane) (i : Nat) :
    (bus.run actions).lane = (bus'.run actions').lane ∧
      bus.taken i actions = bus'.taken i actions' :=
  collected_eq_of_filter
    (fun bus _ h => ⟨lane_act_of_observer bus h, handed_of_observer bus h⟩)
    (fun _ _ action h _ => ⟨lane_act h action, handed_lane h action⟩) hlane h

/-- A stream that is not dropped gets the commands published while it was attached, in
order and once each: those it has taken, then those in its queue. A stream that was
replaced ends after its queue. The capacity and the actions of observers are nothing
to it. -/
theorem stream_lossless {capacity : Nat} {before after : List Action} {i : Nat} {bus : Bus}
    (hattach : ((withCapacity capacity).run before).attach = (i, bus))
    (hkept : .drop i ∉ after) :
    bus.taken i after ++ (bus.run after).queue i = commands (publications (tenure after)) ∧
      ((bus.run after).receiveCommand i).1 =
        reply (!after.any Action.isAttach) ((bus.run after).queue i).head? ∧
      (∀ e ∈ bus.taken i after ++ (bus.run after).queue i, e.isCommand = true) ∧
      ∀ capacity' before' after', before'.filter Action.onLane = before.filter Action.onLane →
        after'.filter Action.onLane = after.filter Action.onLane →
          let (i', bus') := ((withCapacity capacity').run before').attach
          i' = i ∧ bus'.taken i after' = bus.taken i after ∧
            (bus'.run after').queue i = (bus.run after).queue i ∧
            ((bus'.run after').receiveCommand i).1 = ((bus.run after).receiveCommand i).1 := by
  have hi : ((withCapacity capacity).run before).attach.1 = i := by rw [hattach]
  have hbus : ((withCapacity capacity).run before).attach.2 = bus := by rw [hattach]
  have hwaiting : bus.Waiting i [] true := by
    rw [← hi, ← hbus]
    exact waiting_attach _
  have hopen : (bus.run after).isOpen = true := by
    rw [run_isOpen, ← hbus]
    exact run_isOpen _ before
  obtain ⟨queue, hlast, hconserved⟩ := hwaiting.run hkept
  rw [List.nil_append, if_pos rfl] at hconserved
  rw [hlast.queue_eq]
  refine ⟨hconserved, ?_, ?_, ?_⟩
  · rw [hlast.receiveCommand hopen, Bool.true_and]
  · rw [hconserved]
    intro e he
    exact (List.mem_filter.mp he).2
  · intro capacity' before' after' hbefore hafter
    have hstart : (withCapacity capacity').lane = (withCapacity capacity).lane := rfl
    obtain ⟨hrun, -⟩ := taken_eq_of_filter hstart hbefore i
    have hstream : ((withCapacity capacity').run before').attach.1 = i := by
      rw [← hi]
      exact congrArg (fun lane => lane.1.length) hrun
    have hattached : ((withCapacity capacity').run before').attach.2.lane = bus.lane := by
      rw [← hbus]
      exact lane_act hrun .attach
    obtain ⟨hfinal, htaken⟩ := taken_eq_of_filter hattached hafter i
    have hqueue : (((withCapacity capacity').run before').attach.2.run after').queue i =
        (bus.run after).queue i :=
      congrArg (fun streams => (streams[i]?.getD none).getD []) (congrArg Prod.fst hfinal)
    exact ⟨hstream, htaken, hqueue.trans hlast.queue_eq, (receiveCommand_lane hfinal i).1⟩

theorem stream_lossless_replaced :
    let bus := (withCapacity 1).attach.2
    let add := Event.addSubscription "0" "a"
    let after : List Action := [.publish add, .publish (.selectedEngine "List"), .attach,
      .publish (.deleteSubscription "0" "a"), .take 0]
    Action.drop 0 ∉ after ∧ bus.taken 0 after ++ (bus.run after).queue 0 = [add] ∧
      ((bus.run after).receiveCommand 0).1 = .closed := by
  intro bus add after
  have hkept : Action.drop 0 ∉ after := by simp [after]
  obtain ⟨hcommands, hreply, -⟩ := @stream_lossless 1 [] after 0 bus rfl hkept
  exact ⟨hkept, hcommands, hreply⟩

end TagFilter.Bus
