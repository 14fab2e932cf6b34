import TagFilter.Proofs.CommonPrefix
import TagFilter.Proofs.Trie.Shape

/-! # Growing a radix trie

Built from a table at once, a trie is canonical and holds the table. Each step
takes off the longest common prefix of the entries, so the steps cannot run out
before the entries do.
-/
namespace TagFilter.Trie
open List (Perm)
open Table

variable {lead : Pattern} {offset steps : Nat} {m : Table}

def edgeOf (m : Table) : Pattern := Pattern.longestCommonPrefix (m.map (·.1))

def rests (m : Table) : Table := m.map fun e => (e.1.drop (edgeOf m).length, e.2)

def turning (bit : Bool) (m : Table) : Table :=
  (m.filter fun e => e.1 ≠ []).filter fun e => e.1.turnsToOne == bit

theorem turning_sublist (bit : Bool) (m : Table) : (turning bit m).Sublist m :=
  List.filter_sublist.trans List.filter_sublist

theorem prefix_edgeOf_iff (hne : m ≠ []) {d : Pattern} : d <+: edgeOf m ↔ Leads d m := by
  rw [edgeOf, Pattern.prefix_longestCommonPrefix_iff (by simpa using hne)]
  simp [Leads]

theorem under_rests (m : Table) : under (edgeOf m) (rests m) = m := by
  rw [under, rests, List.map_map]
  refine (List.map_congr_left ?_).trans (List.map_id m)
  intro e he
  obtain ⟨r, hr⟩ := Pattern.longestCommonPrefix_isPrefix (List.mem_map_of_mem (f := (·.1)) he)
  simp only [Function.comp, edgeOf, id]
  rw [← hr, List.drop_left, hr]

theorem grow_of_ne_nil (h : m ≠ []) (steps offset : Nat) : grow (steps + 1) m offset =
    node (OrderedMap.get? (rests m) []) (Filter.encode (edgeOf m) offset)
      (grow steps (turning true (rests m)) (offset + (edgeOf m).size))
      (grow steps (turning false (rests m)) (offset + (edgeOf m).size)) := by
  cases m with
  | nil => exact absurd rfl h
  | cons e m =>
    simp only [turning, beq_true, beq_false]
    rfl

theorem mem_turning {bit : Bool} {e : Pattern × String} (hd : e.1.Digital) :
    e ∈ turning bit m ↔ e ∈ m ∧ [Pattern.digit bit] <+: e.1 := by
  simp only [turning, List.mem_filter, decide_eq_true_eq, beq_iff_eq, and_assoc]
  refine and_congr_right fun _ => ?_
  cases bit with
  | true =>
    rw [Pattern.digit, if_pos rfl, ← Pattern.Digital.turnsToOne_iff]
    exact and_iff_right_of_imp fun hone hnil => by simp [hnil, Pattern.turnsToOne] at hone
  | false =>
    rw [Pattern.digit, if_neg (by simp)]
    exact hd.turnsToZero_iff

/-- An entry either ends where the edge does or goes on to one of the branches. -/
theorem perm_turning (h : (m.map (·.1)).Nodup) :
    Perm m ((OrderedMap.get? m []).toList.map (fun u => ([], u)) ++ turning true m ++
      turning false m) := by
  have hends := List.filter_append_perm (fun e : Pattern × String => e.1 = []) m
  have hturns := List.filter_append_perm (fun e : Pattern × String => e.1.turnsToOne)
    (m.filter fun e => e.1 ≠ [])
  rw [filter_key h] at hends
  simp only [turning, beq_true, beq_false, List.append_assoc]
  refine hends.symm.trans (Perm.append_left _ ?_)
  simpa using hturns.symm

theorem rests_nodup (h : (m.map (·.1)).Nodup) : ((rests m).map (·.1)).Nodup := by
  rw [← under_rests m] at h
  simp only [under, List.map_map] at h ⊢
  refine List.Nodup.of_map (fun p => edgeOf m ++ p) ?_
  simpa [List.map_map, Function.comp_def] using h

/-- Entries with more than one pattern part at the end of the edge. -/
theorem turning_ne_nil (hd : Table.Digital (rests m)) (hne : m ≠ [])
    (hends : OrderedMap.get? (rests m) [] = none) (bit : Bool) : turning bit (rests m) ≠ [] := by
  intro hnil
  have hlead : Leads [Pattern.digit !bit] (rests m) := by
    intro e he
    have hnot : e.1 ≠ [] := by
      intro hkey
      simp only [OrderedMap.get?, Option.map_eq_none_iff, List.find?_eq_none] at hends
      simpa [hkey] using hends e he
    have hturns := (hd e he).turns hnot
    have hother : e.1.turnsToOne = !bit := by
      by_contra hsame
      have heq : e.1.turnsToOne = bit := by simpa using hsame
      rw [heq] at hturns
      exact List.ne_nil_of_mem ((mem_turning (hd e he)).mpr ⟨he, hturns⟩) hnil
    rwa [hother] at hturns
  have hlong : edgeOf m ++ [Pattern.digit !bit] <+: edgeOf m := by
    rw [prefix_edgeOf_iff hne]
    intro e he
    rw [← under_rests m] at he
    obtain ⟨f, hf, rfl⟩ := mem_under.mp he
    exact (List.prefix_append_right_inj _).mpr (hlead f hf)
  have hle := hlong.length_le
  rw [List.length_append, List.length_singleton] at hle
  omega

theorem mem_of_mem_rests {e : Pattern × String} (he : e ∈ rests m) :
    (edgeOf m ++ e.1, e.2) ∈ m := by
  have hunder := (mem_under_append (p := edgeOf m)).mpr he
  rwa [under_rests] at hunder

theorem rests_digital (hd : Table.Digital m) : Table.Digital (rests m) := by
  intro e he
  exact (Pattern.digital_append.mp (hd _ (mem_of_mem_rests he))).2

theorem edgeOf_digital (hd : Table.Digital m) (hne : m ≠ []) : (edgeOf m).Digital := by
  obtain ⟨e, he⟩ := List.exists_mem_of_ne_nil m hne
  exact (hd e he).of_isPrefix ((prefix_edgeOf_iff hne).mp (List.prefix_refl _) e he)

/-- Growing holds all entries, if there are more steps than digits to go. -/
theorem canonical_grow (hnodup : (m.map (·.1)).Nodup) (hd : Table.Digital m) (hlead : Leads lead m)
    (hsteps : ∀ e ∈ m, e.1.length < steps + lead.length) :
    Canonical lead offset (grow steps m offset) ∧ Perm (grow steps m offset).entries m := by
  induction steps generalizing m lead offset with
  | zero =>
    cases m with
    | nil => exact ⟨trivial, Perm.refl _⟩
    | cons e m =>
      have hle := (hlead e List.mem_cons_self).length_le
      have hlt := hsteps e List.mem_cons_self
      omega
  | succ steps ih =>
    by_cases hne : m = []
    · subst hne
      exact ⟨trivial, Perm.refl _⟩
    · have hedge : lead <+: edgeOf m := (prefix_edgeOf_iff hne).mpr hlead
      have hdedge := edgeOf_digital hd hne
      have hdrests := rests_digital hd
      have hlength {e : Pattern × String} (he : e ∈ rests m) : e.1.length < steps + 1 := by
        have hlt := hsteps _ (mem_of_mem_rests he)
        have hle := hedge.length_le
        simp only [List.length_append] at hlt
        omega
      have hbranch (bit : Bool) : Canonical [Pattern.digit bit] (offset + (edgeOf m).length)
          (grow steps (turning bit (rests m)) (offset + (edgeOf m).length)) ∧
          Perm (grow steps (turning bit (rests m)) (offset + (edgeOf m).length)).entries
            (turning bit (rests m)) := ih
        ((rests_nodup hnodup).sublist ((turning_sublist bit _).map _))
        (fun e he => hdrests e ((turning_sublist bit _).subset he))
        (fun e he => ((mem_turning (hdrests e ((turning_sublist bit _).subset he))).mp he).2)
        (fun e he => hlength ((turning_sublist bit _).subset he))
      obtain ⟨hcan1, hent1⟩ := hbranch true
      obtain ⟨hcan0, hent0⟩ := hbranch false
      have hboth (hends : OrderedMap.get? (rests m) [] = none) {bit : Bool} {t : Trie}
          (hent : Perm t.entries (turning bit (rests m))) : t ≠ empty := by
        rintro rfl
        exact turning_ne_nil hdrests hne hends bit hent.nil_eq.symm
      rw [grow_of_ne_nil hne, hdedge.size_eq]
      refine ⟨⟨edge_encode hdedge hedge, hcan1, hcan0,
        fun hends => ⟨hboth hends hent1, hboth hends hent0⟩⟩, ?_⟩
      have hinner := ((hent1.append_left _).append hent0).trans
        (perm_turning (rests_nodup hnodup)).symm
      have hunder := hinner.map fun e => (edgeOf m ++ e.1, e.2)
      exact hunder.trans (List.Perm.of_eq (under_rests m))

theorem length_le_longest {e : Pattern × String} (he : e ∈ m) : e.1.length ≤ longest m := by
  have hbelow := Pattern.foldl_below (fun a b : Nat => a ≥ b) max
    (fun a b => by omega) (fun a b => le_max_left a b) (fun a b => le_max_right a b)
    (m.map (·.1.length)) 0
  exact hbelow.2 _ (List.mem_cons_of_mem _ (List.mem_map_of_mem (f := (·.1.length)) he))

end TagFilter.Trie
