import Mathlib.Data.List.Nodup
import Mathlib.Data.List.Perm.Basic
import TagFilter.OrderedMap
import TagFilter.Proofs.Digits

/-! # Tables of subscriptions

What an index has to hold: a report URI for each of finitely many patterns. A
sorted table is determined by its entries in any order, and its entries that an
identifier begins with come in increasing length. They are the reference that
every search is compared with.
-/
namespace TagFilter

abbrev Table := OrderedMap Pattern String

namespace Table
open OrderedMap
open List (Perm)

def Sorted (m : Table) : Prop := m.Pairwise fun a b => a.1 < b.1

def Digital (m : Table) : Prop := ∀ e ∈ m, e.1.Digital

instance : DecidablePred Sorted := fun m =>
  inferInstanceAs (Decidable (m.Pairwise fun a b => a.1 < b.1))

instance : DecidablePred Digital := fun m => inferInstanceAs (Decidable (∀ e ∈ m, e.1.Digital))

def matching (bits : Pattern) (m : Table) : Table := m.filter fun e => e.1.isPrefixOf bits

/-- The URIs that an identifier is reported to, the one with the shortest pattern first. -/
def reported (id : Identifier) (m : Table) : List String := (matching id.bits m).map (·.2)

/-- Entries for what follows a pattern, seen from where the pattern starts. -/
def under (p : Pattern) (m : Table) : Table := m.map fun e => (p ++ e.1, e.2)

variable {m n : Table} {p q : Pattern} {u v : String}

theorem Sorted.nodup (h : Sorted m) : (m.map (·.1)).Nodup :=
  List.pairwise_map.mpr (h.imp fun hlt => ne_of_lt hlt)

theorem Sorted.eq_of_perm (hm : Sorted m) (hn : Sorted n) (h : Perm m n) : m = n :=
  h.eq_of_pairwise (fun _ _ _ _ hab hba => absurd hab (lt_asymm hba)) hm hn

theorem value_unique (h : (m.map (·.1)).Nodup) (hu : (p, u) ∈ m) (hv : (p, v) ∈ m) : u = v := by
  have heq := List.inj_on_of_nodup_map h hu hv rfl
  exact congrArg Prod.snd heq

theorem get?_eq_some_iff (h : (m.map (·.1)).Nodup) : get? m p = some u ↔ (p, u) ∈ m := by
  simp only [get?, Option.map_eq_some_iff]
  constructor
  · rintro ⟨⟨q, v⟩, hfind, rfl⟩
    have hkey := List.find?_some hfind
    have hmem := List.mem_of_find?_eq_some hfind
    rw [decide_eq_true_eq] at hkey
    exact hkey ▸ hmem
  · intro hmem
    cases hfind : m.find? fun e => e.1 = p with
    | none => simpa using List.find?_eq_none.mp hfind _ hmem
    | some e =>
      have hkey := List.find?_some hfind
      rw [decide_eq_true_eq] at hkey
      refine ⟨e, rfl, value_unique h (?_ : (p, e.2) ∈ m) hmem⟩
      rw [← hkey]
      exact List.mem_of_find?_eq_some hfind

theorem filter_key (h : (m.map (·.1)).Nodup) (p : Pattern) :
    m.filter (fun e => e.1 = p) = (get? m p).toList.map fun u => (p, u) := by
  induction m with
  | nil => rfl
  | cons e m ih =>
    obtain ⟨hnot, hm⟩ := List.nodup_cons.mp h
    by_cases he : e.1 = p
    · subst he
      have hrest : m.filter (fun f => f.1 = e.1) = [] := by
        rw [List.filter_eq_nil_iff]
        intro f hf hkey
        rw [decide_eq_true_eq] at hkey
        exact hnot (List.mem_map.mpr ⟨f, hf, hkey⟩)
      simp [get?, hrest]
    · have hih := ih hm
      simpa [get?, he] using hih

theorem mem_erase {e : Pattern × String} : e ∈ erase m p ↔ e ∈ m ∧ e.1 ≠ p := by
  simp [erase]

theorem erase_of_absent (h : ∀ e ∈ m, e.1 ≠ p) : erase m p = m := by
  rw [erase, List.filter_eq_self]
  intro e he
  simpa using h e he

theorem erase_append (m n : Table) (p : Pattern) : erase (m ++ n) p = erase m p ++ erase n p :=
  List.filter_append ..

theorem erase_cons_self (p : Pattern) (u : String) (m : Table) :
    erase ((p, u) :: m) p = erase m p := List.filter_cons_of_neg (by simp)

theorem erase_cons_of_ne {e : Pattern × String} (h : e.1 ≠ p) :
    erase (e :: m) p = e :: erase m p := List.filter_cons_of_pos (by simpa using h)

theorem Sorted.erase (h : Sorted m) : Sorted (erase m p) := h.filter _

/-- Setting a key replaces its entry, wherever that stands. -/
theorem perm_insert (h : Sorted m) : Perm (insert p u m) ((p, u) :: erase m p) := by
  induction m with
  | nil => simp [OrderedMap.insert, alter, OrderedMap.erase]
  | cons e m ih =>
    obtain ⟨q, v⟩ := e
    obtain ⟨hq, hm⟩ := List.pairwise_cons.mp h
    simp only [OrderedMap.insert, alter]
    by_cases hlt : p < q
    · have habsent : ∀ e ∈ (q, v) :: m, e.1 ≠ p := by
        intro e he
        rcases List.mem_cons.mp he with rfl | he
        · exact (ne_of_lt hlt).symm
        · exact (ne_of_lt (hlt.trans (hq e he))).symm
      rw [if_pos hlt, erase_of_absent habsent]
    · rw [if_neg hlt]
      by_cases heq : p = q
      · subst heq
        have habsent : ∀ e ∈ m, e.1 ≠ p := fun e he => (ne_of_lt (hq e he)).symm
        rw [if_pos rfl, erase_cons_self, erase_of_absent habsent]
      · rw [if_neg heq, erase_cons_of_ne (Ne.symm heq)]
        exact ((ih hm).cons _).trans (Perm.swap _ _ _)

theorem Sorted.insert (h : Sorted m) : Sorted (insert p u m) := by
  induction m with
  | nil => simp [OrderedMap.insert, alter, Sorted]
  | cons e m ih =>
    obtain ⟨q, v⟩ := e
    obtain ⟨hq, hm⟩ := List.pairwise_cons.mp h
    simp only [OrderedMap.insert, alter]
    by_cases hlt : p < q
    · rw [if_pos hlt]
      refine List.pairwise_cons.mpr ⟨?_, h⟩
      intro e he
      rcases List.mem_cons.mp he with rfl | he
      · exact hlt
      · exact hlt.trans (hq e he)
    · rw [if_neg hlt]
      by_cases heq : p = q
      · subst heq
        rw [if_pos rfl]
        exact List.pairwise_cons.mpr ⟨hq, hm⟩
      · rw [if_neg heq]
        refine List.pairwise_cons.mpr ⟨?_, ih hm⟩
        intro e he
        have hmem := (perm_insert hm).subset he
        rcases List.mem_cons.mp hmem with rfl | hmem
        · exact lt_of_le_of_ne (not_lt.mp hlt) (Ne.symm heq)
        · exact hq e (mem_erase.mp hmem).1

theorem insert_at {a b : Table} (h : Sorted (a ++ (p, v) :: b)) :
    OrderedMap.insert p u (a ++ (p, v) :: b) = a ++ (p, u) :: b := by
  induction a with
  | nil => simp [OrderedMap.insert, alter]
  | cons e a ih =>
    obtain ⟨hlt, hrest⟩ := List.pairwise_cons.mp h
    have hep : e.1 < p := hlt (p, v) (by simp)
    have hih := ih hrest
    rw [OrderedMap.insert] at hih ⊢
    rw [List.cons_append, alter, if_neg (lt_asymm hep), if_neg (ne_of_gt hep), hih]
    rfl

theorem insert_between {a b : Table} (ha : ∀ e ∈ a, e.1 < p) (hb : ∀ e ∈ b, p < e.1) :
    OrderedMap.insert p u (a ++ b) = a ++ (p, u) :: b := by
  induction a with
  | nil =>
    cases b with
    | nil => rfl
    | cons e b => simp [OrderedMap.insert, alter, hb e List.mem_cons_self]
  | cons e a ih =>
    have hep := ha e List.mem_cons_self
    have hih := ih fun f hf => ha f (List.mem_cons_of_mem _ hf)
    rw [OrderedMap.insert] at hih ⊢
    rw [List.cons_append, alter, if_neg (lt_asymm hep), if_neg (ne_of_gt hep), hih]
    rfl

theorem erase_at {a b : Table} (h : Sorted (a ++ (p, v) :: b)) :
    OrderedMap.erase (a ++ (p, v) :: b) p = a ++ b := by
  obtain ⟨-, hright, hcross⟩ := List.pairwise_append.mp h
  have ha : ∀ e ∈ a, e.1 ≠ p := fun e he => ne_of_lt (hcross e he (p, v) (by simp))
  have hb : ∀ e ∈ b, e.1 ≠ p := fun e he => ne_of_gt ((List.pairwise_cons.mp hright).1 e he)
  rw [erase_append, erase_of_absent ha, erase_cons_self, erase_of_absent hb]

theorem Digital.insert (hs : Sorted m) (h : Digital m) (hp : p.Digital) :
    Digital (insert p u m) := by
  intro e he
  rcases List.mem_cons.mp ((perm_insert hs).subset he) with rfl | he
  · exact hp
  · exact h e (mem_erase.mp he).1

theorem Digital.erase (h : Digital m) : Digital (erase m p) := fun e he => h e (mem_erase.mp he).1

theorem mem_matching {bits : Pattern} {e : Pattern × String} :
    e ∈ matching bits m ↔ e ∈ m ∧ e.1 <+: bits := by
  simp [matching]

/-- Entries that the same bits begin with are in the order of their lengths. -/
theorem Sorted.matching_lengths (h : Sorted m) (bits : Pattern) :
    (matching bits m).Pairwise fun a b => a.1.length < b.1.length := by
  refine (h.filter _).imp_of_mem fun ha hb hlt => ?_
  exact Pattern.length_lt_of_lt (mem_matching.mp ha).2 (mem_matching.mp hb).2 hlt

/-- Contents listed in another order report the same if their matches too come by length. -/
theorem matching_eq_of_perm {entries : Table} (hm : Sorted m) (h : Perm entries m) {bits : Pattern}
    (hlen : (matching bits entries).Pairwise fun a b => a.1.length < b.1.length) :
    matching bits entries = matching bits m :=
  (h.filter _).eq_of_pairwise (fun _ _ _ _ hab hba => absurd hab (Nat.lt_asymm hba)) hlen
    (hm.matching_lengths bits)

theorem matching_append (bits : Pattern) (m n : Table) :
    matching bits (m ++ n) = matching bits m ++ matching bits n := List.filter_append ..

theorem matching_eq_nil {bits : Pattern} (h : ∀ e ∈ m, ¬ e.1 <+: bits) : matching bits m = [] := by
  rw [matching, List.filter_eq_nil_iff]
  intro e he
  simpa using h e he

theorem mem_under {e : Pattern × String} : e ∈ under p m ↔ ∃ f ∈ m, (p ++ f.1, f.2) = e := by
  simp [under]

theorem mem_under_append : (p ++ q, u) ∈ under p m ↔ (q, u) ∈ m := by
  simp [under]

theorem under_under (p q : Pattern) (m : Table) : under p (under q m) = under (p ++ q) m := by
  simp [under]

theorem perm_of_perm_under (h : Perm (under p m) (under p n)) : Perm m n := by
  refine (List.map_perm_map_iff (f := fun e : Pattern × String => (p ++ e.1, e.2)) ?_).mp h
  intro a b hab
  simpa [Prod.ext_iff] using hab

theorem prefix_of_mem_under {e : Pattern × String} (h : e ∈ under p m) : p <+: e.1 := by
  obtain ⟨f, -, rfl⟩ := mem_under.mp h
  exact List.prefix_append _ _

theorem erase_under (p q : Pattern) (m : Table) :
    erase (under p m) (p ++ q) = under p (erase m q) := by
  induction m with
  | nil => rfl
  | cons e m ih =>
    simp only [under, erase, List.map_cons, List.filter_cons] at ih ⊢
    by_cases h : e.1 = q
    · simpa [h] using ih
    · simpa [h] using ih

theorem erase_under_of_not_isPrefix (h : ¬ p <+: q) : erase (under p m) q = under p m :=
  erase_of_absent fun _ he heq => h (heq ▸ prefix_of_mem_under he)

theorem perm_under_cons_erase (h : Perm m ((q, u) :: erase n q)) :
    Perm (under p m) ((p ++ q, u) :: erase (under p n) (p ++ q)) := by
  rw [erase_under]
  exact h.map _

theorem matching_under {bits : Pattern} (m : Table) (h : p <+: bits) :
    matching bits (under p m) = under p (matching (bits.drop p.length) m) := by
  obtain ⟨rest, rfl⟩ := h
  rw [List.drop_left]
  induction m with
  | nil => rfl
  | cons e m ih =>
    simp only [under, matching, List.map_cons, List.filter_cons] at ih ⊢
    by_cases h : e.1 <+: rest
    · simpa [h] using ih
    · simpa [h] using ih

theorem matching_under_of_not_isPrefix {bits : Pattern} (h : ¬ p <+: bits) :
    matching bits (under p m) = [] :=
  matching_eq_nil fun _ he hpre => h ((prefix_of_mem_under he).trans hpre)

theorem under_lengths (h : m.Pairwise fun a b => a.1.length < b.1.length) :
    (under p m).Pairwise fun a b => a.1.length < b.1.length := by
  refine List.pairwise_map.mpr (h.imp fun hlt => ?_)
  simp only [List.length_append]
  omega

def Leads (lead : Pattern) (m : Table) : Prop := ∀ e ∈ m, lead <+: e.1

theorem Leads.erase_eq {lead : Pattern} (h : Leads lead m) (hp : ¬ lead <+: p) : erase m p = m :=
  erase_of_absent fun e he heq => hp (heq ▸ h e he)

theorem Leads.matching_eq_nil {lead bits : Pattern} (h : Leads lead m) (hb : ¬ lead <+: bits) :
    matching bits m = [] :=
  Table.matching_eq_nil fun e he hpre => hb ((h e he).trans hpre)

theorem Leads.under {lead : Pattern} (h : lead <+: p) : Leads lead (under p m) :=
  fun _ he => h.trans (prefix_of_mem_under he)

end Table
end TagFilter
