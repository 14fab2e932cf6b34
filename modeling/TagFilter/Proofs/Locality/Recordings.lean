import Mathlib.Data.List.Count
import Mathlib.Data.List.Infix
import Mathlib.Data.List.Lex
import Mathlib.Data.String.Basic
import TagFilter.Locality.Tracing

/-! # Recordings

All that is ever done to visit counts is a sequence of recordings, and the counts say
how often each path is among them. A way through an index records its labels one after
another and a marker below the last, so it counts every beginning of its trail once.
-/
namespace TagFilter.LocalityMap

/-- One thing that is counted. -/
inductive Recording where
  | sample
  | visit (path : List String)
  | finish (path : List String) (matched : Bool)
  deriving DecidableEq

namespace Recording

def act (m : LocalityMap) : Recording → LocalityMap
  | sample => m.sample
  | visit path => m.record path
  | finish path matched => m.recordEnd path matched

/-- The path to which a visit is counted. -/
def path? : Recording → Option (List String)
  | sample => none
  | visit path => some path
  | finish path matched => some (path ++ [marker matched])

def paths (recordings : List Recording) : List (List String) := recordings.filterMap path?

/-- What is recorded on a way, given the labels before it: all its nodes and the end. -/
def way (before : List String) (matched : Bool) : List String → List Recording
  | [] => [finish before matched]
  | label :: rest => visit (before ++ [label]) :: way (before ++ [label]) matched rest

end Recording

open Recording

def perform (m : LocalityMap) (recordings : List Recording) : LocalityMap :=
  recordings.foldl act m

def Sorted (m : LocalityMap) : Prop := m.counts.Pairwise fun a b => a.1 < b.1

variable {m : LocalityMap} {r : Recording} {recordings : List Recording} {path : List String}

theorem sorted_fresh : fresh.Sorted := List.Pairwise.nil

theorem pairwise_alter {key : List String} {f : Option Nat → Nat}
    {counts : OrderedMap (List String) Nat} (h : counts.Pairwise fun a b => a.1 < b.1) :
    (OrderedMap.alter key f counts).Pairwise fun a b => a.1 < b.1 := by
  induction counts with
  | nil => exact List.pairwise_singleton _ _
  | cons entry rest ih =>
    obtain ⟨k, v⟩ := entry
    obtain ⟨hk, hrest⟩ := List.pairwise_cons.mp h
    rw [OrderedMap.alter]
    split
    · rename_i hlt
      refine List.pairwise_cons.mpr ⟨fun e he => ?_, h⟩
      rcases List.mem_cons.mp he with rfl | he
      · exact hlt
      · exact hlt.trans (hk e he)
    · rename_i hle
      split
      · rename_i heq
        exact List.pairwise_cons.mpr ⟨heq ▸ hk, hrest⟩
      · rename_i hne
        refine List.pairwise_cons.mpr ⟨fun e he => ?_, ih hrest⟩
        rcases OrderedMap.mem_keys_alter (List.mem_map_of_mem he) with hkey | hkey
        · rw [hkey]
          exact lt_of_le_of_ne (not_lt.mp hle) (Ne.symm hne)
        · obtain ⟨e', he', heq⟩ := List.mem_map.mp hkey
          exact heq ▸ hk e' he'

theorem Sorted.act (h : m.Sorted) (r : Recording) : (r.act m).Sorted := by
  cases r with
  | sample => exact h
  | visit path | finish path matched => exact pairwise_alter h

theorem Sorted.perform (h : m.Sorted) (recordings : List Recording) :
    (m.perform recordings).Sorted := by
  induction recordings generalizing m with
  | nil => exact h
  | cons r rest ih => exact ih (h.act r)

theorem get?_record (h : m.Sorted) (path other : List String) :
    (m.record path).counts.get? other =
      if path = other then some (m.visits other + 1) else m.counts.get? other := by
  rw [record]
  split
  · rename_i heq
    rw [← heq, OrderedMap.get?_alter_self path _ m.counts (fun _ => lt_irrefl _) h
      fun _ _ _ => lt_trans]
    rfl
  · rename_i hne
    exact OrderedMap.get?_alter_of_ne hne _ _

theorem get?_act (h : m.Sorted) (r : Recording) (path : List String) :
    (r.act m).counts.get? path =
      if r.path? = some path then some (m.visits path + 1) else m.counts.get? path := by
  cases r with
  | sample => rfl
  | visit other =>
    rw [act, get?_record h, path?]
    simp only [Option.some.injEq]
  | finish other matched =>
    rw [act, recordEnd, get?_record h, path?]
    simp only [Option.some.injEq]

/-- A path is counted as often as it is recorded, and stands in the map only then. -/
theorem get?_perform (h : m.Sorted) (recordings : List Recording) (path : List String) :
    (m.perform recordings).counts.get? path =
      if (paths recordings).count path = 0 then m.counts.get? path
      else some (m.visits path + (paths recordings).count path) := by
  induction recordings generalizing m with
  | nil => rfl
  | cons r rest ih =>
    have hfirst := get?_act h r path
    have hrest : (m.perform (r :: rest)).counts.get? path = _ := ih (h.act r)
    rw [hrest, visits, hfirst]
    cases hpath : r.path? with
    | none =>
      have hpaths : paths (r :: rest) = paths rest := List.filterMap_cons_none hpath
      rw [hpaths]
      rfl
    | some other =>
      have hpaths : paths (r :: rest) = other :: paths rest := List.filterMap_cons_some hpath
      rw [hpaths, List.count_cons]
      by_cases heq : other = path
      · rw [heq, if_pos rfl, if_pos (beq_self_eq_true path), if_neg (Nat.succ_ne_zero _)]
        split
        · rename_i hzero
          rw [hzero]
        · rw [Option.getD_some, Nat.add_assoc, Nat.add_comm 1]
      · rw [if_neg (mt Option.some.inj heq), if_neg (mt beq_iff_eq.mp heq)]
        rfl

theorem visits_perform (h : m.Sorted) (recordings : List Recording) (path : List String) :
    (m.perform recordings).visits path = m.visits path + (paths recordings).count path := by
  rw [visits, get?_perform h]
  split
  · rename_i hzero
    rw [hzero]
    rfl
  · rfl

theorem samples_perform (m : LocalityMap) (recordings : List Recording) :
    (m.perform recordings).samples = m.samples + recordings.count .sample := by
  induction recordings generalizing m with
  | nil => rfl
  | cons r rest ih =>
    have hrest : (m.perform (r :: rest)).samples = _ := ih (r.act m)
    rw [hrest, List.count_cons]
    cases r with
    | sample =>
      change m.samples + 1 + _ = _
      simp [Nat.add_comm, Nat.add_left_comm]
    | visit path | finish path matched => simp; rfl

theorem paths_way (before labels : List String) (matched : Bool) :
    paths (way before matched labels) =
      (labels ++ [marker matched]).inits.tail.map (before ++ ·) := by
  induction labels generalizing before with
  | nil => rfl
  | cons label rest ih =>
    have hpaths : paths (way before matched (label :: rest)) =
      (before ++ [label]) :: paths (way (before ++ [label]) matched rest) := rfl
    have hinits (l : List String) : l.inits = [] :: l.inits.tail := by cases l <;> rfl
    rw [hpaths, ih, List.cons_append, List.inits_cons, List.tail_cons, List.map_map,
      hinits (rest ++ _)]
    simp [Function.comp_def]

theorem paths_way_nil (labels : List String) (matched : Bool) :
    paths (way [] matched labels) = (labels ++ [marker matched]).inits.tail := by
  rw [paths_way]
  exact List.map_id _

theorem count_sample_way (before labels : List String) (matched : Bool) :
    (way before matched labels).count .sample = 0 := by
  induction labels generalizing before with
  | nil => rfl
  | cons label rest ih =>
    rw [way, List.count_cons, ih]
    rfl

theorem count_inits (trail path : List String) :
    trail.inits.count path = if path <+: trail then 1 else 0 := by
  induction trail generalizing path with
  | nil => cases path <;> simp
  | cons label rest ih =>
    rw [List.inits_cons, List.count_cons]
    cases path with
    | nil =>
      have habsent : [] ∉ rest.inits.map (label :: ·) := by simp
      simp [List.count_eq_zero.mpr habsent]
    | cons first path =>
      by_cases hfirst : label = first
      · rw [hfirst, List.count_map_of_injective _ (first :: ·) List.cons_injective, ih]
        simp
      · have habsent : first :: path ∉ rest.inits.map (label :: ·) := by simp [hfirst]
        simp [List.count_eq_zero.mpr habsent, Ne.symm hfirst]

/-- Every beginning of a trail but the empty one is counted once. -/
theorem count_inits_tail (trail path : List String) :
    trail.inits.tail.count path = if path ≠ [] ∧ path <+: trail then 1 else 0 := by
  have hcount := count_inits trail path
  have hinits : trail.inits = [] :: trail.inits.tail := by cases trail <;> rfl
  rw [hinits, List.count_cons] at hcount
  cases path with
  | nil => simpa using hcount
  | cons first path => simpa using hcount

/-- They are the beginnings of what stands before the last label, and the whole. -/
theorem count_inits_tail_concat (labels path : List String) (last : String) :
    (labels ++ [last]).inits.tail.count path =
      (if path ≠ [] ∧ path <+: labels then 1 else 0) +
        (if path = labels ++ [last] then 1 else 0) := by
  rw [count_inits_tail]
  simp only [List.prefix_concat_iff]
  by_cases hwhole : path = labels ++ [last]
  · have hlong : ¬ labels ++ [last] <+: labels := by
      intro hbegins
      have hle := hbegins.length_le
      simp at hle
    simp [hwhole, hlong]
  · simp [hwhole]

end TagFilter.LocalityMap
