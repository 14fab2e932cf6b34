/-! # Ordered maps

Finite maps as lists of entries in increasing key order, so that two maps with
the same entries are the same list. Writing a key that is present replaces its
value.
-/
namespace TagFilter

abbrev OrderedMap (κ ν : Type) := List (κ × ν)

namespace OrderedMap

variable {κ ν : Type} [DecidableEq κ]

def get? (entries : OrderedMap κ ν) (key : κ) : Option ν :=
  (entries.find? fun entry => entry.1 = key).map (·.2)

def erase (entries : OrderedMap κ ν) (key : κ) : OrderedMap κ ν :=
  entries.filter fun entry => entry.1 ≠ key

@[simp] theorem get?_nil (key : κ) : get? ([] : OrderedMap κ ν) key = none := rfl

theorem get?_cons (key key' : κ) (value : ν) (rest : OrderedMap κ ν) :
    get? ((key, value) :: rest) key' = if key = key' then some value else get? rest key' := by
  by_cases h : key = key' <;> simp [get?, h]

theorem get?_eq_none_iff {key : κ} {entries : OrderedMap κ ν} :
    get? entries key = none ↔ key ∉ entries.map (·.1) := by
  induction entries with
  | nil => simp
  | cons entry rest ih =>
    rw [get?_cons, List.map_cons, List.mem_cons, not_or, ← ih]
    by_cases h : entry.1 = key
    · simp [h]
    · simp [h, Ne.symm h]

variable [LT κ] [DecidableLT κ]

/-- Sets the value of a key to a function of its previous value. -/
def alter (key : κ) (f : Option ν → ν) : OrderedMap κ ν → OrderedMap κ ν
  | [] => [(key, f none)]
  | (k, v) :: rest =>
    if key < k then (key, f none) :: (k, v) :: rest
    else if key = k then (key, f (some v)) :: rest
    else (k, v) :: alter key f rest

def insert (key : κ) (value : ν) (entries : OrderedMap κ ν) : OrderedMap κ ν :=
  alter key (fun _ => value) entries

def ofList (entries : List (κ × ν)) : OrderedMap κ ν :=
  entries.foldl (fun map entry => insert entry.1 entry.2 map) []

theorem get?_alter_self (key : κ) (f : Option ν → ν) (entries : OrderedMap κ ν)
    (irrefl : ∀ k : κ, ¬ k < k) (sorted : entries.Pairwise fun a b => a.1 < b.1)
    (trans : ∀ a b c : κ, a < b → b < c → a < c) :
    get? (alter key f entries) key = some (f (get? entries key)) := by
  induction entries with
  | nil => simp [alter, get?]
  | cons entry rest ih =>
    obtain ⟨k, v⟩ := entry
    have below := (List.pairwise_cons.1 sorted).1
    simp only [alter]
    split
    · rename_i hlt
      have hne : k ≠ key := fun h => irrefl key (h ▸ hlt)
      have none : rest.find? (fun entry => entry.1 = key) = none := by
        rw [List.find?_eq_none]
        intro entry hmem heq
        have := trans _ _ _ hlt (below entry hmem)
        simp only [decide_eq_true_eq] at heq
        rw [heq] at this
        exact irrefl key this
      simp [get?, hne, none]
    · split
      · rename_i heq
        simp [get?, heq]
      · rename_i hne
        have := ih (List.pairwise_cons.1 sorted).2
        simpa [get?, Ne.symm hne, List.find?_cons] using this

theorem get?_alter_of_ne {key key' : κ} (h : key ≠ key') (f : Option ν → ν)
    (entries : OrderedMap κ ν) : get? (alter key f entries) key' = get? entries key' := by
  induction entries with
  | nil => rw [alter, get?_cons, if_neg h]
  | cons entry rest ih =>
    obtain ⟨k, v⟩ := entry
    rw [alter]
    split
    · rw [get?_cons, if_neg h]
    · split
      · rename_i heq
        rw [get?_cons, get?_cons, if_neg h, if_neg (heq ▸ h)]
      · rw [get?_cons, get?_cons, ih]

theorem mem_keys_alter {key key' : κ} {f : Option ν → ν} {entries : OrderedMap κ ν}
    (h : key' ∈ (alter key f entries).map (·.1)) : key' = key ∨ key' ∈ entries.map (·.1) := by
  induction entries with
  | nil => simpa [alter] using h
  | cons entry rest ih =>
    obtain ⟨k, v⟩ := entry
    rw [alter] at h
    split at h
    · exact (List.mem_cons.mp h)
    · split at h
      · exact (List.mem_cons.mp h).imp_right (List.mem_cons_of_mem _)
      · rcases List.mem_cons.mp h with rfl | h
        · exact .inr List.mem_cons_self
        · exact (ih h).imp_right (List.mem_cons_of_mem _)

theorem get?_insert (key key' : κ) (value : ν) (entries : OrderedMap κ ν) :
    get? (insert key value entries) key' =
      if key = key' then some value else get? entries key' := by
  induction entries with
  | nil => exact get?_cons key key' value []
  | cons entry rest ih =>
    obtain ⟨k, v⟩ := entry
    rw [insert, alter]
    split
    · rw [get?_cons, get?_cons]
    · split
      · rename_i heq
        rw [get?_cons, get?_cons, heq]
        split <;> rfl
      · rename_i hne
        rw [get?_cons, ← insert, ih, get?_cons]
        split
        · rename_i hkey
          rw [if_neg fun heq => hne (heq.trans hkey.symm)]
        · rfl

/-- An entry counts if no later one gives another value for its key. -/
theorem get?_ofList {key : κ} {value : ν} {before after : List (κ × ν)}
    (last : ∀ entry ∈ after, entry.1 = key → entry.2 = value) :
    get? (ofList (before ++ (key, value) :: after)) key = some value := by
  have kept (map : OrderedMap κ ν) (h : get? map key = some value) :
      get? (after.foldl (fun map entry => insert entry.1 entry.2 map) map) key = some value := by
    induction after generalizing map with
    | nil => exact h
    | cons entry after ih =>
      obtain ⟨first, rest⟩ := List.forall_mem_cons.mp last
      refine ih rest _ ?_
      rw [get?_insert, h]
      split
      · rename_i heq
        rw [first heq]
      · rfl
  rw [ofList, List.foldl_append, List.foldl_cons]
  refine kept _ ?_
  rw [get?_insert, if_pos rfl]

theorem get?_ofList_eq_none_iff {key : κ} (entries : List (κ × ν)) :
    get? (ofList entries) key = none ↔ key ∉ entries.map (·.1) := by
  have added (map : OrderedMap κ ν) :
      get? (entries.foldl (fun map entry => insert entry.1 entry.2 map) map) key = none ↔
        get? map key = none ∧ key ∉ entries.map (·.1) := by
    induction entries generalizing map with
    | nil => simp
    | cons entry entries ih =>
      rw [List.foldl_cons, ih, get?_insert]
      by_cases h : entry.1 = key
      · simp [h]
      · simp [h, Ne.symm h]
  rw [ofList, added]
  simp

end OrderedMap
end TagFilter
