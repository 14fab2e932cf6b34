import TagFilter.Proofs.Digits

/-! # Longest common prefixes

Every pattern between the first and the last of a list in lexicographic order
begins with all that these two share, so comparing only them finds the longest
prefix that the whole list has in common.
-/
namespace TagFilter.Pattern

/-- Where two patterns part: after the shared prefix no character is the same. -/
theorem commonPrefix_split (p q : Pattern) : ∃ c p' q', commonPrefix p q = c ∧ p = c ++ p' ∧
    q = c ++ q' ∧ ∀ x, [x] <+: p' → ¬ [x] <+: q' := by
  induction p generalizing q with
  | nil => exact ⟨[], [], q, rfl, rfl, rfl, by simp⟩
  | cons a p ih =>
    cases q with
    | nil => exact ⟨[], a :: p, [], rfl, rfl, rfl, by simp⟩
    | cons b q =>
      by_cases hab : a = b
      · subst hab
        obtain ⟨c, p', q', hc, hp, hq, hsplit⟩ := ih q
        exact ⟨a :: c, p', q', by simp [commonPrefix, hc], by simp [hp], by simp [hq], hsplit⟩
      · refine ⟨[], a :: p, b :: q, by simp [commonPrefix, hab], rfl, rfl, ?_⟩
        intro x hx hx'
        simp only [List.cons_prefix_cons] at hx hx'
        exact hab (hx.1.symm.trans hx'.1)

theorem prefix_commonPrefix_iff {d p q : Pattern} :
    d <+: commonPrefix p q ↔ d <+: p ∧ d <+: q := by
  induction p generalizing d q with
  | nil => cases d <;> simp [commonPrefix]
  | cons a p ih =>
    cases q with
    | nil => cases d <;> simp [commonPrefix]
    | cons b q =>
      cases d with
      | nil => simp
      | cons x d =>
        simp only [commonPrefix]
        split
        · rename_i hab
          subst hab
          simp only [List.cons_prefix_cons, ih]
          exact ⟨fun h => ⟨⟨h.1, h.2.1⟩, h.1, h.2.2⟩, fun h => ⟨h.1.1, h.1.2, h.2.2⟩⟩
        · rename_i hab
          simp only [List.cons_prefix_cons, List.prefix_nil]
          exact ⟨fun h => absurd h (by simp), fun h => absurd (h.1.1.symm.trans h.2.1) hab⟩

theorem commonPrefix_prefix_of_between {lo p hi : Pattern} (hlo : lo ≤ p) (hhi : p ≤ hi) :
    commonPrefix lo hi <+: p := by
  induction lo generalizing p hi with
  | nil => simp [commonPrefix]
  | cons a lo ih =>
    cases hi with
    | nil => simp [commonPrefix]
    | cons b hi =>
      simp only [commonPrefix]
      split
      · rename_i hab
        subst hab
        cases p with
        | nil => exact absurd (List.nil_lt_cons a lo) (not_lt.mpr hlo)
        | cons c p =>
          have hac : ¬ (c :: p : Pattern) < a :: lo := not_lt.mpr hlo
          have hca : ¬ (a :: hi : Pattern) < c :: p := not_lt.mpr hhi
          rw [List.cons_lt_cons_iff, not_or] at hac hca
          have hc : c = a := le_antisymm (not_lt.mp hca.1) (not_lt.mp hac.1)
          subst hc
          have hlo' : lo ≤ p := not_lt.mp fun h => hac.2 ⟨rfl, h⟩
          have hhi' : p ≤ hi := not_lt.mp fun h => hca.2 ⟨rfl, h⟩
          exact List.cons_prefix_cons.mpr ⟨rfl, ih hlo' hhi'⟩
      · exact List.nil_prefix

/-- A choice between two that is below both leads through a list to one below all. -/
theorem foldl_below {α : Type} (r : α → α → Prop) [Std.Refl r] [IsTrans α r] (pick : α → α → α)
    (choice : ∀ a b, pick a b = a ∨ pick a b = b) (left : ∀ a b, r (pick a b) a)
    (right : ∀ a b, r (pick a b) b) (rest : List α) (p : α) :
    rest.foldl pick p ∈ p :: rest ∧ ∀ q ∈ p :: rest, r (rest.foldl pick p) q := by
  induction rest generalizing p with
  | nil => simpa using refl_of r p
  | cons t rest ih =>
    obtain ⟨hmem, hle⟩ := ih (pick p t)
    have hfirst := hle (pick p t) List.mem_cons_self
    rw [List.foldl_cons]
    constructor
    · rcases List.mem_cons.mp hmem with heq | hmem
      · rw [heq]
        rcases choice p t with h | h <;> simp [h]
      · exact List.mem_cons_of_mem _ (List.mem_cons_of_mem _ hmem)
    · intro q hq
      rcases List.mem_cons.mp hq with rfl | hq
      · exact trans_of r hfirst (left _ _)
      · rcases List.mem_cons.mp hq with rfl | hq
        · exact trans_of r hfirst (right _ _)
        · exact hle q (List.mem_cons_of_mem _ hq)

theorem foldl_smaller (rest : List Pattern) (p : Pattern) :
    rest.foldl smaller p ∈ p :: rest ∧ ∀ q ∈ p :: rest, rest.foldl smaller p ≤ q := by
  apply foldl_below (fun a b : Pattern => a ≤ b)
  · intro a b
    unfold smaller
    split <;> simp
  · intro a b
    unfold smaller
    split
    · rename_i h
      exact h.le
    · exact le_refl a
  · intro a b
    unfold smaller
    split
    · exact le_refl b
    · rename_i h
      exact not_lt.mp h

theorem foldl_larger (rest : List Pattern) (p : Pattern) :
    rest.foldl larger p ∈ p :: rest ∧ ∀ q ∈ p :: rest, rest.foldl larger p ≥ q := by
  apply foldl_below (fun a b : Pattern => a ≥ b)
  · intro a b
    unfold larger
    split <;> simp
  · intro a b
    unfold larger
    split
    · exact le_refl a
    · rename_i h
      exact not_lt.mp h
  · intro a b
    unfold larger
    split
    · rename_i h
      exact h.le
    · exact le_refl b

theorem prefix_longestCommonPrefix_iff {ps : List Pattern} (hne : ps ≠ []) {d : Pattern} :
    d <+: longestCommonPrefix ps ↔ ∀ p ∈ ps, d <+: p := by
  cases ps with
  | nil => exact absurd rfl hne
  | cons p rest =>
    obtain ⟨hlo, hlo'⟩ := foldl_smaller rest p
    obtain ⟨hhi, hhi'⟩ := foldl_larger rest p
    rw [longestCommonPrefix]
    constructor
    · intro hd q hq
      exact hd.trans (commonPrefix_prefix_of_between (hlo' q hq) (hhi' q hq))
    · intro hd
      exact prefix_commonPrefix_iff.mpr ⟨hd _ hlo, hd _ hhi⟩

theorem longestCommonPrefix_isPrefix {ps : List Pattern} {p : Pattern} (hp : p ∈ ps) :
    longestCommonPrefix ps <+: p :=
  (prefix_longestCommonPrefix_iff (List.ne_nil_of_mem hp)).mp (List.prefix_refl _) p hp

theorem longestCommonPrefix_prefix_of_perm {ps qs : List Pattern} (h : qs.Perm ps) :
    longestCommonPrefix qs <+: longestCommonPrefix ps := by
  by_cases hne : ps = []
  · subst hne
    exact h.eq_nil ▸ List.prefix_rfl
  · apply (prefix_longestCommonPrefix_iff hne).mpr
    intro p hp
    exact longestCommonPrefix_isPrefix (h.mem_iff.mpr hp)

/-- Every pattern of a list begins with the longest common prefix, which begins with all
else that they have in common. The order in which the patterns come does not count, and
no pattern at all has nothing in common. -/
theorem longestCommonPrefix_exact (ps : List Pattern) :
    (ps = [] → longestCommonPrefix ps = []) ∧
    (ps ≠ [] → (∀ p ∈ ps, longestCommonPrefix ps <+: p) ∧
      ∀ d, (∀ p ∈ ps, d <+: p) → d <+: longestCommonPrefix ps) ∧
    ∀ qs : List Pattern, qs.Perm ps → longestCommonPrefix qs = longestCommonPrefix ps := by
  refine ⟨?_, ?_, ?_⟩
  · rintro rfl
    rfl
  · intro hne
    exact ⟨fun p hp => longestCommonPrefix_isPrefix hp,
      fun d hd => (prefix_longestCommonPrefix_iff hne).mpr hd⟩
  · intro qs h
    have hqs := longestCommonPrefix_prefix_of_perm h
    have hps := longestCommonPrefix_prefix_of_perm h.symm
    exact hqs.eq_of_length (le_antisymm hqs.length_le hps.length_le)

/-- The first and the last pattern in lexicographic order stand in the middle, and one
comes twice. -/
theorem longestCommonPrefix_exact_sample :
    let ps : List Pattern := [['0', '1', '1'], ['0', '1', '0', '0'], ['0', '1', '1', '1'],
      ['0', '1', '0', '1'], ['0', '1', '1']]
    longestCommonPrefix ps = ['0', '1'] ∧ (∀ p ∈ ps, ['0', '1'] <+: p) ∧
      longestCommonPrefix ps.reverse = ['0', '1'] := by
  intro ps
  obtain ⟨-, hgreatest, hperm⟩ := longestCommonPrefix_exact ps
  have hvalue : longestCommonPrefix ps = ['0', '1'] := by decide
  have hprefix := (hgreatest (List.cons_ne_nil _ _)).1
  rw [hvalue] at hprefix
  exact ⟨hvalue, hprefix, (hperm _ ps.reverse_perm).trans hvalue⟩

end TagFilter.Pattern
