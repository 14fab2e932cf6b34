import TagFilter.Proofs.CommonPrefix
import TagFilter.Proofs.Trie.Shape

/-! # Changes of a radix trie

Adding a pattern splits the edge that it leaves and deleting one merges what is
left with a single branch, so both lead from canonical tries to canonical tries.
What they do to the entries is to set one and to remove one.
-/
namespace TagFilter.Trie
open List (Perm)
open Table OrderedMap

variable {lead path rest q : Pattern} {offset : Nat} {t t' one zero one' zero' : Trie}
  {held : Option String} {uri : String} {filter : Filter}

theorem erase_contents_nil (hone : Leads ['1'] one.entries) (hzero : Leads ['0'] zero.entries) :
    erase (contents held one zero) [] = contents none one zero := by
  rw [contents, erase_append, erase_append, hone.erase_eq (by simp), hzero.erase_eq (by simp)]
  cases held <;> rfl

theorem erase_contents_one (hzero : Leads ['0'] zero.entries) (hq : ['1'] <+: q) :
    erase (contents held one zero) q =
      held.toList.map (fun u => ([], u)) ++ erase one.entries q ++ zero.entries := by
  obtain ⟨r, rfl⟩ := hq
  rw [contents, erase_append, erase_append, hzero.erase_eq (by simp)]
  cases held <;> rfl

theorem erase_contents_zero (hone : Leads ['1'] one.entries) (hq : ['0'] <+: q) :
    erase (contents held one zero) q =
      held.toList.map (fun u => ([], u)) ++ one.entries ++ erase zero.entries q := by
  obtain ⟨r, rfl⟩ := hq
  rw [contents, erase_append, erase_append, hone.erase_eq (by simp)]
  cases held <;> rfl

theorem mem_contents_nil (hone : Leads ['1'] one.entries) (hzero : Leads ['0'] zero.entries) :
    ([], uri) ∈ contents held one zero ↔ held = some uri := by
  have h1 : ([], uri) ∉ one.entries := fun hm => by simpa using hone _ hm
  have h0 : ([], uri) ∉ zero.entries := fun hm => by simpa using hzero _ hm
  cases held <;> simp [contents, h1, h0, eq_comm]

theorem mem_contents_one (hzero : Leads ['0'] zero.entries) (hq : ['1'] <+: q) :
    (q, uri) ∈ contents held one zero ↔ (q, uri) ∈ one.entries := by
  obtain ⟨r, rfl⟩ := hq
  have h0 : ('1' :: r, uri) ∉ zero.entries := fun hm => by simpa using hzero _ hm
  cases held <;> simp [contents, h0]

theorem mem_contents_zero (hone : Leads ['1'] one.entries) (hq : ['0'] <+: q) :
    (q, uri) ∈ contents held one zero ↔ (q, uri) ∈ zero.entries := by
  obtain ⟨r, rfl⟩ := hq
  have h1 : ('0' :: r, uri) ∉ one.entries := fun hm => by simpa using hone _ hm
  cases held <;> simp [contents, h1]

theorem ne_empty_of_perm {m : Table} (h : Perm t.entries ((q, uri) :: m)) : t ≠ empty := by
  rintro rfl
  exact List.cons_ne_nil _ _ h.nil_eq.symm

theorem perm_contents_one (hzero : Leads ['0'] zero.entries) (hq : ['1'] <+: q)
    (h : Perm one'.entries ((q, uri) :: erase one.entries q)) :
    Perm (contents held one' zero) ((q, uri) :: erase (contents held one zero) q) := by
  rw [erase_contents_one hzero hq, contents]
  refine ((h.append_left _).append_right _).trans ?_
  rw [List.append_assoc, List.append_assoc]
  exact List.perm_middle

theorem perm_contents_zero (hone : Leads ['1'] one.entries) (hq : ['0'] <+: q)
    (h : Perm zero'.entries ((q, uri) :: erase zero.entries q)) :
    Perm (contents held one zero') ((q, uri) :: erase (contents held one zero) q) := by
  rw [erase_contents_zero hone hq, contents]
  exact (h.append_left _).trans List.perm_middle

theorem Canonical.leaf (hp : rest.Digital) (hlead : lead <+: rest) :
    Canonical lead offset (leaf rest offset uri) :=
  ⟨edge_encode hp hlead, trivial, trivial, by simp⟩

theorem entries_leaf : (leaf rest offset uri).entries = [(rest, uri)] := by
  simp [Trie.leaf, contents, entries, under]

/-- A node split at a bit offset: what is left of it below the split. -/
theorem Canonical.lower {c edge : Pattern} (h : Canonical lead offset (node held filter one zero))
    (hedge : filter.pattern = c ++ edge) (hne : edge ≠ []) :
    Canonical [Pattern.digit edge.turnsToOne] (offset + c.length)
        (node held (Filter.encode edge (offset + c.length)) one zero) ∧
      under c (node held (Filter.encode edge (offset + c.length)) one zero).entries =
        (node held filter one zero).entries := by
  obtain ⟨⟨-, hdigital, -⟩, hone, hzero, hboth⟩ := h
  rw [hedge] at hdigital hone hzero
  have hrest := (Pattern.digital_append.mp hdigital).2
  rw [List.length_append, ← Nat.add_assoc] at hone hzero
  refine ⟨⟨edge_encode hrest (hrest.turns hne), hone, hzero, hboth⟩, ?_⟩
  rw [entries_node, entries_node, Filter.pattern_encode, under_under, hedge]

/-- An upper node for a pattern that ends on an edge, with what it splits off. -/
theorem Edge.ends {lower : Trie} {turn : Bool} (hedge : Edge lead offset filter)
    (hlower : Canonical [Pattern.digit turn] (offset + filter.pattern.length) lower) :
    let upper := match branch turn lower (node none filter empty empty) with
      | empty => empty
      | node _ f o z => node (some uri) f o z
    Canonical lead offset upper ∧
      Perm upper.entries ((filter.pattern, uri) :: under filter.pattern lower.entries) := by
  cases turn with
  | true =>
    refine ⟨⟨hedge, hlower, trivial, by simp⟩, ?_⟩
    simp [branch, contents, entries, under]
  | false =>
    refine ⟨⟨hedge, trivial, hlower, by simp⟩, ?_⟩
    simp [branch, contents, entries, under]

theorem Edge.parts {lower : Trie} {below : Pattern} (hedge : Edge lead offset filter)
    (hlower : Canonical [Pattern.digit !below.turnsToOne] (offset + filter.pattern.length) lower)
    (hne : lower ≠ empty) (hbelow : below.Digital) (hend : below ≠ []) :
    let upper := branch below.turnsToOne (Trie.leaf below (offset + filter.pattern.length) uri)
      (branch (!below.turnsToOne) lower (node none filter empty empty))
    Canonical lead offset upper ∧ Perm upper.entries
      ((filter.pattern ++ below, uri) :: under filter.pattern lower.entries) := by
  have hleaf : Canonical [Pattern.digit below.turnsToOne] (offset + filter.pattern.length)
      (Trie.leaf below (offset + filter.pattern.length) uri) :=
    Canonical.leaf hbelow (hbelow.turns hend)
  have hleaf_ne : Trie.leaf below (offset + filter.pattern.length) uri ≠ empty := by
    simp [Trie.leaf]
  cases hturn : below.turnsToOne with
  | true =>
    rw [hturn] at hlower hleaf
    refine ⟨⟨hedge, hleaf, hlower, fun _ => ⟨hleaf_ne, hne⟩⟩, ?_⟩
    simp [branch, contents, entries_leaf, under]
  | false =>
    rw [hturn] at hlower hleaf
    refine ⟨⟨hedge, hlower, hleaf, fun _ => ⟨hne, hleaf_ne⟩⟩, ?_⟩
    simp [branch, contents, entries_leaf, under, List.perm_append_singleton]

/-- A pattern that leaves the edge of a node, or ends on it, splits the node. -/
theorem Canonical.addAt_split {c edge below : Pattern}
    (h : Canonical lead offset (node held filter one zero))
    (hc : Pattern.commonPrefix filter.pattern (c ++ below) = c) (hedge : filter.pattern = c ++ edge)
    (hne : edge ≠ []) (hpart : ∀ x, [x] <+: edge → ¬ [x] <+: below)
    (hrest : (c ++ below).Digital) (hlead : lead <+: c) :
    Canonical lead offset (addAt uri (c ++ below) offset (node held filter one zero)) ∧
      Perm (addAt uri (c ++ below) offset (node held filter one zero)).entries
        ((c ++ below, uri) :: erase (node held filter one zero).entries (c ++ below)) := by
  obtain ⟨hcd, hbelow⟩ := Pattern.digital_append.mp hrest
  have hturns := (Pattern.digital_append.mp (hedge ▸ h.1.digital)).2.turns hne
  have habsent : erase (node held filter one zero).entries (c ++ below) =
      (node held filter one zero).entries := by
    apply erase_under_of_not_isPrefix
    intro hpre
    rw [hedge, List.prefix_append_right_inj] at hpre
    exact hpart _ hturns (hturns.trans hpre)
  have hlen : c.length ≠ (c ++ edge).length := by
    have hpos := List.length_pos_iff.mpr hne
    simp only [List.length_append]
    omega
  have htop : Edge lead offset (Filter.encode c offset) := edge_encode hcd hlead
  obtain ⟨hlow, hsplit⟩ := h.lower hedge hne
  rw [habsent, ← hsplit]
  simp only [addAt, hc, List.drop_left, hcd.size_eq]
  simp only [hedge, List.drop_left, if_neg hlen]
  by_cases hend : below = []
  · subst hend
    rw [if_pos rfl, List.append_nil]
    exact htop.ends hlow
  · rw [if_neg hend]
    have hother : edge.turnsToOne = !below.turnsToOne := by
      by_contra hsame
      have heq : edge.turnsToOne = below.turnsToOne := by simpa using hsame
      exact hpart _ hturns (heq ▸ hbelow.turns hend)
    rw [hother] at hlow ⊢
    exact htop.parts hlow (by simp) hbelow hend

theorem Canonical.addAt (h : Canonical lead offset t) (uri : String) (hrest : rest.Digital)
    (hlead : lead <+: rest) : Canonical lead offset (addAt uri rest offset t) ∧
      Perm (Trie.addAt uri rest offset t).entries ((rest, uri) :: erase t.entries rest) := by
  induction t generalizing lead offset rest with
  | empty =>
    refine ⟨Canonical.leaf hrest hlead, ?_⟩
    rw [Trie.addAt, entries_leaf]
    exact Perm.refl _
  | node held filter one zero ih_one ih_zero =>
    obtain ⟨c, edge, below, hc, hedge, rfl, hpart⟩ :=
      Pattern.commonPrefix_split filter.pattern rest
    by_cases hne : edge ≠ []
    · have hleadc : lead <+: c := hc ▸ Pattern.prefix_commonPrefix_iff.mpr ⟨h.1.leads, hlead⟩
      exact h.addAt_split hc hedge hne hpart hrest hleadc
    · -- the pattern passes the whole edge
      rw [not_not.mp hne, List.append_nil] at hedge
      obtain ⟨hnode, hone, hzero, hboth⟩ := h
      obtain ⟨hcd, hbelow⟩ := Pattern.digital_append.mp hrest
      rw [hedge] at hone hzero
      have hperm {held' : Option String} {one' zero' : Trie}
          (hin : Perm (contents held' one' zero')
            ((below, uri) :: erase (contents held one zero) below)) :
          Perm (node held' filter one' zero').entries
            ((c ++ below, uri) :: erase (node held filter one zero).entries (c ++ below)) := by
        rw [entries_node, entries_node, hedge]
        exact perm_under_cons_erase hin
      simp only [Trie.addAt, hc, List.drop_left, hcd.size_eq]
      rw [if_pos (congrArg List.length hedge.symm)]
      by_cases hend : below = []
      · subst hend
        rw [if_pos rfl]
        refine ⟨⟨hnode, hedge ▸ hone, hedge ▸ hzero, by simp⟩, hperm ?_⟩
        rw [erase_contents_nil hone.leads hzero.leads]
        exact Perm.refl _
      · rw [if_neg hend]
        cases hturn : below.turnsToOne with
        | true =>
          have hlead1 := hturn ▸ hbelow.turns hend
          obtain ⟨hcan, hent⟩ := ih_one hone hbelow hlead1
          rw [if_pos rfl]
          exact ⟨⟨hnode, hedge ▸ hcan, hedge ▸ hzero, fun hnone =>
            ⟨ne_empty_of_perm hent, (hboth hnone).2⟩⟩,
            hperm (perm_contents_one hzero.leads hlead1 hent)⟩
        | false =>
          have hlead0 := hturn ▸ hbelow.turns hend
          obtain ⟨hcan, hent⟩ := ih_zero hzero hbelow hlead0
          rw [if_neg (by simp)]
          exact ⟨⟨hnode, hedge ▸ hone, hedge ▸ hcan, fun hnone =>
            ⟨(hboth hnone).1, ne_empty_of_perm hent⟩⟩,
            hperm (perm_contents_zero hone.leads hlead0 hent)⟩

theorem Edge.merge {d : Char} (hedge : Edge lead offset filter)
    (h : Canonical [d] (offset + filter.pattern.length) t) :
    Canonical lead offset (Trie.merge filter t) ∧
      (Trie.merge filter t).entries = under filter.pattern t.entries := by
  cases t with
  | empty => exact ⟨trivial, rfl⟩
  | node held below one zero =>
    obtain ⟨hbelow, hone, hzero, hboth⟩ := h
    have hdigital := Pattern.digital_append.mpr ⟨hedge.digital, hbelow.digital⟩
    have hleads : lead <+: filter.pattern ++ below.pattern :=
      hedge.leads.trans (List.prefix_append _ _)
    rw [Nat.add_assoc, ← List.length_append] at hone hzero
    rw [Trie.merge, hedge.offset_eq]
    refine ⟨⟨edge_encode hdigital hleads, hone, hzero, hboth⟩, ?_⟩
    rw [entries_node, entries_node, Filter.pattern_encode, under_under]

/-- A node may lose its URI or a branch: what is left of it keeps its entries. -/
theorem Edge.compact (hedge : Edge lead offset filter) (held : Option String)
    (hone : Canonical ['1'] (offset + filter.pattern.length) one)
    (hzero : Canonical ['0'] (offset + filter.pattern.length) zero) :
    Canonical lead offset (Trie.compact (node held filter one zero)) ∧
      (Trie.compact (node held filter one zero)).entries =
        under filter.pattern (contents held one zero) := by
  cases held with
  | some u => exact ⟨⟨hedge, hone, hzero, by simp⟩, rfl⟩
  | none =>
    cases one with
    | empty =>
      obtain ⟨hcan, hent⟩ := hedge.merge hzero
      exact ⟨hcan, hent⟩
    | node =>
      cases zero with
      | empty =>
        obtain ⟨hcan, hent⟩ := hedge.merge hone
        refine ⟨hcan, hent.trans ?_⟩
        simp [contents, entries]
      | node => exact ⟨⟨hedge, hone, hzero, by simp⟩, rfl⟩

/-- What deleting gives: nothing if the entry is not there, and otherwise a trie
of the same shape without it. -/
def Deleted (lead : Pattern) (offset : Nat) (m : Table) (p : Pattern) (uri : String) :
    Option Trie → Prop
  | none => (p, uri) ∉ m
  | some t => (p, uri) ∈ m ∧ Canonical lead offset t ∧ Perm t.entries (erase m p)

theorem Deleted.under_edge {d : Char} {next : Nat} {m n : Table} {result : Option Trie}
    {f : Trie → Trie} (h : Deleted [d] next m q uri result)
    (hmem : (q, uri) ∈ n ↔ (q, uri) ∈ m)
    (hf : ∀ t, Canonical [d] next t → Perm t.entries (erase m q) →
      Canonical lead offset (f t) ∧ Perm (f t).entries (under path (erase n q))) :
    Deleted lead offset (under path n) (path ++ q) uri (result.map f) := by
  cases result with
  | none => exact fun hn => h (hmem.mp (mem_under_append.mp hn))
  | some t =>
    obtain ⟨hin, hcan, hperm⟩ := h
    obtain ⟨hcan', hperm'⟩ := hf t hcan hperm
    exact ⟨mem_under_append.mpr (hmem.mpr hin), hcan', by rwa [erase_under]⟩

/-- A pattern that ends where an edge does leaves the branches of its node. -/
theorem deleted_end (hedge : Edge lead offset filter)
    (hone : Canonical ['1'] (offset + filter.pattern.length) one)
    (hzero : Canonical ['0'] (offset + filter.pattern.length) zero) :
    Deleted lead offset (under filter.pattern (contents held one zero)) (filter.pattern ++ []) uri
      (if held = some uri then some (Trie.compact (node none filter one zero)) else none) := by
  have hmem : ([], uri) ∈ contents held one zero ↔ held = some uri :=
    mem_contents_nil hone.leads hzero.leads
  by_cases hheld : held = some uri
  · rw [if_pos hheld]
    obtain ⟨hcan, hent⟩ := hedge.compact none hone hzero
    refine ⟨mem_under_append.mpr (hmem.mpr hheld), hcan, ?_⟩
    rw [hent, erase_under, erase_contents_nil hone.leads hzero.leads]
  · rw [if_neg hheld]
    intro hin
    exact hheld (hmem.mp (mem_under_append.mp hin))

theorem Canonical.delete? (h : Canonical lead offset t) (path : Pattern) (uri : String)
    (hp : (path ++ rest).Digital) (hpath : path.length = offset) :
    Deleted lead offset t.entries rest uri (delete? (path ++ rest) uri t) := by
  induction t generalizing lead offset path rest with
  | empty => simp [Trie.delete?, Deleted, entries]
  | node held filter one zero ih_one ih_zero =>
    obtain ⟨hedge, hone, hzero, -⟩ := h
    obtain ⟨hpathd, hrest⟩ := Pattern.digital_append.mp hp
    have hdrop : (path ++ rest).dropSize? filter.offset = some rest := by
      rw [hedge.offset_eq, ← hpath, ← hpathd.size_eq]
      exact Pattern.dropSize?_append path rest
    simp only [Trie.delete?, hdrop, Option.bind_eq_bind, Option.bind_some, entries_node]
    by_cases hpre : filter.pattern <+: rest
    · obtain ⟨below, rfl⟩ := hpre
      have hbelow := (Pattern.digital_append.mp hrest).2
      have hnext : (path ++ filter.pattern).length = offset + filter.pattern.length := by
        rw [List.length_append, hpath]
      rw [← List.append_assoc] at hp ⊢
      rw [if_pos (by simp), List.drop_left]
      by_cases hend : below = []
      · subst hend
        rw [if_pos rfl]
        exact deleted_end hedge hone hzero
      · rw [if_neg hend]
        cases hturn : Pattern.turnsToOne below with
        | true =>
          have hlead := hturn ▸ hbelow.turns hend
          rw [if_pos rfl]
          refine (ih_one hone _ hp hnext).under_edge (mem_contents_one hzero.leads hlead)
            ?_
          intro one' hcan hperm
          obtain ⟨hcan', hent⟩ := hedge.compact held hcan hzero
          refine ⟨hcan', ?_⟩
          rw [hent, erase_contents_one hzero.leads hlead]
          exact ((hperm.append_left _).append_right _).map _
        | false =>
          have hlead := hturn ▸ hbelow.turns hend
          rw [if_neg (by simp)]
          refine (ih_zero hzero _ hp hnext).under_edge (mem_contents_zero hone.leads hlead)
            ?_
          intro zero' hcan hperm
          obtain ⟨hcan', hent⟩ := hedge.compact held hone hcan
          refine ⟨hcan', ?_⟩
          rw [hent, erase_contents_zero hone.leads hlead]
          exact (hperm.append_left _).map _
    · rw [if_neg (by simpa using hpre)]
      exact fun hin => hpre (prefix_of_mem_under hin)

end TagFilter.Trie
