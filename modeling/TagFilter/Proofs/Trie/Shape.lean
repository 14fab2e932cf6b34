import TagFilter.Engine.Trie
import TagFilter.Proofs.Table

/-! # The shape of a radix trie

A trie holds an entry for each of its nodes with a URI, under the edges on the
way to it. In a canonical trie the branches of a node begin with the digits that
lead to them and every node without a URI has both, so its entries determine it
completely, whatever the order of the changes that led to it.
-/
namespace TagFilter.Trie
open List (Perm)
open Table

def entries : Trie → Table
  | empty => []
  | node uri filter one zero =>
    under filter.pattern (uri.toList.map (fun u => ([], u)) ++ entries one ++ entries zero)

structure Edge (lead : Pattern) (offset : Nat) (filter : Filter) : Prop where
  encoded : filter = Filter.encode filter.pattern offset
  digital : filter.pattern.Digital
  leads : lead <+: filter.pattern

def Canonical : Pattern → Nat → Trie → Prop
  | _, _, empty => True
  | lead, offset, node uri filter one zero =>
    Edge lead offset filter ∧
      Canonical ['1'] (offset + filter.pattern.length) one ∧
      Canonical ['0'] (offset + filter.pattern.length) zero ∧
      (uri = none → one ≠ empty ∧ zero ≠ empty)

def Branching : Trie → Prop
  | empty => True
  | node uri _ one zero =>
    (uri = none → one ≠ empty ∧ zero ≠ empty) ∧ Branching one ∧ Branching zero

/-- What a node holds after its edge. -/
def contents (uri : Option String) (one zero : Trie) : Table :=
  uri.toList.map (fun u => ([], u)) ++ entries one ++ entries zero

variable {lead : Pattern} {offset : Nat} {t one zero : Trie} {uri : Option String}
  {filter : Filter}

theorem Edge.offset_eq (h : Edge lead offset filter) : filter.offset = offset := by
  rw [h.encoded]
  rfl

theorem edge_encode {p : Pattern} (hp : p.Digital) (hlead : lead <+: p) :
    Edge lead offset (Filter.encode p offset) := ⟨rfl, hp, hlead⟩

theorem Canonical.branching (h : Canonical lead offset t) : Branching t := by
  induction t generalizing lead offset with
  | empty => trivial
  | node uri filter one zero ih_one ih_zero =>
    obtain ⟨-, hone, hzero, hboth⟩ := h
    exact ⟨hboth, ih_one hone, ih_zero hzero⟩

theorem count_eq (t : Trie) : t.count = t.entries.length := by
  induction t with
  | empty => rfl
  | node uri filter one zero ih_one ih_zero =>
    cases uri
    · simp [count, entries, under, ih_one, ih_zero]
    · simp [count, entries, under, ih_one, ih_zero]
      omega

theorem Canonical.leads (h : Canonical lead offset t) : Leads lead t.entries := by
  cases t with
  | empty => simp [entries, Leads]
  | node uri filter one zero => exact Leads.under h.1.leads

theorem Canonical.entries_ne_nil (h : Canonical lead offset t) (hne : t ≠ empty) :
    t.entries ≠ [] := by
  induction t generalizing lead offset with
  | empty => exact absurd rfl hne
  | node uri filter one zero ih_one ih_zero =>
    obtain ⟨-, hone, -, hboth⟩ := h
    cases uri with
    | some u => simp [entries, under]
    | none => simpa [entries, under] using fun hnil => absurd hnil (ih_one hone (hboth rfl).1)

theorem entries_eq_nil_iff (h : Canonical lead offset t) : t.entries = [] ↔ t = empty := by
  constructor
  · intro hnil
    by_contra hne
    exact h.entries_ne_nil hne hnil
  · rintro rfl
    rfl

@[simp] theorem entries_node : (node uri filter one zero).entries =
    under filter.pattern (contents uri one zero) := rfl

theorem contents_by_turn (uri : Option String) (hone : Canonical ['1'] offset one)
    (hzero : Canonical ['0'] offset zero) :
    (contents uri one zero).filter (fun e => ['1'].isPrefixOf e.1) = one.entries ∧
      (contents uri one zero).filter (fun e => ['0'].isPrefixOf e.1) = zero.entries ∧
      (contents uri one zero).filter (fun e => e.1 = []) = uri.toList.map fun u => ([], u) := by
  have keep {c : Char} {m : Table} (h : Leads [c] m) :
      m.filter (fun e => [c].isPrefixOf e.1) = m := by
    rw [List.filter_eq_self]
    intro e he
    exact List.isPrefixOf_iff_prefix.mpr (h e he)
  have lose {c d : Char} {m : Table} (hne : c ≠ d) (h : Leads [d] m) :
      m.filter (fun e => [c].isPrefixOf e.1) = [] := by
    rw [List.filter_eq_nil_iff]
    intro e he hc
    obtain ⟨r, hr⟩ := h e he
    rw [← hr] at hc
    exact hne (by simpa using hc)
  have inner {d : Char} {m : Table} (h : Leads [d] m) : m.filter (fun e => e.1 = []) = [] := by
    rw [List.filter_eq_nil_iff]
    intro e he hnil
    obtain ⟨r, hr⟩ := h e he
    rw [decide_eq_true_eq] at hnil
    rw [hnil] at hr
    exact absurd hr (by simp)
  simp only [contents, List.filter_append]
  refine ⟨?_, ?_, ?_⟩
  · rw [keep hone.leads, lose (by decide) hzero.leads]
    cases uri <;> simp
  · rw [keep hzero.leads, lose (by decide) hone.leads]
    cases uri <;> simp
  · rw [inner hone.leads, inner hzero.leads]
    cases uri <;> simp

/-- The edge of a node is the longest prefix that all its entries share. -/
theorem Canonical.prefix_edge_iff (h : Canonical lead offset (node uri filter one zero))
    {d : Pattern} :
    d <+: filter.pattern ↔ Leads d (node uri filter one zero).entries := by
  obtain ⟨-, hone, hzero, hboth⟩ := h
  refine ⟨fun hd => Leads.under hd, ?_⟩
  intro hd
  cases uri with
  | some u => simpa using hd (filter.pattern ++ [], u) (mem_under_append.mpr (by simp))
  | none =>
    obtain ⟨hne1, hne0⟩ := hboth rfl
    obtain ⟨⟨p, u⟩, hp⟩ := List.exists_mem_of_ne_nil _ (hone.entries_ne_nil hne1)
    obtain ⟨⟨q, v⟩, hq⟩ := List.exists_mem_of_ne_nil _ (hzero.entries_ne_nil hne0)
    have hdp := hd (filter.pattern ++ p, u) (mem_under_append.mpr (by simp [hp]))
    have hdq := hd (filter.pattern ++ q, v) (mem_under_append.mpr (by simp [hq]))
    obtain ⟨p', rfl⟩ := hone.leads _ hp
    obtain ⟨q', rfl⟩ := hzero.leads _ hq
    by_contra hnot
    obtain ⟨d', rfl⟩ : filter.pattern <+: d :=
      (List.prefix_or_prefix_of_prefix hdp (List.prefix_append _ _)).resolve_left hnot
    rw [List.prefix_append_right_inj] at hdp hdq
    cases d' with
    | nil => simp at hnot
    | cons x d' =>
      have hx1 := (List.cons_prefix_cons.mp hdp).1
      have hx0 := (List.cons_prefix_cons.mp hdq).1
      exact absurd (hx1.symm.trans hx0) (by decide)

theorem Canonical.eq_of_perm {t' : Trie} {lead' : Pattern} (h : Canonical lead offset t)
    (h' : Canonical lead' offset t') (hperm : Perm t.entries t'.entries) : t = t' := by
  induction t generalizing t' lead lead' offset with
  | empty =>
    have hnil : t'.entries = [] := hperm.nil_eq.symm
    exact ((entries_eq_nil_iff h').mp hnil).symm
  | node uri filter one zero ih_one ih_zero =>
    cases t' with
    | empty => exact (entries_eq_nil_iff h).mp hperm.eq_nil
    | node uri' filter' one' zero' =>
      have hpattern : filter.pattern = filter'.pattern := by
        have hle : filter.pattern <+: filter'.pattern :=
          h'.prefix_edge_iff.mpr fun e he =>
            h.prefix_edge_iff.mp (List.prefix_refl _) e (hperm.symm.subset he)
        have hge : filter'.pattern <+: filter.pattern :=
          h.prefix_edge_iff.mpr fun e he =>
            h'.prefix_edge_iff.mp (List.prefix_refl _) e (hperm.subset he)
        exact hle.eq_of_length (Nat.le_antisymm hle.length_le hge.length_le)
      obtain ⟨hedge, hone, hzero, -⟩ := h
      obtain ⟨hedge', hone', hzero', -⟩ := h'
      have hfilter : filter = filter' := by
        rw [hedge.encoded, hedge'.encoded, hpattern]
      subst hfilter
      have hinner : Perm (contents uri one zero) (contents uri' one' zero') :=
        perm_of_perm_under hperm
      obtain ⟨h1, h0, hhere⟩ := contents_by_turn uri hone hzero
      obtain ⟨h1', h0', hhere'⟩ := contents_by_turn uri' hone' hzero'
      have hp1 := hinner.filter fun e => ['1'].isPrefixOf e.1
      have hp0 := hinner.filter fun e => ['0'].isPrefixOf e.1
      have hph := hinner.filter fun e => e.1 = []
      rw [h1, h1'] at hp1
      rw [h0, h0'] at hp0
      rw [hhere, hhere'] at hph
      have huri : uri = uri' := by
        cases uri <;> cases uri' <;> simp_all
      rw [huri, ih_one hone hone' hp1, ih_zero hzero hzero' hp0]

/-- The entries after an edge that some bits begin with: what the node itself
reports, and what the branch does that the bits turn to. -/
theorem matching_contents (uri : Option String) (hone : Leads ['1'] one.entries)
    (hzero : Leads ['0'] zero.entries) {bits : Pattern} (bit : Bool)
    (h : [Pattern.digit bit] <+: bits) :
    matching bits (contents uri one zero) = uri.toList.map (fun u => ([], u)) ++
      matching bits (if bit then one else zero).entries := by
  have hhere : matching bits (uri.toList.map fun u => ([], u)) =
      uri.toList.map fun u => ([], u) := by
    cases uri <;> simp [matching]
  have hother : ¬ [Pattern.digit !bit] <+: bits := by
    intro h'
    obtain ⟨r, rfl⟩ := h
    have hsame := (List.cons_prefix_cons.mp h').1
    cases bit <;> exact absurd hsame (by decide)
  rw [contents, matching_append, matching_append, hhere]
  cases bit with
  | true => rw [hzero.matching_eq_nil hother, List.append_nil]; rfl
  | false => rw [hone.matching_eq_nil hother, List.append_nil]; rfl

theorem matching_contents_end (uri : Option String) (hone : Leads ['1'] one.entries)
    (hzero : Leads ['0'] zero.entries) {bits : Pattern}
    (h : ∀ bit, ¬ [Pattern.digit bit] <+: bits) :
    matching bits (contents uri one zero) = uri.toList.map fun u => ([], u) := by
  rw [contents, matching_append, matching_append, hone.matching_eq_nil (h true),
    hzero.matching_eq_nil (h false), List.append_nil, List.append_nil]
  cases uri <;> simp [matching]

/-- What a node itself reports is shorter than what its branches do. -/
theorem contents_lengths (uri : Option String) {c : Char} {m : Table} (bits : Pattern)
    (hm : Leads [c] m) (hlen : (matching bits m).Pairwise fun a b => a.1.length < b.1.length) :
    (uri.toList.map (fun u => (([] : Pattern), u)) ++ matching bits m).Pairwise
      fun a b => a.1.length < b.1.length := by
  refine List.pairwise_append.mpr ⟨by cases uri <;> simp, hlen, ?_⟩
  intro a ha b hb
  obtain ⟨u, -, rfl⟩ := List.mem_map.mp ha
  exact Nat.lt_of_lt_of_le Nat.zero_lt_one (hm b (mem_matching.mp hb).1).length_le

theorem Edge.accepts_iff (h : Edge lead offset filter) (id : Identifier)
    (hoffset : offset ≤ id.bits.length) :
    filter.accepts id = true ↔ filter.pattern <+: id.bits.drop offset := by
  rw [h.encoded, Filter.accepts_iff_isPrefix h.digital hoffset, Filter.pattern_encode]

/-- A search goes on from a node of a built trie where its edge ends, without wrapping. -/
theorem Edge.endIn_eq (h : Edge lead offset filter) {id : Identifier}
    (haccepts : filter.accepts id = true) :
    filter.endIn id = offset + filter.pattern.length := by
  rw [h.encoded] at haccepts
  rw [h.encoded, Filter.endIn_encode_of_accepts haccepts, Filter.pattern_encode, h.digital.size_eq]

/-- A search follows the bits of the identifier to all entries it begins with. -/
theorem Canonical.search_eq (h : Canonical lead offset t) (id : Identifier)
    (hoffset : offset ≤ id.bits.length) :
    t.search id = (matching (id.bits.drop offset) t.entries).map (·.2) ∧
      (matching (id.bits.drop offset) t.entries).Pairwise fun a b => a.1.length < b.1.length := by
  induction t generalizing lead offset with
  | empty => exact ⟨rfl, List.Pairwise.nil⟩
  | node uri filter one zero ih_one ih_zero =>
    obtain ⟨hedge, hone, hzero, -⟩ := h
    rw [entries_node, search]
    by_cases hpre : filter.pattern <+: id.bits.drop offset
    · have hnext : offset + filter.pattern.length ≤ id.bits.length := by
        have hle := hpre.length_le
        rw [List.length_drop] at hle
        omega
      have hturn := Identifier.bitAt_eq_some_iff id (offset + filter.pattern.length)
      obtain ⟨hs1, hl1⟩ := ih_one hone hnext
      obtain ⟨hs0, hl0⟩ := ih_zero hzero hnext
      have haccepts := (hedge.accepts_iff id hoffset).mpr hpre
      rw [if_pos haccepts, hedge.endIn_eq haccepts, matching_under _ hpre, List.drop_drop]
      cases hbit : id.bitAt (offset + filter.pattern.length) with
      | none =>
        have hend : ∀ bit, ¬ [Pattern.digit bit] <+:
            id.bits.drop (offset + filter.pattern.length) := fun bit hpos => by
          simp [(hturn bit).mpr hpos] at hbit
        rw [matching_contents_end uri hone.leads hzero.leads hend]
        exact ⟨by cases uri <;> simp [under], under_lengths (by cases uri <;> simp)⟩
      | some bit =>
        rw [matching_contents uri hone.leads hzero.leads bit ((hturn bit).mp hbit)]
        cases bit with
        | true =>
          refine ⟨?_, under_lengths (contents_lengths uri _ hone.leads hl1)⟩
          cases uri <;> simp [under, hs1]
        | false =>
          refine ⟨?_, under_lengths (contents_lengths uri _ hzero.leads hl0)⟩
          cases uri <;> simp [under, hs0]
    · rw [if_neg (fun hacc => hpre ((hedge.accepts_iff id hoffset).mp hacc)),
        matching_under_of_not_isPrefix hpre]
      exact ⟨rfl, List.Pairwise.nil⟩

end TagFilter.Trie
