import TagFilter.Proofs.CommonPrefix
import TagFilter.Proofs.Symbols

/-! # Composite and residues

The composite of several filters asks for a bit exactly if all of them ask for it alike, and
takes a byte off a filter only where it asks the same of all eight bits. So a filter accepts
what its composite and its residue accept.
-/
namespace TagFilter

/-- What all of several filters ask of one bit. -/
def Symbol.common (symbols : List Symbol) : Symbol :=
  if ∀ s ∈ symbols, s = .zero then .zero else if ∀ s ∈ symbols, s = .one then .one else .any

theorem Symbol.common_of_mem {symbols : List Symbol} {s : Symbol} (h : s ∈ symbols) :
    common symbols = .any ∨ common symbols = s := by
  unfold common
  split
  · rename_i hzero
    exact .inr (hzero s h).symm
  · split
    · rename_i hone
      exact .inr (hone s h).symm
    · exact .inl rfl

theorem Symbol.common_of_alike {symbols : List Symbol} {first : Symbol} (h : first ∈ symbols)
    (halike : ∀ s ∈ symbols, s = first) : common symbols = first := by
  have hall (t : Symbol) : (∀ s ∈ symbols, s = t) ↔ first = t :=
    ⟨fun ht => ht first h, fun ht s hs => (halike s hs).trans ht⟩
  simp only [common, hall]
  cases first <;> rfl

theorem Symbol.common_of_differ {symbols : List Symbol} {first s : Symbol} (h : first ∈ symbols)
    (hs : s ∈ symbols) (hdiffer : s = .any ∨ (first = .zero ↔ s ≠ .zero)) :
    common symbols = .any := by
  have hzero : ¬ ∀ s ∈ symbols, s = .zero := fun hall => by
    simp [hall s hs, hall first h] at hdiffer
  have hone : ¬ ∀ s ∈ symbols, s = .one := fun hall => by
    simp [hall s hs, hall first h] at hdiffer
  rw [common, if_neg hzero, if_neg hone]

/-- A symbol that differs from the first stands for any two that differ. -/
theorem Symbol.ofBits_common {symbols : List Symbol} {first : Symbol} (h : first ∈ symbols) :
    ofBits (symbols.any (fun s => s = .any) ||
        symbols.any fun s => decide (first ≠ .zero) ^^ decide (s ≠ .zero))
      (symbols.any fun s => s ≠ .zero) = common symbols := by
  have hmasked : (symbols.any (fun s => s = .any) ||
      symbols.any fun s => decide (first ≠ .zero) ^^ decide (s ≠ .zero)) = true ↔
        ∃ s ∈ symbols, s = .any ∨ (first = .zero ↔ s ≠ .zero) := by
    simp only [Bool.or_eq_true, List.any_eq_true, ← exists_or, ← and_or_left]
    refine exists_congr fun s => and_congr_right fun _ => ?_
    cases first <;> cases s <;> decide
  simp only [ofBits, hmasked]
  split
  · rename_i hdiffer
    obtain ⟨s, hs, hdiffer⟩ := hdiffer
    exact (common_of_differ h hs hdiffer).symm
  · rename_i hsame
    have hnot (s : Symbol) (hs : s ∈ symbols) : ¬ (s = .any ∨ (first = .zero ↔ s ≠ .zero)) :=
      fun hdiffer => hsame ⟨s, hs, hdiffer⟩
    have hfirst := hnot first h
    have halike : ∀ s ∈ symbols, s = first := by
      intro s hs
      have hthis := hnot s hs
      cases first <;> cases s <;> simp_all
    have hvalue : (symbols.any fun s => s ≠ .zero) = decide (first ≠ .zero) := by
      rw [Bool.eq_iff_iff, List.any_eq_true, decide_eq_true_eq]
      exact ⟨fun ⟨s, hs, hne⟩ => halike s hs ▸ of_decide_eq_true hne,
        fun hne => ⟨first, h, decide_eq_true hne⟩⟩
    rw [common_of_alike h halike, hvalue]
    cases first with
    | zero | one => rfl
    | any => exact absurd (.inl rfl) hfirst

namespace Composition
open TagFilter.Filter

variable {filters : List Filter} {first f composite : Filter} {index position : Nat}
  {id : Identifier} {c : Composition}

def shared (filters : List Filter) (position : Nat) : Symbol :=
  Symbol.common (filters.map fun f => f.asks position)

theorem bytesAt_eq (h : f.Encoded) (hcovers : f.covers index = true) :
    bytesAt f index = byteOf f.asks index := by
  rw [bytesAt, h.byteAt?_eq, if_pos hcovers, Option.getD_some]

theorem testBit_foldl_or {byte : Filter → UInt8} {bit : Filter → Bool} {i : Nat}
    (h : ∀ f ∈ filters, (byte f).toNat.testBit i = bit f) :
    (filters.foldl (fun bits f => bits ||| byte f) 0).toNat.testBit i = filters.any bit := by
  have hfrom (start : UInt8) :
      (filters.foldl (fun bits f => bits ||| byte f) start).toNat.testBit i =
        (start.toNat.testBit i || filters.any bit) := by
    induction filters generalizing start with
    | nil => exact (Bool.or_false _).symm
    | cons f filters ih =>
      obtain ⟨hf, hfilters⟩ := List.forall_mem_cons.mp h
      rw [List.foldl_cons, ih hfilters, UInt8.toNat_or, Nat.testBit_or, hf, List.any_cons,
        Bool.or_assoc]
  rw [hfrom, UInt8.toNat_zero, Nat.zero_testBit, Bool.false_or]

theorem spells_sharedByte (hfilters : ∀ f ∈ filters, f.Encoded) (hfirst : first ∈ filters)
    (hcovers : ∀ f ∈ filters, f.covers index = true) :
    Spells (shared filters) index 1 (bytePattern (sharedByte first filters index).1
      (sharedByte first filters index).2) := by
  rw [Spells, symbols_bytePattern]
  refine List.map_congr_left fun j hj => ?_
  have hj8 : j < 8 := List.mem_range.mp hj
  have hbytes : ∀ f ∈ filters, bytesAt f index = byteOf f.asks index := fun f hf =>
    bytesAt_eq (hfilters f hf) (hcovers f hf)
  have hvalue : ∀ f ∈ filters, (bytesAt f index).1.toNat.testBit (7 - j) =
      decide (f.asks (8 * index + j) ≠ .zero) := by
    intro f hf
    rw [hbytes f hf, byteOf, testBit_packByte _ hj8]
  have hmask : ∀ f ∈ filters, (bytesAt f index).2.toNat.testBit (7 - j) =
      decide (f.asks (8 * index + j) = .any) := by
    intro f hf
    rw [hbytes f hf, byteOf, testBit_packByte _ hj8]
  have hdiffer : ∀ f ∈ filters,
      ((bytesAt first index).1 ^^^ (bytesAt f index).1).toNat.testBit (7 - j) =
        (decide (first.asks (8 * index + j) ≠ .zero) ^^ decide (f.asks (8 * index + j) ≠ .zero)) := by
    intro f hf
    rw [UInt8.toNat_xor, Nat.testBit_xor, hvalue first hfirst, hvalue f hf]
  have hcommon := Symbol.ofBits_common
    (List.mem_map_of_mem (f := fun f => f.asks (8 * index + j)) hfirst)
  rw [List.any_map, List.any_map, List.any_map] at hcommon
  rw [sharedByte, UInt8.toNat_or, Nat.testBit_or, testBit_foldl_or hvalue, testBit_foldl_or hmask,
    testBit_foldl_or hdiffer]
  exact hcommon

/-- The bytes that all filters touch: from the last of the first bytes to the first of the
ends. -/
structure Overlap (filters : List Filter) (head tail : Nat) : Prop where
  head_mem : ∃ f ∈ filters, f.firstByte = head
  le_head : ∀ f ∈ filters, f.firstByte ≤ head
  tail_mem : ∃ f ∈ filters, f.byteEnd = tail
  tail_le : ∀ f ∈ filters, tail ≤ f.byteEnd

theorem overlap_of_mem (hfirst : first ∈ filters) :
    Overlap filters (head first filters) (tail first filters) := by
  have hin {bound : Filter → Nat} {n : Nat} (h : n ∈ bound first :: filters.map bound) :
      ∃ f ∈ filters, bound f = n := by
    rcases List.mem_cons.mp h with rfl | h
    · exact ⟨first, hfirst, rfl⟩
    · exact List.mem_map.mp h
  obtain ⟨hhead, hle⟩ := Pattern.foldl_below (fun a b : Nat => a ≥ b) max
    (fun a b => by omega) (fun a b => le_max_left a b) (fun a b => le_max_right a b)
    (filters.map Filter.firstByte) first.firstByte
  obtain ⟨htail, hge⟩ := Pattern.foldl_below (fun a b : Nat => a ≤ b) min
    (fun a b => by omega) (fun a b => min_le_left a b) (fun a b => min_le_right a b)
    (filters.map Filter.byteEnd) first.byteEnd
  exact ⟨hin hhead, fun f hf => hle _ (List.mem_cons_of_mem _ (List.mem_map_of_mem hf)),
    hin htail, fun f hf => hge _ (List.mem_cons_of_mem _ (List.mem_map_of_mem hf))⟩

theorem head_le_iff (hfirst : first ∈ filters) :
    head first filters ≤ index ↔ ∀ f ∈ filters, f.firstByte ≤ index := by
  obtain ⟨⟨f, hf, heq⟩, hle, -, -⟩ := overlap_of_mem hfirst
  exact ⟨fun h g hg => (hle g hg).trans h, fun h => heq ▸ h f hf⟩

theorem lt_tail_iff (hfirst : first ∈ filters) :
    index < tail first filters ↔ ∀ f ∈ filters, index < f.byteEnd := by
  obtain ⟨-, -, ⟨f, hf, heq⟩, hge⟩ := overlap_of_mem hfirst
  exact ⟨fun h g hg => h.trans_le (hge g hg), fun h => heq ▸ h f hf⟩

theorem covered_iff (hfirst : first ∈ filters) :
    head first filters ≤ index ∧ index < tail first filters ↔
      ∀ f ∈ filters, f.covers index = true := by
  rw [head_le_iff hfirst, lt_tail_iff hfirst]
  simp only [mem_covers, forall_and]

def compositeOf (first : Filter) (filters : List Filter) : Filter :=
  encode ((List.range (tail first filters - head first filters)).flatMap fun i =>
    bytePattern (sharedByte first filters (head first filters + i)).1
      (sharedByte first filters (head first filters + i)).2) (8 * head first filters)

theorem compose_cons (first : Filter) (rest : List Filter) :
    compose (first :: rest) =
      if tail first (first :: rest) ≤ head first (first :: rest) then
        .error (.noOverlap (head first (first :: rest)) (tail first (first :: rest)))
      else .ok ⟨compositeOf first (first :: rest), OrderedMap.ofList ((first :: rest).map fun f =>
        (f.pattern, residueOf (compositeOf first (first :: rest)) f))⟩ := rfl

/-- There is a composite exactly for filters that have a byte in common. -/
theorem exists_compose_iff (filters : List Filter) :
    (∃ c, compose filters = .ok c) ↔
      filters ≠ [] ∧ ∃ index, ∀ f ∈ filters, f.covers index = true := by
  cases filters with
  | nil => simp [compose]
  | cons first rest =>
    have hoverlap : ¬ tail first (first :: rest) ≤ head first (first :: rest) ↔
        ∃ index, ∀ f ∈ first :: rest, f.covers index = true := by
      simp only [← covered_iff (List.mem_cons_self : first ∈ first :: rest)]
      exact ⟨fun h => ⟨_, Nat.le_refl _, Nat.lt_of_not_le h⟩, fun ⟨_, hlo, hhi⟩ => by omega⟩
    rw [compose_cons, ← hoverlap]
    split
    · rename_i hle
      simp [hle]
    · rename_i hlt
      simp [hlt]

theorem spells_compositeOf (hfilters : ∀ f ∈ filters, f.Encoded) (hfirst : first ∈ filters) :
    Spells (shared filters) (head first filters) (tail first filters - head first filters)
      (compositeOf first filters).pattern := by
  refine spells_flatMap fun i hi => spells_sharedByte hfilters hfirst ?_
  rw [← covered_iff hfirst]
  omega

theorem covers_compositeOf (hfilters : ∀ f ∈ filters, f.Encoded) (hfirst : first ∈ filters) :
    (compositeOf first filters).covers index = true ↔ ∀ f ∈ filters, f.covers index = true := by
  rw [← covered_iff hfirst]
  refine (spells_compositeOf hfilters hfirst).covers_iff.trans ?_
  omega

theorem asks_compositeOf (hfilters : ∀ f ∈ filters, f.Encoded) (hfirst : first ∈ filters) :
    (compositeOf first filters).asks position = shared filters position := by
  refine congrFun ((spells_compositeOf hfilters hfirst).asks_encode fun position hcovers => ?_)
    position
  -- Here one of the filters asks nothing, and so do all of them together.
  have hopen : ∃ f ∈ filters, f.asks position = .any := by
    have hsome := mt (covers_compositeOf hfilters hfirst).mpr (Bool.not_eq_true _ ▸ hcovers)
    push Not at hsome
    obtain ⟨f, hf, hnot⟩ := hsome
    exact ⟨f, hf, (hfilters f hf).asks_of_not_covers (Bool.not_eq_true _ ▸ hnot)⟩
  obtain ⟨f, hf, hany⟩ := hopen
  have hshared := Symbol.common_of_mem (List.mem_map_of_mem (f := fun f => f.asks position) hf)
  rwa [hany, or_self] at hshared

/-- What a composition has to do with the filters it is made of. -/
structure Factors (filters : List Filter) (c : Composition) : Prop where
  encoded : c.composite.Encoded
  byteEnd_le : ∀ f ∈ filters, c.composite.byteEnd ≤ f.byteEnd
  asks_eq : ∀ position, c.composite.asks position = shared filters position
  residues_eq : c.residues =
    OrderedMap.ofList (filters.map fun f => (f.pattern, residueOf c.composite f))

theorem compose_factors (hfilters : ∀ f ∈ filters, f.Encoded) (h : compose filters = .ok c) :
    Factors filters c := by
  cases filters with
  | nil => simp [compose] at h
  | cons first rest =>
    have hfirst : first ∈ first :: rest := List.mem_cons_self
    rw [compose_cons] at h
    split at h
    · simp at h
    · rename_i hlt
      obtain rfl := Except.ok.inj h
      refine ⟨encoded_encode _ _, ?_, fun position => asks_compositeOf hfilters hfirst, rfl⟩
      have hend : (compositeOf first (first :: rest)).byteEnd = tail first (first :: rest) := by
        refine (spells_compositeOf hfilters hfirst).byteEnd_eq.trans ?_
        omega
      intro f hf
      have hbefore : tail first (first :: rest) - 1 < tail first (first :: rest) := by omega
      have hlast := (lt_tail_iff hfirst).mp hbefore f hf
      rw [hend]
      omega

/-- What a composite leaves a filter to ask. -/
def left (composite f : Filter) (position : Nat) : Symbol :=
  if composite.byteAt? (position / 8) = some (byteOf f.asks (position / 8)) then .any
  else f.asks position

theorem spells_residueOf (h : f.Encoded) (composite : Filter) :
    Spells (left composite f) f.firstByte f.byteSize (residueOf composite f).pattern := by
  refine spells_flatMap fun i hi => ?_
  have hcovers : f.covers (f.firstByte + i) = true :=
    mem_covers.mpr ⟨Nat.le_add_right _ _, Nat.add_lt_add_left hi _⟩
  have hleft (k : Nat) (hk : k < 8) : left composite f (8 * (f.firstByte + i) + k) =
      if composite.byteAt? (f.firstByte + i) = some (byteOf f.asks (f.firstByte + i)) then .any
      else f.asks (8 * (f.firstByte + i) + k) := by
    have hbyte : (8 * (f.firstByte + i) + k) / 8 = f.firstByte + i := by omega
    rw [left, hbyte]
  simp only [bytesAt_eq h hcovers]
  split
  · rename_i hsame
    refine (spells_open (f.firstByte + i)).trans (List.map_congr_left fun k hk => ?_)
    rw [hleft k (List.mem_range.mp hk), if_pos hsame]
  · rename_i hdiffers
    refine (spells_bytePattern f.asks (f.firstByte + i)).trans (List.map_congr_left fun k hk => ?_)
    rw [hleft k (List.mem_range.mp hk), if_neg hdiffers]

theorem byteEnd_residueOf (h : f.Encoded) (composite : Filter) :
    (residueOf composite f).byteEnd = f.byteEnd := (spells_residueOf h composite).byteEnd_eq

theorem asks_residueOf (h : f.Encoded) (composite : Filter) :
    (residueOf composite f).asks position = left composite f position := by
  have hspells := spells_residueOf h composite
  refine congrFun (hspells.asks_encode fun position hcovers => ?_) position
  rw [hspells.covers_eq] at hcovers
  rw [left, h.asks_of_not_covers hcovers, ite_self]

/-- A composite that asks nothing beyond what a filter asks can be taken off it. -/
theorem accepts_eq_and (hcomposite : composite.Encoded) (h : f.Encoded)
    (hend : composite.byteEnd ≤ f.byteEnd)
    (hasks : ∀ position, composite.asks position = .any ∨
      composite.asks position = f.asks position) (id : Identifier) :
    f.accepts id = (composite.accepts id && (residueOf composite f).accepts id) := by
  have hresidue : (residueOf composite f).Encoded := encoded_encode _ _
  rw [Bool.eq_iff_iff, Bool.and_eq_true, h.accepts_iff, hcomposite.accepts_iff,
    hresidue.accepts_iff, byteEnd_residueOf h]
  simp only [asks_residueOf h]
  constructor
  · rintro ⟨hlength, hall⟩
    refine ⟨⟨hend.trans hlength, ?_⟩, hlength, ?_⟩
    · intro position bit hbit
      rcases hasks position with hany | hsame
      · rw [hany]
        rfl
      · rw [hsame]
        exact hall position bit hbit
    · intro position bit hbit
      rw [left]
      split
      · rfl
      · exact hall position bit hbit
  · rintro ⟨⟨-, hcomp⟩, hlength, hrest⟩
    refine ⟨hlength, ?_⟩
    intro position bit hbit
    have hthis := hrest position bit hbit
    rw [left] at hthis
    split at hthis
    · -- The residue leaves the byte open because the composite has the same one.
      rename_i hsame
      have hbyte : byteOf composite.asks (position / 8) = byteOf f.asks (position / 8) := by
        rw [hcomposite.byteAt?_eq] at hsame
        split at hsame
        · exact Option.some.inj hsame
        · simp at hsame
      rw [← symbol_eq_of_byteOf hbyte]
      exact hcomp position bit hbit
    · exact hthis

theorem Factors.accepts_eq (hc : Factors filters c) (hfilters : ∀ f ∈ filters, f.Encoded)
    (hf : f ∈ filters) (id : Identifier) :
    f.accepts id = (c.composite.accepts id && (residueOf c.composite f).accepts id) := by
  refine accepts_eq_and hc.encoded (hfilters f hf) (hc.byteEnd_le f hf) (fun position => ?_) id
  rw [hc.asks_eq]
  exact Symbol.common_of_mem (List.mem_map_of_mem (f := fun f => f.asks position) hf)

/-- Filters with a byte in common have a composition, and it answers for the pattern of each
of them as the filter does, if the same pattern does not come at another offset later. For other
patterns it has no answer. -/
theorem matching_preserved (filters : List Filter) (hfilters : ∀ f ∈ filters, f.Encoded) :
    ((∃ c, compose filters = .ok c) ↔
      filters ≠ [] ∧ ∃ index, ∀ f ∈ filters, f.covers index = true) ∧
    ∀ c, compose filters = .ok c →
      (∀ before f after, filters = before ++ f :: after →
        (∀ g ∈ after, g.pattern = f.pattern → g.offset = f.offset) →
        ∀ id, c.accepts? f.pattern id = some (f.accepts id)) ∧
      ∀ p id, c.accepts? p id = none ↔ ∀ f ∈ filters, f.pattern ≠ p := by
  refine ⟨exists_compose_iff filters, fun c hc => ?_⟩
  have hfactors := compose_factors hfilters hc
  constructor
  · rintro before f after rfl hlater id
    have hlast : ∀ g ∈ after, g.pattern = f.pattern → g = f := by
      intro g hg hpattern
      rw [← hfilters g (by simp [hg]), ← hfilters f (by simp), hpattern, hlater g hg hpattern]
    have hresidue : c.residue? f.pattern = some (residueOf c.composite f) := by
      rw [residue?, hfactors.residues_eq, List.map_append, List.map_cons]
      refine OrderedMap.get?_ofList fun entry hentry hkey => ?_
      obtain ⟨g, hg, rfl⟩ := List.mem_map.mp hentry
      rw [hlast g hg hkey]
    have hf : f ∈ before ++ f :: after := by simp
    rw [accepts?, hresidue, Option.map_some, ← hfactors.accepts_eq hfilters hf]
  · intro p id
    rw [accepts?, Option.map_eq_none_iff, residue?, hfactors.residues_eq,
      OrderedMap.get?_ofList_eq_none_iff, List.map_map, List.mem_map]
    simp

/-- Filters that start in different bytes and at different bits, with a pattern that comes twice. -/
def sampleFilters : List Filter :=
  [encode ['0', '0', '1', '1'] 0, encode ['x', '1', '1', '0', '0', '0', '0', '0', '1'] 1,
    encode ['0', '0', '1', '1'] 0]

theorem matching_preserved_sample : ∃ c, compose sampleFilters = .ok c ∧
    c.accepts? ['0', '0', '1', '1'] [0x3F] = some true ∧
      c.accepts? ['x', '1', '1', '0', '0', '0', '0', '0', '1'] [0x30, 0xFF] = some false ∧
      c.accepts? ['0'] [0x30] = none := by
  have hencoded : ∀ f ∈ sampleFilters, f.Encoded := by decide
  obtain ⟨hexists, hmatch⟩ := matching_preserved sampleFilters hencoded
  obtain ⟨c, hc⟩ := hexists.mpr ⟨by decide, 0, by decide⟩
  obtain ⟨hsome, hnone⟩ := hmatch c hc
  have hfirst := hsome [] _ _ rfl (by decide) [0x3F]
  have hsecond := hsome [encode ['0', '0', '1', '1'] 0] _ _ rfl (by decide) [0x30, 0xFF]
  exact ⟨c, hc, hfirst.trans (by decide), hsecond.trans (by decide),
    (hnone ['0'] [0x30]).mpr (by decide)⟩

end Composition
end TagFilter
