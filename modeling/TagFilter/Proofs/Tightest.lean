import TagFilter.Proofs.Bitwise
import TagFilter.Proofs.Factoring

/-! # The tightest common filter

The composite of several filters stands over the bytes that all of them touch, and fixes a
bit exactly if they all fix it alike. So it does not depend on their order, and neither do
the residues if each pattern stands at one place only.
-/
namespace TagFilter
open List (Perm)
open Pattern

namespace OrderedMap

variable {ν : Type} {p q k : Pattern} {u v w : ν} {m : OrderedMap Pattern ν}

theorem insert_before (h : p < k) : insert p u ((k, w) :: m) = (p, u) :: (k, w) :: m := by
  rw [insert, alter, if_pos h]

theorem insert_same : insert p u ((p, w) :: m) = (p, u) :: m := by
  rw [insert, alter, if_neg (lt_irrefl p), if_pos rfl]

theorem insert_after (h : k < p) : insert p u ((k, w) :: m) = (k, w) :: insert p u m := by
  rw [insert, alter, if_neg (lt_asymm h), if_neg (ne_of_gt h), ← insert]

theorem insert_comm_of_lt (h : p < q) (m : OrderedMap Pattern ν) :
    insert p u (insert q v m) = insert q v (insert p u m) := by
  induction m with
  | nil =>
    have hbefore : insert p u [(q, v)] = [(p, u), (q, v)] := insert_before h
    have hafter : insert q v [(p, u)] = [(p, u), (q, v)] := insert_after h
    exact hbefore.trans hafter.symm
  | cons e m ih =>
    obtain ⟨k, w⟩ := e
    rcases lt_trichotomy p k with hp | rfl | hp
    · rw [insert_before hp, insert_after h]
      rcases lt_trichotomy q k with hq | rfl | hq
      · rw [insert_before hq, insert_before h]
      · rw [insert_same, insert_before h]
      · rw [insert_after hq, insert_before hp]
    · rw [insert_after h, insert_same, insert_same, insert_after h]
    · rw [insert_after (hp.trans h), insert_after hp, insert_after hp,
        insert_after (hp.trans h), ih]

theorem insert_comm (h : p = q → u = v) (m : OrderedMap Pattern ν) :
    insert p u (insert q v m) = insert q v (insert p u m) := by
  rcases lt_trichotomy p q with hlt | heq | hgt
  · exact insert_comm_of_lt hlt m
  · rw [heq, h heq]
  · exact (insert_comm_of_lt hgt m).symm

/-- Where a key has one value only, the order in which entries are written does not matter. -/
theorem ofList_perm {entries entries' : List (Pattern × ν)} (hperm : Perm entries entries')
    (hsame : ∀ e ∈ entries, ∀ f ∈ entries, e.1 = f.1 → e.2 = f.2) :
    ofList entries = ofList entries' :=
  hperm.foldl_eq' (fun e he f hf m => insert_comm (hsame f hf e he) m) []

end OrderedMap

namespace Symbol

variable {symbols : List Symbol} {s : Symbol} {bit : Bool}

/-- The character that a composite has for a symbol. -/
def letter : Symbol → Char
  | zero => '0'
  | one => '1'
  | any => 'x'

theorem letter_eq_digit_iff : s.letter.toUInt8 = (digit bit).toUInt8 ↔ s = ofBit bit := by
  cases s <;> cases bit <;> decide

theorem common_eq_ofBit_iff (hne : symbols ≠ []) :
    common symbols = ofBit bit ↔ ∀ s ∈ symbols, s = ofBit bit := by
  obtain ⟨first, hfirst⟩ := List.exists_mem_of_ne_nil symbols hne
  constructor
  · intro h s hs
    rcases common_of_mem hs with hany | hsame
    · cases bit <;> cases h.symm.trans hany
    · exact hsame.symm.trans h
  · intro h
    have hbit := h first hfirst
    exact common_of_alike (hbit ▸ hfirst) h

theorem common_perm {symbols' : List Symbol} (h : Perm symbols symbols') :
    common symbols = common symbols' := by
  simp only [common, h.mem_iff]

end Symbol

namespace Pattern

variable {p : Pattern}

theorem eq_letters (hp : ∀ c ∈ p, isAllowed true c = true) :
    p = p.symbols.map Symbol.letter := by
  induction p with
  | nil => rfl
  | cons c p ih =>
    obtain ⟨hfirst, hrest⟩ := List.forall_mem_cons.mp hp
    have hc : (symbolsOf c).map Symbol.letter = [c] := by
      simp only [isAllowed, Bool.or_eq_true, Bool.true_and, decide_eq_true_eq] at hfirst
      rcases hfirst with (rfl | rfl) | rfl <;> rfl
    rw [symbols, List.flatMap_cons, List.map_append, hc, ← symbols, ← ih hrest]
    rfl

theorem bytes_letters (symbols : List Symbol) :
    bytes (symbols.map Symbol.letter) = symbols.map fun s => s.letter.toUInt8 := by
  have hletter (s : Symbol) : String.utf8EncodeChar s.letter = [s.letter.toUInt8] := by
    cases s <;> rfl
  simp only [bytes_eq, List.flatMap_map, hletter]
  exact List.map_eq_flatMap.symm

end Pattern

namespace Filter

/-- The byte of the pattern that stands over a bit. -/
def written (f : Filter) (position : Nat) : Option UInt8 :=
  if position < f.offset then none else f.pattern.bytes[position - f.offset]?

theorem asks_eq_ofBit_iff {f : Filter} {position : Nat} {bit : Bool} :
    f.asks position = .ofBit bit ↔ f.written position = some (digit bit).toUInt8 := by
  have hany : Symbol.any ≠ .ofBit bit := by cases bit <;> decide
  unfold asks symbolAt written
  split
  · simp [hany]
  · rw [← getElem?_symbols_iff]
    cases f.pattern.symbols[position - f.offset]? with
    | none => simp [hany]
    | some s => simp

theorem Spells.eq_letters {symbol : Nat → Symbol} {index count : Nat} {p : Pattern}
    (h : Spells symbol index count p) (hallowed : ∀ c ∈ p, isAllowed true c = true) :
    p = ((List.range (8 * count)).map fun k => symbol (8 * index + k)).map Symbol.letter := by
  rw [Spells] at h
  rw [← h]
  exact Pattern.eq_letters hallowed

end Filter

namespace Composition
open TagFilter.Filter

variable {filters filters' : List Filter} {first first' : Filter} {position : Nat}
  {bit : Bool}

theorem shared_eq_ofBit_iff (hne : filters ≠ []) : shared filters position = .ofBit bit ↔
    ∀ f ∈ filters, f.written position = some (digit bit).toUInt8 := by
  rw [shared, Symbol.common_eq_ofBit_iff (by simpa using hne), List.forall_mem_map]
  exact forall₂_congr fun _ _ => asks_eq_ofBit_iff

theorem shared_perm (h : Perm filters filters') (position : Nat) :
    shared filters position = shared filters' position :=
  Symbol.common_perm (h.map _)

theorem isAllowed_flatMap {α : Type} (blocks : List α) (value mask : α → UInt8) :
    ∀ c ∈ blocks.flatMap fun a => bytePattern (value a) (mask a), isAllowed true c = true := by
  intro c hc
  obtain ⟨a, -, hc⟩ := List.mem_flatMap.mp hc
  obtain ⟨i, -, rfl⟩ := List.mem_map.mp hc
  split
  · rfl
  · split <;> rfl

/-- The composite has a character for each bit of the overlap. -/
theorem pattern_compositeOf (hfilters : ∀ f ∈ filters, f.Encoded) (hfirst : first ∈ filters) :
    (compositeOf first filters).pattern =
      ((List.range (8 * (tail first filters - head first filters))).map fun k =>
        shared filters (8 * head first filters + k)).map Symbol.letter :=
  (spells_compositeOf hfilters hfirst).eq_letters (isAllowed_flatMap _ _ _)

theorem written_compositeOf (hfilters : ∀ f ∈ filters, f.Encoded) (hfirst : first ∈ filters)
    (hlo : 8 * head first filters ≤ position) (hhi : position < 8 * tail first filters) :
    (compositeOf first filters).written position =
      some (shared filters position).letter.toUInt8 := by
  have hoffset : (compositeOf first filters).offset = 8 * head first filters := rfl
  have hin : position - 8 * head first filters <
      8 * (tail first filters - head first filters) := by omega
  rw [written, hoffset, if_neg (Nat.not_lt.mpr hlo), pattern_compositeOf hfilters hfirst,
    bytes_letters, List.getElem?_map, List.getElem?_map, List.getElem?_range hin,
    Option.map_some, Option.map_some, Nat.add_sub_cancel' hlo]

/-- The filter over an overlap that asks for what all filters ask for alike, and for nothing
else. -/
structure Tightest (filters : List Filter) (head tail : Nat) (f : Filter) : Prop where
  encoded : f.Encoded
  offset : f.offset = 8 * head
  size : f.size = 8 * (tail - head)
  fixed : ∀ position bit, 8 * head ≤ position → position < 8 * tail →
    (f.written position = some (digit bit).toUInt8 ↔
      ∀ g ∈ filters, g.written position = some (digit bit).toUInt8)
  wildcard : ∀ position, 8 * head ≤ position → position < 8 * tail →
    (¬ ∃ bit, ∀ g ∈ filters, g.written position = some (digit bit).toUInt8) →
      f.written position = some 'x'.toUInt8

theorem tightest_compositeOf (hfilters : ∀ f ∈ filters, f.Encoded) (hfirst : first ∈ filters) :
    Tightest filters (head first filters) (tail first filters) (compositeOf first filters) := by
  have hne : filters ≠ [] := List.ne_nil_of_mem hfirst
  refine ⟨encoded_encode _ _, rfl, (spells_compositeOf hfilters hfirst).size_eq, ?_, ?_⟩
  · intro position bit hlo hhi
    rw [written_compositeOf hfilters hfirst hlo hhi, Option.some_inj,
      Symbol.letter_eq_digit_iff, shared_eq_ofBit_iff hne]
  · intro position hlo hhi hnone
    rw [written_compositeOf hfilters hfirst hlo hhi]
    rcases (shared filters position).eq_any_or_ofBit with hany | ⟨bit, hbit⟩
    · rw [hany]
      rfl
    · exact absurd ⟨bit, (shared_eq_ofBit_iff hne).mp hbit⟩ hnone

theorem Overlap.unique {head tail head' tail' : Nat} (h : Overlap filters head tail)
    (h' : Overlap filters head' tail') : head = head' ∧ tail = tail' := by
  obtain ⟨⟨f, hf, rfl⟩, hle, ⟨g, hg, rfl⟩, hge⟩ := h
  obtain ⟨⟨f', hf', rfl⟩, hle', ⟨g', hg', rfl⟩, hge'⟩ := h'
  exact ⟨Nat.le_antisymm (hle' f hf) (hle f' hf'), Nat.le_antisymm (hge g' hg') (hge' g hg)⟩

theorem Overlap.of_perm {head tail : Nat} (h : Overlap filters head tail)
    (hperm : Perm filters filters') : Overlap filters' head tail := by
  obtain ⟨⟨f, hf, hhead⟩, hle, ⟨g, hg, htail⟩, hge⟩ := h
  exact ⟨⟨f, hperm.subset hf, hhead⟩, fun f hf => hle f (hperm.symm.subset hf),
    ⟨g, hperm.subset hg, htail⟩, fun f hf => hge f (hperm.symm.subset hf)⟩

/-- The first filter only tells where the overlap is looked for; any other one would do. -/
theorem bounds_perm (hperm : Perm filters filters') (hfirst : first ∈ filters)
    (hfirst' : first' ∈ filters') :
    head first filters = head first' filters' ∧ tail first filters = tail first' filters' :=
  ((overlap_of_mem hfirst).of_perm hperm).unique (overlap_of_mem hfirst')

theorem compositeOf_perm (hfilters : ∀ f ∈ filters, f.Encoded) (hperm : Perm filters filters')
    (hfirst : first ∈ filters) (hfirst' : first' ∈ filters') :
    compositeOf first filters = compositeOf first' filters' := by
  have hfilters' : ∀ f ∈ filters', f.Encoded := fun f hf => hfilters f (hperm.symm.subset hf)
  obtain ⟨hhead, htail⟩ := bounds_perm hperm hfirst hfirst'
  have hpattern : (compositeOf first filters).pattern = (compositeOf first' filters').pattern := by
    rw [pattern_compositeOf hfilters hfirst, pattern_compositeOf hfilters' hfirst', hhead, htail]
    simp only [shared_perm hperm]
  calc compositeOf first filters
      = encode (compositeOf first filters).pattern (8 * head first filters) := rfl
    _ = encode (compositeOf first' filters').pattern (8 * head first' filters') := by
        rw [hpattern, hhead]
    _ = compositeOf first' filters' := rfl

theorem residues_perm (hfilters : ∀ f ∈ filters, f.Encoded) (hperm : Perm filters filters')
    (hplace : ∀ f ∈ filters, ∀ g ∈ filters, f.pattern = g.pattern → f.offset = g.offset)
    (composite : Filter) :
    OrderedMap.ofList (filters.map fun f => (f.pattern, residueOf composite f)) =
      OrderedMap.ofList (filters'.map fun f => (f.pattern, residueOf composite f)) := by
  refine OrderedMap.ofList_perm (hperm.map _) ?_
  rintro _ he _ he' hkey
  obtain ⟨f, hf, rfl⟩ := List.mem_map.mp he
  obtain ⟨g, hg, rfl⟩ := List.mem_map.mp he'
  have hpattern : f.pattern = g.pattern := hkey
  have hsame : f = g := by
    rw [← hfilters f hf, ← hfilters g hg, hpattern, hplace f hf g hg hpattern]
  rw [hsame]

theorem compose_perm (hfilters : ∀ f ∈ filters, f.Encoded) (hperm : Perm filters filters') :
    (compose filters).map composite = (compose filters').map composite ∧
      ((∀ f ∈ filters, ∀ g ∈ filters, f.pattern = g.pattern → f.offset = g.offset) →
        compose filters = compose filters') := by
  cases filters with
  | nil =>
    obtain rfl := List.nil_perm.mp hperm
    exact ⟨rfl, fun _ => rfl⟩
  | cons first rest =>
    cases filters' with
    | nil => exact absurd hperm (List.not_perm_cons_nil)
    | cons first' rest' =>
      have hfirst : first ∈ first :: rest := List.mem_cons_self
      have hfirst' : first' ∈ first' :: rest' := List.mem_cons_self
      obtain ⟨hhead, htail⟩ := bounds_perm hperm hfirst hfirst'
      rw [compose_cons, compose_cons, compositeOf_perm hfilters hperm hfirst hfirst', hhead, htail]
      constructor
      · split <;> rfl
      · intro hplace
        rw [residues_perm hfilters hperm hplace]

/-- Filters have no composite if there are none or they have no byte in common. Else it is the
tightest filter over their overlap, whatever the order they come in, and so are the residues
if each pattern stands at one place only. -/
theorem composite_tightest (filters : List Filter) (hfilters : ∀ f ∈ filters, f.Encoded) :
    (compose filters = .error .emptyFilterSet ↔ filters = []) ∧
    (filters ≠ [] → ∃ head tail, Overlap filters head tail ∧
      if tail ≤ head then compose filters = .error (.noOverlap head tail)
      else ∃ c, compose filters = .ok c ∧ Tightest filters head tail c.composite) ∧
    ∀ filters', Perm filters filters' →
      (compose filters).map composite = (compose filters').map composite ∧
        ((∀ f ∈ filters, ∀ g ∈ filters, f.pattern = g.pattern → f.offset = g.offset) →
          compose filters = compose filters') := by
  refine ⟨?_, ?_, fun _ hperm => compose_perm hfilters hperm⟩
  · cases filters with
    | nil => simp [compose]
    | cons first rest =>
      rw [compose_cons]
      split <;> simp
  · intro hne
    obtain ⟨first, rest, rfl⟩ := List.exists_cons_of_ne_nil hne
    have hfirst : first ∈ first :: rest := List.mem_cons_self
    refine ⟨_, _, overlap_of_mem hfirst, ?_⟩
    rw [compose_cons]
    split
    · rfl
    · exact ⟨_, rfl, tightest_compositeOf hfilters hfirst⟩

theorem composite_tightest_sample :
    (∃ c, compose sampleFilters = .ok c ∧ Tightest sampleFilters 0 1 c.composite) ∧
      compose sampleFilters = compose sampleFilters.reverse := by
  have hencoded : ∀ f ∈ sampleFilters, f.Encoded := by decide
  have hoverlap : Overlap sampleFilters 0 1 := ⟨by decide, by decide, by decide, by decide⟩
  obtain ⟨-, hsome, hperm⟩ := composite_tightest sampleFilters hencoded
  obtain ⟨head, tail, hfound, hcomposite⟩ := hsome (by decide)
  obtain ⟨rfl, rfl⟩ := hfound.unique hoverlap
  exact ⟨hcomposite, (hperm _ (List.reverse_perm _).symm).2 (by decide)⟩

end Composition
end TagFilter
