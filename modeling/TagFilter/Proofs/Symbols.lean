import TagFilter.Composition
import TagFilter.Proofs.Acceptance

/-! # What a filter asks of each bit

A filter asks something of every position of an identifier: what its pattern says where the
pattern stands, and nothing anywhere else. Each of its bytes says so for eight positions, and
the pattern of a byte says the same again.
-/
namespace TagFilter

/-- What a mask bit and a value bit ask together. -/
def Symbol.ofBits (masked value : Bool) : Symbol :=
  if masked then .any else if value then .one else .zero

theorem Symbol.ofBits_self (s : Symbol) : ofBits (decide (s = .any)) (decide (s ≠ .zero)) = s := by
  cases s <;> rfl

namespace Filter

/-- Filters as `encode` makes them: the bytes are those of the pattern. -/
def Encoded (f : Filter) : Prop := encode f.pattern f.offset = f

instance : DecidablePred Encoded := fun f =>
  inferInstanceAs (Decidable (encode f.pattern f.offset = f))

theorem encoded_encode (p : Pattern) (offset : Nat) : (encode p offset).Encoded := rfl

def asks (f : Filter) (position : Nat) : Symbol := symbolAt f.pattern.symbols f.offset position

/-- The value and mask bytes at an index, for what is asked of each position. -/
def byteOf (symbol : Nat → Symbol) (index : Nat) : UInt8 × UInt8 :=
  (packByte fun j => symbol (8 * index + j) ≠ .zero, packByte fun j => symbol (8 * index + j) = .any)

variable {f : Filter} {p : Pattern} {offset index position : Nat} {symbol symbol' : Nat → Symbol}

theorem ofBits_byteOf (symbol : Nat → Symbol) (index : Nat) {j : Nat} (hj : j < 8) :
    Symbol.ofBits ((byteOf symbol index).2.toNat.testBit (7 - j))
      ((byteOf symbol index).1.toNat.testBit (7 - j)) = symbol (8 * index + j) := by
  rw [byteOf, testBit_packByte _ hj, testBit_packByte _ hj]
  exact Symbol.ofBits_self _

theorem symbol_eq_of_byteOf (h : byteOf symbol (position / 8) = byteOf symbol' (position / 8)) :
    symbol position = symbol' position := by
  have hj : position % 8 < 8 := Nat.mod_lt _ (by decide)
  have hhere := ofBits_byteOf symbol (position / 8) hj
  have hthere := ofBits_byteOf symbol' (position / 8) hj
  rw [h] at hhere
  rw [Nat.div_add_mod] at hhere hthere
  exact hhere.symm.trans hthere

theorem mem_covers : f.covers index = true ↔ f.firstByte ≤ index ∧ index < f.byteEnd := by
  simp [covers]

/-- The bytes of a filter reach from the one its pattern starts in to the one it ends in. -/
theorem Encoded.covers_of_stands (h : f.Encoded) (hlo : f.offset ≤ position)
    (hhi : position < f.offset + f.size) : f.covers (position / 8) = true := by
  rw [mem_covers, ← h]
  have hend := (byteEnd_encode_le_iff f.pattern f.offset (position / 8)).mp
  constructor
  · exact Nat.div_le_div_right hlo
  · by_contra hle
    have := hend (Nat.le_of_not_lt hle)
    rw [size] at hhi
    omega

theorem Encoded.asks_of_not_covers (h : f.Encoded) (hcovers : f.covers (position / 8) = false) :
    f.asks position = .any := by
  rcases Nat.lt_or_ge position f.offset with hbefore | hlo
  · exact symbolAt_before hbefore
  · apply symbolAt_past
    rw [Pattern.length_symbols]
    by_contra hhi
    rw [h.covers_of_stands hlo (Nat.lt_of_not_le hhi)] at hcovers
    exact absurd hcovers (by decide)

/-- The symbols of a pattern are counted from the first byte it touches; here from bit zero. -/
theorem symbolAt_lead (symbols : List Symbol) (h : offset / 8 ≤ index) (j : Nat) :
    symbolAt symbols (offset % 8) (8 * (index - offset / 8) + j) =
      symbolAt symbols offset (8 * index + j) := by
  have hshift : 8 * (index - offset / 8) + j - offset % 8 = 8 * index + j - offset := by omega
  have hbefore : 8 * (index - offset / 8) + j < offset % 8 ↔ 8 * index + j < offset := by omega
  unfold symbolAt
  simp only [hshift, hbefore]

/-- The bytes of a filter are determined by what it asks where they lie. -/
theorem Encoded.content_eq (h : f.Encoded) :
    f.values = (List.range f.byteSize).map (fun i => (byteOf f.asks (f.firstByte + i)).1) ∧
      f.masks = (List.range f.byteSize).map fun i => (byteOf f.asks (f.firstByte + i)).2 := by
  have hlead (i j : Nat) : symbolAt f.pattern.symbols (f.offset % 8) (8 * i + j) =
      f.asks (8 * (f.offset / 8 + i) + j) := by
    have hshift := symbolAt_lead f.pattern.symbols (Nat.le_add_right (f.offset / 8) i) j
    rwa [Nat.add_sub_cancel_left] at hshift
  have hsize := byteSize_encode f.pattern f.offset
  rw [h] at hsize
  have hfirst : f.firstByte = f.offset / 8 := congrArg firstByte h.symm
  have hvalues : f.values = _ := congrArg values h.symm
  have hmasks : f.masks = _ := congrArg masks h.symm
  rw [hvalues, hmasks, hsize, hfirst]
  simp only [encode, hlead, byteOf, Pattern.length_symbols, and_self]

theorem Encoded.byteAt?_eq (h : f.Encoded) (index : Nat) :
    f.byteAt? index = if f.covers index then some (byteOf f.asks index) else none := by
  unfold byteAt?
  split
  · rename_i hcovers
    obtain ⟨hlo, hhi⟩ := mem_covers.mp hcovers
    have hi : index - f.firstByte < f.byteSize := by
      rw [byteEnd] at hhi
      omega
    obtain ⟨hvalues, hmasks⟩ := h.content_eq
    rw [hvalues, hmasks, List.getElem?_map, List.getElem?_map, List.getElem?_range hi,
      Option.map_some, Option.map_some, Nat.add_sub_cancel' hlo]
  · rfl

theorem Encoded.accepts_iff (h : f.Encoded) (id : Identifier) : f.accepts id = true ↔
    f.byteEnd ≤ id.length ∧
      ∀ position bit, id.bitAt position = some bit → (f.asks position).admits bit = true := by
  have hend := byteEnd_encode_le_iff f.pattern f.offset id.length
  have haccepts := accepts_encode_iff f.pattern f.offset id
  rw [h] at hend haccepts
  rw [haccepts, ← hend]
  apply and_congr_right
  intro _
  constructor
  · intro hall position bit hbit
    rcases Nat.lt_or_ge position f.offset with hbefore | hlo
    · rw [asks, symbolAt_before hbefore]
      rfl
    · obtain ⟨i, rfl⟩ := Nat.exists_eq_add_of_le hlo
      rw [asks, symbolAt_add]
      cases hs : f.pattern.symbols[i]? with
      | none => rfl
      | some s => exact hall i s bit hs hbit
  · intro hall i s bit hs hbit
    have hasks := hall _ bit hbit
    rwa [asks, symbolAt_add, hs] at hasks

/-- A pattern that says what is asked of each bit of `count` bytes from an index on. -/
def Spells (symbol : Nat → Symbol) (index count : Nat) (p : Pattern) : Prop :=
  p.symbols = (List.range (8 * count)).map fun k => symbol (8 * index + k)

theorem spells_flatMap {block : Nat → Pattern} {count : Nat}
    (h : ∀ i < count, Spells symbol (index + i) 1 (block i)) :
    Spells symbol index count ((List.range count).flatMap block) := by
  induction count with
  | zero => rfl
  | succ count ih =>
    have hbefore := ih fun i hi => h i (Nat.lt_succ_of_lt hi)
    have hlast := h count (Nat.lt_succ_self count)
    have hposition (k : Nat) : 8 * (index + count) + k = 8 * index + (8 * count + k) := by omega
    simp only [Spells, Nat.mul_one, hposition] at hlast
    rw [Spells, Pattern.symbols, List.range_succ, List.flatMap_append, List.flatMap_append,
      List.flatMap_singleton, Nat.mul_succ, List.range_add, List.map_append, List.map_map]
    exact congrArg₂ (· ++ ·) hbefore hlast

theorem Spells.size_eq {count : Nat} (h : Spells symbol index count p) : p.size = 8 * count := by
  rw [← Pattern.length_symbols, h, List.length_map, List.length_range]

theorem Spells.byteEnd_eq {count : Nat} (h : Spells symbol index count p) :
    (encode p (8 * index)).byteEnd = index + count := by
  have hbytes : byteCount (8 * index % 8) p.size = count := by
    rw [h.size_eq, byteCount]
    omega
  rw [byteEnd, byteSize_encode, hbytes]
  exact congrArg (· + count) (Nat.mul_div_cancel_left index (by decide))

theorem Spells.covers_iff {count i : Nat} (h : Spells symbol index count p) :
    (encode p (8 * index)).covers i = true ↔ index ≤ i ∧ i < index + count := by
  rw [mem_covers, h.byteEnd_eq]
  simp only [encode, Nat.mul_div_cancel_left index (by decide : 0 < 8)]

theorem Spells.covers_eq {i : Nat} (h : Spells symbol f.firstByte f.byteSize p) :
    (encode p (8 * f.firstByte)).covers i = f.covers i := by
  rw [Bool.eq_iff_iff, h.covers_iff, mem_covers, byteEnd]

theorem Spells.asks_eq {count : Nat} (h : Spells symbol index count p)
    (hcovers : (encode p (8 * index)).covers (position / 8) = true) :
    (encode p (8 * index)).asks position = symbol position := by
  obtain ⟨hlo, hhi⟩ := h.covers_iff.mp hcovers
  have hk : position - 8 * index < 8 * count := by omega
  rw [asks, pattern_encode, offset_encode, symbolAt, if_neg (by omega), h, List.getElem?_map,
    List.getElem?_range hk, Option.map_some, Option.getD_some]
  congr 1
  omega

/-- A pattern that spells bytes out asks what they do, if nothing is asked outside them. -/
theorem Spells.asks_encode {count : Nat} (h : Spells symbol index count p)
    (hopen : ∀ position, (encode p (8 * index)).covers (position / 8) = false →
      symbol position = .any) : (encode p (8 * index)).asks = symbol := by
  funext position
  cases hcovers : (encode p (8 * index)).covers (position / 8) with
  | true => exact h.asks_eq hcovers
  | false =>
    rw [hopen position hcovers]
    exact (encoded_encode p (8 * index)).asks_of_not_covers hcovers

theorem symbols_bytePattern (value mask : UInt8) :
    (Composition.bytePattern value mask).symbols = (List.range 8).map fun j =>
      Symbol.ofBits (mask.toNat.testBit (7 - j)) (value.toNat.testBit (7 - j)) := by
  have hsymbol (masked one : Bool) :
      Pattern.symbolsOf (if masked then 'x' else if one then '1' else '0') =
        [Symbol.ofBits masked one] := by
    cases masked <;> cases one <;> rfl
  simp only [Pattern.symbols, Composition.bytePattern, List.flatMap_map, hsymbol]
  exact List.map_eq_flatMap.symm

theorem spells_bytePattern (symbol : Nat → Symbol) (index : Nat) :
    Spells symbol index 1
      (Composition.bytePattern (byteOf symbol index).1 (byteOf symbol index).2) := by
  rw [Spells, symbols_bytePattern]
  refine List.map_congr_left fun j hj => ?_
  exact ofBits_byteOf symbol index (List.mem_range.mp hj)

theorem spells_open (index : Nat) : Spells (fun _ => .any) index 1 (List.replicate 8 'x') := rfl

end Filter
end TagFilter
