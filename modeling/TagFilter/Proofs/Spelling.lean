import TagFilter.Proofs.Clearing
import TagFilter.Proofs.Tightest

/-! # Filters spelled out

The bytes of a filter, read back one after the other, spell out a pattern over whole bytes: the
pattern of the filter, with a wildcard for each bit that it leaves open or does not stand over.
Where the first of the bytes lies, this pattern is encoded as the same bytes again.
-/
namespace TagFilter
open Pattern

/-- The character that a byte of a stored pattern is spelled as. -/
def Pattern.letterOf (byte : UInt8) : Char :=
  if byte = '0'.toUInt8 then '0' else if byte = '1'.toUInt8 then '1' else 'x'

theorem Symbol.letter_ofByte (byte : UInt8) : (ofByte byte).letter = letterOf byte := by
  rw [ofByte_eq, apply_ite letter, apply_ite letter]
  rfl

namespace Filter

variable {f g : Filter}

theorem accepts_congr (hfirst : f.firstByte = g.firstByte) (hvalues : f.values = g.values)
    (hmasks : f.masks = g.masks) (id : Identifier) : f.accepts id = g.accepts id := by
  unfold accepts byteEnd byteSize
  rw [hfirst, hvalues, hmasks]

/-- Filters that ask the same and lie over the same bytes have the same bytes. -/
theorem Encoded.content_congr (hf : f.Encoded) (hg : g.Encoded)
    (hfirst : f.firstByte = g.firstByte) (hsize : f.byteSize = g.byteSize)
    (hasks : f.asks = g.asks) : f.values = g.values ∧ f.masks = g.masks := by
  obtain ⟨hvalues, hmasks⟩ := hf.content_eq
  obtain ⟨hvalues', hmasks'⟩ := hg.content_eq
  rw [hvalues, hmasks, hvalues', hmasks', hfirst, hsize, hasks]
  exact ⟨rfl, rfl⟩

/-- Nothing is asked before the symbols of a pattern, and nothing after them. -/
theorem map_symbolAt (symbols : List Symbol) (lead fill : Nat) :
    (List.range (lead + symbols.length + fill)).map (symbolAt symbols lead) =
      List.replicate lead .any ++ symbols ++ List.replicate fill .any := by
  have hopen {n : Nat} {place : Nat → Nat} (h : ∀ k < n, symbolAt symbols lead (place k) = .any) :
      (List.range n).map (fun k => symbolAt symbols lead (place k)) = List.replicate n .any := by
    have hreplicate := List.map_eq_replicate_iff.mpr fun k hk => h k (List.mem_range.mp hk)
    rwa [List.length_range] at hreplicate
  have hbefore : (List.range lead).map (symbolAt symbols lead) = List.replicate lead .any :=
    hopen fun k hk => symbolAt_before hk
  have hhere : (List.range symbols.length).map (fun k => symbolAt symbols lead (lead + k)) =
      symbols := by
    refine List.ext_getElem (by simp) fun k _ hk => ?_
    rw [List.getElem_map, List.getElem_range, symbolAt_add, List.getElem?_eq_getElem hk,
      Option.getD_some]
  have hafter : (List.range fill).map
      (fun k => symbolAt symbols lead (lead + symbols.length + k)) = List.replicate fill .any :=
    hopen fun k _ => symbolAt_past (Nat.le_add_right _ k)
  rw [List.range_add, List.range_add, List.map_append, List.map_append, List.map_map,
    List.map_map]
  exact congrArg₂ (· ++ ·) (congrArg₂ (· ++ ·) hbefore hhere) hafter

end Filter

namespace Composition
open TagFilter.Filter

variable {f : Filter}

/-- The pattern that the bytes of a filter spell out. -/
def spelling (f : Filter) : Pattern :=
  (f.values.zip f.masks).flatMap fun (value, mask) => bytePattern value mask

theorem spelling_eq (h : f.Encoded) : spelling f =
    (List.range f.byteSize).flatMap fun i => bytePattern (byteOf f.asks (f.firstByte + i)).1
      (byteOf f.asks (f.firstByte + i)).2 := by
  obtain ⟨hvalues, hmasks⟩ := h.content_eq
  rw [spelling, hvalues, hmasks, List.zip_map', List.flatMap_map]

theorem spells_spelling (h : f.Encoded) :
    Spells f.asks f.firstByte f.byteSize (spelling f) := by
  rw [spelling_eq h]
  exact spells_flatMap fun i _ => spells_bytePattern f.asks (f.firstByte + i)

theorem spelling_eq_letters (h : f.Encoded) : spelling f =
    ((List.range (8 * f.byteSize)).map fun k => f.asks (8 * f.firstByte + k)).map Symbol.letter := by
  refine (spells_spelling h).eq_letters ?_
  rw [spelling_eq h]
  exact isAllowed_flatMap _ _ _

/-- A pattern is spelled out with wildcards around it, as many as fill its bytes. -/
theorem spelling_encode (p : Pattern) (offset : Nat) {fill : Nat}
    (hfill : offset % 8 + p.bytes.length + fill = 8 * byteCount (offset % 8) p.size) :
    spelling (encode p offset) = List.replicate (offset % 8) 'x' ++ p.bytes.map letterOf ++
      List.replicate fill 'x' := by
  have hasks (k : Nat) : (encode p offset).asks (8 * (offset / 8) + k) =
      symbolAt p.symbols (offset % 8) k := by
    have hlead := symbolAt_lead p.symbols (Nat.le_refl (offset / 8)) k
    rw [Nat.sub_self, Nat.mul_zero, Nat.zero_add] at hlead
    exact hlead.symm
  have hcount : 8 * (encode p offset).byteSize = offset % 8 + p.symbols.length + fill := by
    rw [byteSize_encode, ← hfill, Pattern.length_symbols, Pattern.length_bytes]
  have hletters : p.symbols.map Symbol.letter = p.bytes.map letterOf := by
    rw [Pattern.symbols_eq_bytes, List.map_map]
    exact List.map_congr_left fun byte _ => Symbol.letter_ofByte byte
  calc spelling (encode p offset)
      = ((List.range (8 * (encode p offset).byteSize)).map fun k =>
          (encode p offset).asks (8 * (offset / 8) + k)).map Symbol.letter :=
        spelling_eq_letters (encoded_encode p offset)
    _ = ((List.range (offset % 8 + p.symbols.length + fill)).map
          (symbolAt p.symbols (offset % 8))).map Symbol.letter := by
        rw [hcount, funext hasks]
    _ = (List.replicate (offset % 8) Symbol.any ++ p.symbols ++
          List.replicate fill Symbol.any).map Symbol.letter := by rw [map_symbolAt]
    _ = List.replicate (offset % 8) 'x' ++ p.bytes.map letterOf ++ List.replicate fill 'x' := by
        rw [List.map_append, List.map_append, List.map_replicate, List.map_replicate, hletters]
        rfl

/-- What the bytes of a filter spell out asks the same as the filter, where they lie. -/
theorem asks_encode_spelling (h : f.Encoded) :
    (encode (spelling f) (8 * f.firstByte)).asks = f.asks := by
  have hspells := spells_spelling h
  refine hspells.asks_encode fun position hcovers => h.asks_of_not_covers ?_
  rwa [hspells.covers_eq] at hcovers

theorem content_encode_spelling (h : f.Encoded) :
    (encode (spelling f) (8 * f.firstByte)).firstByte = f.firstByte ∧
      (encode (spelling f) (8 * f.firstByte)).values = f.values ∧
      (encode (spelling f) (8 * f.firstByte)).masks = f.masks := by
  have hfirst : (encode (spelling f) (8 * f.firstByte)).firstByte = f.firstByte :=
    Nat.mul_div_cancel_left _ (by decide)
  have hend := (spells_spelling h).byteEnd_eq
  rw [byteEnd, hfirst] at hend
  exact ⟨hfirst, (encoded_encode _ _).content_congr h hfirst (Nat.add_left_cancel hend)
    (asks_encode_spelling h)⟩

/-- Writing the bits of a pattern in place makes the filter that it is encoded as. The bytes of
this filter spell out the pattern, with wildcards for what is no digit and around it up to
whole bytes. From there they can be made again, and so the same identifiers are accepted. -/
theorem spelling_inverts_encode (p : Pattern) (offset : Nat) :
    let f := encode p offset
    let g := encode (spelling f) (8 * (offset / 8))
    encodeInPlace p offset = f ∧
    (∃ fill < 8, 8 ∣ offset % 8 + p.bytes.length + fill ∧
      spelling f = List.replicate (offset % 8) 'x' ++ p.bytes.map letterOf ++
        List.replicate fill 'x') ∧
    g.firstByte = f.firstByte ∧ g.values = f.values ∧ g.masks = f.masks ∧
    ∀ id, g.accepts id = f.accepts id := by
  intro f g
  have hf : f.Encoded := encoded_encode p offset
  obtain ⟨hfirst, hvalues, hmasks⟩ := content_encode_spelling hf
  refine ⟨encodeInPlace_eq_encode p offset, ?_, hfirst, hvalues, hmasks,
    accepts_congr hfirst hvalues hmasks⟩
  obtain ⟨fill, hlt, hfill⟩ : ∃ fill < 8,
      offset % 8 + p.bytes.length + fill = 8 * byteCount (offset % 8) p.size := by
    rw [length_bytes, byteCount]
    exact ⟨8 * ((offset % 8 + p.size + 7) / 8) - (offset % 8 + p.size), by omega, by omega⟩
  exact ⟨fill, hlt, ⟨_, hfill⟩, spelling_encode p offset hfill⟩

/-- Two digits around a wildcard of two bytes, across the end of the first byte. -/
example : spelling (encode ['1', 'é', '0'] 6) = ['x', 'x', 'x', 'x', 'x', 'x', '1', 'x',
    'x', '0', 'x', 'x', 'x', 'x', 'x', 'x'] := by decide

end Composition
end TagFilter
