import Mathlib.Data.List.Induction
import Mathlib.Logic.Function.Basic
import TagFilter.Filter.InPlace
import TagFilter.Proofs.Bitwise

/-! # Clearing bits one by one

While a filter is written in place, its bytes are at any time those of some symbols: of what
the bytes of the pattern so far ask. Each further byte changes the symbol where it stands,
which is open until then. So in the end the bytes are those of the whole pattern.
-/
namespace TagFilter
namespace Filter

variable {bit : Nat → Bool} {symbol : Nat → Symbol} {s : Symbol} {count position : Nat}

def packBytes (bit : Nat → Bool) (count : Nat) : List UInt8 :=
  (List.range count).map fun i => packByte fun j => bit (8 * i + j)

theorem getElem?_packBytes (bit : Nat → Bool) (count i : Nat) : (packBytes bit count)[i]? =
    if i < count then some (packByte fun j => bit (8 * i + j)) else none := by
  rw [packBytes, List.getElem?_map]
  split
  · rename_i hi
    rw [List.getElem?_range hi, Option.map_some]
  · rename_i hi
    rw [List.getElem?_eq_none (by simpa using hi), Option.map_none]

theorem packBytes_true (count : Nat) :
    packBytes (fun _ => true) count = List.replicate count 0xFF := by
  have hones : (packByte fun _ => true) = 0xFF := by decide
  rw [packBytes, hones, List.map_const', List.length_range]

theorem testBit_complement : ∀ j < 8, ∀ k < 8,
    (~~~((0x80 : UInt8) >>> UInt8.ofNat k)).toNat.testBit (7 - j) = decide (j ≠ k) := by
  decide

theorem packByte_and_complement {i : Nat} (hi : position / 8 = i) :
    (packByte fun j => bit (8 * i + j)) &&& ~~~(0x80 >>> UInt8.ofNat (position % 8)) =
      packByte fun j => Function.update bit position false (8 * i + j) := by
  apply byte_ext
  intro j hj
  rw [UInt8.toNat_and, Nat.testBit_and, testBit_packByte _ hj, testBit_packByte _ hj,
    testBit_complement j hj _ (Nat.mod_lt _ (by decide)), Function.update_apply]
  have hhere : 8 * i + j = position ↔ j = position % 8 := by omega
  by_cases h : j = position % 8
  · rw [if_pos (hhere.mpr h), decide_eq_false (not_not_intro h), Bool.and_false]
  · rw [if_neg (mt hhere.mp h), decide_eq_true h, Bool.and_true]

theorem packByte_update_of_ne {i : Nat} (hi : position / 8 ≠ i) :
    (packByte fun j => bit (8 * i + j)) =
      packByte fun j => Function.update bit position false (8 * i + j) := by
  apply byte_ext
  intro j hj
  rw [testBit_packByte _ hj, testBit_packByte _ hj, Function.update_of_ne (by omega)]

theorem clearBit_packBytes (bit : Nat → Bool) (count position : Nat) :
    clearBit (packBytes bit count) position =
      packBytes (Function.update bit position false) count := by
  apply List.ext_getElem?
  intro i
  rw [clearBit, List.getElem?_modify, getElem?_packBytes, getElem?_packBytes]
  by_cases hcount : i < count
  · rw [if_pos hcount, if_pos hcount, Option.map_eq_map, Option.map_some]
    split
    · rename_i hi
      rw [packByte_and_complement hi]
    · rename_i hi
      rw [packByte_update_of_ne hi]
  · rw [if_neg hcount, if_neg hcount, Option.map_eq_map, Option.map_none]

/-- The bytes that ask for a symbol at each position. -/
def Content.ofSymbols (symbol : Nat → Symbol) (count : Nat) : Content :=
  ⟨packBytes (fun k => symbol k ≠ .zero) count, packBytes (fun k => symbol k = .any) count⟩

theorem packBytes_update (read : Symbol → Bool) (symbol : Nat → Symbol) (count position : Nat)
    (s : Symbol) : packBytes (fun k => read (Function.update symbol position s k)) count =
      packBytes (Function.update (fun k => read (symbol k)) position (read s)) count :=
  congrArg (packBytes · count) (Function.comp_update read symbol position s)

theorem clearBit_read (read : Symbol → Bool) (h : read s = false) :
    clearBit (packBytes (fun k => read (symbol k)) count) position =
      packBytes (fun k => read (Function.update symbol position s k)) count := by
  rw [packBytes_update, h]
  exact clearBit_packBytes _ count position

theorem packBytes_read (read : Symbol → Bool) (h : read s = read (symbol position)) :
    packBytes (fun k => read (symbol k)) count =
      packBytes (fun k => read (Function.update symbol position s k)) count := by
  rw [packBytes_update, h, Function.update_eq_self]

theorem Content.ofSymbols_any (count : Nat) : ofSymbols (fun _ => .any) count = blank count := by
  have hblank : packBytes (fun _ => true) count = List.replicate count 0xFF := packBytes_true count
  exact congrArg₂ Content.mk hblank hblank

/-- Writing a byte over an open bit makes it ask for what the byte says. -/
theorem Content.write_ofSymbols (hopen : symbol position = .any) (byte : UInt8) :
    (ofSymbols symbol count).write position byte =
      ofSymbols (Function.update symbol position (.ofByte byte)) count := by
  rw [Symbol.ofByte_eq, write]
  split
  · exact congrArg₂ mk (clearBit_read (· ≠ .zero) rfl) (clearBit_read (· = .any) rfl)
  · split
    · -- An open bit has its value bit set already, as a one asks.
      have hkept : decide (Symbol.one ≠ .zero) = decide (symbol position ≠ .zero) := by
        rw [hopen]
        rfl
      exact congrArg₂ mk (packBytes_read (· ≠ .zero) hkept) (clearBit_read (· = .any) rfl)
    · rw [← hopen, Function.update_eq_self]

theorem symbolAt_nil (lead : Nat) : symbolAt [] lead = fun _ => .any := by
  funext position
  rcases Nat.lt_or_ge position lead with h | h
  · exact symbolAt_before h
  · exact symbolAt_past h

theorem symbolAt_concat (symbols : List Symbol) (s : Symbol) (lead : Nat) :
    symbolAt (symbols ++ [s]) lead =
      Function.update (symbolAt symbols lead) (lead + symbols.length) s := by
  funext position
  rcases Nat.lt_or_ge position lead with hbefore | hlo
  · rw [Function.update_of_ne (by omega), symbolAt_before hbefore, symbolAt_before hbefore]
  · obtain ⟨i, rfl⟩ := Nat.exists_eq_add_of_le hlo
    rw [symbolAt_add]
    rcases Nat.lt_trichotomy i symbols.length with hlt | rfl | hgt
    · rw [List.getElem?_append_left hlt, Function.update_of_ne (by omega), symbolAt_add]
    · rw [List.getElem?_concat_length, Function.update_self, Option.getD_some]
    · have hlength : (symbols ++ [s]).length ≤ i := by
        rw [List.length_append, List.length_singleton]
        exact hgt
      rw [List.getElem?_eq_none hlength, Function.update_of_ne (by omega),
        symbolAt_past (by omega), Option.getD_none]

/-- Whatever has been written, the bytes are those of the symbols written so far. -/
theorem Content.writeAll_blank (lead count : Nat) (stored : List UInt8) :
    (blank count).writeAll lead stored =
      ofSymbols (symbolAt (stored.map Symbol.ofByte) lead) count := by
  induction stored using List.reverseRecOn with
  | nil =>
    rw [List.map_nil, symbolAt_nil, ofSymbols_any]
    rfl
  | append_singleton stored byte ih =>
    -- The last byte stands past all others, where the bits are open yet.
    have hnext : symbolAt (stored.map Symbol.ofByte) lead (lead + stored.length) = .any :=
      symbolAt_past (by rw [List.length_map])
    rw [writeAll] at ih ⊢
    rw [List.zipIdx_append, List.foldl_append, ih, List.map_append, List.map_singleton,
      symbolAt_concat, List.length_map, ← write_ofSymbols hnext byte, Nat.zero_add]
    rfl

/-- Written in place, the bytes of a filter are those that its pattern asks for. -/
theorem encodeInPlace_eq_encode (p : Pattern) (offset : Nat) :
    encodeInPlace p offset = encode p offset := by
  have hlength : p.bytes.length = p.symbols.length := by
    rw [Pattern.length_bytes, Pattern.length_symbols]
  have hcontent : (Content.blank (byteCount (offset % 8) p.bytes.length)).writeAll (offset % 8)
      p.bytes = .ofSymbols (symbolAt p.symbols (offset % 8))
        (byteCount (offset % 8) p.symbols.length) := by
    rw [Content.writeAll_blank, ← Pattern.symbols_eq_bytes, hlength]
  exact congrArg (fun content : Content =>
    Filter.mk p offset (offset / 8) content.values content.masks) hcontent

end Filter
end TagFilter
