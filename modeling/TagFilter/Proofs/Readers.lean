import Mathlib.Algebra.Group.Nat.Defs
import TagFilter.Engine.Blob
import TagFilter.Proofs.Related

/-! # Readers and writers

A reader is exact for a writer if it accepts what the writer makes of the values that fit, with
anything after it, and nothing else. Then it gives back what was written, does not look past
its end, and leaves one way to write each value.
-/
namespace TagFilter
namespace Blob

variable {α β γ : Type} {read : Reader α} {write : α → List UInt8} {fits : α → Prop}

abbrev Exact (read : Reader α) (write : α → List UInt8) (fits : α → Prop) : Prop :=
  ∀ bytes a rest, read bytes = .ok (a, rest) ↔ fits a ∧ bytes = write a ++ rest

/-- Reading on after an exact reader. -/
theorem Exact.bind_iff (h : Exact read write fits) {next : α × List UInt8 → Except BlobFault β}
    {bytes : List UInt8} {b : β} : read bytes >>= next = .ok b ↔
      ∃ a tail, fits a ∧ bytes = write a ++ tail ∧ next (a, tail) = .ok b := by
  simp only [bind_eq_ok_iff, Prod.exists, h bytes, and_assoc]

/-- An exact reader does not accept what was written of a value until it is whole. -/
theorem Exact.more_eq_nil (h : Exact read write fits) {a b : α} {cut more rest : List UInt8}
    (ha : fits a) (hcut : cut ++ more = write a) (hread : read cut = .ok (b, rest)) :
    more = [] := by
  obtain ⟨hb, rfl⟩ := (h _ _ _).mp hread
  have hshort := (h (write a) b (rest ++ more)).mpr ⟨hb, by rw [← hcut, List.append_assoc]⟩
  have hwhole := (h (write a) a []).mpr ⟨ha, (List.append_nil _).symm⟩
  rw [hwhole, Except.ok.injEq, Prod.mk.injEq] at hshort
  exact (List.append_eq_nil_iff.mp hshort.2.symm).2

/-- Two parts written one after the other. -/
theorem Exact.both {read' : Reader β} {write' : β → List UInt8} {fits' : β → Prop}
    (h : Exact read write fits) (h' : Exact read' write' fits') (make : α → β → γ) (first : γ → α)
    (second : γ → β) (parts : ∀ a b c, make a b = c ↔ a = first c ∧ b = second c) :
    Exact (fun bytes => do
        let (a, bytes) ← read bytes
        let (b, bytes) ← read' bytes
        return (make a b, bytes))
      (fun c => write (first c) ++ write' (second c))
      (fun c => fits (first c) ∧ fits' (second c)) := by
  intro bytes c rest
  simp only [h.bind_iff, h'.bind_iff, pure_eq_ok_iff, Prod.mk.injEq, parts]
  constructor
  · rintro ⟨_, _, ha, rfl, _, _, hb, rfl, ⟨rfl, rfl⟩, rfl⟩
    exact ⟨⟨ha, hb⟩, (List.append_assoc ..).symm⟩
  · rintro ⟨⟨ha, hb⟩, rfl⟩
    exact ⟨first c, _, ha, List.append_assoc .., second c, rest, hb, rfl, ⟨rfl, rfl⟩, rfl⟩

def wordLimit : Nat := 2 ^ 64

theorem length_littleEndian (width n : Nat) : (littleEndian width n).length = width := by
  induction width generalizing n with
  | zero => rfl
  | succ width ih => rw [littleEndian, List.length_cons, ih]

theorem ofLittleEndian_lt (bytes : List UInt8) : ofLittleEndian bytes < 256 ^ bytes.length := by
  induction bytes with
  | nil => exact Nat.one_pos
  | cons byte bytes ih =>
    have hbyte := byte.toNat_lt
    rw [ofLittleEndian, List.length_cons, Nat.pow_succ]
    omega

theorem ofLittleEndian_littleEndian {width n : Nat} (h : n < 256 ^ width) :
    ofLittleEndian (littleEndian width n) = n := by
  induction width generalizing n with
  | zero =>
    have hn : n = 0 := Nat.lt_one_iff.mp h
    rw [hn]
    rfl
  | succ width ih =>
    rw [Nat.pow_succ] at h
    rw [littleEndian, ofLittleEndian, ih (by omega), UInt8.toNat_ofNat']
    omega

theorem littleEndian_ofLittleEndian (bytes : List UInt8) :
    littleEndian bytes.length (ofLittleEndian bytes) = bytes := by
  induction bytes with
  | nil => rfl
  | cons byte bytes ih =>
    have hbyte := byte.toNat_lt
    have hhigh : (byte.toNat + 256 * ofLittleEndian bytes) / 256 = ofLittleEndian bytes := by omega
    have hlow : (byte.toNat + 256 * ofLittleEndian bytes) % 256 = byte.toNat := by omega
    rw [ofLittleEndian, List.length_cons, littleEndian, hhigh, hlow, ih, UInt8.ofNat_toNat]

theorem exact_readNat : Exact readNat writeNat (· < wordLimit) := by
  intro bytes n rest
  unfold readNat writeNat
  constructor
  · intro h
    split at h
    · simp at h
    · rename_i hlength
      simp only [Except.ok.injEq, Prod.mk.injEq] at h
      obtain ⟨rfl, rfl⟩ := h
      have htake : (bytes.take 8).length = 8 := by
        rw [List.length_take]
        omega
      have hbytes := littleEndian_ofLittleEndian (bytes.take 8)
      have hlt := ofLittleEndian_lt (bytes.take 8)
      rw [htake] at hbytes hlt
      exact ⟨hlt, by rw [hbytes, List.take_append_drop]⟩
  · rintro ⟨hn, rfl⟩
    have hlength := length_littleEndian 8 n
    rw [if_neg (by rw [List.length_append]; omega), List.take_left' hlength,
      List.drop_left' hlength, ofLittleEndian_littleEndian hn]

def TextFits (text : String) : Prop := (Text.Utf8.encode text).length < wordLimit

instance : DecidablePred TextFits := fun text =>
  inferInstanceAs (Decidable ((Text.Utf8.encode text).length < wordLimit))

theorem exact_readText : Exact readText writeText TextFits := by
  intro bytes text rest
  simp only [readText, exact_readNat.bind_iff]
  constructor
  · rintro ⟨length, tail, hlength, rfl, h⟩
    split at h
    · simp [bind_eq_ok_iff, throw_ne_ok] at h
    · rename_i hshort
      cases hdecode : Text.Utf8.decode (tail.take length) with
      | error fault =>
        rw [hdecode] at h
        exact absurd h throw_ne_ok
      | ok found =>
        rw [hdecode] at h
        obtain ⟨rfl, rfl⟩ := Prod.mk.inj (pure_eq_ok_iff.mp h)
        have hencode := Text.Utf8.decode_eq_ok_iff.mp hdecode
        have htake : (tail.take length).length = length := by
          rw [List.length_take]
          omega
        rw [hencode] at htake
        refine ⟨by rw [TextFits, htake]; exact hlength, ?_⟩
        rw [writeText, htake, ← hencode, List.append_assoc, List.take_append_drop]
  · rintro ⟨hfits, rfl⟩
    refine ⟨(Text.Utf8.encode text).length, Text.Utf8.encode text ++ rest, hfits, ?_, ?_⟩
    · rw [writeText, List.append_assoc]
    · rw [if_neg (by rw [List.length_append]; omega), List.take_left, List.drop_left,
        Text.Utf8.decode_encode]
      rfl

theorem exact_readByte : Exact readByte (fun byte => [byte]) fun _ => True := by
  intro bytes byte rest
  cases bytes with
  | nil => simp [readByte]
  | cons first bytes => simp [readByte]

theorem exact_readPresence :
    Exact readPresence (fun isPresent => [if isPresent then 1 else 0]) fun _ => True := by
  intro bytes isPresent rest
  simp only [readPresence, exact_readByte.bind_iff]
  constructor
  · rintro ⟨tag, tail, -, rfl, h⟩
    split at h
    · rename_i htag
      obtain ⟨rfl, rfl⟩ := Prod.mk.inj (pure_eq_ok_iff.mp h)
      exact ⟨trivial, by simp [htag]⟩
    · split at h
      · rename_i htag
        obtain ⟨rfl, rfl⟩ := Prod.mk.inj (pure_eq_ok_iff.mp h)
        exact ⟨trivial, by simp [htag]⟩
      · exact absurd h throw_ne_ok
  · rintro ⟨-, rfl⟩
    refine ⟨_, rest, trivial, rfl, ?_⟩
    cases isPresent <;> rfl

def OptionFits (fits : α → Prop) (o : Option α) : Prop := ∀ a ∈ o, fits a

instance [DecidablePred fits] : DecidablePred (OptionFits fits) := fun o =>
  inferInstanceAs (Decidable (∀ a ∈ o, fits a))

theorem exact_readOption (h : Exact read write fits) :
    Exact (readOption read) (writeOption write) (OptionFits fits) := by
  intro bytes o rest
  simp only [readOption, exact_readPresence.bind_iff]
  constructor
  · rintro ⟨isPresent, tail, -, rfl, hnext⟩
    cases isPresent with
    | false =>
      obtain ⟨rfl, rfl⟩ := Prod.mk.inj (pure_eq_ok_iff.mp hnext)
      exact ⟨by simp [OptionFits], rfl⟩
    | true =>
      rw [if_pos rfl, h.bind_iff] at hnext
      obtain ⟨a, tail, ha, rfl, hnext⟩ := hnext
      obtain ⟨rfl, rfl⟩ := Prod.mk.inj (pure_eq_ok_iff.mp hnext)
      exact ⟨by simpa [OptionFits] using ha, rfl⟩
  · rintro ⟨hfits, rfl⟩
    cases o with
    | none => exact ⟨false, rest, trivial, rfl, rfl⟩
    | some a =>
      refine ⟨true, write a ++ rest, trivial, rfl, ?_⟩
      rw [if_pos rfl, h.bind_iff]
      exact ⟨a, rest, hfits a rfl, rfl, rfl⟩

def ListFits (fits : α → Prop) (items : List α) : Prop :=
  items.length < wordLimit ∧ ∀ a ∈ items, fits a

instance [DecidablePred fits] : DecidablePred (ListFits fits) := fun items =>
  inferInstanceAs (Decidable (items.length < wordLimit ∧ ∀ a ∈ items, fits a))

theorem readMany_eq_ok_iff (h : Exact read write fits) {count : Nat} {bytes rest : List UInt8}
    {items : List α} : readMany read count bytes = .ok (items, rest) ↔
      items.length = count ∧ (∀ a ∈ items, fits a) ∧ bytes = items.flatMap write ++ rest := by
  induction count generalizing bytes items rest with
  | zero =>
    simp only [readMany, Except.ok.injEq, Prod.mk.injEq, List.length_eq_zero_iff]
    constructor
    · rintro ⟨rfl, rfl⟩
      simp
    · rintro ⟨rfl, -, rfl⟩
      exact ⟨rfl, rfl⟩
  | succ count ih =>
    simp only [readMany, h.bind_iff, bind_eq_ok_iff, Prod.exists, ih, pure_eq_ok_iff,
      Prod.mk.injEq]
    constructor
    · rintro ⟨a, _, ha, rfl, items, tail, ⟨hlength, hitems, rfl⟩, rfl, rfl⟩
      refine ⟨congrArg (· + 1) hlength, List.forall_mem_cons.mpr ⟨ha, hitems⟩, ?_⟩
      rw [List.flatMap_cons, List.append_assoc]
    · rintro ⟨hlength, hitems, rfl⟩
      cases items with
      | nil => simp at hlength
      | cons a items =>
        obtain ⟨ha, hitems⟩ := List.forall_mem_cons.mp hitems
        refine ⟨a, _, ha, ?_, items, rest, ⟨Nat.succ.inj hlength, hitems, rfl⟩, rfl, rfl⟩
        rw [List.flatMap_cons, List.append_assoc]

theorem exact_readList (h : Exact read write fits) :
    Exact (readList read) (writeMany write) (ListFits fits) := by
  intro bytes items rest
  simp only [readList, exact_readNat.bind_iff, readMany_eq_ok_iff h]
  constructor
  · rintro ⟨_, _, hcount, rfl, rfl, hitems, rfl⟩
    exact ⟨⟨hcount, hitems⟩, (List.append_assoc ..).symm⟩
  · rintro ⟨⟨hcount, hitems⟩, rfl⟩
    exact ⟨_, _, hcount, List.append_assoc .., rfl, hitems, rfl⟩

/-- A type of binary trees whose nodes carry a head, stored as a byte that says whether there is
a node, the head, and the two trees below. -/
structure Branching {τ : Type} (readHead : Reader α) (writeHead : α → List UInt8)
    (headFits : α → Prop) (within : Nat → Reader τ) (write : τ → List UInt8) (fits : τ → Prop)
    (empty : τ) (node : α → τ → τ → τ) : Prop where
  exact_head : Exact readHead writeHead headFits
  cases_tree : ∀ t, t = empty ∨ ∃ a left right, t = node a left right
  fits_empty : fits empty
  fits_node : ∀ a left right, fits (node a left right) ↔ headFits a ∧ fits left ∧ fits right
  write_empty : write empty = [0]
  write_node : ∀ a left right,
    write (node a left right) = 1 :: (writeHead a ++ write left ++ write right)
  within_zero : ∀ bytes, within 0 bytes = .error .endOfData
  within_succ : ∀ steps bytes, within (steps + 1) bytes = do
    let (isPresent, bytes) ← readPresence bytes
    if isPresent then
      let (a, bytes) ← readHead bytes
      let (left, bytes) ← within steps bytes
      let (right, bytes) ← within steps bytes
      return (node a left right, bytes)
    else return (empty, bytes)

variable {τ : Type} {readHead : Reader α} {writeHead : α → List UInt8} {headFits : α → Prop}
  {within : Nat → Reader τ} {writeTree : τ → List UInt8} {treeFits : τ → Prop} {empty : τ}
  {node : α → τ → τ → τ}

/-- As many steps as bytes are enough, since every node takes a byte. -/
theorem Branching.within_eq_ok_iff
    (h : Branching readHead writeHead headFits within writeTree treeFits empty node) {steps : Nat}
    {bytes rest : List UInt8} {t : τ} (hsteps : bytes.length ≤ steps) :
    within steps bytes = .ok (t, rest) ↔ treeFits t ∧ bytes = writeTree t ++ rest := by
  induction steps generalizing bytes rest t with
  | zero =>
    rw [h.within_zero, List.length_eq_zero_iff.mp (Nat.le_zero.mp hsteps)]
    rcases h.cases_tree t with rfl | ⟨a, left, right, rfl⟩
    · simp [h.write_empty]
    · simp [h.write_node]
  | succ steps ih =>
    simp only [h.within_succ, exact_readPresence.bind_iff]
    constructor
    · rintro ⟨isPresent, tail, -, rfl, hnext⟩
      cases isPresent with
      | false =>
        obtain ⟨rfl, rfl⟩ := Prod.mk.inj (pure_eq_ok_iff.mp hnext)
        exact ⟨h.fits_empty, by rw [h.write_empty]; rfl⟩
      | true =>
        simp only [if_pos, h.exact_head.bind_iff, bind_eq_ok_iff, Prod.exists, pure_eq_ok_iff,
          Prod.mk.injEq] at hnext
        obtain ⟨a, tail, ha, rfl, left, tail', hleft, right, tail'', hright, rfl, rfl⟩ := hnext
        simp only [List.length_append, List.length_singleton] at hsteps
        obtain ⟨hl, rfl⟩ := (ih (by omega)).mp hleft
        rw [List.length_append] at hsteps
        obtain ⟨hr, rfl⟩ := (ih (by omega)).mp hright
        exact ⟨(h.fits_node ..).mpr ⟨ha, hl, hr⟩, by simp [h.write_node]⟩
    · rintro ⟨ht, rfl⟩
      rcases h.cases_tree t with rfl | ⟨a, left, right, rfl⟩
      · exact ⟨false, rest, trivial, by rw [h.write_empty]; rfl, rfl⟩
      · obtain ⟨ha, hl, hr⟩ := (h.fits_node ..).mp ht
        simp only [h.write_node, List.length_append, List.length_cons] at hsteps
        refine ⟨true, writeHead a ++ (writeTree left ++ (writeTree right ++ rest)), trivial,
          by simp [h.write_node], ?_⟩
        simp only [if_pos, h.exact_head.bind_iff, bind_eq_ok_iff, Prod.exists, pure_eq_ok_iff,
          Prod.mk.injEq]
        refine ⟨a, _, ha, rfl, left, writeTree right ++ rest, ?_, right, rest, ?_, rfl, rfl⟩
        · exact (ih (by simp only [List.length_append]; omega)).mpr ⟨hl, rfl⟩
        · exact (ih (by simp only [List.length_append]; omega)).mpr ⟨hr, rfl⟩

end Blob
end TagFilter
