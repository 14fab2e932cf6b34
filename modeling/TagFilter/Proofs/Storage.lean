import TagFilter.Proofs.Readers

/-! # Stored engines read back

Every part of a stored engine has an exact reader, so a byte string is read as an engine exactly
if it begins with what that engine is stored as. The tag in front decides which kind that is.
-/
namespace TagFilter
namespace Blob

def PatternFits (p : Pattern) : Prop := TextFits (String.ofList p)

instance : DecidablePred PatternFits := fun p =>
  inferInstanceAs (Decidable (TextFits (String.ofList p)))

theorem exact_readPattern : Exact readPattern writePattern PatternFits := by
  intro bytes p rest
  simp only [readPattern, exact_readText.bind_iff, pure_eq_ok_iff, Prod.mk.injEq]
  constructor
  · rintro ⟨text, _, htext, rfl, rfl, rfl⟩
    rw [PatternFits, writePattern, String.ofList_toList]
    exact ⟨htext, rfl⟩
  · rintro ⟨hp, rfl⟩
    exact ⟨String.ofList p, rest, hp, rfl, String.toList_ofList, rfl⟩

def BytesFit (bytes : List UInt8) : Prop := ListFits (fun _ : UInt8 => True) bytes

instance : DecidablePred BytesFit := fun bytes =>
  inferInstanceAs (Decidable (ListFits (fun _ : UInt8 => True) bytes))

theorem exact_readBytes :
    Exact (readList readByte) (writeMany fun byte => [byte]) BytesFit := exact_readList exact_readByte

structure FilterFits (f : Filter) : Prop where
  pattern : PatternFits f.pattern
  offset : f.offset < wordLimit
  firstByte : f.firstByte < wordLimit
  values : BytesFit f.values
  masks : BytesFit f.masks

instance : DecidablePred FilterFits := fun f =>
  decidable_of_iff (PatternFits f.pattern ∧ f.offset < wordLimit ∧ f.firstByte < wordLimit ∧
    BytesFit f.values ∧ BytesFit f.masks)
    ⟨fun ⟨hp, ho, hf, hv, hm⟩ => ⟨hp, ho, hf, hv, hm⟩,
      fun h => ⟨h.pattern, h.offset, h.firstByte, h.values, h.masks⟩⟩

theorem exact_readFilter : Exact readFilter writeFilter FilterFits := by
  intro bytes f rest
  simp only [readFilter, exact_readPattern.bind_iff, exact_readNat.bind_iff,
    exact_readBytes.bind_iff, pure_eq_ok_iff, Prod.mk.injEq]
  constructor
  · rintro ⟨pattern, _, hpattern, rfl, offset, _, hoffset, rfl, firstByte, _, hfirst, rfl,
      values, _, hvalues, rfl, masks, _, hmasks, rfl, rfl, rfl⟩
    exact ⟨⟨hpattern, hoffset, hfirst, hvalues, hmasks⟩, by simp [writeFilter]⟩
  · rintro ⟨⟨hpattern, hoffset, hfirst, hvalues, hmasks⟩, rfl⟩
    refine ⟨f.pattern, _, hpattern, ?_, f.offset, _, hoffset, rfl, f.firstByte, _, hfirst, rfl,
      f.values, _, hvalues, rfl, f.masks, rest, hmasks, rfl, rfl, rfl⟩
    simp [writeFilter]

def EntryFits (entry : ListEntry) : Prop := TextFits entry.uri ∧ FilterFits entry.filter

instance : DecidablePred EntryFits := fun entry =>
  inferInstanceAs (Decidable (TextFits entry.uri ∧ FilterFits entry.filter))

theorem exact_readEntry : Exact readEntry writeEntry EntryFits :=
  exact_readText.both exact_readFilter ListEntry.mk ListEntry.uri ListEntry.filter
    fun uri filter entry => by cases entry; simp

/-- What a node of a trie holds beside its branches. -/
abbrev TrieHead := Option String × Filter

def readTrieHead : Reader TrieHead := fun bytes => do
  let (uri, bytes) ← readOption readText bytes
  let (filter, bytes) ← readFilter bytes
  return ((uri, filter), bytes)

def writeTrieHead (head : TrieHead) : List UInt8 :=
  writeOption writeText head.1 ++ writeFilter head.2

def TrieHeadFits (head : TrieHead) : Prop := OptionFits TextFits head.1 ∧ FilterFits head.2

instance : DecidablePred TrieHeadFits := fun head =>
  inferInstanceAs (Decidable (OptionFits TextFits head.1 ∧ FilterFits head.2))

theorem exact_readTrieHead : Exact readTrieHead writeTrieHead TrieHeadFits :=
  (exact_readOption exact_readText).both exact_readFilter Prod.mk Prod.fst Prod.snd
    fun uri filter head => by cases head; simp

def TrieFits : Trie → Prop
  | .empty => True
  | .node uri filter one zero => TrieHeadFits (uri, filter) ∧ TrieFits one ∧ TrieFits zero

instance decidableTrieFits : DecidablePred TrieFits
  | .empty => inferInstanceAs (Decidable True)
  | .node uri filter one zero =>
    have := decidableTrieFits one
    have := decidableTrieFits zero
    inferInstanceAs (Decidable (TrieHeadFits (uri, filter) ∧ TrieFits one ∧ TrieFits zero))

theorem branching_trie : Branching readTrieHead writeTrieHead TrieHeadFits readTrieWithin writeTrie
    TrieFits .empty (fun head one zero => .node head.1 head.2 one zero) where
  exact_head := exact_readTrieHead
  cases_tree
    | .empty => .inl rfl
    | .node uri filter one zero => .inr ⟨(uri, filter), one, zero, rfl⟩
  fits_empty := trivial
  fits_node _ _ _ := Iff.rfl
  write_empty := rfl
  write_node head one zero := by simp [writeTrie, writeTrieHead]
  within_zero _ := rfl
  within_succ steps bytes := by simp only [readTrieWithin, readTrieHead, bind_assoc, pure_bind]

theorem exact_readTrie : Exact readTrie writeTrie TrieFits := fun bytes _ _ =>
  branching_trie.within_eq_ok_iff (Nat.le_refl bytes.length)

def BranchFits (b : Branch) : Prop := TextFits b.uri ∧ FilterFits b.filter

instance : DecidablePred BranchFits := fun b =>
  inferInstanceAs (Decidable (TextFits b.uri ∧ FilterFits b.filter))

theorem exact_readBranch : Exact readBranch writeBranch BranchFits := by
  intro bytes b rest
  simp only [readBranch, exact_readText.bind_iff, exact_readFilter.bind_iff,
    exact_readNat.bind_iff, pure_eq_ok_iff, Prod.mk.injEq]
  constructor
  · rintro ⟨uri, _, huri, rfl, filter, _, hfilter, rfl, bits, _, hbits, rfl, rfl, rfl⟩
    refine ⟨⟨huri, hfilter⟩, ?_⟩
    have hweight : (UInt64.ofNat bits).toNat = bits := UInt64.toNat_ofNat_of_lt' hbits
    simp [writeBranch, hweight]
  · rintro ⟨⟨huri, hfilter⟩, rfl⟩
    refine ⟨b.uri, _, huri, ?_, b.filter, _, hfilter, rfl, b.weight.bits.toNat, rest,
      b.weight.bits.toNat_lt, rfl, ?_, rfl⟩
    · simp [writeBranch]
    · rw [UInt64.ofNat_toNat]

def TreeFits : WeightedTree → Prop
  | .nil => True
  | .node b below rest => BranchFits b ∧ TreeFits below ∧ TreeFits rest

instance decidableTreeFits : DecidablePred TreeFits
  | .nil => inferInstanceAs (Decidable True)
  | .node b below rest =>
    have := decidableTreeFits below
    have := decidableTreeFits rest
    inferInstanceAs (Decidable (BranchFits b ∧ TreeFits below ∧ TreeFits rest))

theorem branching_tree : Branching readBranch writeBranch BranchFits readTreeWithin writeTree
    TreeFits .nil .node where
  exact_head := exact_readBranch
  cases_tree
    | .nil => .inl rfl
    | .node b below rest => .inr ⟨b, below, rest, rfl⟩
  fits_empty := trivial
  fits_node _ _ _ := Iff.rfl
  write_empty := rfl
  write_node b below rest := by simp [writeTree]
  within_zero _ := rfl
  within_succ _ _ := rfl

theorem exact_readTree : Exact readTree writeTree TreeFits := fun bytes _ _ =>
  branching_tree.within_eq_ok_iff (Nat.le_refl bytes.length)

end Blob

namespace EngineKind

theorem tag_inj {kind kind' : EngineKind} : kind.tag = kind'.tag ↔ kind = kind' := by
  cases kind <;> cases kind' <;> decide

theorem find_tag (kind : EngineKind) : (all.find? fun k => k.tag = kind.tag) = some kind := by
  cases kind <;> decide

theorem tag_fits (kind : EngineKind) : Blob.TextFits kind.tag := by
  cases kind <;> decide

end EngineKind

namespace Engine
open Blob

/-- Engines as a memory can hold them: all numbers and all lengths fit in a word. -/
def Fits : Engine → Prop
  | list entries => ListFits EntryFits entries
  | patriciaTrie trie => TrieFits trie
  | weightedTree tree => TreeFits tree
  | splayTree tree => TreeFits tree

instance : DecidablePred Fits
  | list entries => inferInstanceAs (Decidable (ListFits EntryFits entries))
  | patriciaTrie trie => inferInstanceAs (Decidable (TrieFits trie))
  | weightedTree tree => inferInstanceAs (Decidable (TreeFits tree))
  | splayTree tree => inferInstanceAs (Decidable (TreeFits tree))

variable {kind : EngineKind} {engine : Engine} {bytes : List UInt8}

theorem map_eq_ok_iff {α β : Type} {x : Except BlobFault α} {f : α → β} {b : β} :
    x.map f = .ok b ↔ ∃ a, x = .ok a ∧ f a = b := by
  cases x <;> simp [Except.map]

theorem exact_readBody (kind : EngineKind) :
    Exact (readBody kind) writeBody fun engine => engine.kind = kind ∧ engine.Fits := by
  intro bytes engine rest
  cases kind <;> cases engine <;>
    simp [readBody, map_eq_ok_iff, exact_readList exact_readEntry bytes, exact_readTrie bytes,
      exact_readTree bytes, Engine.kind, Fits, writeBody]

theorem readAs_eq_ok_iff {body : List UInt8} : readAs kind body = .ok engine ↔
    (engine.kind = kind ∧ engine.Fits) ∧ writeBody engine <+: body := by
  have hbody (engine : Engine) := exact_readBody kind body engine
  unfold readAs
  constructor
  · intro h
    cases hread : readBody kind body with
    | error fault => simp [hread] at h
    | ok found =>
      obtain ⟨engine', rest⟩ := found
      simp only [hread, Except.ok.injEq] at h
      obtain ⟨hfits, hbytes⟩ := (hbody _ rest).mp (h ▸ hread)
      exact ⟨hfits, rest, hbytes.symm⟩
  · rintro ⟨hfits, rest, hbytes⟩
    rw [(hbody engine rest).mpr ⟨hfits, hbytes.symm⟩]

theorem readText_toBytes (engine : Engine) (rest : List UInt8) :
    readText (engine.toBytes ++ rest) = .ok (engine.kind.tag, writeBody engine ++ rest) :=
  (exact_readText _ _ _).mpr ⟨engine.kind.tag_fits, List.append_assoc ..⟩

/-- An engine of one kind is read from what begins with an engine of this kind. -/
theorem ofBytesAs_eq_ok_iff : ofBytesAs kind bytes = .ok engine ↔
    engine.kind = kind ∧ engine.Fits ∧ engine.toBytes <+: bytes := by
  constructor
  · intro h
    unfold ofBytesAs at h
    cases hread : readText bytes with
    | error fault => simp [hread] at h
    | ok found =>
      obtain ⟨tag, body⟩ := found
      obtain ⟨-, rfl⟩ := (exact_readText _ _ _).mp hread
      simp only [hread] at h
      split at h
      · rename_i htag
        obtain ⟨⟨hkind, hfits⟩, rest, rfl⟩ := readAs_eq_ok_iff.mp h
        exact ⟨hkind, hfits, rest, by rw [toBytes, hkind, htag, List.append_assoc]⟩
      · simp at h
  · rintro ⟨rfl, hfits, rest, rfl⟩
    simp only [ofBytesAs, readText_toBytes, if_pos]
    exact readAs_eq_ok_iff.mpr ⟨⟨rfl, hfits⟩, rest, rfl⟩

theorem ofBytes_of_tag {body : List UInt8} (h : readText bytes = .ok (kind.tag, body)) :
    ofBytes bytes = readAs kind body := by
  simp only [ofBytes, h, kind.find_tag]

theorem ofBytes_eq_ok_iff_ofBytesAs :
    ofBytes bytes = .ok engine ↔ ofBytesAs engine.kind bytes = .ok engine := by
  constructor
  · intro h
    cases hread : readText bytes with
    | error fault => simp [ofBytes, hread] at h
    | ok found =>
      obtain ⟨tag, body⟩ := found
      simp only [ofBytes, hread] at h
      split at h
      · rename_i kind hfind
        have htag : kind.tag = tag := by simpa using List.find?_some hfind
        have hkind := (readAs_eq_ok_iff.mp h).1.1
        simp only [ofBytesAs, hread, hkind, if_pos htag.symm, h]
      · simp at h
  · intro h
    obtain ⟨-, hfits, rest, rfl⟩ := ofBytesAs_eq_ok_iff.mp h
    rw [ofBytes_of_tag (readText_toBytes engine rest)]
    exact readAs_eq_ok_iff.mpr ⟨⟨rfl, hfits⟩, rest, rfl⟩

/-- An engine is read from exactly what begins with it. -/
theorem ofBytes_eq_ok_iff :
    ofBytes bytes = .ok engine ↔ engine.Fits ∧ engine.toBytes <+: bytes := by
  rw [ofBytes_eq_ok_iff_ofBytesAs, ofBytesAs_eq_ok_iff]
  exact and_iff_right rfl

theorem ofBytesAs_of_ne (engine : Engine) (rest : List UInt8) (h : kind ≠ engine.kind) :
    ofBytesAs kind (engine.toBytes ++ rest) =
      .error (.typeMismatch kind.tag engine.kind.tag) := by
  have htag : engine.kind.tag ≠ kind.tag := fun heq => h (EngineKind.tag_inj.mp heq.symm)
  simp only [ofBytesAs, readText_toBytes, if_neg htag]

/-- What ends too early, in the tag or anywhere after it, cannot be read. -/
theorem ofBytes_of_cut (hfits : engine.Fits) {cut more : List UInt8}
    (hcut : cut ++ more = engine.toBytes) (hmore : more ≠ []) :
    ∃ fault, ofBytes cut = .error (.serialization fault) := by
  cases hread : readText cut with
  | error fault => exact ⟨fault, by simp only [ofBytes, hread]⟩
  | ok found =>
    obtain ⟨tag, body⟩ := found
    obtain ⟨htag, rfl⟩ := (exact_readText _ _ _).mp hread
    have hwhole := readText_toBytes engine []
    rw [List.append_nil, List.append_nil, ← hcut, List.append_assoc,
      (exact_readText _ _ _).mpr ⟨htag, rfl⟩] at hwhole
    obtain ⟨rfl, hbody⟩ := Prod.mk.inj (Except.ok.inj hwhole)
    rw [ofBytes_of_tag hread, readAs]
    cases hinner : readBody engine.kind body with
    | error fault => exact ⟨fault, rfl⟩
    | ok found =>
      exact absurd ((exact_readBody _).more_eq_nil ⟨rfl, hfits⟩ hbody hinner) hmore

/-- What an engine is stored as gives it back, whatever follows, to a reader of any kind or of
its own. Readers of the other kinds name both kinds, and no part that ends earlier can be read. -/
theorem stored_reads_back (engine : Engine) (hfits : engine.Fits) :
    (∀ rest, ofBytes (engine.toBytes ++ rest) = .ok engine ∧
      ofBytesAs engine.kind (engine.toBytes ++ rest) = .ok engine ∧
      ∀ kind, kind ≠ engine.kind → ofBytesAs kind (engine.toBytes ++ rest) =
        .error (.typeMismatch kind.tag engine.kind.tag)) ∧
    ∀ cut, cut <+: engine.toBytes → cut ≠ engine.toBytes →
      ∃ fault, ofBytes cut = .error (.serialization fault) := by
  constructor
  · intro rest
    have hpre := List.prefix_append engine.toBytes rest
    exact ⟨ofBytes_eq_ok_iff.mpr ⟨hfits, hpre⟩, ofBytesAs_eq_ok_iff.mpr ⟨rfl, hfits, hpre⟩,
      fun kind hkind => ofBytesAs_of_ne engine rest hkind⟩
  · rintro cut ⟨more, hcut⟩ hne
    refine ofBytes_of_cut hfits hcut ?_
    rintro rfl
    exact hne (by rw [← hcut, List.append_nil])

/-- A tree with one branch below another, whose weight is not a number. -/
def sampleEngine : Engine :=
  splayTree (.node ⟨"first", Filter.encode ['0', '1'] 0, ⟨0x7FF8000000000001⟩⟩
    (.node ⟨"below", Filter.encode ['1'] 2, Weight.zero⟩ .nil .nil) .nil)

theorem stored_reads_back_sample :
    ofBytes (sampleEngine.toBytes ++ [7]) = .ok sampleEngine ∧
      ofBytesAs .list (sampleEngine.toBytes ++ [7]) =
        .error (.typeMismatch "Engine:List" "Engine:SplayTree") ∧
      ∃ fault, ofBytes (sampleEngine.toBytes.take 30) = .error (.serialization fault) := by
  have hfits : sampleEngine.Fits := by decide
  obtain ⟨hback, hcut⟩ := stored_reads_back sampleEngine hfits
  obtain ⟨hown, -, hother⟩ := hback [7]
  exact ⟨hown, hother .list (by decide), hcut _ (List.take_prefix _ _) (by decide)⟩

/-- Reading takes up all that it gives back: whatever is read as an engine begins with what that
engine is stored as, so there is one way to store it. The reader of any kind and those of one
kind agree, and no two of the latter accept the same bytes. -/
theorem reading_loses_nothing :
    (∀ bytes engine, ofBytes bytes = .ok engine → engine.toBytes <+: bytes) ∧
    (∀ bytes bytes' engine, ofBytes bytes = .ok engine → ofBytes bytes' = .ok engine →
      ∃ rest rest', bytes = engine.toBytes ++ rest ∧ bytes' = engine.toBytes ++ rest' ∧
        ofBytes engine.toBytes = .ok engine) ∧
    (∀ bytes kind engine, ofBytesAs kind bytes = .ok engine ↔
      ofBytes bytes = .ok engine ∧ engine.kind = kind) ∧
    ∀ bytes kind kind' engine engine', ofBytesAs kind bytes = .ok engine →
      ofBytesAs kind' bytes = .ok engine' → kind = kind' := by
  have hkinds : ∀ bytes kind engine, ofBytesAs kind bytes = .ok engine ↔
      ofBytes bytes = .ok engine ∧ engine.kind = kind := by
    intro bytes kind engine
    rw [ofBytesAs_eq_ok_iff, ofBytes_eq_ok_iff, and_comm]
  refine ⟨fun bytes engine h => (ofBytes_eq_ok_iff.mp h).2, ?_, hkinds, ?_⟩
  · intro bytes bytes' engine h h'
    obtain ⟨hfits, rest, hrest⟩ := ofBytes_eq_ok_iff.mp h
    obtain ⟨-, rest', hrest'⟩ := ofBytes_eq_ok_iff.mp h'
    exact ⟨rest, rest', hrest.symm, hrest'.symm,
      ofBytes_eq_ok_iff.mpr ⟨hfits, List.prefix_refl _⟩⟩
  · intro bytes kind kind' engine engine' h h'
    obtain ⟨hread, hkind⟩ := (hkinds _ _ _).mp h
    obtain ⟨hread', hkind'⟩ := (hkinds _ _ _).mp h'
    rw [hread, Except.ok.injEq] at hread'
    rw [← hkind, ← hkind', hread']

theorem reading_loses_nothing_sample :
    sampleEngine.toBytes <+: sampleEngine.toBytes ++ [7] ∧
      ofBytesAs .splayTree (sampleEngine.toBytes ++ [7]) = .ok sampleEngine := by
  have hread : ofBytes (sampleEngine.toBytes ++ [7]) = .ok sampleEngine :=
    ofBytes_eq_ok_iff.mpr ⟨by decide, List.prefix_append _ _⟩
  obtain ⟨hstored, -, hkinds, -⟩ := reading_loses_nothing
  exact ⟨hstored _ _ hread, (hkinds _ .splayTree _).mpr ⟨hread, rfl⟩⟩

end Engine
end TagFilter
