import TagFilter.Proofs.Literals
import TagFilter.Proofs.Subscriptions
import TagFilter.Proofs.Text.Lines
import TagFilter.Subscription.Csv

/-! # Texts that subscriptions are read from

The records of a text stand on its lines, one on each that has something to read. All of
them are read before any counts, so a text is refused for the first line that is no record,
and a map that is read has for each pattern what the last record with it says.
-/
namespace TagFilter
open Decimal Text

theorem Text.fields_eq_splitOn (separator : Char) (text : List Char) :
    fields separator text = text.splitOn separator := by
  induction text with
  | nil => rfl
  | cons c rest ih =>
    rw [fields, List.splitOn_cons_eq_if_modifyHead, ih]
    simp only [beq_iff_eq]
    split
    · rfl
    · cases hrest : rest.splitOn separator with
      | nil => exact absurd hrest (List.splitOn_ne_nil separator rest)
      | cons first more => rfl

theorem Pattern.exists_symbol {p : Pattern} (h : ¬ p.Digital) : ∃ before c after,
    p = before ++ c :: after ∧ Pattern.Digital before ∧ c ≠ '0' ∧ c ≠ '1' := by
  induction p with
  | nil => exact absurd (List.forall_mem_nil _) h
  | cons d rest ih =>
    by_cases hd : d = '0' ∨ d = '1'
    · have hrest : ¬ Pattern.Digital rest := fun hrest => h (List.forall_mem_cons.mpr ⟨hd, hrest⟩)
      obtain ⟨before, c, after, rfl, hbefore, hc⟩ := ih hrest
      exact ⟨d :: before, c, after, rfl, List.forall_mem_cons.mpr ⟨hd, hbefore⟩, hc⟩
    · exact ⟨[], d, rest, rfl, List.forall_mem_nil _, not_or.mp hd⟩

/-- A pattern is refused for its first character that is no digit. -/
theorem Pattern.validate_symbol {before : Pattern} {c : Char} (after : Pattern)
    (hbefore : before.Digital) (hzero : c ≠ '0') (hone : c ≠ '1') :
    Pattern.validate false (before ++ c :: after) =
      .error (.invalidPattern (before ++ c :: after) c before.length) := by
  have hnone : before.firstRefused false = none := by
    have hvalid := Pattern.validate_iff.mpr hbefore
    unfold Pattern.validate at hvalid
    split at hvalid
    · cases hvalid
    · assumption
  have hrefused : Pattern.firstRefused false (before ++ c :: after) = some (c, before.length) := by
    unfold Pattern.firstRefused at hnone ⊢
    rw [List.zipIdx_append, List.find?_append, hnone, Option.none_or, List.zipIdx_cons,
      List.find?_cons_of_pos (by simp [Pattern.isAllowed, hzero, hone]), Nat.zero_add]
  rw [Pattern.validate, hrefused]

namespace Record

variable {line uri pattern : List Char} {fields more : List (List Char)} {number : Nat}
  {weight : Weight} {record : Record} {e : FilterError}

/-- The fields of a line, without the blanks around them. -/
def fieldsOf (line : List Char) : List (List Char) := (line.splitOn ',').map trim

/-- The weight that the fields after the pattern stand for. -/
inductive Weighs : List (List Char) → Weight → Prop where
  | absent : Weighs [] Weight.zero
  | present {field : List Char} {value : Weight} (h : readLiteral field = .ok value) :
    Weighs [field] value

/-- What the fields of a record say. -/
structure Tells (fields : List (List Char)) (record : Record) : Prop where
  exists_weighs : ∃ more, fields = record.uri :: record.pattern :: more ∧ Weighs more record.weight
  uri : record.uri ≠ []
  pattern : record.pattern ≠ []
  digital : record.pattern.Digital

/-- Two or three fields: a URI, a pattern of digits, and a number if there is a third. -/
def WellFormed (fields : List (List Char)) : Prop :=
  ∃ uri pattern more, fields = uri :: pattern :: more ∧ uri ≠ [] ∧ pattern ≠ [] ∧
    Pattern.Digital pattern ∧ (more = [] ∨ ∃ field, more = [field] ∧ IsLiteral field)

/-- What is wrong with the fields of a line with a number, by the first of the checks that
they do not pass. -/
inductive Offends (number : Nat) : List (List Char) → FilterError → Prop where
  | count {fields : List (List Char)} (htwo : fields.length ≠ 2) (hthree : fields.length ≠ 3) :
    Offends number fields (.source (.record number (.fieldCount fields.length)))
  | weight {uri pattern field : List Char} (h : ¬ IsLiteral field) :
    Offends number [uri, pattern, field] (.source (.record number
      (.badWeight field (if field = [] then .empty else .malformed))))
  | uri {pattern : List Char} {more : List (List Char)} {value : Weight} (h : Weighs more value) :
    Offends number ([] :: pattern :: more) (.source (.record number .emptyUri))
  | pattern {uri : List Char} {more : List (List Char)} {value : Weight} (h : Weighs more value)
    (huri : uri ≠ []) :
    Offends number (uri :: [] :: more) (.source (.record number .emptyPattern))
  | symbol {uri before after : List Char} {c : Char} {more : List (List Char)} {value : Weight}
    (h : Weighs more value) (huri : uri ≠ []) (hbefore : Pattern.Digital before)
    (hzero : c ≠ '0') (hone : c ≠ '1') :
    Offends number (uri :: (before ++ c :: after) :: more)
      (.invalidPattern (before ++ c :: after) c before.length)

theorem wellFormed_iff : WellFormed fields ↔ ∃ record, Tells fields record := by
  constructor
  · rintro ⟨uri, pattern, more, rfl, huri, hpattern, hdigital, rfl | ⟨field, rfl, hfield⟩⟩
    · exact ⟨⟨uri, pattern, Weight.zero⟩, ⟨[], rfl, .absent⟩, huri, hpattern, hdigital⟩
    · obtain ⟨value, hvalue⟩ := exists_readLiteral_eq_ok_iff.mpr hfield
      exact ⟨⟨uri, pattern, value⟩, ⟨[field], rfl, .present hvalue⟩, huri, hpattern, hdigital⟩
  · rintro ⟨⟨uri, pattern, weight⟩, ⟨more, rfl, hweighs⟩, huri, hpattern, hdigital⟩
    refine ⟨uri, pattern, more, rfl, huri, hpattern, hdigital, ?_⟩
    cases hweighs with
    | absent => exact .inl rfl
    | present hvalue => exact .inr ⟨_, rfl, exists_readLiteral_eq_ok_iff.mp ⟨_, hvalue⟩⟩

theorem make_eq_ok_iff : make uri pattern weight = .ok record ↔
    uri ≠ [] ∧ pattern ≠ [] ∧ record = ⟨uri, pattern, weight⟩ := by
  unfold make
  by_cases huri : uri = []
  · simp [huri]
  · by_cases hpattern : pattern = []
    · simp [huri, hpattern]
    · simp [huri, hpattern, eq_comm]

theorem make_eq_error_iff {fault : RecordFault} : make uri pattern weight = .error fault ↔
    (uri = [] ∧ fault = .emptyUri) ∨ (uri ≠ [] ∧ pattern = [] ∧ fault = .emptyPattern) := by
  unfold make
  by_cases huri : uri = []
  · simp [huri, eq_comm]
  · by_cases hpattern : pattern = []
    · simp [huri, hpattern, eq_comm]
    · simp [huri, hpattern]

theorem ofLine_of_weighs (h : fieldsOf line = uri :: pattern :: more) (hmore : Weighs more weight) :
    ofLine line = make uri pattern weight := by
  unfold ofLine
  rw [fields_eq_splitOn, ← fieldsOf, h]
  cases hmore with
  | absent => rfl
  | present hvalue => simp only [hvalue]

/-- The fields of a line have a URI, a pattern and a weight, or a third one that is no
number, or they are too few or too many. -/
theorem ofLine_cases (line : List Char) :
    (∃ uri pattern more weight, fieldsOf line = uri :: pattern :: more ∧ Weighs more weight ∧
      ofLine line = make uri pattern weight) ∨
    (∃ uri pattern field, fieldsOf line = [uri, pattern, field] ∧ ¬ IsLiteral field ∧
      ofLine line = .error (.badWeight field (if field = [] then .empty else .malformed))) ∨
    ((fieldsOf line).length ≠ 2 ∧ (fieldsOf line).length ≠ 3 ∧
      ofLine line = .error (.fieldCount (fieldsOf line).length)) := by
  match hfields : fieldsOf line with
  | [uri, pattern] => exact .inl ⟨_, _, _, _, rfl, .absent, ofLine_of_weighs hfields .absent⟩
  | [uri, pattern, field] =>
    cases hread : readLiteral field with
    | ok value =>
      have hmore := Weighs.present hread
      exact .inl ⟨_, _, _, _, rfl, hmore, ofLine_of_weighs hfields hmore⟩
    | error fault =>
      obtain ⟨hliteral, rfl⟩ := readLiteral_eq_error_iff.mp hread
      refine .inr (.inl ⟨uri, pattern, field, rfl, hliteral, ?_⟩)
      unfold ofLine
      rw [fields_eq_splitOn, ← fieldsOf, hfields]
      simp only [hread]
  | [] | [_] | _ :: _ :: _ :: _ :: _ =>
    refine .inr (.inr ⟨by simp, by simp, ?_⟩)
    unfold ofLine
    rw [fields_eq_splitOn, ← fieldsOf, hfields]

theorem exists_weighs_of_ofLine (h : ofLine line = .ok record) : record.uri ≠ [] ∧
    record.pattern ≠ [] ∧
    ∃ more, fieldsOf line = record.uri :: record.pattern :: more ∧ Weighs more record.weight := by
  rcases ofLine_cases line with ⟨uri, pattern, more, weight, hfields, hmore, hmake⟩ |
    ⟨_, _, _, _, _, hbad⟩ | ⟨_, _, hbad⟩
  · obtain ⟨huri, hpattern, rfl⟩ := make_eq_ok_iff.mp (hmake.symm.trans h)
    exact ⟨huri, hpattern, more, hfields, hmore⟩
  · cases hbad.symm.trans h
  · cases hbad.symm.trans h

/-- Reads the record of a numbered line, and checks its pattern. -/
def readLine (numbered : Nat × List Char) : Except FilterError Record :=
  match ofLine numbered.2 with
  | .error fault => .error (.source (.record numbered.1 fault))
  | .ok record => (record.pattern.validate false).map fun _ => record

theorem readLine_of_ofLine (h : ofLine line = .ok record) :
    readLine (number, line) = (record.pattern.validate false).map fun _ => record := by
  unfold readLine
  rw [h]

theorem readLine_eq_ok_iff (number : Nat) (line : List Char) (record : Record) :
    readLine (number, line) = .ok record ↔ Tells (fieldsOf line) record := by
  constructor
  · intro h
    cases hline : ofLine line with
    | error fault =>
      unfold readLine at h
      rw [hline] at h
      cases h
    | ok found =>
      rw [readLine_of_ofLine hline] at h
      cases hvalid : found.pattern.validate false with
      | error e =>
        rw [hvalid] at h
        cases h
      | ok =>
        rw [hvalid] at h
        obtain rfl := Except.ok.inj h
        obtain ⟨huri, hpattern, hweighs⟩ := exists_weighs_of_ofLine hline
        exact ⟨hweighs, huri, hpattern, Pattern.validate_iff.mp hvalid⟩
  · rintro ⟨⟨more, hfields, hmore⟩, huri, hpattern, hdigital⟩
    have hmake : make record.uri record.pattern record.weight = .ok record :=
      make_eq_ok_iff.mpr ⟨huri, hpattern, rfl⟩
    rw [readLine_of_ofLine ((ofLine_of_weighs hfields hmore).trans hmake),
      Pattern.validate_iff.mpr hdigital]
    rfl

theorem offends_of_readLine (h : readLine (number, line) = .error e) :
    Offends number (fieldsOf line) e := by
  cases hline : ofLine line with
  | error fault =>
    have he : e = .source (.record number fault) := by
      unfold readLine at h
      rw [hline] at h
      exact (Except.error.inj h).symm
    subst he
    rcases ofLine_cases line with ⟨uri, pattern, more, weight, hfields, hmore, hmake⟩ |
      ⟨uri, pattern, field, hfields, hfield, hbad⟩ | ⟨htwo, hthree, hbad⟩
    · rw [hfields]
      rcases make_eq_error_iff.mp (hmake.symm.trans hline) with
        ⟨rfl, rfl⟩ | ⟨huri, rfl, rfl⟩
      · exact .uri hmore
      · exact .pattern hmore huri
    · obtain rfl := Except.error.inj (hbad.symm.trans hline)
      exact hfields ▸ .weight hfield
    · obtain rfl := Except.error.inj (hbad.symm.trans hline)
      exact .count htwo hthree
  | ok record =>
    obtain ⟨huri, -, more, hfields, hmore⟩ := exists_weighs_of_ofLine hline
    rw [readLine_of_ofLine hline] at h
    have hsymbol : ¬ record.pattern.Digital := fun hdigital => by
      rw [Pattern.validate_iff.mpr hdigital] at h
      cases h
    obtain ⟨before, c, after, hpattern, hbefore, hzero, hone⟩ := Pattern.exists_symbol hsymbol
    rw [hpattern, Pattern.validate_symbol after hbefore hzero hone] at h
    obtain rfl := Except.error.inj h
    rw [hfields, hpattern]
    exact .symbol hmore huri hbefore hzero hone

theorem unread_iff : Unread (fun line record => Tells (fieldsOf line) record) line ↔
    Speaks line ∧ ¬ WellFormed (fieldsOf line) := by
  rw [Unread, wellFormed_iff, not_exists]

theorem not_unread_iff : ¬ Unread (fun line record => Tells (fieldsOf line) record) line ↔
    (Speaks line → WellFormed (fieldsOf line)) := by
  rw [unread_iff, not_and, not_not]

/-- The entry of a map that a record makes. -/
def entry (record : Record) : Subscription × Subscriptions :=
  (⟨record.pattern, String.ofList record.uri, record.weight, 0⟩, .nil)

end Record

namespace Subscriptions

variable {text rest : List Char} {records : List Record} {subs : Subscriptions} {e : FilterError}

/-- Puts what a record says into a map. -/
def putRecord (subs : Subscriptions) (record : Record) : Subscriptions :=
  put record.entry.1 record.entry.2 subs

theorem addLine_eq (subs : Subscriptions) (number : Nat) (line : List Char) :
    addLine subs (number, line) =
      if Speaks (trim line) then (Record.readLine (number, trim line)).map (putRecord subs)
      else .ok subs := by
  have hskipped : Record.isSkipped (trim line) = true ↔ ¬ Speaks (trim line) := by
    rw [Record.isSkipped, Speaks, not_and_or, not_not, not_not, Bool.or_eq_true,
      decide_eq_true_iff, decide_eq_true_iff]
  unfold addLine
  by_cases hspeaks : Speaks (trim line)
  · rw [if_neg (hskipped.not.mpr (not_not.mpr hspeaks)), if_pos hspeaks]
    cases hline : Record.ofLine (trim line) with
    | error fault =>
      unfold Record.readLine
      simp only [hline]
      rfl
    | ok record =>
      have hne := (Record.exists_weighs_of_ofLine hline).2.1
      rw [Record.readLine_of_ofLine hline]
      simp only [insert, if_neg hne]
      cases record.pattern.validate false <;> rfl
  · rw [if_pos (hskipped.mpr hspeaks), if_neg hspeaks]

/-- Adding the lines of a text is reading them all and then entering what they say. -/
theorem foldlM_addLine (number : Nat) (lines : List (List Char)) (subs : Subscriptions) :
    ((lines.zipIdx number).map fun (line, index) => (index + 1, line)).foldlM addLine subs =
      ((contentAfter number lines).mapM Record.readLine).map (List.foldl putRecord subs) := by
  induction lines generalizing number subs with
  | nil => rfl
  | cons line rest ih =>
    rw [List.zipIdx_cons, List.map_cons, List.foldlM_cons, addLine_eq, contentAfter_cons]
    split
    · rw [List.mapM_cons]
      cases Record.readLine (number + 1, trim line) with
      | error e => rfl
      | ok record =>
        simp only [Except.map, bind, Except.bind, ih]
        cases (contentAfter (number + 1) rest).mapM Record.readLine <;> rfl
    · exact ih (number + 1) subs

theorem ofCsvChars_eq (text : List Char) : ofCsvChars text =
    ((contentAfter 0 (lines text)).mapM Record.readLine).map (List.foldl putRecord .nil) :=
  foldlM_addLine 0 (lines text) .nil

theorem ofCsvChars_eq_ok_iff : ofCsvChars text = .ok subs ↔ ∃ records,
    List.Forall₂ (fun line record => Record.Tells (Record.fieldsOf line) record) (content text)
      records ∧ records.foldl putRecord .nil = subs := by
  rw [ofCsvChars_eq]
  simp only [← mapM_content_eq_ok_iff Record.readLine_eq_ok_iff]
  cases (contentAfter 0 (lines text)).mapM Record.readLine <;> simp [Except.map]

theorem ofCsvChars_eq_error_iff : ofCsvChars text = .error e ↔
    (contentAfter 0 (lines text)).mapM Record.readLine = .error e := by
  rw [ofCsvChars_eq]
  cases (contentAfter 0 (lines text)).mapM Record.readLine <;> simp [Except.map]

/-- The last record with a pattern is what a map has for it. -/
theorem get?_foldl_putRecord (records : List Record) (subs : Subscriptions) (p : Pattern) :
    (records.foldl putRecord subs).get? p =
      ((records.reverse.find? (·.pattern = p)).map Record.entry).or (subs.get? p) := by
  induction records using List.reverseRecOn with
  | nil => rfl
  | append_singleton records record ih =>
    rw [List.foldl_concat, putRecord, get?_put, List.reverse_concat, List.find?_cons, ih]
    by_cases hp : record.pattern = p
    · simp [hp, Record.entry]
    · simp [hp, Record.entry]

theorem inserted_foldl_putRecord (hsubs : subs.Inserted)
    (hrecords : ∀ record ∈ records, record.pattern ≠ [] ∧ record.pattern.Digital) :
    (records.foldl putRecord subs).Inserted := by
  induction records generalizing subs with
  | nil => exact hsubs
  | cons record records ih =>
    obtain ⟨⟨hne, hdigital⟩, hrest⟩ := List.forall_mem_cons.mp hrecords
    exact ih (hsubs.insert (insert_eq_ok_iff.mpr ⟨hne, hdigital, rfl⟩)) hrest

theorem Inserted.pairwise (h : subs.Inserted) : subs.patterns.Pairwise (· < ·) := by
  have hsorted := h.flat.sorted
  unfold Table.Sorted table at hsorted
  rw [List.pairwise_map] at hsorted
  exact List.pairwise_map.mpr hsorted

theorem proper_of_tells {lines : List (List Char)} (h : List.Forall₂
    (fun line record => Record.Tells (Record.fieldsOf line) record) lines records) :
    ∀ record ∈ records, record.pattern ≠ [] ∧ record.pattern.Digital := by
  induction h with
  | nil => exact nofun
  | cons hline _ ih => exact List.forall_mem_cons.mpr ⟨⟨hline.pattern, hline.digital⟩, ih⟩

theorem pairwise_of_ofCsvChars (h : ofCsvChars text = .ok subs) :
    subs.patterns.Pairwise (· < ·) := by
  obtain ⟨records, htells, rfl⟩ := ofCsvChars_eq_ok_iff.mp h
  exact (inserted_foldl_putRecord .nil (proper_of_tells htells)).pairwise

/-- Subscription files are read as the records on their lines say, later ones over earlier
ones, and a text with a line that is no record is refused for the first of them. -/
theorem ofCsv_exact (text : String) :
    ((∃ subs, ofCsv text = .ok subs) ↔ ∀ line ∈ lines text.toList,
      Speaks (trim line) → Record.WellFormed (Record.fieldsOf (trim line))) ∧
    (∀ subs, ofCsv text = .ok subs → ∃ records,
      List.Forall₂ (fun line record => Record.Tells (Record.fieldsOf line) record)
        (content text.toList) records ∧
      subs.patterns.Pairwise (· < ·) ∧
      ∀ p, subs.get? p = (records.reverse.find? (·.pattern = p)).map Record.entry) ∧
    (∀ e, ofCsv text = .error e → ∃ before line after,
      lines text.toList = before ++ line :: after ∧ Speaks (trim line) ∧
      ¬ Record.WellFormed (Record.fieldsOf (trim line)) ∧
      (∀ earlier ∈ before,
        Speaks (trim earlier) → Record.WellFormed (Record.fieldsOf (trim earlier))) ∧
      Record.Offends (before.length + 1) (Record.fieldsOf (trim line)) e) ∧
    ∀ rest subs subs', ofCsv text = .ok subs → ofCsv rest = .ok subs' →
      ∃ joined, ofCsv (text ++ "\n" ++ rest) = .ok joined ∧ joined.patterns.Pairwise (· < ·) ∧
        ∀ p, joined.get? p = (subs'.get? p).or (subs.get? p) := by
  refine ⟨?_, fun subs hsubs => ?_, fun e he => ?_, fun rest subs subs' hsubs hsubs' => ?_⟩
  · have herror := exists_mapM_contentAfter_eq_error_iff Record.readLine_eq_ok_iff (lines text.toList)
    simp only [← ofCsvChars_eq_error_iff] at herror
    simp only [← Record.not_unread_iff]
    cases hread : ofCsvChars text.toList with
    | ok subs =>
      rw [hread] at herror
      refine iff_of_true ⟨subs, hread⟩ fun line hline hunread => ?_
      obtain ⟨e, he⟩ := herror.mpr ⟨line, hline, hunread⟩
      cases he
    | error e =>
      obtain ⟨line, hline, hunread⟩ := herror.mp ⟨e, hread⟩
      exact iff_of_false (fun ⟨subs, hsubs⟩ => by cases hread.symm.trans hsubs)
        fun hall => hall line hline hunread
  · obtain ⟨records, htells, rfl⟩ := ofCsvChars_eq_ok_iff.mp hsubs
    refine ⟨records, htells, pairwise_of_ofCsvChars hsubs, fun p => ?_⟩
    rw [get?_foldl_putRecord]
    exact Option.or_none
  · rw [ofCsv, ofCsvChars_eq_error_iff, mapM_contentAfter_eq_error_iff Record.readLine_eq_ok_iff 0]
      at he
    obtain ⟨_, _, ⟨before, line, after, hsplit, rfl, rfl, hunread, hbefore⟩, herror⟩ := he
    rw [Nat.zero_add] at herror
    obtain ⟨hspeaks, hbad⟩ := Record.unread_iff.mp hunread
    exact ⟨before, line, after, hsplit, hspeaks, hbad,
      fun earlier hearlier => Record.not_unread_iff.mp (hbefore earlier hearlier),
      Record.offends_of_readLine herror⟩
  · obtain ⟨records, htells, rfl⟩ := ofCsvChars_eq_ok_iff.mp hsubs
    obtain ⟨records', htells', rfl⟩ := ofCsvChars_eq_ok_iff.mp hsubs'
    have hjoined : ofCsv (text ++ "\n" ++ rest) = .ok ((records ++ records').foldl putRecord .nil) := by
      refine ofCsvChars_eq_ok_iff.mpr ⟨records ++ records', ?_, rfl⟩
      have htext : (text ++ "\n" ++ rest).toList = text.toList ++ '\n' :: rest.toList := by
        simp [String.toList_append]
      rw [htext, content_append]
      exact List.rel_append htells htells'
    refine ⟨_, hjoined, pairwise_of_ofCsvChars hjoined, fun p => ?_⟩
    rw [List.foldl_append, get?_foldl_putRecord records' (List.foldl putRecord .nil records),
      get?_foldl_putRecord records' .nil]
    exact congrArg (Option.or · _) Option.or_none.symm

theorem ofCsv_exact_sample :
    ofCsv "u, 0011 ,inf\r\n# v\n" = .ok (.node ⟨"0011".toList, "u", Weight.infinity, 0⟩ .nil .nil) ∧
    ofCsv "v,0011" = .ok (.node ⟨"0011".toList, "v", Weight.zero, 0⟩ .nil .nil) ∧
    (∃ joined, ofCsv ("u, 0011 ,inf\r\n# v\n" ++ "\n" ++ "v,0011") = .ok joined ∧
      joined.get? "0011".toList = some (⟨"0011".toList, "v", Weight.zero, 0⟩, .nil)) ∧
    ofCsv "\nv,0x1" = .error (.invalidPattern "0x1".toList 'x' 1) ∧
    ∃ before line after, lines "\nv,0x1".toList = before ++ line :: after ∧ Speaks (trim line) ∧
      Record.Offends (before.length + 1) (Record.fieldsOf (trim line))
        (.invalidPattern "0x1".toList 'x' 1) := by
  have hfirst : ofCsv "u, 0011 ,inf\r\n# v\n" =
      .ok (.node ⟨"0011".toList, "u", Weight.infinity, 0⟩ .nil .nil) := by decide +kernel
  have hsecond : ofCsv "v,0011" = .ok (.node ⟨"0011".toList, "v", Weight.zero, 0⟩ .nil .nil) := by
    decide +kernel
  have hrefused : ofCsv "\nv,0x1" = .error (.invalidPattern "0x1".toList 'x' 1) := by
    decide +kernel
  refine ⟨hfirst, hsecond, ?_, hrefused, ?_⟩
  · obtain ⟨joined, hjoined, -, hget⟩ := (ofCsv_exact _).2.2.2 _ _ _ hfirst hsecond
    exact ⟨joined, hjoined, hget _⟩
  · obtain ⟨before, line, after, hsplit, hspeaks, -, -, hoffends⟩ :=
      (ofCsv_exact _).2.2.1 _ hrefused
    exact ⟨before, line, after, hsplit, hspeaks, hoffends⟩

end Subscriptions
end TagFilter
