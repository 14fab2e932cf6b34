import TagFilter.Proofs.Text.Hex
import TagFilter.Proofs.Text.Lines
import TagFilter.Traffic

/-! # Texts that identifiers are written in

A traffic file holds one identifier to a line, with blanks around it, and blank lines and
comments in between. A text is read as the identifiers that it holds in this way, so the
identifiers that are read from any text can be written down again. A text that holds none
this way is refused for its first line that has something to read and is not written in
pairs of digits.
-/
namespace TagFilter.Traffic
open Text

variable {text line ending rest : List Char} {ids held : List Identifier} {id : Identifier}

/-- Digits of an identifier, two to a byte, each in either case. -/
def Writes (digits : List Char) (id : Identifier) : Prop :=
  digits.map Char.toLower = Hex.encode id

/-- What a line holds: nothing if it is blank or a comment, or else one identifier. -/
inductive Holds : List Char → List Identifier → Prop where
  | blank {line : List Char} (hline : ∀ c ∈ line, isBlank c = true) : Holds line []
  | comment {left : List Char} (note : List Char) (hleft : ∀ c ∈ left, isBlank c = true) :
    Holds (left ++ '#' :: note) []
  | identifier {left digits right : List Char} {id : Identifier}
    (hleft : ∀ c ∈ left, isBlank c = true) (hdigits : Writes digits id) (hne : id ≠ [])
    (hright : ∀ c ∈ right, isBlank c = true) : Holds (left ++ digits ++ right) [id]

/-- How a line ends in front of the rest of a text. The last line may have no ending. -/
def Ends (ending rest : List Char) : Prop :=
  ending = ['\n'] ∨ ending = ['\r', '\n'] ∨ ending = [] ∧ rest = []

/-- A text that some identifiers are written in, one line after the other. -/
inductive Renders : List Identifier → List Char → Prop where
  | nil : Renders [] []
  | line {line ending rest : List Char} {held ids : List Identifier} (hline : Holds line held)
    (hfeed : '\n' ∉ line) (hends : Ends ending rest) (hrest : Renders ids rest) :
    Renders (held ++ ids) (line ++ ending ++ rest)

/-- Identifiers in lower case, each on a line of its own. -/
def written (ids : List Identifier) : List Char := ids.flatMap fun id => Hex.encode id ++ ['\n']

/-- A line with something to read that is not written in pairs of digits. -/
def Faulty (line : List Char) : Prop :=
  Speaks line ∧ (line.length % 2 = 1 ∨ ∃ c ∈ line, c ∉ Hex.digits)

theorem mem_digits_of_writes (h : Writes line id) : ∀ c ∈ line, c ∈ Hex.digits :=
  (Hex.exists_encode_eq_iff.mp ⟨id, h⟩).2

theorem isBlank_of_mem_digits {c : Char} (h : c ∈ Hex.digits) : isBlank c = false := by
  have hdigits : Hex.digits.all (fun d => !isBlank d) = true := rfl
  simpa using List.all_eq_true.mp hdigits c h

theorem trim_of_writes (h : Writes line id) : trim line = line :=
  trim_eq_self fun c hc => isBlank_of_mem_digits (mem_digits_of_writes h c hc)

theorem writes_nil_iff : Writes [] id ↔ id = [] := by
  rw [Writes, List.map_nil, eq_comm, Hex.encode_eq_nil_iff]

theorem ne_nil_of_writes (h : Writes line id) (hline : line ≠ []) : id ≠ [] := by
  rintro rfl
  exact hline (List.map_eq_nil_iff.mp h)

theorem speaks_of_writes (h : Writes line id) (hne : id ≠ []) : Speaks line := by
  refine ⟨?_, fun hhead => ?_⟩
  · rintro rfl
    exact hne (writes_nil_iff.mp h)
  · have hmem := mem_digits_of_writes h '#' (List.mem_of_head? hhead)
    simp [Hex.digits] at hmem

/-- A line holds what there is to read in it. -/
theorem holds_iff (h : '\n' ∉ line) :
    Holds line held ↔ List.Forall₂ Writes (content line) held := by
  rw [content_of_unended h]
  constructor
  · intro hholds
    cases hholds with
    | blank hline =>
      rw [trim_eq_nil_iff.mpr hline]
      exact .nil
    | @comment left note hleft =>
      have hhead : (trim (left ++ '#' :: note)).head? = some '#' := by
        rw [trim_blank_append _ hleft]
        exact head?_trim rfl note
      have hsilent : ¬ Speaks (trim (left ++ '#' :: note)) := fun hspeaks => hspeaks.2 hhead
      rw [List.filter_cons_of_neg (by simpa using hsilent)]
      exact .nil
    | @identifier left digits right id hleft hdigits hne hright =>
      rw [trim_append_blank _ hright, trim_blank_append _ hleft, trim_of_writes hdigits,
        List.filter_cons_of_pos (by simpa using speaks_of_writes hdigits hne)]
      exact .cons hdigits .nil
  · intro hread
    obtain ⟨left, right, heq, hleft, hright⟩ := exists_trim line
    by_cases hspeaks : Speaks (trim line)
    · rw [List.filter_cons_of_pos (by simpa using hspeaks)] at hread
      obtain ⟨id, _, hwrites, hnil, rfl⟩ := List.forall₂_cons_left_iff.mp hread
      rw [List.forall₂_nil_left_iff.mp hnil, heq]
      exact .identifier hleft hwrites (ne_nil_of_writes hwrites hspeaks.1) hright
    · rw [List.filter_cons_of_neg (by simpa using hspeaks)] at hread
      rw [List.forall₂_nil_left_iff.mp hread]
      by_cases hnil : trim line = []
      · exact .blank (trim_eq_nil_iff.mp hnil)
      · have hhead : (trim line).head? = some '#' := by_contra fun hhead => hspeaks ⟨hnil, hhead⟩
        obtain ⟨note, hnote⟩ := List.head?_eq_some_iff.mp hhead
        rw [heq, hnote, List.append_assoc]
        exact .comment (note ++ right) hleft

theorem content_ends (hends : Ends ending rest) (h : '\n' ∉ line) :
    content (line ++ ending ++ rest) = content line ++ content rest := by
  rcases hends with rfl | rfl | ⟨rfl, rfl⟩
  · rw [List.append_assoc]
    exact content_append_of_unended rest h
  · have hreturn : '\n' ∉ line ++ ['\r'] := by simpa using h
    have hcontent : content (line ++ ['\r']) = content line := by
      rw [content_of_unended hreturn, content_of_unended h,
        trim_append_blank line (List.forall_mem_singleton.mpr rfl)]
    have hsplit : line ++ ['\r', '\n'] ++ rest = line ++ ['\r'] ++ '\n' :: rest := by simp
    rw [hsplit, content_append_of_unended rest hreturn, hcontent]
  · rw [List.append_nil, List.append_nil]
    exact (List.append_nil _).symm

theorem forall₂_of_renders (h : Renders ids text) : List.Forall₂ Writes (content text) ids := by
  induction h with
  | nil => exact .nil
  | line hline hfeed hends _ ih =>
    rw [content_ends hends hfeed]
    exact List.rel_append ((holds_iff hfeed).mp hline) ih

theorem renders_of_forall₂ (h : List.Forall₂ Writes (content text) ids) : Renders ids text := by
  induction text using lines_induction generalizing ids with
  | nil =>
    rw [List.forall₂_nil_left_iff.mp h]
    exact .nil
  | last line _ hfeed =>
    have hrenders := Renders.line ((holds_iff hfeed).mpr h) hfeed (.inr (.inr ⟨rfl, rfl⟩)) .nil
    simpa using hrenders
  | ended line rest hfeed ih =>
    rw [content_append_of_unended rest hfeed] at h
    have hheld := (List.forall₂_take_append ids (content line) (content rest) h.flip).flip
    have hids := (List.forall₂_drop_append ids (content line) (content rest) h.flip).flip
    have hrenders := Renders.line ((holds_iff hfeed).mpr hheld) hfeed (.inl rfl) (ih hids)
    simpa using hrenders

theorem readLine_eq_ok_iff (number : Nat) (line : List Char) (id : Identifier) :
    readLine (number, line) = .ok id ↔ Writes line id := by
  unfold readLine Writes
  rw [← Hex.decode_ofList_eq_ok_iff]
  cases Hex.decode (Utf8.encode (String.ofList line)) <;> simp

theorem contentLines_eq (text : List Char) : contentLines text = contentAfter 0 (lines text) := by
  have hskipped (line : List Char) : (!isSkipped line) = decide (Speaks line) := by
    rw [isSkipped, Bool.not_or, ← decide_not, ← decide_not, ← Bool.decide_and]
    rfl
  simp only [contentLines, contentAfter, numbered, List.map_map, hskipped, Function.comp_def]

/-- A text is read as the identifiers that are written in it. -/
theorem parseChars_eq_ok_iff : parseChars text = .ok ids ↔ Renders ids text := by
  rw [parseChars, contentLines_eq, mapM_content_eq_ok_iff readLine_eq_ok_iff]
  exact ⟨renders_of_forall₂, forall₂_of_renders⟩

theorem ne_nil_of_renders (h : Renders ids text) : ∀ id ∈ ids, id ≠ [] := by
  induction h with
  | nil => exact nofun
  | line hline _ _ _ ih =>
    refine List.forall_mem_append.mpr ⟨?_, ih⟩
    cases hline with
    | blank | comment => exact nofun
    | identifier _ _ hne _ => exact List.forall_mem_singleton.mpr hne

theorem renders_written (h : ∀ id ∈ ids, id ≠ []) : Renders ids (written ids) := by
  induction ids with
  | nil => exact .nil
  | cons id ids ih =>
    obtain ⟨hne, hids⟩ := List.forall_mem_cons.mp h
    have hwrites : Writes (Hex.encode id) id := Hex.map_toLower_encode id
    have hfeed : '\n' ∉ Hex.encode id := fun hmem =>
      absurd (isBlank_of_mem_digits (mem_digits_of_writes hwrites _ hmem)) (by decide)
    have hholds : Holds ([] ++ Hex.encode id ++ []) [id] :=
      .identifier nofun hwrites hne nofun
    have hrenders := Renders.line hholds (by simpa using hfeed) (.inl rfl) (ih hids)
    simpa [written] using hrenders

theorem unread_iff_faulty : Unread Writes line ↔ Faulty line := by
  unfold Unread Faulty Writes
  rw [← not_exists, Hex.exists_encode_eq_iff, not_and_or]
  simp only [Nat.mod_two_not_eq_zero, not_forall, exists_prop]

theorem line_of_readLine_eq_error {number : Nat} {fault : Fault}
    (h : readLine (number, line) = .error fault) : fault.line = number ∧ fault.digits = line := by
  unfold readLine at h
  split at h
  · cases h
  · obtain rfl := Except.error.inj h
    exact ⟨rfl, rfl⟩

theorem parseChars_eq_error {fault : Fault} (h : parseChars text = .error fault) :
    FirstUnread Writes (lines text) fault.line fault.digits := by
  rw [parseChars, contentLines_eq, mapM_contentAfter_eq_error_iff readLine_eq_ok_iff 0] at h
  obtain ⟨number, line, hunread, herror⟩ := h
  obtain ⟨hline, hdigits⟩ := line_of_readLine_eq_error herror
  rw [Nat.zero_add] at hline
  rwa [hline, hdigits]

/-- Traffic files are read as what is written in them, and a text that is nothing of that
kind is refused for its first faulty line, by the number of the line among all of them. -/
theorem parse_round_trip (text : String) :
    (∀ ids, parse text = .ok ids ↔ Renders ids text.toList) ∧
    (∀ ids, parse text = .ok ids →
      (∀ id ∈ ids, id ≠ []) ∧ parse (String.ofList (written ids)) = .ok ids) ∧
    ((∃ fault, parse text = .error fault) ↔ ∃ line ∈ lines text.toList, Faulty (trim line)) ∧
    ∀ fault, parse text = .error fault → ∃ before line after,
      lines text.toList = before ++ line :: after ∧ Faulty (trim line) ∧
      (∀ earlier ∈ before, ¬ Faulty (trim earlier)) ∧
      fault.line = before.length + 1 ∧ fault.digits = trim line ∧
      fault.failure.contexts = ["line " ++ toString (before.length + 1) ++ ": bad hex " ++
        Quoted.chars (trim line)] := by
  refine ⟨fun ids => parseChars_eq_ok_iff, fun ids hids => ?_, ?_, fun fault hfault => ?_⟩
  · have hne := ne_nil_of_renders (parseChars_eq_ok_iff.mp hids)
    refine ⟨hne, ?_⟩
    rw [parse, String.toList_ofList, parseChars_eq_ok_iff]
    exact renders_written hne
  · simp only [parse, parseChars, contentLines_eq, ← unread_iff_faulty]
    exact exists_mapM_contentAfter_eq_error_iff readLine_eq_ok_iff (lines text.toList)
  · obtain ⟨before, line, after, hsplit, hline, hdigits, hunread, hbefore⟩ :=
      parseChars_eq_error hfault
    simp only [unread_iff_faulty, hdigits] at hunread hbefore
    refine ⟨before, line, after, hsplit, hunread, hbefore, hline, hdigits, ?_⟩
    rw [Fault.failure, hline, hdigits]

theorem parse_round_trip_sample :
    (parse "# sample\n\t3074 \r\n\n  F0" = .ok [[0x30, 0x74], [0xF0]] ∧
      parse (String.ofList (written [[0x30, 0x74], [0xF0]])) = .ok [[0x30, 0x74], [0xF0]]) ∧
    parse "\n30\n zz\n3" = .error ⟨3, ['z', 'z'], .badDigit 122 0⟩ ∧
    (∃ before line after, lines "\n30\n zz\n3".toList = before ++ line :: after ∧
      Faulty (trim line) ∧ 3 = before.length + 1 ∧ ['z', 'z'] = trim line) := by
  have hread : parse "# sample\n\t3074 \r\n\n  F0" = .ok [[0x30, 0x74], [0xF0]] := by
    decide +kernel
  have hrefused : parse "\n30\n zz\n3" = .error ⟨3, ['z', 'z'], .badDigit 122 0⟩ := by
    decide +kernel
  refine ⟨⟨hread, ((parse_round_trip _).2.1 _ hread).2⟩, hrefused, ?_⟩
  obtain ⟨before, line, after, hsplit, hfaulty, -, hline, hdigits, -⟩ :=
    (parse_round_trip _).2.2.2 _ hrefused
  exact ⟨before, line, after, hsplit, hfaulty, hline, hdigits⟩

end TagFilter.Traffic
