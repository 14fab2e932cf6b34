import Mathlib.Data.List.DropRight
import TagFilter.Proofs.Related
import TagFilter.Text.Lines

/-! # What stands on the lines of a text

A text is empty, a last line, or a line with a line feed after it and a further text.
Lines are read trimmed, so how a line ends does not show, and the empty ones and the
comments are passed over. A reading of the remaining lines gives one result for each of
them, or fails as it does on the first of them that it cannot read.
-/
namespace TagFilter.Text

variable {line left right rest text : List Char}

theorem trimEnd_eq (text : List Char) : trimEnd text = text.rdropWhile isBlank := rfl

theorem trim_append_blank (text : List Char) (h : ∀ c ∈ right, isBlank c = true) :
    trim (text ++ right) = trim text := by
  unfold trim trimStart
  rw [List.dropWhile_append]
  split
  · rename_i hempty
    have hnil : text.dropWhile isBlank = [] := List.isEmpty_iff.mp hempty
    have hright : right.dropWhile isBlank = [] := List.dropWhile_eq_nil_iff.mpr h
    rw [hnil, hright]
  · unfold trimEnd
    have hreverse : ∀ c ∈ right.reverse, isBlank c = true := by simpa using h
    rw [List.reverse_append, List.dropWhile_append_of_pos hreverse]

theorem trim_blank_append (text : List Char) (h : ∀ c ∈ left, isBlank c = true) :
    trim (left ++ text) = trim text := by
  unfold trim trimStart
  rw [List.dropWhile_append_of_pos h]

/-- What has no blank at either end is not changed by trimming. -/
theorem trim_eq_self (h : ∀ c ∈ text, isBlank c = false) : trim text = text := by
  have hstart : text.dropWhile isBlank = text :=
    List.dropWhile_eq_self_iff.mpr fun hlength => by simp [h _ (List.getElem_mem hlength)]
  have hend : text.rdropWhile isBlank = text :=
    List.rdropWhile_eq_self_iff.mpr fun hne => by simp [h _ (List.getLast_mem hne)]
  rw [trim, trimStart, hstart, trimEnd_eq, hend]

/-- Trimming takes blanks off both ends. -/
theorem exists_trim (text : List Char) : ∃ left right, text = left ++ trim text ++ right ∧
    (∀ c ∈ left, isBlank c = true) ∧ ∀ c ∈ right, isBlank c = true := by
  refine ⟨text.takeWhile isBlank, (trimStart text).rtakeWhile isBlank, ?_, ?_, ?_⟩
  · have hend := List.rdropWhile_append_rtakeWhile (p := isBlank) (l := trimStart text)
    have hstart := List.takeWhile_append_dropWhile (p := isBlank) (l := text)
    rw [trim, trimEnd_eq, List.append_assoc, hend]
    exact hstart.symm
  · exact fun c hc => List.mem_takeWhile_imp hc
  · exact fun c hc => List.mem_rtakeWhile_imp hc

theorem trim_eq_nil_iff : trim text = [] ↔ ∀ c ∈ text, isBlank c = true := by
  constructor
  · intro htrim
    obtain ⟨left, right, heq, hleft, hright⟩ := exists_trim text
    rw [htrim, List.append_nil] at heq
    rw [heq]
    exact List.forall_mem_append.mpr ⟨hleft, hright⟩
  · intro h
    exact trim_append_blank [] h

/-- Trimming stops at the first character that is not blank. -/
theorem head?_trim {c : Char} (hc : isBlank c = false) (rest : List Char) :
    (trim (c :: rest)).head? = some c := by
  have hstart : trimStart (c :: rest) = c :: rest :=
    List.dropWhile_cons_of_neg (by simp [hc])
  rw [trim, hstart, trimEnd_eq]
  have hprefix := List.rdropWhile_prefix isBlank (c :: rest)
  have hne : (c :: rest).rdropWhile isBlank ≠ [] := fun hnil => by
    have hblank := List.rdropWhile_eq_nil_iff.mp hnil c List.mem_cons_self
    simp [hc] at hblank
  rw [List.head?_eq_some_head hne, hprefix.head hne, List.head_cons]

/-- A text is empty, a last line, or a line with its line feed and a further text. -/
@[elab_as_elim]
theorem lines_induction {motive : List Char → Prop} (text : List Char) (nil : motive [])
    (last : ∀ line, line ≠ [] → '\n' ∉ line → motive line)
    (ended : ∀ line rest, '\n' ∉ line → motive rest → motive (line ++ '\n' :: rest)) :
    motive text := by
  induction hlength : text.length using Nat.strong_induction_on generalizing text with
  | _ length ih =>
    by_cases hfeed : '\n' ∈ text
    · obtain ⟨line, rest, rfl, hline⟩ := List.eq_append_cons_of_mem hfeed
      have hshorter : rest.length < length := by
        simp only [List.length_append, List.length_cons] at hlength
        omega
      exact ended line rest hline (ih rest.length hshorter rest rfl)
    · by_cases hne : text = []
      · exact hne ▸ nil
      · exact last text hne hfeed

theorem lines_cons {c : Char} (hc : c ≠ '\n') (hreturn : c = '\r' → text.head? ≠ some '\n') :
    lines (c :: text) = consLine c (lines text) := by
  apply lines.eq_4
  · rintro rest rfl rfl
    exact hreturn rfl rfl
  · exact hc

theorem lines_of_unended (hne : line ≠ []) (h : '\n' ∉ line) : lines line = [line] := by
  induction line with
  | nil => exact absurd rfl hne
  | cons c line ih =>
    rw [List.mem_cons, not_or] at h
    obtain ⟨hc, hline⟩ := h
    have hhead : line.head? ≠ some '\n' := fun hhead => hline (List.mem_of_head? hhead)
    rw [lines_cons (Ne.symm hc) fun _ => hhead]
    by_cases hnil : line = []
    · subst hnil
      rfl
    · rw [ih hnil hline]
      rfl

/-- A line feed ends a line, and takes a carriage return right before it along. -/
theorem lines_append (rest : List Char) (h : '\n' ∉ line) :
    ∃ first, lines (line ++ '\n' :: rest) = first :: lines rest ∧
      (line = first ∨ line = first ++ ['\r']) := by
  induction line with
  | nil => exact ⟨[], rfl, .inl rfl⟩
  | cons c line ih =>
    rw [List.mem_cons, not_or] at h
    obtain ⟨hc, hline⟩ := h
    -- A carriage return goes with the line feed only if nothing stands in between.
    by_cases hreturn : c = '\r' ∧ line = []
    · obtain ⟨rfl, rfl⟩ := hreturn
      exact ⟨[], rfl, .inr rfl⟩
    · obtain ⟨first, hlines, hfirst⟩ := ih hline
      refine ⟨c :: first, ?_, ?_⟩
      · have hhead : c = '\r' → (line ++ '\n' :: rest).head? ≠ some '\n' := by
          intro hcr
          cases line with
          | nil => exact absurd ⟨hcr, rfl⟩ hreturn
          | cons d line => simpa using fun hd => hline (by simp [hd])
        rw [List.cons_append, lines_cons (Ne.symm hc) hhead, hlines]
        rfl
      · rcases hfirst with rfl | rfl
        · exact .inl rfl
        · exact .inr rfl

/-- The lines of a text without the blanks around them. -/
def trimmed (text : List Char) : List (List Char) := (lines text).map trim

theorem trimmed_of_unended (hne : line ≠ []) (h : '\n' ∉ line) : trimmed line = [trim line] := by
  rw [trimmed, lines_of_unended hne h, List.map_singleton]

theorem trimmed_append (rest : List Char) (h : '\n' ∉ line) :
    trimmed (line ++ '\n' :: rest) = trim line :: trimmed rest := by
  obtain ⟨first, hlines, hfirst⟩ := lines_append rest h
  have htrim : trim first = trim line := by
    rcases hfirst with rfl | rfl
    · rfl
    · exact (trim_append_blank first (List.forall_mem_singleton.mpr rfl)).symm
  rw [trimmed, hlines, List.map_cons, htrim, trimmed]

/-- Whether a trimmed line has something to read: it is not empty and no comment. -/
def Speaks (line : List Char) : Prop := line ≠ [] ∧ line.head? ≠ some '#'

instance : DecidablePred Speaks := fun line =>
  inferInstanceAs (Decidable (line ≠ [] ∧ line.head? ≠ some '#'))

/-- What there is to read in a text. -/
def content (text : List Char) : List (List Char) := (trimmed text).filter (Speaks ·)

theorem content_of_unended (h : '\n' ∉ line) : content line = [trim line].filter (Speaks ·) := by
  by_cases hne : line = []
  · subst hne
    rfl
  · rw [content, trimmed_of_unended hne h]

theorem content_append_of_unended (rest : List Char) (h : '\n' ∉ line) :
    content (line ++ '\n' :: rest) = content line ++ content rest := by
  rw [content, trimmed_append rest h, ← List.singleton_append, List.filter_append,
    ← content_of_unended h, ← content]

/-- A line feed between two texts keeps what there is to read in them apart. -/
theorem content_append (text rest : List Char) :
    content (text ++ '\n' :: rest) = content text ++ content rest := by
  induction text using lines_induction with
  | nil => exact content_append_of_unended rest (by simp)
  | last line _ h => exact content_append_of_unended rest h
  | ended line text h ih =>
    rw [List.append_assoc, List.cons_append, content_append_of_unended _ h, ih,
      content_append_of_unended _ h, List.append_assoc]

/-- What there is to read in a list of lines, each with its number, where the first is the
one after a given number. -/
def contentAfter (number : Nat) (lines : List (List Char)) : List (Nat × List Char) :=
  ((lines.zipIdx number).map fun (line, index) => (index + 1, trim line)).filter (Speaks ·.2)

theorem contentAfter_cons (number : Nat) (line : List Char) (rest : List (List Char)) :
    contentAfter number (line :: rest) =
      if Speaks (trim line) then (number + 1, trim line) :: contentAfter (number + 1) rest
      else contentAfter (number + 1) rest := by
  simp only [contentAfter, List.zipIdx_cons, List.map_cons, List.filter_cons, decide_eq_true_eq]

theorem contentAfter_snd (number : Nat) (lines : List (List Char)) :
    (contentAfter number lines).map (·.2) = (lines.map trim).filter (Speaks ·) := by
  induction lines generalizing number with
  | nil => rfl
  | cons line rest ih =>
    rw [contentAfter_cons, List.map_cons, List.filter_cons]
    by_cases hspeaks : Speaks (trim line)
    · simp only [hspeaks, if_true, decide_true, List.map_cons, ih]
    · simp only [hspeaks, if_false, decide_false, Bool.false_eq_true, ih]

section Reading

variable {β ε : Type} {read : Nat × List Char → Except ε β} {results : List β} {e : ε}

/-- Whether a trimmed line has something to read that does not read as anything. -/
def Unread (Reads : List Char → β → Prop) (line : List Char) : Prop :=
  Speaks line ∧ ∀ result, ¬ Reads line result

/-- The first line that cannot be read, trimmed, and its number among all lines, counted
from one. -/
def FirstUnread (Reads : List Char → β → Prop) (lines : List (List Char)) (number : Nat)
    (line : List Char) : Prop :=
  ∃ before raw after, lines = before ++ raw :: after ∧ number = before.length + 1 ∧
    line = trim raw ∧ Unread Reads line ∧ ∀ l ∈ before, ¬ Unread Reads (trim l)

variable {Reads : List Char → β → Prop}

theorem firstUnread_nil (number : Nat) (line : List Char) : ¬ FirstUnread Reads [] number line := by
  rintro ⟨before, raw, after, hsplit, -⟩
  simp at hsplit

theorem firstUnread_cons {first : List Char} {rest : List (List Char)} {number : Nat} :
    FirstUnread Reads (first :: rest) number line ↔
      (Unread Reads (trim first) ∧ number = 1 ∧ line = trim first) ∨
      (¬ Unread Reads (trim first) ∧ ∃ later, number = later + 1 ∧
        FirstUnread Reads rest later line) := by
  constructor
  · rintro ⟨before, raw, after, hsplit, rfl, rfl, hunread, hbefore⟩
    cases before with
    | nil =>
      obtain ⟨rfl, -⟩ := List.cons.inj hsplit
      exact .inl ⟨hunread, rfl, rfl⟩
    | cons l before =>
      obtain ⟨rfl, hrest⟩ := List.cons.inj hsplit
      obtain ⟨hfirst, hbefore⟩ := List.forall_mem_cons.mp hbefore
      exact .inr ⟨hfirst, _, rfl, before, raw, after, hrest, rfl, rfl, hunread, hbefore⟩
  · rintro (⟨hunread, rfl, rfl⟩ | ⟨hfirst, later, rfl, before, raw, after, hrest, rfl, rfl, hunread,
      hbefore⟩)
    · exact ⟨[], first, rest, rfl, rfl, rfl, hunread, nofun⟩
    · exact ⟨first :: before, raw, after, congrArg (first :: ·) hrest, rfl, rfl, hunread,
        List.forall_mem_cons.mpr ⟨hfirst, hbefore⟩⟩

theorem exists_firstUnread_iff {lines : List (List Char)} :
    (∃ number line, FirstUnread Reads lines number line) ↔
      ∃ raw ∈ lines, Unread Reads (trim raw) := by
  induction lines with
  | nil => simp [firstUnread_nil]
  | cons first rest ih =>
    simp only [List.exists_mem_cons_iff, ← ih]
    by_cases hfirst : Unread Reads (trim first)
    · exact ⟨fun _ => .inl hfirst, fun _ => ⟨1, _, firstUnread_cons.mpr (.inl ⟨hfirst, rfl, rfl⟩)⟩⟩
    · simp only [firstUnread_cons, hfirst, false_and, not_false_eq_true, true_and, false_or]
      constructor
      · rintro ⟨_, line, later, -, hlater⟩
        exact ⟨later, line, hlater⟩
      · rintro ⟨later, line, hlater⟩
        exact ⟨_, line, later, rfl, hlater⟩

/-- A reading gives one result for each line, whatever the numbers of the lines. -/
theorem mapM_content_eq_ok_iff
    (hread : ∀ number line result, read (number, line) = .ok result ↔ Reads line result) :
    (contentAfter 0 (lines text)).mapM read = .ok results ↔
      List.Forall₂ Reads (content text) results := by
  have hcontent : content text = (contentAfter 0 (lines text)).map (·.2) :=
    (contentAfter_snd 0 (lines text)).symm
  have hreads (numbered : Nat × List Char) (result : β) :
      read numbered = .ok result ↔ Reads numbered.2 result := hread numbered.1 numbered.2 result
  simp only [mapM_eq_ok_iff, hcontent, List.forall₂_map_left_iff, hreads]

/-- A reading fails as it does on the first line that it cannot read. -/
theorem mapM_contentAfter_eq_error_iff
    (hread : ∀ number line result, read (number, line) = .ok result ↔ Reads line result)
    (before : Nat) (lines : List (List Char)) :
    (contentAfter before lines).mapM read = .error e ↔ ∃ number line,
      FirstUnread Reads lines number line ∧ read (before + number, line) = .error e := by
  induction lines generalizing before with
  | nil => simp [contentAfter, firstUnread_nil, pure, Except.pure]
  | cons first rest ih =>
    -- If the first line is not the one, the induction hypothesis finds it, with a number
    -- that is one less.
    have hlater : ¬ Unread Reads (trim first) →
        ((contentAfter (before + 1) rest).mapM read = .error e ↔ ∃ number line,
          FirstUnread Reads (first :: rest) number line ∧ read (before + number, line) = .error e) := by
      intro hfirst
      simp only [ih, firstUnread_cons, hfirst, false_and, not_false_eq_true, true_and, false_or]
      constructor
      · rintro ⟨later, line, hunread, herror⟩
        exact ⟨later + 1, line, ⟨later, rfl, hunread⟩, by rwa [Nat.add_right_comm] at herror⟩
      · rintro ⟨_, line, ⟨later, rfl, hunread⟩, herror⟩
        exact ⟨later, line, hunread, by rwa [Nat.add_right_comm]⟩
    rw [contentAfter_cons]
    split
    · rename_i hspeaks
      rw [List.mapM_cons]
      cases hfirst : read (before + 1, trim first) with
      | ok result =>
        have hreads : Reads (trim first) result := (hread _ _ _).mp hfirst
        rw [← hlater fun hunread => hunread.2 result hreads]
        simp only [bind, Except.bind]
        cases (contentAfter (before + 1) rest).mapM read <;> simp [pure, Except.pure]
      | error e' =>
        have hunread : Unread Reads (trim first) := by
          refine ⟨hspeaks, fun result hreads => ?_⟩
          rw [(hread _ _ _).mpr hreads] at hfirst
          cases hfirst
        simp [bind, Except.bind, firstUnread_cons, hunread, hfirst]
    · rename_i hsilent
      exact hlater fun hunread => hsilent hunread.1

theorem exists_mapM_contentAfter_eq_error_iff
    (hread : ∀ number line result, read (number, line) = .ok result ↔ Reads line result)
    (lines : List (List Char)) :
    (∃ e, (contentAfter 0 lines).mapM read = .error e) ↔
      ∃ raw ∈ lines, Unread Reads (trim raw) := by
  simp only [mapM_contentAfter_eq_error_iff hread, ← exists_firstUnread_iff]
  constructor
  · rintro ⟨e, number, line, hunread, -⟩
    exact ⟨number, line, hunread⟩
  · rintro ⟨number, line, hunread⟩
    cases hline : read (0 + number, line) with
    | error e => exact ⟨e, number, line, hunread, hline⟩
    | ok result =>
      obtain ⟨_, _, _, _, _, _, hnone, _⟩ := hunread
      exact absurd ((hread _ _ _).mp hline) (hnone.2 result)

end Reading

end TagFilter.Text
