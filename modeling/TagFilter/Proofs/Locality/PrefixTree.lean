import TagFilter.Locality.Report
import TagFilter.Proofs.Forests
import TagFilter.Proofs.Locality.Recordings

/-! # Reports as prefix trees

A report has a node for every beginning of a path that was recorded, and no other. The
counts are entered in the order of their paths, so a node that is not there yet comes
behind its siblings, and a path that is entered later goes through a node without
changing its value.
-/
namespace TagFilter
open LocalityMap Recording

namespace Report

/-- The child with a name, or the one that is added when there is none. -/
def childOr (name : String) (report : Report) : Report :=
  let found := report.children.treeOr ⟨name, some report.root.name, 0⟩ ReportNode.name name
  ⟨found.1, found.2⟩

/-- Goes on below a node, or ends there. -/
def put (path : List String) (value : Float) (report : Report) : Report :=
  if path = [] then { report with root := { report.root with value } }
  else report.insert path value

theorem name_childOr (name : String) (report : Report) : (report.childOr name).root.name = name :=
  Forest.key_treeOr rfl

/-- What entering a path does to the node in front of it. -/
def step (name : String) (rest : List String) (value : Float) (node : ReportNode)
    (below : Forest ReportNode) : ReportNode × Forest ReportNode :=
  if rest = [] then ({ node with value }, below)
  else (node, insertBelow value name rest below)

theorem name_step (name : String) (rest : List String) (value : Float) (node : ReportNode)
    (below : Forest ReportNode) : (step name rest value node below).1.name = node.name := by
  rw [step]
  split <;> rfl

theorem parent_step (name : String) (rest : List String) (value : Float) (node : ReportNode)
    (below : Forest ReportNode) : (step name rest value node below).1.parent = node.parent := by
  rw [step]
  split <;> rfl

theorem step_eq_put {report : Report} {name : String} (h : report.root.name = name)
    (rest : List String) (value : Float) :
    (⟨(step name rest value report.root report.children).1,
      (step name rest value report.root report.children).2⟩ : Report) = report.put rest value := by
  rw [step, put]
  split
  · rfl
  · rw [insert, h]

theorem find?_cons (name : String) (path : List String) (report : Report) :
    report.find? (name :: path) =
      (report.children.findRoot? fun node => node.name = name).bind fun found =>
        find? path ⟨found.1, found.2⟩ := rfl

theorem find?_insert (name other : String) (rest path : List String) (value : Float)
    (report : Report) :
    (report.insert (name :: rest) value).find? (other :: path) =
      if name = other then ((report.childOr name).put rest value).find? path
      else report.find? (other :: path) := by
  have hchildren : (report.insert (name :: rest) value).children =
      report.children.upsert (fun node => node.name = name) ⟨name, some report.root.name, 0⟩
        (step name rest value) := rfl
  have hfresh : ReportNode.name ⟨name, some report.root.name, 0⟩ = name := rfl
  rw [find?_cons, hchildren, Forest.findRoot?_upsert hfresh (name_step name rest value)]
  split
  · rw [Option.bind_some, ← step_eq_put (name_childOr name report)]
    rfl
  · rfl

def value? (report : Report) (path : List String) : Option Float :=
  (report.find? path).map (·.root.value)

theorem value?_singleton_eq_none_iff (name : String) (report : Report) :
    report.value? [name] = none ↔ name ∉ report.children.labels.map ReportNode.name := by
  rw [value?, find?_cons, ← Forest.findRoot?_eq_none_iff]
  cases report.children.findRoot? fun node => node.name = name <;> simp [find?]

/-- A child that is not there is as good as one with the value zero. -/
theorem value?_childOr (name : String) (path : List String) (report : Report) :
    (report.childOr name).value? path =
      if path = [] then some ((report.value? [name]).getD 0) else report.value? (name :: path) := by
  rw [value?, value?, value?, find?_cons, find?_cons, childOr, Forest.treeOr]
  cases report.children.findRoot? fun node => node.name = name with
  | none => cases path <;> rfl
  | some found => cases path <;> rfl

/-- Its own node gets the value. The nodes on the way there keep theirs, or get zero when
they are added, and no other node is touched. -/
theorem value?_put (path other : List String) (value : Float) (report : Report) :
    (report.put path value).value? other =
      if path = other then some value
      else if other <+: path then some ((report.value? other).getD 0)
      else report.value? other := by
  induction path generalizing other report with
  | nil => cases other <;> simp [put, value?, find?]
  | cons name rest ih =>
    rw [put, if_neg (List.cons_ne_nil name rest)]
    cases other with
    | nil => rfl
    | cons first other =>
      rw [value?, find?_insert]
      by_cases hname : name = first
      · -- The rest goes on in the child, which counts as one with the value zero if it is new.
        rw [if_pos hname, ← value?, ih, value?_childOr, hname]
        cases other <;> simp
      · simp [hname, Ne.symm hname, value?]

/-- Entering the empty path does nothing. -/
theorem value?_insert {other : List String} (h : other ≠ []) (path : List String) (value : Float)
    (report : Report) :
    (report.insert path value).value? other =
      if path = other then some value
      else if other <+: path then some ((report.value? other).getD 0)
      else report.value? other := by
  cases path with
  | nil => simp [h, Ne.symm h, insert, insertBelow]
  | cons name rest => exact value?_put (name :: rest) other value report

/-- After all counts are entered, a path has the value of its count, or zero where only
a longer one has a count. -/
theorem value?_foldl {counts : OrderedMap (List String) Nat} {samples : Nat}
    (hsorted : counts.Pairwise fun a b => a.1 < b.1) {path : List String} (h : path ≠ [])
    (report : Report) :
    (counts.foldl (fun report entry => report.insert entry.1 (percentage entry.2 samples))
        report).value? path =
      match counts.get? path with
      | some count => some (percentage count samples)
      | none => if ∃ entry ∈ counts, path <+: entry.1 then some ((report.value? path).getD 0)
        else report.value? path := by
  induction counts generalizing report with
  | nil => simp
  | cons entry rest ih =>
    obtain ⟨key, count⟩ := entry
    obtain ⟨hkey, hrest⟩ := List.pairwise_cons.mp hsorted
    rw [List.foldl_cons, ih hrest, value?_insert h, OrderedMap.get?_cons]
    by_cases heq : key = path
    · have habsent : OrderedMap.get? rest path = none := by
        refine OrderedMap.get?_eq_none_iff.mpr fun hmem => ?_
        obtain ⟨entry, hentry, hpath⟩ := List.mem_map.mp hmem
        exact absurd (hkey entry hentry) (by simp [heq, hpath])
      simp [heq, habsent]
    · rw [if_neg heq, if_neg heq]
      cases OrderedMap.get? rest path with
      | some count => rfl
      | none =>
        by_cases hbegins : path <+: key
        · have hlonger : ∃ entry ∈ (key, count) :: rest, path <+: entry.1 :=
            ⟨_, List.mem_cons_self, hbegins⟩
          simp only [if_pos hbegins, if_pos hlonger, Option.getD_some, ite_self]
        · rw [if_neg hbegins]
          exact if_congr (by simp [hbegins]) rfl rfl

/-- Every node of a forest names the one above it, and siblings stand in the order of
their names. -/
def ArrangedBelow : String → Forest ReportNode → Prop
  | _, .nil => True
  | above, .node node below rest =>
    node.parent = some above ∧ ArrangedBelow node.name below ∧
      (∀ name ∈ rest.labels.map ReportNode.name, node.name < name) ∧ ArrangedBelow above rest

def Arranged (report : Report) : Prop := ArrangedBelow report.root.name report.children

theorem ArrangedBelow.upsert {above name : String} {f : Forest ReportNode}
    {change : ReportNode → Forest ReportNode → ReportNode × Forest ReportNode}
    (h : ArrangedBelow above f)
    (hname : ∀ node below, (change node below).1.name = node.name)
    (hparent : ∀ node below, (change node below).1.parent = node.parent)
    (hlast : name ∉ f.labels.map ReportNode.name →
      ∀ other ∈ f.labels.map ReportNode.name, other < name)
    (hbelow : let found := f.treeOr ⟨name, some above, 0⟩ ReportNode.name name
      ArrangedBelow found.1.name (change found.1 found.2).2) :
    ArrangedBelow above (f.upsert (fun node => node.name = name) ⟨name, some above, 0⟩ change) := by
  have hfresh : ReportNode.name ⟨name, some above, 0⟩ = name := rfl
  induction f with
  | nil => exact ⟨hparent _ _, (hname _ _).symm ▸ hbelow, nofun, trivial⟩
  | node first below rest _ ih =>
    obtain ⟨hfirst, hsubset, hsiblings, hrest⟩ := h
    rw [Forest.labels_node, List.map_cons] at hlast
    rw [Forest.upsert]
    by_cases heq : first.name = name
    · rw [Forest.treeOr, Forest.findRoot?, if_pos (decide_eq_true heq)] at hbelow
      rw [if_pos (decide_eq_true heq)]
      refine ⟨(hparent _ _).trans hfirst, (hname _ _).symm ▸ hbelow, fun other hother => ?_, hrest⟩
      rw [hname]
      exact hsiblings other hother
    · rw [Forest.treeOr, Forest.findRoot?, if_neg (by simpa using heq)] at hbelow
      rw [if_neg (by simpa using heq)]
      refine ⟨hfirst, hsubset, ?_, ih hrest ?_ hbelow⟩
      · rw [Forest.keys_upsert hfresh hname]
        split
        · exact hsiblings
        · rename_i habsent
          have hnew := hlast (List.not_mem_cons_of_ne_of_not_mem (Ne.symm heq) habsent)
          intro other hother
          rcases List.mem_append.mp hother with hother | hother
          · exact hsiblings other hother
          · rw [List.mem_singleton.mp hother]
            exact hnew _ List.mem_cons_self
      · intro habsent other hother
        exact hlast (List.not_mem_cons_of_ne_of_not_mem (Ne.symm heq) habsent) other
          (List.mem_cons_of_mem _ hother)

theorem ArrangedBelow.below {above : String} {f below : Forest ReportNode} {node : ReportNode}
    {p : ReportNode → Bool} (h : ArrangedBelow above f)
    (hfound : f.findRoot? p = some (node, below)) : ArrangedBelow node.name below := by
  induction f with
  | nil => cases hfound
  | node first subset rest _ ih =>
    rw [Forest.findRoot?] at hfound
    split at hfound
    · cases hfound
      exact h.2.1
    · exact ih h.2.2.2 hfound

variable {report : Report}

theorem Arranged.childOr (h : report.Arranged) (name : String) :
    (report.childOr name).Arranged := by
  rw [Arranged, Report.childOr, Forest.treeOr]
  cases hfound : report.children.findRoot? fun node => node.name = name with
  | none => trivial
  | some found => exact h.below hfound

/-- A path can be entered if none of those in the tree comes after it. -/
theorem Arranged.insert {path : List String} (h : report.Arranged)
    (hlast : ∀ other, report.value? other ≠ none → ¬ path < other) (value : Float) :
    (report.insert path value).Arranged := by
  induction path generalizing report with
  | nil => exact h
  | cons name rest ih =>
    refine ArrangedBelow.upsert h (name_step name rest value) (parent_step name rest value) ?_ ?_
    · intro habsent other hother
      have hthere : report.value? [other] ≠ none := fun hnone =>
        (value?_singleton_eq_none_iff other report).mp hnone hother
      have hne : name ≠ other := fun heq => habsent (heq ▸ hother)
      have hle : ¬ name < other := fun hlt =>
        hlast [other] hthere (List.cons_lt_cons_iff.mpr (.inl hlt))
      exact lt_of_le_of_ne (not_lt.mp hle) hne.symm
    · have hbelow : ∀ other, (report.childOr name).value? other ≠ none → ¬ rest < other := by
        intro other hother hlt
        have hne : other ≠ [] := fun heq => List.not_lt_nil rest (heq ▸ hlt)
        rw [value?_childOr, if_neg hne] at hother
        exact hlast (name :: other) hother (List.cons_lt_cons_iff.mpr (.inr ⟨rfl, hlt⟩))
      have hrest : ((report.childOr name).insert rest value).Arranged := ih (h.childOr name) hbelow
      rw [Report.insert, name_childOr] at hrest
      change ArrangedBelow (report.childOr name).root.name
        (step name rest value (report.childOr name).root (report.childOr name).children).2
      rw [step]
      split
      · exact h.childOr name
      · exact hrest

theorem Arranged.foldl {counts : OrderedMap (List String) Nat} {samples : Nat}
    (hsorted : counts.Pairwise fun a b => a.1 < b.1) (h : report.Arranged)
    (hlast : ∀ other, report.value? other ≠ none → ∀ entry ∈ counts, ¬ entry.1 < other) :
    (counts.foldl (fun report entry => report.insert entry.1 (percentage entry.2 samples))
      report).Arranged := by
  induction counts generalizing report with
  | nil => exact h
  | cons entry rest ih =>
    obtain ⟨hkey, hrest⟩ := List.pairwise_cons.mp hsorted
    refine ih hrest (h.insert (fun other hother => hlast other hother entry List.mem_cons_self) _)
      fun other hother later hlater hlt => ?_
    -- All that this entry adds begins its path, so it comes before every later entry.
    have hne : other ≠ [] := fun heq => List.not_lt_nil later.1 (heq ▸ hlt)
    have hbefore : entry.1 < other := (hkey later hlater).trans hlt
    rw [value?_insert hne] at hother
    split at hother
    · rename_i heq
      exact lt_irrefl other (heq ▸ hbefore)
    · split at hother
      · rename_i hbegins
        exact hbegins.le hbefore
      · exact hlast other hother entry List.mem_cons_self hbefore

theorem get?_perform_fresh (recordings : List Recording) (path : List String) :
    (fresh.perform recordings).counts.get? path =
      if path ∈ paths recordings then some ((paths recordings).count path) else none := by
  rw [get?_perform sorted_fresh]
  by_cases h : path ∈ paths recordings
  · rw [if_pos h, if_neg (mt List.count_eq_zero.mp (not_not_intro h))]
    exact congrArg some (Nat.zero_add _)
  · rw [if_neg h, if_pos (List.count_eq_zero.mpr h)]
    rfl

theorem exists_count_iff (recordings : List Recording) (path : List String) :
    (∃ entry ∈ (fresh.perform recordings).counts, path <+: entry.1) ↔
      ∃ other ∈ paths recordings, path <+: other := by
  have hkeys (other : List String) : other ∈ (fresh.perform recordings).counts.map (·.1) ↔
      other ∈ paths recordings := by
    rw [← not_iff_not, ← OrderedMap.get?_eq_none_iff, get?_perform_fresh]
    simp
  constructor
  · rintro ⟨entry, hentry, hbegins⟩
    exact ⟨entry.1, (hkeys entry.1).mp (List.mem_map_of_mem hentry), hbegins⟩
  · rintro ⟨other, hother, hbegins⟩
    obtain ⟨entry, hentry, rfl⟩ := List.mem_map.mp ((hkeys other).mpr hother)
    exact ⟨entry, hentry, hbegins⟩

theorem samples_perform_fresh (recordings : List Recording) :
    (fresh.perform recordings).samples = recordings.count .sample :=
  (samples_perform fresh recordings).trans (Nat.zero_add _)

theorem value?_ofVisits (recordings : List Recording) {path : List String} (h : path ≠ []) :
    (ofVisits (fresh.perform recordings)).value? path =
      if path ∈ paths recordings then
        some (percentage ((paths recordings).count path) (recordings.count .sample))
      else if ∃ other ∈ paths recordings, path <+: other then some 0
      else none := by
  have hempty (root : ReportNode) : value? ⟨root, .nil⟩ path = none := by
    cases path with
    | nil => exact absurd rfl h
    | cons name rest => rfl
  rw [ofVisits, value?_foldl (sorted_fresh.perform recordings) h, get?_perform_fresh,
    samples_perform_fresh, hempty]
  by_cases hmem : path ∈ paths recordings
  · rw [if_pos hmem, if_pos hmem]
  · rw [if_neg hmem, if_neg hmem]
    exact if_congr (exists_count_iff recordings path) rfl rfl

/-- A report is the tree of the beginnings of all recorded paths. The nodes of recorded
paths say how many of the samples came there, in percent, and the others say zero. -/
theorem report_prefixTree (recordings : List Recording) :
    let report := ofVisits (fresh.perform recordings)
    let recorded := paths recordings
    let samples := recordings.count .sample
    (∀ path, (report.find? path).isSome ↔ path = [] ∨ ∃ other ∈ recorded, path <+: other) ∧
    (∀ path, path ≠ [] → path ∈ recorded →
      (report.find? path).map (·.root.value) = some (
        if samples = 0 then 0 else 100 * Float.ofNat (recorded.count path) / Float.ofNat samples)) ∧
    (∀ path, path ≠ [] → path ∉ recorded → (∃ other ∈ recorded, path <+: other) →
      (report.find? path).map (·.root.value) = some 0) ∧
    report.Arranged := by
  intro report recorded samples
  have hvalue {path : List String} (h : path ≠ []) := value?_ofVisits recordings h
  refine ⟨fun path => ?_, fun path hpath hmem => ?_, fun path hpath hmem hlonger => ?_, ?_⟩
  · by_cases hpath : path = []
    · simp [hpath, find?]
    · have hsome : (report.value? path).isSome = (report.find? path).isSome := Option.isSome_map
      rw [← hsome, hvalue hpath, or_iff_right hpath]
      by_cases hmem : path ∈ paths recordings
      · have hlonger : ∃ other ∈ recorded, path <+: other := ⟨path, hmem, List.prefix_rfl⟩
        rw [if_pos hmem]
        exact iff_of_true rfl hlonger
      · rw [if_neg hmem]
        split
        · rename_i hlonger
          exact iff_of_true rfl hlonger
        · rename_i hlonger
          exact iff_of_false Bool.false_ne_true hlonger
  · exact (hvalue hpath).trans (if_pos hmem)
  · exact (hvalue hpath).trans ((if_neg hmem).trans (if_pos hlonger))
  · refine Arranged.foldl (sorted_fresh.perform recordings) trivial fun other hother entry _ hlt => ?_
    cases other with
    | nil => exact List.not_lt_nil _ hlt
    | cons name rest => exact hother rfl

end Report
end TagFilter
