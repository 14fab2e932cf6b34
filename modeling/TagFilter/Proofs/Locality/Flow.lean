import Mathlib.Algebra.BigOperators.Finprod
import TagFilter.Proofs.Locality.Ways

/-! # Flow of visits

Every identifier that is traced goes on from each node that it visits, to one next node
or to the end. So the visits of a node are those of its successors together, wherever
several nodes have one label and their ways are counted as one.
-/
namespace TagFilter
open LocalityMap Recording

def Trie.labels : Trie → List String
  | empty => []
  | node uri filter one zero => label uri filter :: (labels one ++ labels zero)

def WeightedTree.uris : WeightedTree → List String
  | .nil => []
  | .node b below rest => b.uri :: (uris below ++ uris rest)

theorem Trie.Way.labels_subset {t : Trie} {stops : List Stop} (h : t.Way stops) :
    stops.map Stop.label ⊆ t.labels := by
  induction h with
  | here t => exact List.nil_subset _
  | one zero _ ih => exact List.cons_subset_cons _ (List.subset_append_of_subset_left _ ih)
  | zero one _ ih => exact List.cons_subset_cons _ (List.subset_append_of_subset_right _ ih)

theorem WeightedTree.Way.uris_subset {t : WeightedTree} {stops : List Stop} (h : Way t stops) :
    stops.map Stop.label ⊆ uris t := by
  induction h with
  | here t => exact List.nil_subset _
  | inside rest _ ih => exact List.cons_subset_cons _ (List.subset_append_of_subset_left _ ih)
  | beside below _ ih => exact List.cons_subset_cons _ (List.subset_append_of_subset_right _ ih)

namespace Engine

/-- The labels of all nodes. -/
def labels : Engine → List String
  | list entries => entries.map ListEntry.uri
  | patriciaTrie trie => trie.labels
  | weightedTree tree | splayTree tree => WeightedTree.uris tree

theorem Way.labels_subset {engine : Engine} {stops : List Stop} (h : engine.Way stops) :
    stops.map Stop.label ⊆ engine.labels := by
  cases engine with
  | list entries =>
    have huris : entries.map ListEntry.uri = (entries.map ListEntry.stop).map Stop.label := by
      rw [List.map_map]
      rfl
    rw [labels, huris]
    exact List.map_subset _ h.subset
  | patriciaTrie trie => exact Trie.Way.labels_subset h
  | weightedTree tree | splayTree tree => exact WeightedTree.Way.uris_subset h

/-- The labels of the nodes that an identifier comes to. -/
def trail (engine : Engine) (id : Identifier) : List String :=
  (engine.route id).map Stop.label

theorem trail_subset (engine : Engine) (id : Identifier) : engine.trail id ⊆ engine.labels :=
  (engine.way_route id).labels_subset

/-- The trail with the marker at its end. -/
def markedTrail (engine : Engine) (id : Identifier) : List String :=
  engine.trail id ++ [marker (engine.ends id)]

end Engine

namespace LocalityMap

variable {engine : Engine} {ids : List Identifier} {path : List String}

theorem trace_eq_perform (engine : Engine) (ids : List Identifier) :
    trace engine ids = fresh.perform (ids.flatMap fun id =>
      Recording.sample :: way [] (engine.ends id) (engine.trail id)) := by
  rw [trace, perform]
  generalize fresh = m
  induction ids generalizing m with
  | nil => rfl
  | cons id rest ih =>
    rw [List.foldl_cons, List.flatMap_cons, List.foldl_append, ih, engine.trace_eq]
    rfl

theorem samples_trace (engine : Engine) (ids : List Identifier) :
    (trace engine ids).samples = ids.length := by
  have hone (id : Identifier) : (Recording.sample :: way [] (engine.ends id)
      (engine.trail id)).count Recording.sample = 1 := by
    rw [List.count_cons_self, count_sample_way]
  rw [trace_eq_perform, samples_perform, List.count_flatMap]
  simp [Function.comp_def, hone, fresh]

theorem count_paths (engine : Engine) (ids : List Identifier) (path : List String) :
    (paths (ids.flatMap fun id =>
      Recording.sample :: way [] (engine.ends id) (engine.trail id))).count path =
      (ids.map fun id => if path ≠ [] ∧ path <+: engine.markedTrail id then 1 else 0).sum := by
  rw [paths, List.filterMap_flatMap, List.count_flatMap]
  congr 1
  refine List.map_congr_left fun id _ => ?_
  have hway : (Recording.sample :: way [] (engine.ends id) (engine.trail id)).filterMap path? =
      (engine.markedTrail id).inits.tail := paths_way_nil _ _
  rw [Function.comp, hway, count_inits_tail]

/-- A path is visited as often as a trail begins with it. -/
theorem visits_trace (engine : Engine) (ids : List Identifier) (path : List String) :
    (trace engine ids).visits path =
      (ids.map fun id => if path ≠ [] ∧ path <+: engine.markedTrail id then 1 else 0).sum := by
  rw [trace_eq_perform, visits_perform sorted_fresh, count_paths]
  exact Nat.zero_add _

theorem get?_trace_eq_none (h : ∀ id ∈ ids, ¬ path <+: engine.markedTrail id) :
    (trace engine ids).counts.get? path = none := by
  have hzero : (paths (ids.flatMap fun id =>
      Recording.sample :: way [] (engine.ends id) (engine.trail id))).count path = 0 := by
    rw [count_paths]
    refine List.sum_eq_zero fun count hcount => ?_
    obtain ⟨id, hid, rfl⟩ := List.mem_map.mp hcount
    exact if_neg fun hbegins => h id hid hbegins.2
  rw [trace_eq_perform, get?_perform sorted_fresh, if_pos hzero]
  rfl

/-- If every identifier goes on in at most one way, the counts of all ways add up. -/
theorem finsum_counts {ι : Type} {f : ι → Identifier → Nat} {total : Identifier → Nat}
    (h : ∀ id ∈ ids, ∃ i, f i id = total id ∧ ∀ j, j ≠ i → f j id = 0) :
    (Function.HasFiniteSupport fun i => (ids.map (f i)).sum) ∧
      ∑ᶠ i, (ids.map (f i)).sum = (ids.map total).sum := by
  induction ids with
  | nil =>
    have hzero : (fun i => (([] : List Identifier).map (f i)).sum) = 0 := rfl
    exact ⟨hzero ▸ Function.hasFiniteSupport_fun_zero, finsum_zero⟩
  | cons id rest ih =>
    obtain ⟨⟨i, hi, hother⟩, hrest⟩ := List.forall_mem_cons.mp h
    obtain ⟨hfinite, hsum⟩ := ih hrest
    have hfirst : Function.HasFiniteSupport fun i => f i id := by
      refine (Set.finite_singleton i).subset fun j hj => ?_
      by_contra hne
      exact hj (hother j hne)
    simp only [List.map_cons, List.sum_cons]
    refine ⟨hfirst.add hfinite, ?_⟩
    rw [finsum_add_distrib hfirst hfinite, hsum, finsum_eq_single _ i hother, hi]

/-- What goes on from a path that is nowhere the end is what came there. -/
theorem finsum_visits_concat (h : ∀ id ∈ ids, path ≠ engine.markedTrail id) :
    ∑ᶠ label, (trace engine ids).visits (path ++ [label]) =
      (ids.map fun id => if path <+: engine.markedTrail id then 1 else 0).sum := by
  simp only [visits_trace]
  refine (finsum_counts fun id hid => ?_).2
  by_cases hbegins : path <+: engine.markedTrail id
  · obtain ⟨rest, hrest⟩ := hbegins
    -- The next label on the trail is the only one that the path goes on to.
    cases rest with
    | nil => exact absurd ((List.append_nil path).symm.trans hrest) (h id hid)
    | cons next rest =>
      refine ⟨next, ?_, fun other hother => ?_⟩
      · simp [← hrest]
      · simp [← hrest, hother]
  · refine ⟨"", ?_, fun other _ => ?_⟩
    · rw [if_neg hbegins, if_neg fun hlonger => hbegins ((List.prefix_append ..).trans hlonger.2)]
    · exact if_neg fun hlonger => hbegins ((List.prefix_append ..).trans hlonger.2)

theorem marker_injective : Function.Injective marker := by decide

theorem marker_notMem_trail
    (hlabels : ∀ label ∈ engine.labels, label ≠ matchLabel ∧ label ≠ mismatchLabel)
    (id : Identifier) (matched : Bool) : marker matched ∉ engine.trail id := by
  intro hmem
  obtain ⟨hmatch, hmismatch⟩ := hlabels _ (engine.trail_subset id hmem)
  cases matched with
  | true => exact hmatch rfl
  | false => exact hmismatch rfl

/-- A marker stands only at the end of a trail. -/
theorem marked_prefix_iff
    (hlabels : ∀ label ∈ engine.labels, label ≠ matchLabel ∧ label ≠ mismatchLabel)
    (id : Identifier) (matched : Bool) (path : List String) :
    path ++ [marker matched] <+: engine.markedTrail id ↔
      path = engine.trail id ∧ matched = engine.ends id := by
  have hinside : ¬ path ++ [marker matched] <+: engine.trail id := fun h =>
    marker_notMem_trail hlabels id matched (h.subset (by simp))
  rw [Engine.markedTrail, List.prefix_concat_iff, or_iff_left hinside, ← List.concat_eq_append,
    ← List.concat_eq_append, List.concat_inj, marker_injective.eq_iff]

/-- Every identifier ends at one marker. -/
theorem finsum_visits_marker
    (hlabels : ∀ label ∈ engine.labels, label ≠ matchLabel ∧ label ≠ mismatchLabel) :
    ∑ᶠ path, ((trace engine ids).visits (path ++ [matchLabel]) +
      (trace engine ids).visits (path ++ [mismatchLabel])) = ids.length := by
  have hvisits (path : List String) : (trace engine ids).visits (path ++ [marker true]) +
      (trace engine ids).visits (path ++ [marker false]) =
      (ids.map fun id => if path = engine.trail id then 1 else 0).sum := by
    rw [visits_trace, visits_trace, ← List.sum_map_add]
    congr 1
    refine List.map_congr_left fun id _ => ?_
    simp only [marked_prefix_iff hlabels]
    cases engine.ends id <;> simp
  have hends : ∀ id ∈ ids, ∃ path, (if path = engine.trail id then 1 else 0) = 1 ∧
      ∀ other, other ≠ path → (if other = engine.trail id then 1 else 0) = 0 := fun id _ =>
    ⟨engine.trail id, if_pos rfl, fun _ hother => if_neg hother⟩
  have hsum := (finsum_counts hends).2
  rw [List.map_const', List.sum_replicate, nsmul_one] at hsum
  exact (finsum_congr hvisits).trans hsum

/-- No visit is lost and none is made up. Every identifier comes to one node first, goes
on from every node to one more or to a marker, and goes no further there. -/
theorem flow_conserved (engine : Engine) (ids : List Identifier)
    (hlabels : ∀ label ∈ engine.labels, label ≠ matchLabel ∧ label ≠ mismatchLabel) :
    let m := trace engine ids
    m.samples = ids.length ∧
    ∑ᶠ label, m.visits [label] = m.samples ∧
    (∀ path last, last ≠ matchLabel → last ≠ mismatchLabel →
      m.visits (path ++ [last]) = ∑ᶠ label, m.visits (path ++ [last] ++ [label])) ∧
    (∀ path matched label rest,
      m.counts.get? (path ++ marker matched :: label :: rest) = none) ∧
    ∑ᶠ path, (m.visits (path ++ [matchLabel]) + m.visits (path ++ [mismatchLabel])) =
      m.samples := by
  intro m
  have hsamples : m.samples = ids.length := samples_trace engine ids
  rw [hsamples]
  refine ⟨rfl, ?_, fun path last hmatch hmismatch => ?_, fun path matched label rest => ?_,
    finsum_visits_marker hlabels⟩
  · have hfirst : ∀ id ∈ ids, [] ≠ engine.markedTrail id := fun id _ => by
      simp [Engine.markedTrail]
    have hroots := finsum_visits_concat hfirst
    simpa using hroots
  · have hlast : ∀ id ∈ ids, path ++ [last] ≠ engine.markedTrail id := by
      intro id _ heq
      have hmarker : last = marker (engine.ends id) :=
        List.head_eq_of_cons_eq (List.append_inj' heq rfl).2
      cases hends : engine.ends id with
      | true => exact hmatch (hmarker.trans (congrArg marker hends))
      | false => exact hmismatch (hmarker.trans (congrArg marker hends))
    rw [finsum_visits_concat hlast, visits_trace]
    simp
  · refine get?_trace_eq_none fun id _ hbegins => ?_
    have hmarked : path ++ [marker matched] <+: engine.markedTrail id :=
      List.IsPrefix.trans ⟨label :: rest, by simp⟩ hbegins
    have htrail := ((marked_prefix_iff hlabels id matched path).mp hmarked).1
    have hlength := hbegins.length_le
    simp [Engine.markedTrail, htrail] at hlength

/-- A branch of one name below another and beside it. -/
def sampleSharedName : Engine :=
  .weightedTree (.node ⟨"first", .encode ['1'] 0, .zero⟩
    (.node ⟨"second", .encode ['1'] 1, .zero⟩ .nil .nil)
    (.node ⟨"second", .encode ['0'] 0, .zero⟩ .nil .nil))

theorem flow_conserved_shared_name :
    let m := trace sampleSharedName [[0xC0], [0x00], [0x80]]
    m.visits ["first", "second"] = 3 ∧
      ∑ᶠ label, m.visits ["first", "second", label] = 3 ∧
      ∑ᶠ path, (m.visits (path ++ [matchLabel]) + m.visits (path ++ [mismatchLabel])) = 3 := by
  intro m
  obtain ⟨hsamples, -, hnext, -, hmarkers⟩ :=
    flow_conserved sampleSharedName [[0xC0], [0x00], [0x80]] (by decide)
  have hvisits : m.visits ["first", "second"] = 3 := by decide
  have hsecond := hnext ["first"] "second" (by decide) (by decide)
  exact ⟨hvisits, hsecond.symm.trans hvisits, hmarkers.trans hsamples⟩

end LocalityMap
end TagFilter
