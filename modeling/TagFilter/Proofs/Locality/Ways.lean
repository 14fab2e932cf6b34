import TagFilter.Proofs.Locality.Recordings

/-! # Ways through an index

Tracing and searching take an identifier to the same nodes, one after another along the
links of the index. A search reports those of them that have a URI and match. Tracing
counts them all, with the labels on the way to each, and then the end.
-/
namespace TagFilter
open LocalityMap Recording

/-- A node that an identifier is compared with. -/
structure Stop where
  uri : Option String
  filter : Filter

namespace Stop

def label (stop : Stop) : String := stop.uri.getD stop.filter.display

/-- What a search reports for a node that it comes to. -/
def reported? (id : Identifier) (stop : Stop) : Option String :=
  if stop.filter.accepts id then stop.uri else none

end Stop

def ListEntry.stop (entry : ListEntry) : Stop := ⟨some entry.uri, entry.filter⟩

def Branch.stop (b : Branch) : Stop := ⟨some b.uri, b.filter⟩

/-- Nodes from the root on, each with the next as a branch. -/
inductive Trie.Way : Trie → List Stop → Prop where
  | here (t : Trie) : Way t []
  | one {uri : Option String} {filter : Filter} {one : Trie} (zero : Trie) {stops : List Stop}
    (h : Way one stops) : Way (node uri filter one zero) (⟨uri, filter⟩ :: stops)
  | zero {uri : Option String} {filter : Filter} (one : Trie) {zero : Trie} {stops : List Stop}
    (h : Way zero stops) : Way (node uri filter one zero) (⟨uri, filter⟩ :: stops)

/-- Branches from the head of the chain on, each with the next in front below it or
beside it. -/
inductive WeightedTree.Way : WeightedTree → List Stop → Prop where
  | here (t : WeightedTree) : Way t []
  | inside {b : Branch} {below : WeightedTree} (rest : WeightedTree) {stops : List Stop}
    (h : Way below stops) : Way (.node b below rest) (b.stop :: stops)
  | beside {b : Branch} (below : WeightedTree) {rest : WeightedTree} {stops : List Stop}
    (h : Way rest stops) : Way (.node b below rest) (b.stop :: stops)

def Engine.Way (engine : Engine) (stops : List Stop) : Prop :=
  match engine with
  | list entries => stops <+: entries.map ListEntry.stop
  | patriciaTrie trie => trie.Way stops
  | weightedTree tree | splayTree tree => WeightedTree.Way tree stops

def Trie.route (id : Identifier) : Trie → List Stop
  | empty => []
  | node uri filter one zero =>
    ⟨uri, filter⟩ ::
      if filter.accepts id then
        match id.bitAt (filter.endIn id) with
        | some true => route id one
        | some false => route id zero
        | none => []
      else []

def WeightedTree.route (id : Identifier) : WeightedTree → List Stop
  | .nil => []
  | .node b below rest =>
    b.stop :: if b.filter.accepts id then route id below else route id rest

/-- The way that an identifier takes. -/
def Engine.route (engine : Engine) (id : Identifier) : List Stop :=
  match engine with
  | list entries => entries.map ListEntry.stop
  | patriciaTrie trie => trie.route id
  | weightedTree tree | splayTree tree => WeightedTree.route id tree

theorem Trie.way_route (id : Identifier) (t : Trie) : t.Way (t.route id) := by
  induction t with
  | empty => exact .here _
  | node uri filter one zero hone hzero =>
    rw [route]
    split
    · split
      · exact .one zero hone
      · exact .zero one hzero
      · exact .one zero (.here one)
    · exact .one zero (.here one)

theorem WeightedTree.way_route (id : Identifier) (t : WeightedTree) : Way t (route id t) := by
  induction t with
  | nil => exact .here _
  | node b below rest hbelow hrest =>
    rw [route]
    split
    · exact .inside rest hbelow
    · exact .beside below hrest

theorem Engine.way_route (engine : Engine) (id : Identifier) : engine.Way (engine.route id) := by
  cases engine with
  | list entries => exact List.prefix_rfl
  | patriciaTrie trie => exact trie.way_route id
  | weightedTree tree | splayTree tree => exact WeightedTree.way_route id tree

theorem SortedList.search_eq_filterMap (entries : SortedList) (id : Identifier) :
    entries.search id = (entries.map ListEntry.stop).filterMap (Stop.reported? id) := by
  induction entries with
  | nil => rfl
  | cons entry rest ih =>
    rw [search] at ih ⊢
    by_cases h : entry.filter.accepts id = true
    · simp [h, Stop.reported?, ListEntry.stop, ih]
    · simp [h, Stop.reported?, ListEntry.stop, ih]

theorem Trie.search_eq_filterMap (id : Identifier) (t : Trie) :
    t.search id = (t.route id).filterMap (Stop.reported? id) := by
  induction t with
  | empty => rfl
  | node uri filter one zero hone hzero =>
    rw [search, route]
    by_cases h : filter.accepts id = true
    · rw [if_pos h, if_pos h]
      cases hbit : id.bitAt (filter.endIn id) with
      | none => cases uri <;> simp [Stop.reported?, h]
      | some bit => cases bit <;> cases uri <;> simp [Stop.reported?, h, hone, hzero]
    · simp [h, Stop.reported?]

theorem WeightedTree.search_eq_filterMap (id : Identifier) (t : WeightedTree) :
    search id t = (route id t).filterMap (Stop.reported? id) := by
  induction t with
  | nil => rfl
  | node b below rest hbelow hrest =>
    rw [search, route]
    by_cases h : b.filter.accepts id = true
    · simp [h, Stop.reported?, Branch.stop, hbelow]
    · simp [h, Stop.reported?, Branch.stop, hrest]

theorem Engine.search_eq_filterMap (engine : Engine) (id : Identifier) :
    engine.search id = (engine.route id).filterMap (Stop.reported? id) := by
  cases engine with
  | list entries => exact entries.search_eq_filterMap id
  | patriciaTrie trie => exact trie.search_eq_filterMap id
  | weightedTree tree | splayTree tree => exact WeightedTree.search_eq_filterMap id tree

/-- How the last of some nodes compares with an identifier, if there is one. -/
def Stop.lastAccepts (id : Identifier) (otherwise : Bool) (stops : List Stop) : Bool :=
  (stops.getLast?.map fun stop => stop.filter.accepts id).getD otherwise

theorem Stop.lastAccepts_cons (id : Identifier) (otherwise : Bool) (stop : Stop)
    (stops : List Stop) :
    lastAccepts id otherwise (stop :: stops) = lastAccepts id (stop.filter.accepts id) stops := by
  rw [lastAccepts, lastAccepts, List.getLast?_cons]
  cases stops.getLast? <;> rfl

/-- Whether the way of an identifier counts as a match at its end. -/
def Engine.ends (engine : Engine) (id : Identifier) : Bool :=
  match engine with
  | list entries => !(entries.search id).isEmpty
  | patriciaTrie trie => !(trie.search id).isEmpty
  | weightedTree tree | splayTree tree => Stop.lastAccepts id false (WeightedTree.route id tree)

theorem SortedList.traceFrom_eq (id : Identifier) (path : List String) (matched : Bool)
    (entries : SortedList) (m : LocalityMap) :
    entries.traceFrom id path matched m =
      m.perform (way path (matched || !(entries.search id).isEmpty)
        ((entries.map ListEntry.stop).map Stop.label)) := by
  induction entries generalizing path matched m with
  | nil => simp [traceFrom, search, way, perform, act]
  | cons entry rest ih =>
    have hends : (matched || entry.filter.accepts id || !(search rest id).isEmpty) =
        (matched || !(search (entry :: rest) id).isEmpty) := by
      rw [search, search]
      by_cases h : entry.filter.accepts id = true <;> simp [h]
    rw [traceFrom, ih, hends]
    rfl

theorem Trie.traceFrom_eq (id : Identifier) (path : List String) (matched : Bool) (t : Trie)
    (m : LocalityMap) :
    t.traceFrom id path matched m =
      m.perform (way path (matched || !(t.search id).isEmpty)
        ((t.route id).map Stop.label)) := by
  induction t generalizing path matched m with
  | empty => simp [traceFrom, search, route, way, perform, act]
  | node uri filter one zero hone hzero =>
    have hlabel : label uri filter = Stop.label ⟨uri, filter⟩ := rfl
    rw [traceFrom, search, route]
    by_cases h : filter.accepts id = true
    · simp only [if_pos h]
      cases hbit : id.bitAt (filter.endIn id) with
      | none => cases uri <;> simp [way, perform, act, hlabel]
      | some bit => cases bit <;> cases uri <;> simp [way, perform, act, hlabel, hone, hzero]
    · simp [h, way, perform, act, hlabel]

namespace WeightedTree

theorem traceFrom_eq (id : Identifier) (path : List String) (matched : Bool) (t : WeightedTree)
    (m : LocalityMap) :
    traceFrom id path t (recordIfLast path matched t m) =
      m.perform (way path (Stop.lastAccepts id matched (route id t))
        ((route id t).map Stop.label)) := by
  induction t generalizing path matched m with
  | nil => rfl
  | node b below rest hbelow hrest =>
    have hfirst : recordIfLast path matched (.node b below rest) m = m := rfl
    rw [hfirst, traceFrom, route, List.map_cons, Stop.lastAccepts_cons]
    by_cases h : b.filter.accepts id = true
    · simp only [if_pos h, hbelow]
      rw [show b.stop.filter.accepts id = true from h]
      rfl
    · simp only [if_neg h, hrest]
      rw [show b.stop.filter.accepts id = false from Bool.eq_false_iff.mpr h]
      rfl

theorem trace_eq (id : Identifier) (t : WeightedTree) (m : LocalityMap) :
    trace id t m = m.perform (way [] (Stop.lastAccepts id false (route id t))
      ((route id t).map Stop.label)) := by
  rw [← traceFrom_eq]
  cases t <;> rfl

theorem uri_of_mem_route {id : Identifier} {t : WeightedTree} {stop : Stop}
    (h : stop ∈ route id t) : stop.uri = some stop.label := by
  induction t with
  | nil => cases h
  | node b below rest hbelow hrest =>
    rw [route] at h
    rcases List.mem_cons.mp h with rfl | h
    · rfl
    · split at h
      · exact hbelow h
      · exact hrest h

/-- If the last branch on the way matches, it is the last that a search reports. -/
theorem getLast?_search {id : Identifier} {t : WeightedTree}
    (h : Stop.lastAccepts id false (route id t) = true) : ∃ uri,
      ((route id t).map Stop.label).getLast? = some uri ∧ (search id t).getLast? = some uri := by
  rw [Stop.lastAccepts] at h
  cases hlast : (route id t).getLast? with
  | none => simp [hlast] at h
  | some last =>
    obtain ⟨before, hroute⟩ := List.getLast?_eq_some_iff.mp hlast
    have huri := uri_of_mem_route (List.mem_of_getLast? hlast)
    have haccepts : last.filter.accepts id = true := by simpa [hlast] using h
    refine ⟨last.label, by rw [List.getLast?_map, hlast]; rfl, ?_⟩
    rw [search_eq_filterMap, hroute, List.filterMap_append]
    simp [Stop.reported?, haccepts, huri]

end WeightedTree

namespace Engine

theorem trace_eq (engine : Engine) (id : Identifier) (m : LocalityMap) :
    engine.trace id m =
      m.perform (way [] (engine.ends id) ((engine.route id).map Stop.label)) := by
  cases engine with
  | list entries => exact entries.traceFrom_eq id [] false m
  | patriciaTrie trie => exact trie.traceFrom_eq id [] false m
  | weightedTree tree | splayTree tree => exact WeightedTree.trace_eq id tree m

/-- What the end of a way says of the search. -/
theorem ends_eq_true_iff (engine : Engine) (id : Identifier) :
    match engine with
    | list _ | patriciaTrie _ => engine.ends id = true ↔ engine.search id ≠ []
    | weightedTree _ | splayTree _ =>
      (engine.ends id = true ↔ ∃ last, (engine.route id).getLast? = some last ∧
        last.filter.accepts id = true) ∧
      (engine.ends id = true → ∃ uri, ((engine.route id).map Stop.label).getLast? = some uri ∧
        (engine.search id).getLast? = some uri) := by
  have hlast (stops : List Stop) : Stop.lastAccepts id false stops = true ↔
      ∃ last, stops.getLast? = some last ∧ last.filter.accepts id = true := by
    rw [Stop.lastAccepts]
    cases stops.getLast? <;> simp
  cases engine with
  | list entries | patriciaTrie trie => simp [ends, search]
  | weightedTree tree | splayTree tree => exact ⟨hlast _, WeightedTree.getLast?_search⟩

/-- Tracing takes the way of a search: there are nodes along the links of the engine
such that tracing counts every beginning of their labels once and a marker below them
all, whatever has been counted before, and such that a search reports those of them
that have a URI and match. In the list and the trie the marker says whether anything is
reported. In the trees it says whether the last node matches, and that is then the last
one reported. -/
theorem trace_follows_search (engine : Engine) (id : Identifier) :
    ∃ stops matched, engine.Way stops ∧
      (∀ before : List Recording,
        let m := fresh.perform before
        let labels := stops.map Stop.label
        (engine.trace id m).samples = m.samples ∧
        ∀ path, (engine.trace id m).visits path = m.visits path +
          (if path ≠ [] ∧ path <+: labels then 1 else 0) +
          (if path = labels ++ [marker matched] then 1 else 0)) ∧
      engine.search id = stops.filterMap (fun stop =>
        if stop.filter.accepts id then stop.uri else none) ∧
      match engine with
      | list _ | patriciaTrie _ => matched = true ↔ engine.search id ≠ []
      | weightedTree _ | splayTree _ =>
        (matched = true ↔ ∃ last, stops.getLast? = some last ∧ last.filter.accepts id = true) ∧
        (matched = true → ∃ uri, (stops.map Stop.label).getLast? = some uri ∧
          (engine.search id).getLast? = some uri) := by
  refine ⟨engine.route id, engine.ends id, engine.way_route id, ?_,
    engine.search_eq_filterMap id, engine.ends_eq_true_iff id⟩
  intro before m labels
  rw [trace_eq]
  refine ⟨?_, fun path => ?_⟩
  · rw [samples_perform, count_sample_way, Nat.add_zero]
  · rw [visits_perform (sorted_fresh.perform before), paths_way_nil, count_inits_tail_concat,
      Nat.add_assoc]

/-- A pattern at the last position of all ends at the first, and both ways go on from there. -/
example :
    let wrapping : Filter := ⟨['0'], UInt64.size - 1, 0, [], []⟩
    let engine := patriciaTrie (.node (some "root") wrapping .empty (.leaf ['0'] 0 "child"))
    engine.search [0x00] = ["root", "child"] ∧
      (engine.trace [0x00] fresh).visits ["root", "child", "Match"] = 1 := by
  decide +kernel

end Engine
end TagFilter
