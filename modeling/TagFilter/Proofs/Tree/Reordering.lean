import TagFilter.EngineSlot
import TagFilter.Proofs.Tree.Sorting

/-! # Changes of an ordered tree

What is added has no weight, so it changes no load and a tree stays ordered.
What is deleted takes its weight from the load of every branch above it, and these
are not placed again: a tree stays ordered exactly if each of them would stand where
it does with the smaller load.
-/
namespace TagFilter.WeightedTree
open List (Perm)
open Forest Pattern Weight

variable {a c tree : Branch × WeightedTree} {b : Branch} {t chain below rest : WeightedTree}
  {offset : Nat} {p q : Pattern} {u : String}

def key (tree : Branch × WeightedTree) : Nat × Pattern := (load tree, tree.1.filter.pattern)

/-- A branch with no more load stands no earlier. -/
theorem Before.lighter {c' : Branch × WeightedTree} (h : Before a c) (ha : Exact (treeWeights a))
    (hc : Exact (treeWeights c)) (hc' : Exact (treeWeights c'))
    (hpattern : c'.1.filter.pattern = c.1.filter.pattern) (hload : load c' ≤ load c) :
    Before a c' := by
  obtain ⟨hprec, hapart⟩ := h
  refine ⟨(precedes_iff ha hc').mpr ?_, hpattern ▸ hapart⟩
  rw [hpattern]
  obtain hless | ⟨hsame, hlt⟩ := (precedes_iff ha hc).mp hprec
  · exact .inl (by omega)
  · obtain hless | heq := Nat.lt_or_eq_of_le hload
    · exact .inl (by omega)
    · exact .inr ⟨by omega, hlt⟩

theorem Before.congr {a' : Branch × WeightedTree} (h : Before a c) (ha : Exact (treeWeights a))
    (ha' : Exact (treeWeights a')) (hc : Exact (treeWeights c)) (hkey : key a' = key a) :
    Before a' c := by
  obtain ⟨hprec, hapart⟩ := h
  obtain ⟨hload, hpattern⟩ := Prod.mk.inj hkey
  refine ⟨(precedes_iff ha' hc).mpr ?_, hpattern ▸ hapart⟩
  rw [hload, hpattern]
  exact (precedes_iff ha hc).mp hprec

theorem addNew_ordered (h : Ordered chain)
    (hnot : ∀ tree ∈ chain.siblings, ¬ tree.1.filter.pattern <+: p) :
    Ordered (addNew p offset u chain) ∧
      Padded (chain.weights Branch.weight) ((addNew p offset u chain).weights Branch.weight) := by
  rw [addNew_eq]
  constructor
  · apply ordered_place (ordered_spared h p) (ordered_taken h p)
    intro tree htree
    obtain ⟨hin, hpre⟩ := mem_spared.mp htree
    exact ⟨hpre, hnot tree hin⟩
  · have hplace := weights_place ⟨u, Filter.encode p offset, Weight.zero⟩ (taken p chain)
      (spared p chain)
    have hsplit := weights_filterRoots Branch.weight
      (fun b => p.isPrefixOf b.filter.pattern) chain
    rw [treeWeights, taken, weights_mapRoots (demoted p) fun _ => rfl] at hplace
    exact Padded.zero_cons (hplace.trans (hsplit.cons _))

def Settled (chain : WeightedTree) (p : Pattern) : Option WeightedTree → Prop
  | none => ∀ tree ∈ chain.siblings, ¬ tree.1.filter.pattern <+: p
  | some t => Ordered t ∧ Padded (chain.weights Branch.weight) (t.weights Branch.weight) ∧
      t.siblings.map key = chain.siblings.map key

theorem Settled.getD {result : Option WeightedTree} (h : Ordered chain)
    (hsettled : Settled chain p result) :
    Ordered (result.getD (addNew p offset u chain)) ∧
      Padded (chain.weights Branch.weight)
        ((result.getD (addNew p offset u chain)).weights Branch.weight) := by
  cases result with
  | none => exact addNew_ordered h hsettled
  | some t => exact ⟨hsettled.1, hsettled.2.1⟩

/-- No load above changes when nothing but branches without weight comes below. -/
theorem Settled.deeper {below' : WeightedTree} (h : Ordered (.node b below rest))
    (hwhole : Whole (.node b below rest)) (hordered : Ordered below')
    (hpadded : Padded (below.weights Branch.weight) (below'.weights Branch.weight)) :
    Settled (.node b below rest) p (some (.node b below' rest)) := by
  obtain ⟨hfirst, -, hrest⟩ := h
  have hnode := hwhole.head
  have htree : Padded (treeWeights (b, below)) (treeWeights (b, below')) :=
    (Padded.refl [b.weight]).append hpadded
  have hkey : key (b, below') = key (b, below) := congrArg (·, b.filter.pattern) htree.total
  refine ⟨⟨?_, hordered, hrest⟩, htree.append (Padded.refl _),
    congrArg (· :: _) hkey⟩
  intro next hnext
  exact (hfirst next hnext).congr hnode (hnode.padded htree)
    (hwhole.of_mem (List.mem_cons_of_mem _ hnext)) hkey

theorem Settled.later {result : Option WeightedTree} (h : Ordered (.node b below rest))
    (hwhole : Whole (.node b below rest)) (hpre : ¬ b.filter.pattern <+: p)
    (hsettled : Settled rest p result) :
    Settled (.node b below rest) p (result.map (.node b below ·)) := by
  obtain ⟨hfirst, hbelow, -⟩ := h
  cases result with
  | none => exact List.forall_mem_cons.mpr ⟨hpre, hsettled⟩
  | some rest' =>
    obtain ⟨hordered, hpadded, hkeys⟩ := hsettled
    have hnode := hwhole.head
    have hwhole' : Whole rest' := hwhole.tail.padded hpadded
    refine ⟨⟨?_, hbelow, hordered⟩, (Padded.refl _).append hpadded,
      congrArg (key (b, below) :: ·) hkeys⟩
    intro next hnext
    have hmem : key next ∈ rest.siblings.map key := hkeys ▸ List.mem_map_of_mem hnext
    obtain ⟨old, hold, hkey⟩ := List.mem_map.mp hmem
    obtain ⟨hload, hpattern⟩ := Prod.mk.inj hkey
    exact (hfirst old hold).lighter hnode (hwhole.of_mem (List.mem_cons_of_mem _ hold))
      (hwhole'.of_mem hnext) hpattern.symm (Nat.le_of_eq hload.symm)

theorem settled_addBelow? (h : Ordered chain) (hwhole : Whole chain) :
    Settled chain p (addBelow? u p offset chain) := by
  induction chain generalizing offset p with
  | nil => simp [addBelow?, Settled, siblings]
  | node b below rest ih_below ih_rest =>
    obtain ⟨hfirst, hbelow, hrest⟩ := id h
    obtain rfl | ⟨q, hq, rfl⟩ | hpre := isPrefix_cases b.filter.pattern p
    · rw [addBelow?_here]
      exact ⟨⟨hfirst, hbelow, hrest⟩, Padded.refl _, rfl⟩
    · rw [addBelow?_append hq]
      obtain ⟨hordered, hpadded⟩ := (ih_below hbelow hwhole.subset).getD hbelow
      exact Settled.deeper h hwhole hordered hpadded
    · rw [addBelow?_later hpre]
      exact Settled.later h hwhole hpre (ih_rest hrest hwhole.tail)

theorem add_ordered (h : Ordered t) (hwhole : Whole t) (p : Pattern) (u : String) :
    Ordered (add p u t) ∧ Whole (add p u t) := by
  have hsettled : Settled t p (addBelow? u p 0 t) := settled_addBelow? h hwhole
  have hadd : Ordered (add p u t) ∧
      Padded (t.weights Branch.weight) ((add p u t).weights Branch.weight) := hsettled.getD h
  obtain ⟨hordered, hpadded⟩ := hadd
  exact ⟨hordered, hwhole.padded hpadded⟩

/-- The own weight of the branch that a pattern leads to. -/
def weightAt : Pattern → WeightedTree → Weight
  | _, .nil => Weight.zero
  | pattern, .node b below rest =>
    let prior := b.filter.pattern
    if prior.isPrefixOf pattern then
      if prior.length < pattern.length then weightAt (pattern.drop prior.length) below
      else b.weight
    else weightAt pattern rest

/-- Whether a branch that loses some of its load stays before what follows it. -/
def StaysBefore (loss : Nat) (tree : Branch × WeightedTree) (rest : WeightedTree) : Prop :=
  ∀ next ∈ rest.siblings.head?, load next + loss < load tree ∨
    load next + loss = load tree ∧ tree.1.filter.pattern < next.1.filter.pattern

/-- Whether all branches above a pattern keep their places when they lose some load. -/
def HoldsPlaces (loss : Nat) : Pattern → WeightedTree → Prop
  | _, .nil => True
  | pattern, .node b below rest =>
    let prior := b.filter.pattern
    if prior.isPrefixOf pattern then
      if prior.length < pattern.length then
        StaysBefore loss (b, below) rest ∧ HoldsPlaces loss (pattern.drop prior.length) below
      else True
    else HoldsPlaces loss pattern rest

theorem weightAt_here (b : Branch) (below rest : WeightedTree) :
    weightAt b.filter.pattern (.node b below rest) = b.weight := by
  simp [weightAt]

theorem weightAt_append (hq : q ≠ []) :
    weightAt (b.filter.pattern ++ q) (.node b below rest) = weightAt q below := by
  rw [weightAt, if_pos (isPrefixOf_append _ _), if_pos (length_lt_append _ hq), List.drop_left]

theorem weightAt_later (hpre : ¬ b.filter.pattern <+: p) :
    weightAt p (.node b below rest) = weightAt p rest := by
  rw [weightAt, if_neg fun hb => hpre (List.isPrefixOf_iff_prefix.mp hb)]

theorem holdsPlaces_here (loss : Nat) (b : Branch) (below rest : WeightedTree) :
    HoldsPlaces loss b.filter.pattern (.node b below rest) := by
  simp [HoldsPlaces]

theorem holdsPlaces_append {loss : Nat} (hq : q ≠ []) :
    HoldsPlaces loss (b.filter.pattern ++ q) (.node b below rest) ↔
      StaysBefore loss (b, below) rest ∧ HoldsPlaces loss q below := by
  rw [HoldsPlaces, if_pos (isPrefixOf_append _ _), if_pos (length_lt_append _ hq), List.drop_left]

theorem holdsPlaces_later {loss : Nat} (hpre : ¬ b.filter.pattern <+: p) :
    HoldsPlaces loss p (.node b below rest) ↔ HoldsPlaces loss p rest := by
  rw [HoldsPlaces, if_neg fun hb => hpre (List.isPrefixOf_iff_prefix.mp hb)]

/-- What taking a pattern out of an ordered chain leaves. -/
structure Removed (p : Pattern) (chain remaining freed : WeightedTree) : Prop where
  weights : Perm (weightAt p chain ::
    (freed.weights Branch.weight ++ remaining.weights Branch.weight)) (chain.weights Branch.weight)
  inside : ∀ tree ∈ freed.siblings, Ordered tree.2
  apart : (freed.siblings ++ remaining.siblings).Pairwise
    fun a c => Apart a.1.filter.pattern c.1.filter.pattern
  begun : ∀ tree ∈ freed.siblings ++ remaining.siblings,
    ∃ old ∈ chain.siblings, old.1.filter.pattern <+: tree.1.filter.pattern
  lighter : ∀ tree ∈ remaining.siblings, ∃ old ∈ chain.siblings,
    tree.1.filter.pattern = old.1.filter.pattern ∧ load tree ≤ load old
  ordered : Ordered remaining ↔ HoldsPlaces (weightAt p chain).whole p chain

theorem removed_here (h : Ordered (.node b below rest)) :
    Removed b.filter.pattern (.node b below rest) rest (below.mapRoots (promoted b.filter)) := by
  obtain ⟨hfirst, hbelow, hrest⟩ := h
  obtain ⟨hpairs, hall⟩ := ordered_iff.mp hbelow
  have hfreed : (below.mapRoots (promoted b.filter)).siblings =
      below.siblings.map fun tree => (promoted b.filter tree.1, tree.2) := siblings_mapRoots _ _
  have hbegins : ∀ tree ∈ (below.mapRoots (promoted b.filter)).siblings,
      b.filter.pattern <+: tree.1.filter.pattern := by
    intro tree htree
    rw [hfreed] at htree
    obtain ⟨old, -, rfl⟩ := List.mem_map.mp htree
    exact List.prefix_append _ _
  have hrestp := (ordered_iff.mp hrest).1
  refine ⟨?_, ?_, ?_, ?_, ?_, ?_⟩
  · rw [weightAt_here, weights_mapRoots (promoted b.filter) fun _ => rfl]
    exact Perm.refl _
  · intro tree htree
    rw [hfreed] at htree
    obtain ⟨old, hold, rfl⟩ := List.mem_map.mp htree
    exact hall old hold
  · refine List.pairwise_append.mpr ⟨?_, hrestp.imp fun hac => hac.2, fun a ha c hc => ?_⟩
    · rw [hfreed]
      exact List.pairwise_map.mpr (hpairs.imp fun hac => apart_append_iff.mpr hac.2)
    · obtain ⟨s, hs⟩ := hbegins a ha
      rw [← hs]
      exact (hfirst c hc).2.append_left s
  · intro tree htree
    obtain htree | htree := List.mem_append.mp htree
    · exact ⟨_, List.mem_cons_self, hbegins tree htree⟩
    · exact ⟨tree, List.mem_cons_of_mem _ htree, List.prefix_refl _⟩
  · intro tree htree
    exact ⟨tree, List.mem_cons_of_mem _ htree, rfl, Nat.le_refl _⟩
  · exact iff_of_true hrest (holdsPlaces_here _ b below rest)

/-- A branch that gets lighter has to stay before the next one only. -/
theorem staysBefore_iff {below' : WeightedTree} {loss : Nat} (h : Ordered (.node b below rest))
    (hwhole : Whole (.node b below rest)) (hnode : Exact (treeWeights (b, below')))
    (hload : load (b, below') + loss = load (b, below)) :
    (∀ next ∈ rest.siblings, Before (b, below') next) ↔ StaysBefore loss (b, below) rest := by
  obtain ⟨hfirst, -, hrest⟩ := h
  cases rest with
  | nil => simp [StaysBefore, siblings]
  | node c subset rest =>
    have hexact := hwhole.tail.head
    have hprec := precedes_iff hnode hexact
    have hstays : StaysBefore loss (b, below) (.node c subset rest) ↔
        precedes (b, below') (c, subset) = true := by
      have hless : load (c, subset) + loss < load (b, below) ↔
          load (c, subset) < load (b, below') := by omega
      have hsame : load (c, subset) + loss = load (b, below) ↔
          load (b, below') = load (c, subset) := by omega
      simp only [StaysBefore, siblings, List.head?_cons, Option.mem_some_iff, forall_eq', hprec,
        hless, hsame]
    rw [hstays]
    constructor
    · intro hall
      exact (hall _ List.mem_cons_self).1
    · intro hhead next hnext
      refine ⟨?_, (hfirst next hnext).2⟩
      obtain rfl | hnext := List.mem_cons.mp hnext
      · exact hhead
      · exact precedes_trans hhead (hrest.1 next hnext).1

theorem Removed.deeper {remaining freed : WeightedTree} (h : Ordered (.node b below rest))
    (hwhole : Whole (.node b below rest)) (hq : q ≠ [])
    (hremoved : Removed q below remaining freed) :
    Removed (b.filter.pattern ++ q) (.node b below rest)
      (.node b (placeAll freed remaining) rest) .nil := by
  obtain ⟨hweights, hinside, hapart, -, -, hordered⟩ := hremoved
  have hat : weightAt (b.filter.pattern ++ q) (.node b below rest) = weightAt q below :=
    weightAt_append hq
  generalize weightAt q below = w at *
  have hplaced : Perm (w :: (placeAll freed remaining).weights Branch.weight)
      (below.weights Branch.weight) :=
    ((weights_placeAll freed remaining).cons _).trans hweights
  have htree : Perm (w :: treeWeights (b, placeAll freed remaining)) (treeWeights (b, below)) :=
    (Perm.swap _ _ _).trans (hplaced.cons _)
  have hnode := hwhole.head
  have hnode' : Exact (treeWeights (b, placeAll freed remaining)) :=
    (hnode.of_perm htree.symm).sublist (List.sublist_cons_self _ _)
  have hload : load (b, placeAll freed remaining) + w.whole = load (b, below) := by
    have htotal := total_perm htree
    rw [total_cons] at htotal
    simp only [load]
    omega
  refine ⟨?_, by simp [siblings], List.pairwise_cons.mpr ⟨fun next hnext => (h.1 next hnext).2, ?_⟩,
    ?_, ?_, ?_⟩
  · rw [hat]
    exact htree.append_right _
  · exact (ordered_iff.mp h.2.2).1.imp fun hac => hac.2
  · intro tree htree
    obtain rfl | htree := List.mem_cons.mp htree
    · exact ⟨_, List.mem_cons_self, List.prefix_refl _⟩
    · exact ⟨_, List.mem_cons_of_mem _ htree, List.prefix_refl _⟩
  · intro tree htree
    obtain rfl | htree := List.mem_cons.mp htree
    · exact ⟨_, List.mem_cons_self, rfl, by omega⟩
    · exact ⟨_, List.mem_cons_of_mem _ htree, rfl, Nat.le_refl _⟩
  · rw [hat, Ordered, holdsPlaces_append hq, staysBefore_iff h hwhole hnode' hload,
      ordered_placeAll_iff hinside hapart, hordered]
    exact ⟨fun hheld => ⟨hheld.1, hheld.2.1⟩, fun hheld => ⟨hheld.1, hheld.2, h.2.2⟩⟩

theorem Removed.later {remaining freed : WeightedTree} (h : Ordered (.node b below rest))
    (hwhole : Whole (.node b below rest)) (hpre : ¬ b.filter.pattern <+: p)
    (hremoved : Removed p rest remaining freed) :
    Removed p (.node b below rest) (.node b below remaining) freed := by
  obtain ⟨hfirst, hbelow, -⟩ := h
  obtain ⟨hweights, hinside, hapart, hbegun, hlighter, hordered⟩ := hremoved
  have hat : weightAt p (.node b below rest) = weightAt p rest := weightAt_later hpre
  have hmiddle : Perm (freed.siblings ++ (.node b below remaining : WeightedTree).siblings)
      ((b, below) :: (freed.siblings ++ remaining.siblings)) := List.perm_middle
  have hnode := hwhole.head
  have hwhole' : Whole remaining := by
    have hleft := (hwhole.tail.of_perm hweights.symm).sublist (List.sublist_cons_self _ _)
    exact hleft.sublist (List.sublist_append_right _ _)
  refine ⟨?_, hinside, ?_, ?_, ?_, ?_⟩
  · rw [hat]
    have hperm : Perm (weightAt p rest :: (freed.weights Branch.weight ++
        (.node b below remaining : WeightedTree).weights Branch.weight))
        (treeWeights (b, below) ++ (weightAt p rest :: (freed.weights Branch.weight ++
          remaining.weights Branch.weight))) :=
      (List.perm_append_comm_assoc _ _ _).cons _ |>.trans List.perm_middle.symm
    exact hperm.trans (hweights.append_left _)
  · refine (hmiddle.pairwise_iff Apart.symm).mpr (List.pairwise_cons.mpr ⟨?_, hapart⟩)
    intro tree htree
    obtain ⟨old, hold, s, hs⟩ := hbegun tree htree
    rw [← hs]
    exact ((hfirst old hold).2.symm.append_left s).symm
  · intro tree htree
    obtain rfl | htree := List.mem_cons.mp (hmiddle.subset htree)
    · exact ⟨_, List.mem_cons_self, List.prefix_refl _⟩
    · obtain ⟨old, hold, hle⟩ := hbegun tree htree
      exact ⟨old, List.mem_cons_of_mem _ hold, hle⟩
  · intro tree htree
    obtain rfl | htree := List.mem_cons.mp htree
    · exact ⟨_, List.mem_cons_self, rfl, Nat.le_refl _⟩
    · obtain ⟨old, hold, hle⟩ := hlighter tree htree
      exact ⟨old, List.mem_cons_of_mem _ hold, hle⟩
  · rw [hat, holdsPlaces_later hpre, ← hordered]
    refine ⟨fun hkept => hkept.2.2, fun hkept => ⟨fun next hnext => ?_, hbelow, hkept⟩⟩
    obtain ⟨old, hold, hpattern, hload⟩ := hlighter next hnext
    exact (hfirst old hold).lighter hnode (hwhole.of_mem (List.mem_cons_of_mem _ hold))
      (hwhole'.of_mem hnext) hpattern hload

theorem removed_detach? {remaining freed : WeightedTree} (h : Ordered chain) (hwhole : Whole chain)
    (hdetach : detach? u p chain = some (remaining, freed)) : Removed p chain remaining freed := by
  induction chain generalizing p remaining freed with
  | nil => simp [detach?] at hdetach
  | node b below rest ih_below ih_rest =>
    obtain ⟨-, hbelow, hrest⟩ := id h
    obtain rfl | ⟨q, hq, rfl⟩ | hpre := isPrefix_cases b.filter.pattern p
    · rw [detach?_here] at hdetach
      obtain ⟨-, heq⟩ := Option.ite_none_right_eq_some.mp hdetach
      obtain ⟨rfl, rfl⟩ := Prod.mk.inj (Option.some.inj heq)
      exact removed_here h
    · rw [detach?_append hq] at hdetach
      obtain ⟨⟨remaining', freed'⟩, hresult, heq⟩ := Option.map_eq_some_iff.mp hdetach
      obtain ⟨rfl, rfl⟩ := Prod.mk.inj heq
      exact Removed.deeper h hwhole hq (ih_below hbelow hwhole.subset hresult)
    · rw [detach?_later hpre] at hdetach
      obtain ⟨⟨remaining', freed'⟩, hresult, heq⟩ := Option.map_eq_some_iff.mp hdetach
      obtain ⟨rfl, rfl⟩ := Prod.mk.inj heq
      exact Removed.later h hwhole hpre (ih_rest hrest hwhole.tail hresult)

/-- Deleting keeps the order if all branches above keep their places, and only then. -/
theorem delete?_ordered_iff {t' : WeightedTree} (h : Ordered t) (hwhole : Whole t)
    (hdelete : delete? p u t = some t') :
    (Ordered t' ↔ HoldsPlaces (weightAt p t).whole p t) ∧ Whole t' := by
  obtain ⟨⟨remaining, freed⟩, hresult, rfl⟩ := Option.map_eq_some_iff.mp hdelete
  have hremoved := removed_detach? h hwhole hresult
  refine ⟨(ordered_placeAll_iff hremoved.inside hremoved.apart).trans hremoved.ordered, ?_⟩
  have hleft := (hwhole.of_perm hremoved.weights.symm).sublist (List.sublist_cons_self _ _)
  exact hleft.of_perm (weights_placeAll freed remaining).symm

/-- What a change leaves of a tree. Deleting what is not there leaves all. -/
def changed (t : WeightedTree) : Change → WeightedTree
  | .add p u => add p u t
  | .delete p u => (delete? p u t).getD t

def KeepsPlaces (t : WeightedTree) : Change → Prop
  | .add _ _ => True
  | .delete p u => (delete? p u t).isSome → HoldsPlaces (weightAt p t).whole p t

/-- Every tree on the way through a sequence of changes is ordered. -/
def StaysOrdered (t : WeightedTree) : List Change → Prop
  | [] => Ordered t
  | change :: later => Ordered t ∧ StaysOrdered (changed t change) later

/-- Each change on the way keeps the branches above it in their places. -/
def StaysPlaced (t : WeightedTree) : List Change → Prop
  | [] => True
  | change :: later => KeepsPlaces t change ∧ StaysPlaced (changed t change) later

theorem changed_ordered_iff (h : Ordered t) (hwhole : Whole t) (change : Change) :
    (Ordered (changed t change) ↔ KeepsPlaces t change) ∧ Whole (changed t change) := by
  cases change with
  | add p u =>
    obtain ⟨hordered, hwhole'⟩ := add_ordered h hwhole p u
    exact ⟨iff_of_true hordered trivial, hwhole'⟩
  | delete p u =>
    rw [changed, KeepsPlaces]
    cases hdelete : delete? p u t with
    | none => exact ⟨iff_of_true h (by simp), hwhole⟩
    | some t' =>
      obtain ⟨hiff, hwhole'⟩ := delete?_ordered_iff h hwhole hdelete
      exact ⟨hiff.trans (by simp), hwhole'⟩

theorem staysOrdered_iff (h : Ordered t) (hwhole : Whole t) (changes : List Change) :
    StaysOrdered t changes ↔ StaysPlaced t changes := by
  induction changes generalizing t with
  | nil => exact iff_of_true h trivial
  | cons change later ih =>
    obtain ⟨hiff, hwhole'⟩ := changed_ordered_iff h hwhole change
    rw [StaysOrdered, StaysPlaced]
    constructor
    · rintro ⟨-, hlater⟩
      have hchanged : Ordered (changed t change) := by
        cases later with
        | nil => exact hlater
        | cons next later => exact hlater.1
      exact ⟨hiff.mp hchanged, (ih hchanged hwhole').mp hlater⟩
    · rintro ⟨hkeeps, hlater⟩
      exact ⟨h, (ih (hiff.mpr hkeeps) hwhole').mpr hlater⟩

/-- An ordered tree stays ordered when a pattern is added, at whatever depth. When one
is deleted it stays ordered if and only if every branch above stands before the next
one with its load less the weight of the deleted branch. So a sequence of changes
of a new tree goes through ordered trees if and only if each deletion is such a
one. -/
theorem order_kept_iff {subs : Subscriptions} (h : Ordered t) (hwhole : Whole t)
    (hsubs : subs.Flat) (hexact : Exact (subs.weights Subscription.weight)) :
    (∀ p u, Ordered (add p u t)) ∧
      (∀ p u t', delete? p u t = some t' →
        (Ordered t' ↔ HoldsPlaces (weightAt p t).whole p t)) ∧
      ∀ changes, StaysOrdered (build subs) changes ↔ StaysPlaced (build subs) changes := by
  obtain ⟨hbuild, hweights⟩ := build_ordered hsubs hexact
  exact ⟨fun p u => (add_ordered h hwhole p u).1,
    fun p u t' hdelete => (delete?_ordered_iff h hwhole hdelete).1,
    staysOrdered_iff hbuild (hexact.of_perm hweights.symm)⟩

/-- A light pattern that comes first for what extends it. -/
def sampleMap : Subscriptions :=
  .node ⟨['0'], "A", ofNat 1, 0⟩ .nil
    (.node ⟨['0', '0'], "B", ofNat 5, 0⟩ .nil (.node ⟨['1'], "C", ofNat 3, 0⟩ .nil .nil))

def sampleTree : WeightedTree :=
  .node ⟨"A", Filter.encode ['0'] 0, ofNat 1⟩
    (.node ⟨"B", Filter.encode ['0'] 1, ofNat 5⟩ .nil .nil)
    (.node ⟨"C", Filter.encode ['1'] 0, ofNat 3⟩ .nil .nil)

theorem sampleMap_flat : sampleMap.Flat := ⟨by decide, by decide, by decide⟩

theorem sampleMap_exact : Exact (sampleMap.weights Subscription.weight) := by decide +kernel

theorem build_sampleMap : build sampleMap = sampleTree := by
  have hnested : sampleMap.nested = .node ⟨['0'], "A", ofNat 1, 0⟩
      (.node ⟨['0'], "B", ofNat 5, 1⟩ .nil .nil)
      (.node ⟨['1'], "C", ofNat 3, 0⟩ .nil .nil) := by
    decide +kernel
  have hlevel : growSiblings sampleMap.nested = sampleTree.siblings.map
      fun tree => (ofNat (load tree), tree) := by
    rw [hnested]
    simp only [growSiblings, List.mergeSort_nil, List.mergeSort_singleton]
    decide +kernel
  have hsorted : (growSiblings sampleMap.nested).Pairwise fun a b => heavier a b := by
    rw [hlevel]
    decide +kernel
  have hsame : (growSiblings sampleMap.nested).mergeSort heavier =
      growSiblings sampleMap.nested := List.mergeSort_of_pairwise hsorted
  rw [build, grow]
  change ofSiblings (((growSiblings sampleMap.nested).mergeSort heavier).map (·.2)) = sampleTree
  rw [hsame, hlevel]
  rfl

theorem order_kept_iff_sample : Ordered (add ['0', '1'] "D" sampleTree) := by
  have hordered : Ordered sampleTree := by decide +kernel
  have hwhole : Whole sampleTree := by decide +kernel
  exact (order_kept_iff hordered hwhole sampleMap_flat sampleMap_exact).1 ['0', '1'] "D"

/-- Without what is heavy below it the first branch is lighter than the second. -/
theorem order_lost : Ordered (build sampleMap) ∧ Whole (build sampleMap) ∧
    ∃ t', delete? ['0', '0'] "B" (build sampleMap) = some t' ∧ ¬ Ordered t' ∧
      chainPatterns t' = [['0'], ['1']] := by
  rw [build_sampleMap]
  refine ⟨by decide +kernel, by decide +kernel,
    .node ⟨"A", Filter.encode ['0'] 0, ofNat 1⟩ .nil
      (.node ⟨"C", Filter.encode ['1'] 0, ofNat 3⟩ .nil .nil), ?_⟩
  decide +kernel

end TagFilter.WeightedTree
