import TagFilter.Proofs.Tree.Shape

/-! # Changes of a weight-ordered tree

Adding a pattern moves the branches that extend it below it, and deleting one
moves what lay below it up. Neither loses an entry or leaves a pattern that
begins another one of its level.
-/
namespace TagFilter.WeightedTree
open List (Perm)
open Forest Table OrderedMap Pattern

variable {offset : Nat} {t chain below rest : WeightedTree} {b : Branch}
  {tree : Branch × WeightedTree} {trees : List (Branch × WeightedTree)} {p q : Pattern} {u : String}

theorem isPrefixOf_append (p q : Pattern) : p.isPrefixOf (p ++ q) = true :=
  List.isPrefixOf_iff_prefix.mpr (List.prefix_append p q)

theorem length_lt_append (p : Pattern) (hq : q ≠ []) : p.length < (p ++ q).length := by
  have hpos := List.length_pos_iff.mpr hq
  rw [List.length_append]
  omega

theorem addBelow?_here (u : String) (b : Branch) (offset : Nat) (below rest : WeightedTree) :
    addBelow? u b.filter.pattern offset (.node b below rest) =
      some (.node { b with uri := u } below rest) := by
  simp [addBelow?]

theorem addBelow?_append (hq : q ≠ []) :
    addBelow? u (b.filter.pattern ++ q) offset (.node b below rest) =
      some (.node b ((addBelow? u q (offset + b.filter.pattern.size) below).getD
        (addNew q (offset + b.filter.pattern.size) u below)) rest) := by
  rw [addBelow?, if_pos (isPrefixOf_append _ _), if_neg (Nat.ne_of_lt (length_lt_append _ hq)),
    List.drop_left]

theorem addBelow?_later (hpre : ¬ b.filter.pattern <+: p) :
    addBelow? u p offset (.node b below rest) =
      (addBelow? u p offset rest).map (.node b below ·) := by
  rw [addBelow?, if_neg fun hb => hpre (List.isPrefixOf_iff_prefix.mp hb)]

theorem detach?_here (u : String) (b : Branch) (below rest : WeightedTree) :
    detach? u b.filter.pattern (.node b below rest) =
      if b.uri = u then some (rest, below.mapRoots (promoted b.filter)) else none := by
  simp [detach?]

theorem detach?_append (hq : q ≠ []) :
    detach? u (b.filter.pattern ++ q) (.node b below rest) =
      (detach? u q below).map fun (remaining, freed) =>
        (.node b (placeAll freed remaining) rest, .nil) := by
  rw [detach?, if_pos (isPrefixOf_append _ _), if_pos (length_lt_append _ hq), List.drop_left]

theorem detach?_later (hpre : ¬ b.filter.pattern <+: p) :
    detach? u p (.node b below rest) =
      (detach? u p rest).map fun (remaining, freed) => (.node b below remaining, freed) := by
  rw [detach?, if_neg fun hb => hpre (List.isPrefixOf_iff_prefix.mp hb)]

theorem perm_place (b : Branch) (below chain : WeightedTree) :
    Perm (place b below chain).siblings ((b, below) :: chain.siblings) := by
  induction chain with
  | nil => exact Perm.refl _
  | node c subset rest _ ih =>
    rw [place]
    split
    · exact Perm.refl _
    · exact (ih.cons _).trans (Perm.swap _ _ _)

theorem perm_placeAll (freed chain : WeightedTree) :
    Perm (placeAll freed chain).siblings (freed.siblings ++ chain.siblings) := by
  induction freed generalizing chain with
  | nil => exact Perm.refl _
  | node b below rest _ ih =>
    rw [placeAll]
    exact ((ih _).trans ((perm_place b below chain).append_left _)).trans List.perm_middle

theorem mem_roots : p ∈ roots reading t ↔ ∃ tree ∈ t.siblings, tree.1.filter.pattern = p :=
  List.mem_map

theorem demoted_placed (h : TreePlaced reading offset tree) (hp : p.Digital)
    (hpattern : tree.1.filter.pattern = p ++ q) :
    TreePlaced reading (offset + p.length) (demoted p tree.1, tree.2) ∧
      (demoted p tree.1).filter.pattern = q ∧
      under p (treeEntries reading (demoted p tree.1, tree.2)) = treeEntries reading tree := by
  obtain ⟨hfits, hdigital, hbelow, hproper⟩ := h
  have hoffset : tree.1.filter.offset = offset := by
    rw [show tree.1.filter = Filter.encode tree.1.filter.pattern offset from hfits]
    rfl
  have hd : demoted p tree.1 =
      { tree.1 with filter := Filter.encode q (offset + p.length) } := by
    rw [demoted, hpattern, List.drop_left, hoffset, hp.size_eq]
  rw [reading_pattern, hpattern] at hdigital hbelow
  rw [List.length_append, ← Nat.add_assoc] at hbelow
  rw [hd]
  refine ⟨⟨rfl, (digital_append.mp hdigital).2, hbelow, hproper⟩, rfl, ?_⟩
  rw [treeEntries, treeEntries, under_under, reading_pattern, reading_pattern, hpattern]
  rfl

theorem promoted_placed {parent : Filter} (hparent : parent = Filter.encode parent.pattern offset)
    (hp : parent.pattern.Digital)
    (h : TreePlaced reading (offset + parent.pattern.length) tree) :
    TreePlaced reading offset (promoted parent tree.1, tree.2) ∧
      (promoted parent tree.1).filter.pattern = parent.pattern ++ tree.1.filter.pattern ∧
      treeEntries reading (promoted parent tree.1, tree.2) =
        under parent.pattern (treeEntries reading tree) := by
  obtain ⟨-, hdigital, hbelow, hproper⟩ := h
  have hd : promoted parent tree.1 = { tree.1 with
      filter := Filter.encode (parent.pattern ++ tree.1.filter.pattern) offset } := by
    rw [promoted, show parent.offset = offset from hparent ▸ rfl]
  rw [Nat.add_assoc, reading_pattern, ← List.length_append] at hbelow
  rw [hd]
  refine ⟨⟨rfl, digital_append.mpr ⟨hp, hdigital⟩, hbelow, hproper⟩, rfl, ?_⟩
  rw [treeEntries, treeEntries, under_under]
  rfl

theorem under_levelEntries (p : Pattern) (trees : List (Branch × WeightedTree)) :
    under p (levelEntries reading trees) =
      trees.flatMap fun tree => under p (treeEntries reading tree) := by
  rw [under, levelEntries, List.map_flatMap]
  rfl

theorem level_demoted (h : Level reading offset trees) (hp : p.Digital)
    (hext : ∀ tree ∈ trees, p <+: tree.1.filter.pattern) :
    Level reading (offset + p.length) (trees.map fun tree => (demoted p tree.1, tree.2)) ∧
      under p (levelEntries reading (trees.map fun tree => (demoted p tree.1, tree.2))) =
        levelEntries reading trees := by
  refine ⟨⟨?_, ?_⟩, ?_⟩
  · intro tree' htree'
    obtain ⟨tree, htree, rfl⟩ := List.mem_map.mp htree'
    obtain ⟨q, hq⟩ := hext tree htree
    exact (demoted_placed (h.placed tree htree) hp hq.symm).1
  · refine List.pairwise_map.mpr (h.apart.imp_of_mem fun {a b} ha hb hab => ?_)
    obtain ⟨q, hq⟩ := hext a ha
    obtain ⟨q', hq'⟩ := hext b hb
    rw [reading_pattern, reading_pattern, ← hq, ← hq', apart_append_iff] at hab
    rwa [reading_pattern, reading_pattern, (demoted_placed (h.placed a ha) hp hq.symm).2.1,
      (demoted_placed (h.placed b hb) hp hq'.symm).2.1]
  · rw [under_levelEntries, List.flatMap_map, levelEntries]
    apply List.flatMap_congr
    intro tree htree
    obtain ⟨q, hq⟩ := hext tree htree
    exact (demoted_placed (h.placed tree htree) hp hq.symm).2.2

theorem level_promoted {parent : Filter} (hparent : parent = Filter.encode parent.pattern offset)
    (hp : parent.pattern.Digital) (h : Level reading (offset + parent.pattern.length) trees) :
    Level reading offset (trees.map fun tree => (promoted parent tree.1, tree.2)) ∧
      levelEntries reading (trees.map fun tree => (promoted parent tree.1, tree.2)) =
        under parent.pattern (levelEntries reading trees) := by
  have hpromoted := fun tree htree => promoted_placed hparent hp (h.placed tree htree)
  refine ⟨⟨?_, ?_⟩, ?_⟩
  · intro tree' htree'
    obtain ⟨tree, htree, rfl⟩ := List.mem_map.mp htree'
    exact (hpromoted tree htree).1
  · refine List.pairwise_map.mpr (h.apart.imp_of_mem fun {a b} ha hb hab => ?_)
    rwa [reading_pattern, reading_pattern, (hpromoted a ha).2.1, (hpromoted b hb).2.1,
      apart_append_iff]
  · rw [under_levelEntries, levelEntries, List.flatMap_map]
    exact List.flatMap_congr fun tree htree => (hpromoted tree htree).2.2

/-- The branches that begin with a pattern, as they go below it. -/
def taken (p : Pattern) (chain : WeightedTree) : WeightedTree :=
  (chain.filterRoots fun b => p.isPrefixOf b.filter.pattern).mapRoots (demoted p)

def spared (p : Pattern) (chain : WeightedTree) : WeightedTree :=
  chain.filterRoots fun b => !p.isPrefixOf b.filter.pattern

theorem addNew_eq (p : Pattern) (offset : Nat) (u : String) (chain : WeightedTree) :
    addNew p offset u chain =
      place ⟨u, Filter.encode p offset, Weight.zero⟩ (taken p chain) (spared p chain) := rfl

theorem siblings_taken (p : Pattern) (chain : WeightedTree) : (taken p chain).siblings =
    (chain.siblings.filter fun tree => p.isPrefixOf tree.1.filter.pattern).map
      fun tree => (demoted p tree.1, tree.2) := by
  rw [taken, siblings_mapRoots, siblings_filterRoots]

theorem mem_taken : tree ∈ (taken p chain).siblings ↔
    ∃ old ∈ chain.siblings, p <+: old.1.filter.pattern ∧ (demoted p old.1, old.2) = tree := by
  simp only [siblings_taken, List.mem_map, List.mem_filter, List.isPrefixOf_iff_prefix, and_assoc]

theorem siblings_spared (p : Pattern) (chain : WeightedTree) : (spared p chain).siblings =
    chain.siblings.filter fun tree => !p.isPrefixOf tree.1.filter.pattern :=
  siblings_filterRoots _ _

theorem mem_spared :
    tree ∈ (spared p chain).siblings ↔ tree ∈ chain.siblings ∧ ¬ p <+: tree.1.filter.pattern := by
  rw [siblings_spared, List.mem_filter, Bool.not_eq_true', ← Bool.not_eq_true,
    List.isPrefixOf_iff_prefix]

theorem taken_placed (h : Placed reading offset chain) (hp : p.Digital) :
    Placed reading (offset + p.length) (taken p chain) ∧
      under p (entries reading (taken p chain)) = levelEntries reading
        (chain.siblings.filter fun tree => p.isPrefixOf tree.1.filter.pattern) := by
  have hlevel := (placed_iff.mp h).filter fun tree => p.isPrefixOf tree.1.filter.pattern
  rw [placed_iff, entries_eq, siblings_taken]
  exact level_demoted hlevel hp fun tree htree =>
    List.isPrefixOf_iff_prefix.mp (List.mem_filter.mp htree).2

theorem taken_proper (h : Placed reading offset chain) (hp : p.Digital)
    (hnot : ∀ q ∈ roots reading chain, ¬ q <+: p) :
    ∀ q ∈ roots reading (taken p chain), q ≠ [] := by
  intro q hq hnil
  obtain ⟨tree, htree, rfl⟩ := mem_roots.mp hq
  obtain ⟨old, hold, ⟨s, hs⟩, rfl⟩ := mem_taken.mp htree
  rw [(demoted_placed ((placed_iff.mp h).placed old hold) hp hs.symm).2.1] at hnil
  rw [hnil, List.append_nil] at hs
  exact hnot p (mem_roots.mpr ⟨old, hold, hs.symm⟩) (List.prefix_refl p)

/-- A pattern that no branch of a chain begins takes in those that begin with it. -/
theorem addNew_placed (h : Placed reading offset chain) (hp : p.Digital)
    (hnot : ∀ q ∈ roots reading chain, ¬ q <+: p) :
    Placed reading offset (addNew p offset u chain) ∧
      Perm (entries reading (addNew p offset u chain)) ((p, u) :: entries reading chain) ∧
      ∀ q ∈ roots reading (addNew p offset u chain), q = p ∨ q ∈ roots reading chain := by
  obtain ⟨htaken, hentries⟩ := taken_placed h hp
  have hperm : Perm (addNew p offset u chain).siblings
      ((⟨u, Filter.encode p offset, Weight.zero⟩, taken p chain) :: (spared p chain).siblings) :=
    perm_place _ _ _
  have htree : TreePlaced reading offset
      (⟨u, Filter.encode p offset, Weight.zero⟩, taken p chain) :=
    ⟨rfl, hp, htaken, taken_proper h hp hnot⟩
  have hapart : ∀ other ∈ (spared p chain).siblings, Apart p other.1.filter.pattern := by
    intro other hother
    obtain ⟨hmem, hpre⟩ := mem_spared.mp hother
    exact ⟨hpre, hnot _ (mem_roots.mpr ⟨other, hmem, rfl⟩)⟩
  have hspared : Level reading offset (spared p chain).siblings := by
    rw [siblings_spared]
    exact (placed_iff.mp h).filter _
  refine ⟨placed_iff.mpr ((hspared.cons htree hapart).of_perm hperm.symm), ?_, ?_⟩
  · have hsplit := List.filter_append_perm
      (fun tree : Branch × WeightedTree => p.isPrefixOf tree.1.filter.pattern) chain.siblings
    have hnew : treeEntries reading (⟨u, Filter.encode p offset, Weight.zero⟩, taken p chain) =
        (p, u) :: levelEntries reading
          (chain.siblings.filter fun tree => p.isPrefixOf tree.1.filter.pattern) := by
      rw [← hentries]
      simp [treeEntries, under]
    rw [entries_eq, entries_eq chain]
    refine (levelEntries_perm hperm).trans ?_
    rw [levelEntries_cons, hnew, List.cons_append, siblings_spared, ← levelEntries_append]
    exact (levelEntries_perm hsplit).cons _
  · intro q hq
    obtain ⟨tree, htree, rfl⟩ := mem_roots.mp hq
    rcases List.mem_cons.mp (hperm.subset htree) with rfl | htree
    · exact .inl rfl
    · exact .inr (mem_roots.mpr ⟨tree, (mem_spared.mp htree).1, rfl⟩)

def Added (offset : Nat) (chain : WeightedTree) (p : Pattern) (u : String) :
    Option WeightedTree → Prop
  | none => ∀ q ∈ roots reading chain, ¬ q <+: p
  | some t => Placed reading offset t ∧
      Perm (entries reading t) ((p, u) :: erase (entries reading chain) p) ∧
      roots reading t = roots reading chain

theorem Added.getD {result : Option WeightedTree} (h : Placed reading offset chain)
    (hp : p.Digital) (hadded : Added offset chain p u result) :
    Placed reading offset (result.getD (addNew p offset u chain)) ∧
      Perm (entries reading (result.getD (addNew p offset u chain)))
        ((p, u) :: erase (entries reading chain) p) ∧
      ∀ q ∈ roots reading (result.getD (addNew p offset u chain)),
        q = p ∨ q ∈ roots reading chain := by
  cases result with
  | none =>
    have habsent : erase (entries reading chain) p = entries reading chain := by
      rw [entries_eq]
      exact erase_levelEntries fun tree htree => hadded _ (mem_roots.mpr ⟨tree, htree, rfl⟩)
    rw [habsent]
    exact addNew_placed h hp hadded
  | some t =>
    obtain ⟨hplaced, hperm, hroots⟩ := hadded
    exact ⟨hplaced, hperm, fun q hq => .inr (hroots ▸ hq)⟩

/-- The trees after a branch on the way to a pattern have nothing to do with it. -/
theorem erase_node (h : Placed reading offset (.node b below rest)) (q : Pattern) :
    erase (entries reading (.node b below rest)) (b.filter.pattern ++ q) =
      under b.filter.pattern (erase (([], b.uri) :: entries reading below) q) ++
        entries reading rest := by
  have hrest : erase (entries reading rest) (b.filter.pattern ++ q) = entries reading rest := by
    rw [entries_eq]
    apply erase_levelEntries
    intro tree htree
    exact (h.2.2.1 _ (List.mem_map_of_mem htree)).not_isPrefix (List.prefix_append _ _)
  rw [entries, erase_append, hrest, ← erase_under]
  rfl

theorem Added.deeper {below' : WeightedTree} (h : Placed reading offset (.node b below rest))
    (hq : q ≠ []) (hplaced : Placed reading (offset + b.filter.pattern.length) below')
    (hperm : Perm (entries reading below') ((q, u) :: erase (entries reading below) q))
    (hroots : ∀ s ∈ roots reading below', s = q ∨ s ∈ roots reading below) :
    Added offset (.node b below rest) (b.filter.pattern ++ q) u (some (.node b below' rest)) := by
  obtain ⟨hhead, ⟨-, hproper⟩, hapart, hrest⟩ := id h
  have hproper' : ∀ s ∈ roots reading below', s ≠ [] := by
    intro s hs
    rcases hroots s hs with rfl | hs
    · exact hq
    · exact hproper s hs
  refine ⟨⟨hhead, ⟨hplaced, hproper'⟩, hapart, hrest⟩, ?_, rfl⟩
  have hinner := ((hperm.cons ([], b.uri)).trans (Perm.swap _ _ _)).map
    fun e => (b.filter.pattern ++ e.1, e.2)
  rw [erase_node h, erase_cons_of_ne (Ne.symm hq)]
  exact hinner.append_right _

theorem Added.later {result : Option WeightedTree} (h : Placed reading offset (.node b below rest))
    (hpre : ¬ b.filter.pattern <+: p) (hadded : Added offset rest p u result) :
    Added offset (.node b below rest) p u (result.map (.node b below ·)) := by
  obtain ⟨hhead, hbelow, hapart, -⟩ := id h
  cases result with
  | none =>
    intro q hq
    rcases List.mem_cons.mp hq with rfl | hq
    · exact hpre
    · exact hadded q hq
  | some rest' =>
    obtain ⟨hplaced, hperm, hroots⟩ := hadded
    refine ⟨⟨hhead, hbelow, hroots ▸ hapart, hplaced⟩, ?_, congrArg (List.cons _) hroots⟩
    rw [entries, entries, erase_append, reading_pattern, erase_under_of_not_isPrefix hpre]
    exact (hperm.append_left _).trans List.perm_middle

theorem added_here (h : Placed reading offset (.node b below rest)) :
    Added offset (.node b below rest) b.filter.pattern u
      (some (.node { b with uri := u } below rest)) := by
  have hown : erase (([], b.uri) :: entries reading below) [] = entries reading below :=
    erase_entries_nil h.2.1.2
  have herase := erase_node h []
  rw [List.append_nil, hown] at herase
  refine ⟨h, ?_, rfl⟩
  rw [herase, entries, under, List.map_cons, reading_pattern, List.append_nil]
  exact Perm.refl _

theorem added_addBelow? (h : Placed reading offset chain) (hp : p.Digital) :
    Added offset chain p u (addBelow? u p offset chain) := by
  induction chain generalizing offset p with
  | nil => simp [addBelow?, Added, roots, siblings]
  | node b below rest ih_below ih_rest =>
    obtain ⟨hhead, ⟨hbelow, -⟩, -, hrest⟩ := id h
    obtain rfl | ⟨q, hq, rfl⟩ | hpre := isPrefix_cases b.filter.pattern p
    · rw [addBelow?_here]
      exact added_here h
    · have hsize : b.filter.pattern.size = b.filter.pattern.length := hhead.2.size_eq
      have hqd := (digital_append.mp hp).2
      rw [addBelow?_append hq, hsize]
      obtain ⟨hplaced, hperm, hroots⟩ := (ih_below hbelow hqd).getD hbelow hqd
      exact Added.deeper h hq hplaced hperm hroots
    · rw [addBelow?_later hpre]
      exact Added.later h hpre (ih_rest hrest hp)

theorem add_placed (h : Placed reading 0 t) (hp : p.Digital) :
    Placed reading 0 (add p u t) ∧
      Perm (entries reading (add p u t)) ((p, u) :: erase (entries reading t) p) := by
  obtain ⟨hplaced, hperm, -⟩ := (added_addBelow? h hp).getD h hp
  exact ⟨hplaced, hperm⟩

/-- What taking a pattern out gives: nothing if its entry is not there, and
otherwise the trees of a level without it. -/
def Detached (offset : Nat) (chain : WeightedTree) (p : Pattern) (u : String) :
    Option (List (Branch × WeightedTree)) → Prop
  | none => (p, u) ∉ entries reading chain
  | some trees => (p, u) ∈ entries reading chain ∧ Level reading offset trees ∧
      Perm (levelEntries reading trees) (erase (entries reading chain) p) ∧
      ∀ tree ∈ trees, ∃ q ∈ roots reading chain, q <+: tree.1.filter.pattern

def left (result : WeightedTree × WeightedTree) : List (Branch × WeightedTree) :=
  result.2.siblings ++ result.1.siblings

theorem mem_node (h : Placed reading offset (.node b below rest)) (q : Pattern) :
    (b.filter.pattern ++ q, u) ∈ entries reading (.node b below rest) ↔
      (q, u) ∈ ([], b.uri) :: entries reading below := by
  have hrest : (b.filter.pattern ++ q, u) ∉ entries reading rest := by
    rw [entries_eq]
    apply not_mem_levelEntries
    intro tree htree
    exact (h.2.2.1 _ (List.mem_map_of_mem htree)).not_isPrefix (List.prefix_append _ _)
  rw [entries, List.mem_append, or_iff_left hrest]
  exact mem_under_append

/-- Taking out the pattern of a branch leaves what lay below it in its place. -/
theorem detached_here (h : Placed reading offset (.node b below rest)) :
    Detached offset (.node b below rest) (b.filter.pattern ++ []) u
      ((if b.uri = u then some (rest, below.mapRoots (promoted b.filter)) else none).map left) := by
  obtain ⟨⟨hfits, hdigital⟩, ⟨hbelow, hproper⟩, hapart, hrest⟩ := id h
  have hown : erase (([], b.uri) :: entries reading below) [] = entries reading below :=
    erase_entries_nil hproper
  by_cases huri : b.uri = u
  · rw [if_pos huri]
    obtain ⟨hup, hentries⟩ := level_promoted hfits hdigital (placed_iff.mp hbelow)
    have hleft : left (rest, below.mapRoots (promoted b.filter)) =
        (below.siblings.map fun tree => (promoted b.filter tree.1, tree.2)) ++ rest.siblings := by
      rw [left, siblings_mapRoots]
    obtain ⟨hrestp, hresta⟩ := placed_iff.mp hrest
    have hprior : ∀ tree ∈ below.siblings.map fun tree => (promoted b.filter tree.1, tree.2),
        b.filter.pattern <+: tree.1.filter.pattern := by
      intro tree htree
      obtain ⟨tree, -, rfl⟩ := List.mem_map.mp htree
      exact List.prefix_append _ _
    simp only [Option.map_some, hleft]
    refine ⟨(mem_node h _).mpr (by simp [huri]), ⟨?_, ?_⟩, ?_,
      ?_⟩
    · intro tree htree
      exact (List.mem_append.mp htree).elim (hup.placed tree) (hrestp tree)
    · refine List.pairwise_append.mpr ⟨hup.apart, hresta, ?_⟩
      intro a ha c hc
      obtain ⟨s, hs⟩ := hprior a ha
      rw [reading_pattern, ← hs]
      exact (hapart _ (List.mem_map_of_mem hc)).append_left s
    · rw [levelEntries_append, hentries, erase_node h, hown, ← entries_eq, ← entries_eq]
    · intro tree htree
      rcases List.mem_append.mp htree with htree | htree
      · exact ⟨_, List.mem_cons_self, hprior tree htree⟩
      · exact ⟨_, List.mem_cons_of_mem _ (List.mem_map_of_mem htree), List.prefix_refl _⟩
  · rw [if_neg huri]
    intro hmem
    rcases List.mem_cons.mp ((mem_node h _).mp hmem) with heq | hin
    · exact huri (congrArg Prod.snd heq).symm
    · rw [← hown] at hin
      exact (mem_erase.mp hin).2 rfl

theorem Detached.deeper {result : Option (WeightedTree × WeightedTree)}
    (h : Placed reading offset (.node b below rest)) (hq : q ≠ [])
    (hdetached : Detached (offset + b.filter.pattern.length) below q u (result.map left)) :
    Detached offset (.node b below rest) (b.filter.pattern ++ q) u
      ((result.map fun (remaining, freed) =>
        (Forest.node b (placeAll freed remaining) rest, .nil)).map left) := by
  obtain ⟨hhead, ⟨hbelow, hproper⟩, htail⟩ := id h
  have hmem : (b.filter.pattern ++ q, u) ∈ entries reading (.node b below rest) ↔
      (q, u) ∈ entries reading below := by
    rw [mem_node h, List.mem_cons, or_iff_right (by simp [hq])]
  cases result with
  | none => exact fun hin => hdetached (hmem.mp hin)
  | some result =>
    obtain ⟨remaining, freed⟩ := result
    obtain ⟨hin, hlev, hperm, hroots⟩ := hdetached
    have hplace := (perm_placeAll freed remaining).symm
    have hentries : Perm (entries reading (placeAll freed remaining))
        (erase (entries reading below) q) := by
      rw [entries_eq]
      exact (levelEntries_perm hplace.symm).trans hperm
    have hproper' : ∀ s ∈ roots reading (placeAll freed remaining), s ≠ [] := by
      rintro s hs rfl
      obtain ⟨tree, htree, hnil⟩ := mem_roots.mp hs
      obtain ⟨r, hr, hpre⟩ := hroots tree (hplace.symm.subset htree)
      rw [hnil, List.prefix_nil] at hpre
      exact hproper r hr hpre
    have hnode : Placed reading offset (.node b (placeAll freed remaining) rest) :=
      ⟨hhead, ⟨placed_iff.mpr (hlev.of_perm hplace), hproper'⟩, htail⟩
    refine ⟨hmem.mpr hin, placed_iff.mp hnode, ?_, ?_⟩
    · have hinner := (hentries.cons ([], b.uri)).map fun e => (b.filter.pattern ++ e.1, e.2)
      have hall : levelEntries reading (left (.node b (placeAll freed remaining) rest, .nil)) =
          entries reading (.node b (placeAll freed remaining) rest) := (entries_eq _).symm
      rw [hall, erase_node h, erase_cons_of_ne (Ne.symm hq)]
      exact hinner.append_right _
    · intro tree htree
      exact ⟨_, List.mem_map_of_mem (f := fun tree => reading.pattern tree.1) htree,
        List.prefix_refl _⟩

theorem Detached.later {result : Option (WeightedTree × WeightedTree)}
    (h : Placed reading offset (.node b below rest)) (hpre : ¬ b.filter.pattern <+: p)
    (hdetached : Detached offset rest p u (result.map left)) :
    Detached offset (.node b below rest) p u
      ((result.map fun (remaining, freed) => (Forest.node b below remaining, freed)).map left) := by
  obtain ⟨-, -, hapart, -⟩ := id h
  cases result with
  | none =>
    intro hin
    rcases List.mem_append.mp hin with hin | hin
    · exact hpre (prefix_of_mem_under hin)
    · exact hdetached hin
  | some result =>
    obtain ⟨remaining, freed⟩ := result
    obtain ⟨hin, hlev, hperm, hroots⟩ := hdetached
    have hmiddle : Perm (left (.node b below remaining, freed))
        ((b, below) :: left (remaining, freed)) := List.perm_middle
    have hfirst : ∀ other ∈ left (remaining, freed),
        Apart b.filter.pattern other.1.filter.pattern := by
      intro other hother
      obtain ⟨r, hr, s, hs⟩ := hroots other hother
      rw [← hs]
      exact ((hapart r hr).symm.append_left s).symm
    have hlevel := hlev.cons ((placed_iff.mp h).placed _ List.mem_cons_self) hfirst
    refine ⟨List.mem_append.mpr (.inr hin), hlevel.of_perm hmiddle.symm, ?_, ?_⟩
    · rw [entries, erase_append, reading_pattern, erase_under_of_not_isPrefix hpre]
      refine (levelEntries_perm hmiddle).trans ?_
      rw [levelEntries_cons]
      exact hperm.append_left _
    · intro tree htree
      rcases List.mem_cons.mp (hmiddle.subset htree) with rfl | htree
      · exact ⟨_, List.mem_cons_self, List.prefix_refl _⟩
      · obtain ⟨r, hr, hle⟩ := hroots tree htree
        exact ⟨r, List.mem_cons_of_mem _ hr, hle⟩

theorem detached_detach? (h : Placed reading offset chain) :
    Detached offset chain p u ((detach? u p chain).map left) := by
  induction chain generalizing offset p with
  | nil => simp [detach?, Detached, entries]
  | node b below rest ih_below ih_rest =>
    obtain ⟨-, ⟨hbelow, -⟩, -, hrest⟩ := id h
    obtain rfl | ⟨q, hq, rfl⟩ | hpre := isPrefix_cases b.filter.pattern p
    · have hhere := detached_here (u := u) h
      rw [List.append_nil] at hhere
      rw [detach?_here]
      exact hhere
    · rw [detach?_append hq]
      exact Detached.deeper h hq (ih_below hbelow)
    · rw [detach?_later hpre]
      exact Detached.later h hpre (ih_rest hrest)

/-- Deleting removes one entry and keeps the placement, or there is none to remove. -/
theorem delete?_placed (h : Placed reading 0 t) (p : Pattern) (u : String) :
    match delete? p u t with
    | none => (p, u) ∉ entries reading t
    | some t' => (p, u) ∈ entries reading t ∧ Placed reading 0 t' ∧
        Perm (entries reading t') (erase (entries reading t) p) := by
  have hdetached := detached_detach? (p := p) (u := u) h
  unfold delete?
  cases hresult : detach? u p t with
  | none =>
    rw [hresult] at hdetached
    exact hdetached
  | some result =>
    obtain ⟨remaining, freed⟩ := result
    rw [hresult] at hdetached
    obtain ⟨hin, hlev, hperm, -⟩ := hdetached
    have hplace := (perm_placeAll freed remaining).symm
    refine ⟨hin, placed_iff.mpr (hlev.of_perm hplace), ?_⟩
    rw [entries_eq]
    exact (levelEntries_perm hplace.symm).trans hperm

end TagFilter.WeightedTree
