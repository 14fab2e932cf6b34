import TagFilter.Engine.SplayTree
import TagFilter.Proofs.Tree.Levels

/-! # The contents of a weight-ordered tree

What a search in a tree finds depends on its entries only: a chain has at most one
branch that an identifier goes on with, wherever that branch stands. So the
order of a chain, and moving a branch to its front, change no answer.
-/
namespace TagFilter
namespace WeightedTree
open List (Perm)
open Forest Table

def reading : Reading Branch where
  pattern b := b.filter.pattern
  uri b := b.uri
  fits offset b := b.filter = Filter.encode b.filter.pattern offset

@[simp] theorem reading_pattern (b : Branch) : reading.pattern b = b.filter.pattern := rfl

@[simp] theorem reading_uri (b : Branch) : reading.uri b = b.uri := rfl

variable {offset : Nat} {t t' chain : WeightedTree} {b : Branch} {below : WeightedTree}
  {id : Identifier}

theorem TreePlaced.accepts_iff {tree : Branch × WeightedTree}
    (h : TreePlaced reading offset tree) (id : Identifier) (hoffset : offset ≤ id.bits.length) :
    tree.1.filter.accepts id = true ↔ tree.1.filter.pattern <+: id.bits.drop offset := by
  have hencode : tree.1.filter = Filter.encode tree.1.filter.pattern offset := h.fits
  have hdigital : tree.1.filter.pattern.Digital := h.digital
  rw [hencode, Filter.accepts_iff_isPrefix hdigital hoffset, Filter.pattern_encode]

/-- A search reports the entries that the identifier begins with, the shortest first. -/
theorem search_eq (h : Placed reading offset t) (id : Identifier)
    (hoffset : offset ≤ id.bits.length) :
    search id t = (matching (id.bits.drop offset) (entries reading t)).map (·.2) ∧
      (matching (id.bits.drop offset) (entries reading t)).Pairwise
        fun a b => a.1.length < b.1.length := by
  induction t generalizing offset with
  | nil => exact ⟨rfl, List.Pairwise.nil⟩
  | node b below rest ih_below ih_rest =>
    have hlevel := placed_iff.mp h
    obtain ⟨hbelow, hproper⟩ := h.2.1
    obtain ⟨hapart, hrest⟩ := h.2.2
    have haccepts := TreePlaced.accepts_iff (hlevel.placed _ List.mem_cons_self) id hoffset
    rw [search, entries, matching_append]
    by_cases hpre : b.filter.pattern <+: id.bits.drop offset
    · have hnext : offset + b.filter.pattern.length ≤ id.bits.length := by
        have hle := hpre.length_le
        rw [List.length_drop] at hle
        omega
      obtain ⟨hsearch, hlength⟩ := ih_below hbelow hnext
      have hnone : matching (id.bits.drop offset) (entries reading rest) = [] := by
        rw [entries_eq]
        apply matching_levelEntries
        intro tree htree
        exact (hapart _ (List.mem_map_of_mem htree)).not_isPrefix hpre
      have hhere (bits : Pattern) (m : Table) (u : String) :
          matching bits (([], u) :: m) = ([], u) :: matching bits m := rfl
      rw [if_pos (haccepts.mpr hpre), hnone, List.append_nil, reading_pattern,
        matching_under _ hpre, List.drop_drop, hhere]
      constructor
      · simp only [under, List.map_cons, List.map_map, hsearch]
        rfl
      · refine under_lengths (List.pairwise_cons.mpr ⟨?_, hlength⟩)
        intro e he
        obtain ⟨hin, -⟩ := mem_matching.mp he
        rw [entries_eq] at hin
        obtain ⟨tree, htree, hlead⟩ := prefix_of_mem_levelEntries hin
        have hne := hproper _ (List.mem_map_of_mem htree)
        exact Nat.lt_of_lt_of_le (List.length_pos_iff.mpr hne) hlead.length_le
    · rw [if_neg (fun hacc => hpre (haccepts.mp hacc)), reading_pattern,
        matching_under_of_not_isPrefix hpre, List.nil_append]
      exact ih_rest hrest hoffset

end WeightedTree

namespace SplayTree
open List (Perm)
open Forest

theorem perm_extract? {id : Identifier} {t others below : SplayTree} {b : Branch}
    (h : extract? id t = some (b, below, others)) :
    Perm ((b, below) :: others.siblings) t.siblings := by
  induction t generalizing others with
  | nil => simp [extract?] at h
  | node c subset rest _ ih =>
    rw [extract?] at h
    split at h
    · simp only [Option.some.injEq, Prod.mk.injEq] at h
      obtain ⟨rfl, rfl, rfl⟩ := h
      exact Perm.refl _
    · obtain ⟨⟨d, inner, left⟩, hrest, heq⟩ := Option.map_eq_some_iff.mp h
      simp only [Prod.mk.injEq] at heq
      obtain ⟨rfl, rfl, rfl⟩ := heq
      exact (Perm.swap _ _ _).trans ((ih hrest).cons _)

theorem perm_moveToFront (id : Identifier) (t : SplayTree) :
    Perm (moveToFront id t).siblings t.siblings := by
  unfold moveToFront
  split
  · rename_i hfound
    exact perm_extract? hfound
  · exact Perm.refl _

end SplayTree
end TagFilter
