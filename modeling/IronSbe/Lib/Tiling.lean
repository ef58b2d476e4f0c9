import Mathlib.Data.Set.Lattice
import Mathlib.Order.CompletePartialOrder
import Mathlib.Order.Interval.Set.Basic
import Mathlib.Tactic.Common

/-!
# Tilings

Pieces of a whole that do not overlap and leave nothing out.  A tiling grows by a tiling of
something that is disjoint from the whole so far (`Tiles.append`), and the order of the pieces
does not matter (`Tiles.perm`).

* `countP_le_one`, `countP_eq_one`: pieces that are given by a test, and how many of them a
  point passes.
-/

namespace Lib

variable {α ι : Type*}

/-- The pieces are disjoint, and the whole is their union. -/
structure Tiles (pieces : List (Set α)) (whole : Set α) : Prop where
  disjoint : pieces.Pairwise Disjoint
  mem_iff : ∀ a, a ∈ whole ↔ ∃ piece ∈ pieces, a ∈ piece

namespace Tiles

variable {pieces pieces' : List (Set α)} {whole whole' : Set α}

theorem nil : Tiles [] (∅ : Set α) := ⟨.nil, by simp⟩

theorem singleton (piece : Set α) : Tiles [piece] piece :=
  ⟨List.pairwise_singleton _ _, by simp⟩

/-- The pieces are parts of the whole. -/
theorem subset (h : Tiles pieces whole) {piece : Set α} (hpiece : piece ∈ pieces) :
    piece ⊆ whole :=
  fun a ha => (h.mem_iff a).mpr ⟨piece, hpiece, ha⟩

theorem append (h : Tiles pieces whole) (h' : Tiles pieces' whole')
    (hdisjoint : Disjoint whole whole') : Tiles (pieces ++ pieces') (whole ∪ whole') := by
  refine ⟨List.pairwise_append.mpr ⟨h.disjoint, h'.disjoint, ?_⟩, fun a => ?_⟩
  · intro piece hpiece piece' hpiece'
    exact hdisjoint.mono (h.subset hpiece) (h'.subset hpiece')
  · rw [Set.mem_union, h.mem_iff, h'.mem_iff]
    simp only [List.mem_append, or_and_right, exists_or]

theorem perm (h : Tiles pieces whole) (hperm : pieces.Perm pieces') : Tiles pieces' whole := by
  refine ⟨(hperm.pairwise_iff fun hdisjoint => hdisjoint.symm).mp h.disjoint, fun a => ?_⟩
  rw [h.mem_iff]
  simp only [hperm.mem_iff]

theorem iUnion_eq (h : Tiles pieces whole) : ⋃ piece ∈ pieces, piece = whole := by
  ext a
  rw [h.mem_iff]
  simp only [Set.mem_iUnion, exists_prop]

end Tiles

/-! ## Counting -/

variable {p : ι → Bool} {l : List ι} {cell : ι → Set α} {others : List (Set α)} {whole : Set α}
  {a : α}

/-- A test that no two elements of a list pass. -/
theorem countP_le_one (h : l.Pairwise fun i j => ¬ (p i = true ∧ p j = true)) : l.countP p ≤ 1 := by
  induction l with
  | nil => simp
  | cons i rest ih =>
    obtain ⟨hfirst, hrest⟩ := List.pairwise_cons.mp h
    by_cases hi : p i = true
    · have hnone : rest.countP p = 0 := by
        rw [List.countP_eq_zero]
        intro j hj hpj
        exact hfirst j hj ⟨hi, hpj⟩
      rw [List.countP_cons_of_pos hi]
      omega
    · rw [List.countP_cons_of_neg hi]
      exact ih hrest

/-- Some of the pieces are `cell i` for the elements of a list.  A point is in one of these at
most. -/
theorem Tiles.countP_le_one (h : Tiles (l.map cell ++ others) whole)
    (hp : ∀ i, p i = true ↔ a ∈ cell i) : l.countP p ≤ 1 := by
  apply Lib.countP_le_one
  have hcells := List.pairwise_map.mp (List.pairwise_append.mp h.disjoint).1
  refine hcells.imp fun {i j} hdisjoint => ?_
  rw [hp, hp]
  rintro ⟨hi, hj⟩
  exact Set.disjoint_left.mp hdisjoint hi hj

/-- And it is in one, if it is in no other piece. -/
theorem Tiles.countP_eq_one (h : Tiles (l.map cell ++ others) whole)
    (hp : ∀ i, p i = true ↔ a ∈ cell i) (ha : a ∈ whole) (hothers : ∀ piece ∈ others, a ∉ piece) :
    l.countP p = 1 := by
  have hle := h.countP_le_one hp
  have hpos : 0 < l.countP p := by
    rw [List.countP_pos_iff]
    obtain ⟨piece, hpiece, hmem⟩ := (h.mem_iff a).mp ha
    rcases List.mem_append.mp hpiece with hcell | hother
    · obtain ⟨i, hi, rfl⟩ := List.mem_map.mp hcell
      exact ⟨i, hi, (hp i).mpr hmem⟩
    · exact absurd hmem (hothers piece hother)
  omega

end Lib
