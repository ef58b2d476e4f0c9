import IronSbe.Lib.Slice

/-!
# Circular regions

A region of fixed size that holds a window of an endless sequence: element `i`
of the sequence stands in cell `i % size`.  `copyIn` and `copyOut` move a block
that may run over the end of the region, in two parts when it does.

* `turn_copyIn`, `cell_copyIn`: after a block went in its cells hold it, and the
  cells of a turn around it hold what they held.
* `copyIn_append`: two blocks, one behind the other, go in as one.
* `copyOut_eq_some`: a block whose cells are known comes out whole.
-/

namespace Lib.Ring

open Lib.Slice List

variable {α : Type}

/-- The cell of sequence position `i`. -/
def cell (region : List α) (i : Nat) : Option α := region[i % region.length]?

/-- Copy `data` into the region from cell `start` on, the part that does not
fit before the end at the beginning. -/
def copyIn (region : List α) (start : Nat) (data : List α) : Option (List α) :=
  if start + data.length ≤ region.length then blit region start data
  else
    (blit region start (data.take (region.length - start))).bind fun region =>
      blit region 0 (data.drop (region.length - start))

/-- Copy `len` elements out of the region from cell `start` on, over the end
where they go over it. -/
def copyOut (region : List α) (start len : Nat) : Option (List α) :=
  if start + len ≤ region.length then slice region start (start + len)
  else
    (slice region start region.length).bind fun first =>
      (slice region 0 (len - (region.length - start))).map (first ++ ·)

variable {data region region' : List α} {size start : Nat}

/-- A copy keeps the size of the region. -/
theorem length_of_copyIn (h : copyIn region start data = some region') :
    region'.length = region.length := by
  unfold copyIn at h
  split_ifs at h
  · exact length_of_blit h
  · obtain ⟨first, hfirst, hsecond⟩ := Option.bind_eq_some_iff.mp h
    rw [length_of_blit hsecond, length_of_blit hfirst]

/-- One turn later the cell is the same. -/
theorem cell_add_length (region : List α) (i : Nat) :
    cell region (i + region.length) = cell region i := by
  rw [cell, cell, Nat.add_mod_right]

/-- A position at most a turn behind `start`, in terms of the cell of `start`. -/
theorem mod_add_eq {k : Nat} (hsize : 0 < size) (hk : k < size) :
    (start + k) % size =
      if start % size + k < size then start % size + k else start % size + k - size := by
  have hstart := Nat.mod_lt start hsize
  rw [Nat.add_mod, Nat.mod_eq_of_lt hk]
  split_ifs with h
  · exact Nat.mod_eq_of_lt h
  · rw [Nat.mod_eq_sub_mod (by omega), Nat.mod_eq_of_lt (by omega)]

/-- A block no longer than the region goes in, and the region keeps its size. -/
theorem copyIn_eq_some (data : List α) (hstart : start < region.length)
    (hdata : data.length ≤ region.length) :
    ∃ region', copyIn region start data = some region' ∧ region'.length = region.length ∧
      ∀ k, k < region.length →
        region'[if start + k < region.length then start + k else start + k - region.length]? =
          if k < data.length then data[k]?
          else region[if start + k < region.length then start + k
            else start + k - region.length]? := by
  unfold copyIn
  split_ifs with hfit
  · -- One part: the cells from `start` on, without a turn.
    refine ⟨overwrite region start data, if_pos hfit, length_overwrite hfit, fun k hk => ?_⟩
    rw [Lib.Slice.getElem?_overwrite hfit]
    split_ifs
    all_goals first | omega | skip
    · rw [Nat.add_sub_cancel_left]
    · rfl
    · rfl
  · have hfirst : (data.take (region.length - start)).length = region.length - start := by
      rw [length_take]
      omega
    have hfit₁ : start + (data.take (region.length - start)).length ≤ region.length := by omega
    have hlen₁ := length_overwrite hfit₁
    have hfit₂ : 0 + (data.drop (region.length - start)).length ≤
        (overwrite region start (data.take (region.length - start))).length := by
      rw [hlen₁, length_drop]
      omega
    refine ⟨overwrite (overwrite region start (data.take (region.length - start))) 0
      (data.drop (region.length - start)), ?_, ?_, fun k hk => ?_⟩
    · rw [blit, if_pos hfit₁, Option.bind_some, hlen₁, blit, if_pos hfit₂]
    · rw [length_overwrite hfit₂, hlen₁]
    · rw [Lib.Slice.getElem?_overwrite hfit₂, Lib.Slice.getElem?_overwrite hfit₁, hfirst,
        length_drop]
      by_cases hturn : start + k < region.length
      · -- Before the end: only the first part can have written here.
        rw [if_pos hturn, if_neg (by omega), if_pos (by omega), getElem?_take,
          if_pos (by omega), if_pos (by omega), Nat.add_sub_cancel_left]
      · rw [if_neg hturn]
        by_cases hk' : k < data.length
        · rw [if_pos (by omega), if_pos hk', getElem?_drop]
          congr 1
          omega
        · rw [if_neg (by omega), if_neg (by omega), if_neg hk']

/-- After a block went in at position `pos`, the cells of the turn that starts
there: the block, and then what the region held before. -/
theorem turn_copyIn (pos : Nat) (hregion : 0 < region.length)
    (hdata : data.length ≤ region.length) :
    ∃ region', copyIn region (pos % region.length) data = some region' ∧
      region'.length = region.length ∧
      ∀ k, k < region.length →
        cell region' (pos + k) = if k < data.length then data[k]? else cell region (pos + k) := by
  obtain ⟨region', hcopy, hlen, hcells⟩ :=
    copyIn_eq_some data (Nat.mod_lt pos hregion) hdata
  refine ⟨region', hcopy, hlen, fun k hk => ?_⟩
  have hcell := hcells k hk
  rw [← mod_add_eq hregion hk] at hcell
  rw [cell, cell, hlen, hcell]

/-- The cells of any positions less than a turn away from the block. -/
theorem cell_copyIn (pos : Nat) (hregion : 0 < region.length)
    (hdata : data.length ≤ region.length) :
    ∃ region', copyIn region (pos % region.length) data = some region' ∧
      region'.length = region.length ∧
      (∀ k, k < data.length → cell region' (pos + k) = data[k]?) ∧
      ∀ i, pos + data.length ≤ i + region.length → i < pos ∨ pos + data.length ≤ i →
        i < pos + region.length → cell region' i = cell region i := by
  obtain ⟨region', hcopy, hlen, hturn⟩ := turn_copyIn pos hregion hdata
  refine ⟨region', hcopy, hlen, fun k hk => ?_, fun i hlo hout hhi => ?_⟩
  · rw [hturn k (by omega), if_pos hk]
  · by_cases hi : i < pos
    · -- One turn later the position is in the turn that starts at `pos`.
      have hcell := hturn (i + region.length - pos) (by omega)
      rw [show pos + (i + region.length - pos) = i + region.length by omega, if_neg (by omega),
        cell_add_length, ← hlen, cell_add_length] at hcell
      exact hcell
    · have hcell := hturn (i - pos) (by omega)
      rwa [show pos + (i - pos) = i by omega, if_neg (by omega)] at hcell

/-- Every cell belongs to a position of the turn that starts at `start`. -/
theorem exists_turn {j : Nat} (start : Nat) (hj : j < size) :
    ∃ k, k < size ∧ (start + k) % size = j := by
  have hsize : 0 < size := by omega
  have hstart := Nat.mod_lt start hsize
  by_cases hle : start % size ≤ j
  · refine ⟨j - start % size, by omega, ?_⟩
    rw [mod_add_eq hsize (by omega), if_pos (by omega)]
    omega
  · refine ⟨j + size - start % size, by omega, ?_⟩
    rw [mod_add_eq hsize (by omega), if_neg (by omega)]
    omega

/-- Regions with the same cells in one turn are the same. -/
theorem ext_turn (pos : Nat) (hlen : region'.length = region.length)
    (h : ∀ k, k < region.length → cell region' (pos + k) = cell region (pos + k)) :
    region' = region := by
  apply ext_getElem?
  intro j
  by_cases hj : j < region.length
  · obtain ⟨k, hk, rfl⟩ := exists_turn pos hj
    have hcell := h k hk
    rwa [cell, cell, hlen] at hcell
  · rw [getElem?_eq_none (by omega), getElem?_eq_none (by omega)]

/-- Two blocks, the second behind the first, go in as one. -/
theorem copyIn_append {a b : List α} (pos : Nat) (hregion : 0 < region.length)
    (hfit : a.length + b.length ≤ region.length) :
    ((copyIn region (pos % region.length) a).bind fun region' =>
        copyIn region' ((pos + a.length) % region.length) b) =
      copyIn region (pos % region.length) (a ++ b) := by
  have hab : (a ++ b).length = a.length + b.length := length_append
  obtain ⟨first, hfirst, hlen₁, hcells₁⟩ :=
    turn_copyIn pos hregion (show a.length ≤ region.length by omega)
  obtain ⟨second, hsecond, hlen₂, hcells₂, hframe₂⟩ :=
    cell_copyIn (pos + a.length) (show 0 < first.length by omega)
      (show b.length ≤ first.length by omega)
  obtain ⟨both, hboth, hlen, hcells⟩ :=
    turn_copyIn pos hregion (show (a ++ b).length ≤ region.length by omega)
  rw [hfirst, Option.bind_some, ← hlen₁, hsecond, hlen₁, hboth]
  congr 1
  refine ext_turn pos (by omega) fun k hk => ?_
  rw [hlen] at hk
  rw [hcells k hk]
  by_cases ha : k < a.length
  · rw [hframe₂ (pos + k) (by omega) (by omega) (by omega), hcells₁ k hk, if_pos ha,
      if_pos (by omega), getElem?_append_left ha]
  · by_cases hb : k < a.length + b.length
    · have hcell := hcells₂ (k - a.length) (by omega)
      rw [show pos + a.length + (k - a.length) = pos + k by omega] at hcell
      rw [hcell, if_pos (by omega), getElem?_append_right (by omega)]
    · rw [hframe₂ (pos + k) (by omega) (by omega) (by omega), hcells₁ k hk, if_neg ha,
        if_neg (by omega)]

/-- A block whose cells are known comes out whole. -/
theorem copyOut_eq_some {pos : Nat} (hregion : 0 < region.length)
    (hdata : data.length ≤ region.length)
    (hcells : ∀ k, k < data.length → cell region (pos + k) = data[k]?) :
    copyOut region (pos % region.length) data.length = some data := by
  have hstart := Nat.mod_lt pos hregion
  have hat : ∀ k, k < data.length →
      region[if pos % region.length + k < region.length then pos % region.length + k
        else pos % region.length + k - region.length]? = data[k]? := by
    intro k hk
    rw [← mod_add_eq hregion (by omega)]
    exact hcells k hk
  generalize pos % region.length = start at hstart hat
  unfold copyOut
  split_ifs with hfit
  · refine slice_of_getElem? hfit (fun k hk => ?_)
    have := hat k hk
    rwa [if_pos (by omega)] at this
  · -- Two parts: `data` splits where the region ends.
    have hfirst : (data.take (region.length - start)).length = region.length - start := by
      rw [length_take]
      omega
    have hsecond : (data.drop (region.length - start)).length =
        data.length - (region.length - start) := length_drop
    have h₁ : slice region start region.length = some (data.take (region.length - start)) := by
      have hend : start + (data.take (region.length - start)).length = region.length := by omega
      have hpart := slice_of_getElem? (Nat.le_of_eq hend) (fun k hk => by
        have hcell := hat k (by omega)
        rw [if_pos (by omega)] at hcell
        rw [hcell, getElem?_take, if_pos (by omega)])
      rwa [hend] at hpart
    have h₂ : slice region 0 (data.length - (region.length - start)) =
        some (data.drop (region.length - start)) := by
      have hend : 0 + (data.drop (region.length - start)).length =
          data.length - (region.length - start) := by omega
      have hroom : 0 + (data.drop (region.length - start)).length ≤ region.length := by omega
      have hpart := slice_of_getElem? hroom (fun k hk => by
        have hcell := hat (region.length - start + k) (by omega)
        rw [if_neg (by omega), show start + (region.length - start + k) - region.length = 0 + k
          by omega] at hcell
        rw [hcell, getElem?_drop])
      rwa [hend] at hpart
    rw [h₁, Option.bind_some, h₂, Option.map_some, take_append_drop]

end Lib.Ring
