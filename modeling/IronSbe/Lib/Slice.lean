import Mathlib.Tactic.Common
import Mathlib.Data.List.Sort

/-!
# Ranges of a list and writes into them

`slice buf start stop` is a range read with a bounds check, `blit buf start
data` is a range write with one, and `none` is the failed check in both.  A
program that fills a buffer piece by piece is a list of `Write`s, and
`applyAll` runs such a list.

The lemmas say what a program needs to know about a run of writes:

* `applyAll_eq_some`: a run succeeds when every write lies inside the
  buffer, and it keeps the length.
* `applyAll_frame`: a position that no write covers keeps its element.
* `heldBy_applyAll`: after a run of writes that are clear of each other the
  range of each reads back as its data.
* `determines_applyAll_iff`: the positions that some write covers are those
  whose elements do not depend on what the buffer held before.
-/

namespace Lib.Slice

open List Option

variable {α : Type}

/-! ## Ranges -/

/-- The ranges from `r.1` up to `r.2` and from `s.1` up to `s.2` have no position in common. -/
def Apart (r s : Nat × Nat) : Prop := min r.2 s.2 ≤ max r.1 s.1

instance (r s : Nat × Nat) : Decidable (Apart r s) := inferInstanceAs (Decidable (_ ≤ _))

section Apart

variable {r s r' s' : Nat × Nat}

theorem Apart.symm (h : Apart r s) : Apart s r := by
  unfold Apart at h ⊢
  omega

theorem apart_of_le (h : r.2 ≤ s.1) : Apart r s := by
  unfold Apart
  omega

/-- Ranges inside of ranges that are apart. -/
theorem Apart.mono (h : Apart r s) (hr : r.1 ≤ r'.1 ∧ r'.2 ≤ r.2) (hs : s.1 ≤ s'.1 ∧ s'.2 ≤ s.2) :
    Apart r' s' := by
  unfold Apart at h ⊢
  omega

/-- Ranges that are not apart share a position. -/
theorem exists_of_not_apart (h : ¬ Apart r s) :
    ∃ p, (r.1 ≤ p ∧ p < r.2) ∧ s.1 ≤ p ∧ p < s.2 := by
  unfold Apart at h
  exact ⟨max r.1 s.1, by omega, by omega⟩

/-- The ranges that are not empty, in the order of their starts. -/
def inOrder (ranges : List (Nat × Nat)) : List (Nat × Nat) :=
  (ranges.filter fun r => r.1 < r.2).insertionSort fun r s => r.1 ≤ s.1

theorem pairwise_inOrder (ranges : List (Nat × Nat)) :
    (inOrder ranges).Pairwise fun r s => r.1 ≤ s.1 := by
  have : Std.Total fun r s : Nat × Nat => r.1 ≤ s.1 := ⟨fun r s => Nat.le_total r.1 s.1⟩
  have : IsTrans (Nat × Nat) fun r s => r.1 ≤ s.1 := ⟨fun _ _ _ => Nat.le_trans⟩
  exact pairwise_insertionSort _ _

/-- Ranges are apart exactly if, in the order of their starts, each one ends where the next
ones start or before. -/
theorem pairwise_apart_iff (ranges : List (Nat × Nat)) :
    ranges.Pairwise Apart ↔ (inOrder ranges).Pairwise fun r s => r.2 ≤ s.1 := by
  have hperm : (inOrder ranges).Perm (ranges.filter fun r => r.1 < r.2) := perm_insertionSort _ _
  have hpos : ∀ r ∈ inOrder ranges, r.1 < r.2 := by
    intro r hr
    simpa using (mem_filter.mp (hperm.subset hr)).2
  have hfilter : ranges.Pairwise Apart ↔
      (ranges.filter fun r => r.1 < r.2).Pairwise Apart := by
    rw [pairwise_filter]
    refine ⟨fun h => h.imp fun hrs _ _ => hrs, fun h => h.imp fun {r s} hrs => ?_⟩
    -- an empty range is apart from every range
    by_cases hr : r.1 < r.2
    · by_cases hs : s.1 < s.2
      · exact hrs (decide_eq_true hr) (decide_eq_true hs)
      · exact (Nat.min_le_right _ _).trans ((Nat.not_lt.mp hs).trans (Nat.le_max_right _ _))
    · exact (Nat.min_le_left _ _).trans ((Nat.not_lt.mp hr).trans (Nat.le_max_left _ _))
  rw [hfilter, ← hperm.pairwise_iff fun h => h.symm]
  constructor
  · intro h
    refine ((pairwise_inOrder ranges).and h).imp_of_mem fun {r s} hr hs hrs => ?_
    have hr := hpos r hr
    have hs := hpos s hs
    have hapart : min r.2 s.2 ≤ max r.1 s.1 := hrs.2
    have hle := hrs.1
    omega
  · exact fun h => h.imp fun hrs => apart_of_le hrs

end Apart

/-! ## Reading a range -/

/-- The elements of `buf` from `start` up to `stop`. -/
def slice (buf : List α) (start stop : Nat) : Option (List α) :=
  if start ≤ stop ∧ stop ≤ buf.length then some ((buf.drop start).take (stop - start)) else none

variable {a b buf buf' data : List α} {i start offset : Nat}

theorem slice_eq_some {stop : Nat} (h : start ≤ stop) (hstop : stop ≤ buf.length) :
    slice buf start stop = some ((buf.drop start).take (stop - start)) := by
  rw [slice, if_pos ⟨h, hstop⟩]

theorem slice_isSome_iff {stop : Nat} :
    (slice buf start stop).isSome = true ↔ start ≤ stop ∧ stop ≤ buf.length := by
  unfold slice
  split_ifs with h <;> simpa using h

/-- A range that was read has the length of the range. -/
theorem length_of_slice {stop : Nat} (h : slice buf start stop = some data) :
    data.length = stop - start := by
  unfold slice at h
  split_ifs at h with hb
  cases h
  rw [length_take, length_drop]
  omega

/-- The front part of a range that was read. -/
theorem slice_take {mid stop : Nat} (h : slice buf start stop = some data) (hlo : start ≤ mid)
    (hhi : mid ≤ stop) :
    slice buf start mid = some (data.take (mid - start)) := by
  unfold slice at h
  split_ifs at h with hb
  cases h
  rw [slice_eq_some hlo (by omega), take_take, Nat.min_eq_left (by omega)]

/-- A range of the part behind `offset`. -/
theorem slice_drop (h : offset ≤ buf.length) (start stop : Nat) :
    slice (buf.drop offset) start stop = slice buf (offset + start) (offset + stop) := by
  unfold slice
  rw [length_drop, drop_drop, Nat.add_sub_add_left]
  exact if_congr (by omega) rfl rfl

/-- A range in the front part of a list reads as in the whole list. -/
theorem slice_of_take {stop n : Nat} (h : stop ≤ n) :
    slice (buf.take n) start stop = slice buf start stop := by
  have hinner : min (stop - start) (n - start) = stop - start := by omega
  unfold slice
  rw [length_take, drop_take, take_take, hinner]
  exact if_congr (by omega) rfl rfl

/-- Two buffers that agree on a range give the same range. -/
theorem slice_congr {stop : Nat} (hlen : buf'.length = buf.length)
    (h : ∀ i, start ≤ i → i < stop → buf'[i]? = buf[i]?) :
    slice buf' start stop = slice buf start stop := by
  unfold slice
  rw [hlen]
  split_ifs with hb
  · congr 1
    apply ext_getElem?
    intro k
    rw [getElem?_take, getElem?_take, getElem?_drop, getElem?_drop]
    split_ifs with hk
    · exact h (start + k) (by omega) (by omega)
    · rfl
  · rfl

/-- A range whose elements are known one by one. -/
theorem slice_of_getElem? (hstop : start + data.length ≤ buf.length)
    (h : ∀ k, k < data.length → buf[start + k]? = data[k]?) :
    slice buf start (start + data.length) = some data := by
  rw [slice_eq_some (by omega) hstop]
  congr 1
  apply ext_getElem?
  intro k
  rw [getElem?_take, getElem?_drop]
  split_ifs with hk
  · exact h k (by omega)
  · exact (getElem?_eq_none (by omega)).symm

/-- The elements of a range that was read, one by one. -/
theorem getElem?_of_slice {stop : Nat} (h : slice buf start stop = some data) {k : Nat}
    (hk : k < stop - start) :
    data[k]? = buf[start + k]? := by
  unfold slice at h
  split_ifs at h with hb
  cases h
  rw [getElem?_take, if_pos hk, getElem?_drop]

/-! ## Writing a range -/

/-- `buf` with `data` in place of the elements from `start` on. -/
def overwrite (buf : List α) (start : Nat) (data : List α) : List α :=
  buf.take start ++ data ++ buf.drop (start + data.length)

/-- Copy `data` over the elements of `buf` from `start` on. -/
def blit (buf : List α) (start : Nat) (data : List α) : Option (List α) :=
  if start + data.length ≤ buf.length then some (overwrite buf start data) else none

theorem length_overwrite (h : start + data.length ≤ buf.length) :
    (overwrite buf start data).length = buf.length := by
  simp only [overwrite, length_append, length_take, length_drop]
  omega

theorem length_of_blit (h : blit buf start data = some buf') :
    buf'.length = buf.length := by
  unfold blit at h
  split_ifs at h with hfit
  rw [← some.inj h, length_overwrite hfit]

/-- What stands at a position after a write: the written element inside the
range, the old element outside. -/
theorem getElem?_overwrite (h : start + data.length ≤ buf.length) (i : Nat) :
    (overwrite buf start data)[i]? =
      if start ≤ i ∧ i < start + data.length then data[i - start]? else buf[i]? := by
  have hstart : (buf.take start).length = start := by
    rw [length_take]
    omega
  simp only [overwrite, getElem?_append, length_append, hstart]
  by_cases hlo : i < start
  · rw [if_pos (by omega), if_pos hlo, if_neg (by omega), getElem?_take, if_pos hlo]
  · by_cases hhi : i < start + data.length
    · rw [if_pos hhi, if_neg hlo, if_pos (by omega)]
    · rw [if_neg hhi, if_neg (by omega), getElem?_drop]
      congr 1
      omega

/-- A write into the part behind `start` is a write into the whole. -/
theorem overwrite_overwrite_drop (h : start + offset + data.length ≤ buf.length) :
    overwrite buf start (overwrite (buf.drop start) offset data) =
      overwrite buf (start + offset) data := by
  have hlen : (overwrite (buf.drop start) offset data).length = buf.length - start := by
    rw [length_overwrite, length_drop]
    rw [length_drop]
    omega
  have hend : buf.drop (start + (buf.length - start)) = [] := drop_eq_nil_of_le (by omega)
  rw [overwrite, hlen, hend, append_nil, overwrite, overwrite, take_add, drop_drop,
    ← append_assoc, ← append_assoc, Nat.add_assoc]

/-- Two writes of which the second starts where the first ends are one write. -/
theorem overwrite_overwrite_append (h : start + a.length ≤ buf.length) :
    overwrite (overwrite buf start a) (start + a.length) b = overwrite buf start (a ++ b) := by
  have hfront : (buf.take start ++ a).length = start + a.length := by
    rw [length_append, length_take, Nat.min_eq_left (by omega)]
  have htake : (overwrite buf start a).take (start + a.length) = buf.take start ++ a := by
    rw [overwrite, ← hfront, take_left]
  have hdrop : (overwrite buf start a).drop (start + a.length + b.length) =
      buf.drop (start + a.length + b.length) := by
    rw [← drop_drop, overwrite, ← hfront, drop_left, hfront, drop_drop]
  rw [overwrite, htake, hdrop, overwrite, length_append, append_assoc (buf.take start),
    Nat.add_assoc]

/-- A second write to the same range replaces the first one. -/
theorem overwrite_overwrite_same (h : start + a.length ≤ buf.length) (hlen : b.length = a.length) :
    overwrite (overwrite buf start a) start b = overwrite buf start b := by
  have hfit : start + b.length ≤ (overwrite buf start a).length := by
    rw [length_overwrite h]
    omega
  apply ext_getElem?
  intro i
  rw [getElem?_overwrite hfit, getElem?_overwrite h, getElem?_overwrite (by omega), hlen]
  split_ifs with hi <;> rfl

theorem blit_append (buf a b : List α) (start : Nat) :
    blit buf start (a ++ b) =
      (blit buf start a).bind fun next => blit next (start + a.length) b := by
  unfold blit
  by_cases ha : start + a.length ≤ buf.length
  · rw [if_pos ha, bind_some, length_overwrite ha, overwrite_overwrite_append ha,
      length_append, Nat.add_assoc]
  · rw [if_neg ha, if_neg (by rw [length_append]; omega), bind_none]

theorem blit_nil (h : start ≤ buf.length) :
    blit buf start [] = some buf := by
  simp [blit, overwrite, h]

/-- The range of a write reads back as what was written. -/
theorem slice_overwrite_same (h : start + data.length ≤ buf.length) :
    slice (overwrite buf start data) start (start + data.length) = some data := by
  refine slice_of_getElem? (by rw [length_overwrite h]; exact h) (fun k hk => ?_)
  rw [getElem?_overwrite h, if_pos ⟨by omega, by omega⟩, Nat.add_sub_cancel_left]

/-- What was written is read back. -/
theorem slice_of_blit (h : blit buf start data = some buf') :
    slice buf' start (start + data.length) = some data := by
  unfold blit at h
  split_ifs at h with hfit
  rw [← some.inj h]
  exact slice_overwrite_same hfit

/-- Writing back what a range reads as changes nothing. -/
theorem blit_of_slice (h : slice buf start (start + data.length) = some data) :
    blit buf start data = some buf := by
  have hfit : start + data.length ≤ buf.length :=
    (slice_isSome_iff.mp (isSome_of_eq_some h)).2
  rw [blit, if_pos hfit]
  congr 1
  apply ext_getElem?
  intro i
  rw [getElem?_overwrite hfit]
  split_ifs with hi
  · rw [getElem?_of_slice h (by omega), Nat.add_sub_cancel' hi.1]
  · rfl

/-- A range clear of the write reads as before. -/
theorem slice_overwrite_frame {lo hi : Nat} (h : start + data.length ≤ buf.length)
    (hsep : Apart (start, start + data.length) (lo, hi)) :
    slice (overwrite buf start data) lo hi = slice buf lo hi := by
  refine slice_congr (length_overwrite h) (fun i hlo hhi => ?_)
  simp only [Apart] at hsep
  rw [getElem?_overwrite h, if_neg (by omega)]

/-! ## Runs of writes -/

/-- One write of a run: `data` goes to the positions from `start` on. -/
structure Write (α : Type) where
  start : Nat
  data : List α

namespace Write

/-- The first position after the write. -/
def stop (w : Write α) : Nat := w.start + w.data.length

/-- The write covers position `i`. -/
def Covers (w : Write α) (i : Nat) : Prop := w.start ≤ i ∧ i < w.stop

instance (w : Write α) (i : Nat) : Decidable (w.Covers i) :=
  inferInstanceAs (Decidable (_ ∧ _))

/-- The buffer after the write, unless it does not fit. -/
def apply (w : Write α) (buf : List α) : Option (List α) := blit buf w.start w.data

/-- The two writes have no position in common. -/
def Clear (w v : Write α) : Prop := Apart (w.start, w.stop) (v.start, v.stop)

/-- The buffer holds what was written. -/
def HeldBy (w : Write α) (buf : List α) : Prop := slice buf w.start w.stop = some w.data

end Write

/-- Run the writes from left to right. -/
def applyAll : List (Write α) → List α → Option (List α)
  | [], buf => some buf
  | w :: rest, buf => (w.apply buf).bind (applyAll rest)

theorem applyAll_append (ws ws' : List (Write α)) (buf : List α) :
    applyAll (ws ++ ws') buf = (applyAll ws buf).bind (applyAll ws') := by
  induction ws generalizing buf with
  | nil => rfl
  | cons w rest ih =>
    simp only [cons_append, applyAll]
    cases w.apply buf with
    | none => rfl
    | some next => exact ih next

variable {w : Write α}

theorem Write.apply_eq_some (h : w.stop ≤ buf.length) :
    w.apply buf = some (overwrite buf w.start w.data) :=
  if_pos h

theorem Write.getElem?_overwrite (h : w.stop ≤ buf.length) (i : Nat) :
    (overwrite buf w.start w.data)[i]? = if w.Covers i then w.data[i - w.start]? else buf[i]? :=
  Lib.Slice.getElem?_overwrite h i

/-- Writes that are clear of each other can be made in either order. -/
theorem Write.Clear.apply_comm {v : Write α} (h : w.Clear v) (buf : List α) :
    (w.apply buf).bind v.apply = (v.apply buf).bind w.apply := by
  by_cases hw : w.stop ≤ buf.length
  · by_cases hv : v.stop ≤ buf.length
    · have hlenw : (overwrite buf w.start w.data).length = buf.length := length_overwrite hw
      have hlenv : (overwrite buf v.start v.data).length = buf.length := length_overwrite hv
      have hvw : v.stop ≤ (overwrite buf w.start w.data).length := by omega
      have hwv : w.stop ≤ (overwrite buf v.start v.data).length := by omega
      rw [apply_eq_some hw, apply_eq_some hv, bind_some, bind_some,
        apply_eq_some hvw, apply_eq_some hwv]
      congr 1
      apply ext_getElem?
      intro i
      rw [getElem?_overwrite hvw, getElem?_overwrite hw, getElem?_overwrite hwv,
        getElem?_overwrite hv]
      by_cases hcw : w.Covers i
      · -- no position is in both ranges
        have hcv : ¬ v.Covers i := by
          simp only [Clear, Apart] at h
          unfold Covers at hcw ⊢
          omega
        rw [if_neg hcv, if_pos hcw, if_pos hcw]
      · rw [if_neg hcw, if_neg hcw]
    · have hnone : v.apply buf = none := if_neg hv
      have hlenw : (overwrite buf w.start w.data).length = buf.length := length_overwrite hw
      rw [hnone, apply_eq_some hw, bind_some, bind_none]
      exact if_neg (by rw [hlenw]; exact hv)
  · have hnone : w.apply buf = none := if_neg hw
    rw [hnone, bind_none]
    cases hv : v.apply buf with
    | none => rfl
    | some next =>
      have hlen : next.length = buf.length := length_of_blit hv
      exact (if_neg (by rw [hlen]; exact hw)).symm

variable {ws : List (Write α)}

/-- A run of writes inside the buffer succeeds and keeps the length. -/
theorem applyAll_eq_some (h : ∀ w ∈ ws, w.stop ≤ buf.length) :
    ∃ buf', applyAll ws buf = some buf' ∧ buf'.length = buf.length := by
  induction ws generalizing buf with
  | nil => exact ⟨buf, rfl, rfl⟩
  | cons w rest ih =>
    have hw : w.stop ≤ buf.length := h w mem_cons_self
    have hlen : (overwrite buf w.start w.data).length = buf.length := length_overwrite hw
    have hrest : ∀ v ∈ rest, v.stop ≤ (overwrite buf w.start w.data).length := by
      intro v hv
      rw [hlen]
      exact h v (mem_cons_of_mem w hv)
    obtain ⟨buf', hrun, hlen'⟩ := ih hrest
    refine ⟨buf', ?_, hlen'.trans hlen⟩
    rw [applyAll, Write.apply_eq_some hw]
    exact hrun

/-- A successful run splits at its first write, which lies in the buffer. -/
theorem applyAll_cons_inv {rest : List (Write α)} (h : applyAll (w :: rest) buf = some buf') :
    w.stop ≤ buf.length ∧ applyAll rest (overwrite buf w.start w.data) = some buf' := by
  rw [applyAll, Write.apply, blit] at h
  split_ifs at h with hw
  · exact ⟨hw, h⟩
  · simp at h

section

variable (h : applyAll ws buf = some buf')
include h

theorem length_of_applyAll : buf'.length = buf.length := by
  induction ws generalizing buf with
  | nil => rw [← some.inj h]
  | cons w rest ih =>
    obtain ⟨hw, hrest⟩ := applyAll_cons_inv h
    rw [ih hrest, length_overwrite hw]

/-- Every write of a successful run lies in the buffer. -/
theorem stop_le_of_applyAll : ∀ w ∈ ws, w.stop ≤ buf.length := by
  induction ws generalizing buf with
  | nil => exact fun w hw => absurd hw not_mem_nil
  | cons v rest ih =>
    obtain ⟨hv, hrest⟩ := applyAll_cons_inv h
    rw [forall_mem_cons]
    refine ⟨hv, fun w hw => ?_⟩
    rw [← length_overwrite hv]
    exact ih hrest w hw

/-- A position that no write of the run covers keeps its element. -/
theorem applyAll_frame (hi : ∀ w ∈ ws, ¬ w.Covers i) :
    buf'[i]? = buf[i]? := by
  induction ws generalizing buf with
  | nil => rw [← some.inj h]
  | cons w rest ih =>
    obtain ⟨hw, hrest⟩ := applyAll_cons_inv h
    rw [ih hrest (fun v hv => hi v (mem_cons_of_mem w hv)), Write.getElem?_overwrite hw,
      if_neg (hi w mem_cons_self)]

/-- A range that every write of the run stays clear of reads as before. -/
theorem slice_applyAll_frame {stop : Nat}
    (hws : ∀ w ∈ ws, Apart (w.start, w.stop) (start, stop)) :
    slice buf' start stop = slice buf start stop := by
  refine slice_congr (length_of_applyAll h) (fun i hlo hhi => ?_)
  refine applyAll_frame h (fun w hw hc => ?_)
  have hsep := hws w hw
  have hcov : w.start ≤ i ∧ i < w.stop := hc
  simp only [Apart] at hsep
  omega

end

/-- What a write left in the buffer stays there while every write of a run is
clear of it. -/
theorem Write.HeldBy.applyAll (hw : w.HeldBy buf) (h : applyAll ws buf = some buf')
    (hclear : ∀ v ∈ ws, w.Clear v) :
    w.HeldBy buf' := by
  rw [Write.HeldBy, slice_applyAll_frame h (fun v hv => (hclear v hv).symm)]
  exact hw

/-- After a run whose writes are clear of each other, the buffer holds all of
them. -/
theorem heldBy_applyAll (h : applyAll ws buf = some buf') (hclear : ws.Pairwise Write.Clear) :
    ∀ w ∈ ws, w.HeldBy buf' := by
  induction ws generalizing buf with
  | nil => exact fun w hw => absurd hw not_mem_nil
  | cons v rest ih =>
    obtain ⟨hv, hrest⟩ := applyAll_cons_inv h
    rw [pairwise_cons] at hclear
    intro w hw
    rcases mem_cons.mp hw with rfl | hw
    · have hheld : w.HeldBy (overwrite buf w.start w.data) := slice_overwrite_same hv
      exact hheld.applyAll hrest hclear.1
    · exact ih hrest hclear.2 w hw

/-- A run of writes that the buffer holds already changes nothing. -/
theorem applyAll_of_heldBy (h : ∀ w ∈ ws, w.HeldBy buf) :
    applyAll ws buf = some buf := by
  induction ws with
  | nil => rfl
  | cons w rest ih =>
    have hw : w.apply buf = some buf := blit_of_slice (h w mem_cons_self)
    rw [applyAll, hw, bind_some]
    exact ih fun v hv => h v (mem_cons_of_mem w hv)

/-- A position that some write of the run covers holds the same element
whatever the buffer held before the run. -/
theorem applyAll_getElem?_of_covered {b₁ b₂ b₁' b₂' : List α} (h₁ : applyAll ws b₁ = some b₁')
    (h₂ : applyAll ws b₂ = some b₂') (hi : ∃ w ∈ ws, w.Covers i) : b₁'[i]? = b₂'[i]? := by
  induction ws generalizing b₁ b₂ with
  | nil =>
    obtain ⟨w, hw, -⟩ := hi
    exact absurd hw not_mem_nil
  | cons w rest ih =>
    obtain ⟨hw₁, hr₁⟩ := applyAll_cons_inv h₁
    obtain ⟨hw₂, hr₂⟩ := applyAll_cons_inv h₂
    by_cases hlater : ∃ v ∈ rest, v.Covers i
    · exact ih hr₁ hr₂ hlater
    · have hframe : ∀ v ∈ rest, ¬ v.Covers i := fun v hv hc => hlater ⟨v, hv, hc⟩
      have hcov : w.Covers i := by
        obtain ⟨v, hv, hc⟩ := hi
        rcases mem_cons.mp hv with rfl | hv
        · exact hc
        · exact absurd hc (hframe v hv)
      rw [applyAll_frame hr₁ hframe, applyAll_frame hr₂ hframe,
        Write.getElem?_overwrite hw₁, Write.getElem?_overwrite hw₂, if_pos hcov, if_pos hcov]

/-- The program determines the element at position `i` of every list of this
size that it returns for. -/
def Determines (program : List α → Option (List α)) (size i : Nat) : Prop :=
  ∃ a, ∀ buf buf', buf.length = size → program buf = some buf' → buf'[i]? = some a

/-- A run determines the positions that its writes cover, and no others. -/
theorem determines_applyAll_iff [Nontrivial α] (h : applyAll ws buf = some buf') :
    Determines (applyAll ws) buf.length i ↔ ∃ w ∈ ws, w.Covers i := by
  constructor
  · rintro ⟨a, ha⟩
    by_contra hcovers
    have hframe : ∀ w ∈ ws, ¬ w.Covers i := fun w hw hc => hcovers ⟨w, hw, hc⟩
    have hi : buf[i]? = some a := (applyAll_frame h hframe).symm.trans (ha buf buf' rfl h)
    have hlt : i < buf.length := (List.getElem?_eq_some_iff.mp hi).1
    -- another element at this position would have stayed as well
    obtain ⟨b, hb⟩ := exists_ne a
    have hlen : (buf.set i b).length = buf.length := length_set
    obtain ⟨out, hout, -⟩ := applyAll_eq_some (hlen ▸ stop_le_of_applyAll h)
    have hstays := applyAll_frame hout hframe
    rw [ha _ _ hlen hout, getElem?_set_self hlt] at hstays
    exact hb (some.inj hstays).symm
  · intro hcovers
    obtain ⟨w, hw, hc⟩ := hcovers
    have hlt : i < buf'.length := by
      rw [length_of_applyAll h]
      exact Nat.lt_of_lt_of_le hc.2 (stop_le_of_applyAll h w hw)
    refine ⟨buf'[i], fun other out _ hout => ?_⟩
    rw [applyAll_getElem?_of_covered hout h ⟨w, hw, hc⟩, getElem?_eq_getElem hlt]

end Lib.Slice
