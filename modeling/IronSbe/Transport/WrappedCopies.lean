import IronSbe.Transport.RingBuffer

/-!
# Copies that wrap around

`write_with_wrap` and `read_with_wrap` copy a block into the data region of the file and out
of it, and go on at the start of the region where its end is reached.  Here they are seen
from the file: which of its bytes a copy changes, and that a copy is read back.

* `writeMapping_eq`, `readMapping_eq`: the copies in terms of the data region.
* `copied_writeMapping`: what a copy does to the file.
* `writeMapping_append`: two copies, one behind the other, are one copy.
* `wrapped_copies`: all of it.
-/

namespace IronSbe.Transport.SharedRingBuffer

open Lib.Ring Lib.Slice

/-- The place in the file of byte `k` of a block at `offset`. -/
def wrappedIndex (capacity offset k : Nat) : Nat :=
  headerSize + (offset - headerSize + k) % capacity

/-- `mmap'` is the file `mmap` with the block in its place, and nothing else changed. -/
structure Copied (capacity offset : Nat) (data : List UInt8) (mmap mmap' : Mapping) : Prop where
  length_eq : mmap'.length = mmap.length
  block : ∀ k, k < data.length → mmap'[wrappedIndex capacity offset k]? = data[k]?
  others : ∀ i, (∀ k, k < data.length → i ≠ wrappedIndex capacity offset k) → mmap'[i]? = mmap[i]?
  outside : ∀ i, i < headerSize ∨ headerSize + capacity ≤ i → mmap'[i]? = mmap[i]?

variable {capacity offset : Nat} {mmap : Mapping} {data : List UInt8}

/-- A file that is long enough has its data region. -/
theorem exists_dataRegion (hmap : headerSize + capacity ≤ mmap.length) :
    ∃ region, dataRegion mmap capacity = .ok region ∧ region.length = capacity ∧
      ∀ j, j < capacity → region[j]? = mmap[headerSize + j]? := by
  obtain ⟨region, hregion⟩ := Option.isSome_iff_exists.mp
    (slice_isSome_iff.mpr ⟨Nat.le_add_right headerSize capacity, hmap⟩)
  refine ⟨region, by rw [dataRegion, hregion], ?_, fun j hj => ?_⟩
  · rw [length_of_slice hregion, Nat.add_sub_cancel_left]
  · exact getElem?_of_slice hregion (by omega)

theorem writeMapping_eq {region region' : List UInt8} (hcap : 0 < capacity)
    (hregion : dataRegion mmap capacity = .ok region)
    (hcopy : copyIn region ((offset - headerSize) % capacity) data = some region') :
    writeMapping mmap offset data capacity = .ok (overwrite mmap headerSize region') := by
  have hwrite : writeWithWrap region offset data capacity = some region' := by
    rw [writeWithWrap, if_neg (by omega), hcopy]
  simp only [writeMapping, bind, Except.bind, hregion, hwrite]

theorem readMapping_eq {region : List UInt8} {len : Nat} (hcap : 0 < capacity)
    (hregion : dataRegion mmap capacity = .ok region)
    (hcopy : copyOut region ((offset - headerSize) % capacity) len = some data) :
    readMapping mmap offset len capacity = .ok data := by
  have hread : readWithWrap region offset len capacity = some data := by
    rw [readWithWrap, if_neg (by omega), hcopy]
  simp only [readMapping, bind, Except.bind, hregion, hread]

/-- The data region of the file after a copy. -/
theorem dataRegion_overwrite {region : List UInt8} (hmap : headerSize + capacity ≤ mmap.length)
    (hlen : region.length = capacity) :
    dataRegion (overwrite mmap headerSize region) capacity = .ok region := by
  have hslice : slice (overwrite mmap headerSize region) headerSize (headerSize + capacity) =
      some region := by
    rw [← hlen]
    exact slice_overwrite_same (by omega)
  rw [dataRegion, hslice]

/-- A copy of at most `capacity` bytes succeeds, and it is read back. -/
theorem copied_writeMapping (hcap : 0 < capacity) (hmap : headerSize + capacity ≤ mmap.length)
    (hdata : data.length ≤ capacity) :
    ∃ mmap', writeMapping mmap offset data capacity = .ok mmap' ∧
      readMapping mmap' offset data.length capacity = .ok data ∧
      Copied capacity offset data mmap mmap' := by
  obtain ⟨region, hregion, rfl, hbytes⟩ := exists_dataRegion hmap
  obtain ⟨region', hcopy, hlen, hcells⟩ := turn_copyIn (offset - headerSize) hcap hdata
  have hfit : headerSize + region'.length ≤ mmap.length := by omega
  have hblock : ∀ k, k < data.length → cell region' (offset - headerSize + k) = data[k]? := by
    intro k hk
    rw [hcells k (by omega), if_pos hk]
  have hread : copyOut region' ((offset - headerSize) % region.length) data.length = some data := by
    have hout := copyOut_eq_some (by omega) (by omega) hblock
    rwa [hlen] at hout
  -- a byte of the file, inside the region
  have hinside : ∀ j, j < region.length →
      (overwrite mmap headerSize region')[headerSize + j]? = region'[j]? := by
    intro j hj
    rw [getElem?_overwrite hfit, if_pos (by omega), Nat.add_sub_cancel_left]
  have houtside : ∀ i, i < headerSize ∨ headerSize + region.length ≤ i →
      (overwrite mmap headerSize region')[i]? = mmap[i]? := by
    intro i hi
    rw [getElem?_overwrite hfit, if_neg (by omega)]
  refine ⟨_, writeMapping_eq hcap hregion hcopy,
    readMapping_eq hcap (dataRegion_overwrite hmap hlen) hread, length_overwrite hfit,
    fun k hk => ?_, fun i hi => ?_, houtside⟩
  · have hcell := hblock k hk
    rw [cell, hlen] at hcell
    rw [wrappedIndex, hinside _ (Nat.mod_lt _ hcap), hcell]
  · by_cases hregion' : headerSize ≤ i ∧ i < headerSize + region.length
    · -- the byte is that of a position of the turn behind the block
      obtain ⟨k, hk, hindex⟩ := exists_turn (offset - headerSize)
        (show i - headerSize < region.length by omega)
      have hi' : i = wrappedIndex region.length offset k := by
        rw [wrappedIndex, hindex]
        omega
      have hbehind : ¬ k < data.length := fun hlt => hi k hlt hi'
      have hcell := hcells k hk
      rw [if_neg hbehind, cell, cell, hlen, hindex, hbytes _ (by omega)] at hcell
      have hat := hinside (i - headerSize) (by omega)
      rw [Nat.add_sub_cancel' hregion'.1] at hat hcell
      rw [hat, hcell]
    · exact houtside i (by omega)

/-- Two copies, the second behind the first, are one copy. -/
theorem writeMapping_append {a b : List UInt8} (hcap : 0 < capacity)
    (hmap : headerSize + capacity ≤ mmap.length) (hoffset : headerSize ≤ offset)
    (hfit : a.length + b.length ≤ capacity) :
    ((writeMapping mmap offset a capacity).bind fun mmap' =>
        writeMapping mmap' (offset + a.length) b capacity) =
      writeMapping mmap offset (a ++ b) capacity := by
  obtain ⟨region, hregion, rfl, -⟩ := exists_dataRegion hmap
  have hnext : offset + a.length - headerSize = offset - headerSize + a.length := by omega
  have happend := copyIn_append (offset - headerSize) hcap hfit
  obtain ⟨first, hfirst, hlen₁, -⟩ := turn_copyIn (offset - headerSize) hcap
    (show a.length ≤ region.length by omega)
  obtain ⟨both, hboth, hlen, -⟩ := turn_copyIn (offset - headerSize) hcap
    (show (a ++ b).length ≤ region.length by rw [List.length_append]; exact hfit)
  rw [hfirst, Option.bind_some, hboth, ← hnext] at happend
  rw [writeMapping_eq hcap hregion hfirst, writeMapping_eq hcap hregion hboth, Except.bind,
    writeMapping_eq hcap (dataRegion_overwrite hmap hlen₁) happend,
    overwrite_overwrite_same (by omega) (by omega)]

/-- In a file with its data region, for every offset behind the header: a block that fits is
copied to its place and read back, and blocks can be copied one by one or together. -/
theorem wrapped_copies (hcap : 1 ≤ capacity) (hmap : headerSize + capacity ≤ mmap.length)
    (hoffset : headerSize ≤ offset) :
    (∀ data : List UInt8, data.length ≤ capacity →
      ∃ mmap', writeMapping mmap offset data capacity = .ok mmap' ∧
        readMapping mmap' offset data.length capacity = .ok data ∧
        Copied capacity offset data mmap mmap') ∧
    ∀ a b : List UInt8, a.length + b.length ≤ capacity →
      ((writeMapping mmap offset a capacity).bind fun mmap' =>
          writeMapping mmap' (offset + a.length) b capacity) =
        writeMapping mmap offset (a ++ b) capacity :=
  ⟨fun _ hdata => copied_writeMapping hcap hmap hdata,
    fun _ _ hfit => writeMapping_append hcap hmap hoffset hfit⟩

/-- Three bytes at the end of a region of four: the last two of them go to its start. -/
theorem wrapped_copies_four :
    ∃ mmap', writeMapping (List.replicate 132 0) 131 [7, 8, 9] 4 = .ok mmap' ∧
      readMapping mmap' 131 3 4 = .ok [7, 8, 9] ∧
      Copied 4 131 [7, 8, 9] (List.replicate 132 0) mmap' ∧
      mmap'[129]? = some 9 := by
  have hmap : headerSize + 4 ≤ (List.replicate 132 (0 : UInt8)).length := by
    rw [List.length_replicate]
    decide
  obtain ⟨mmap', hwrite, hread, hcopied⟩ :=
    (wrapped_copies (by decide) hmap (show headerSize ≤ 131 by decide)).1 [7, 8, 9] (by decide)
  exact ⟨mmap', hwrite, hread, hcopied, hcopied.block 2 (by decide)⟩

end IronSbe.Transport.SharedRingBuffer
