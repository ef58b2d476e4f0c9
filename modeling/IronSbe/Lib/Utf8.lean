import Mathlib.Data.List.Infix
import Mathlib.Tactic.Common

/-!
# Strings and their UTF-8 bytes

The bytes of a string, and the string of a byte list that is well formed.  A string that is
cut off after a number of bytes is a string again if the cut is at a boundary between two
characters.

* `decode_eq_some_iff`: decoding is the inverse of taking the bytes.
* `bytes_prefix_iff`: prefixes in bytes are prefixes in characters.
* `decode_take_isSome_iff`: the cuts after which there is a string.
* `LongestPrefix`: what a cut between two characters leaves of the string.
-/

namespace Lib.Utf8

open List

/-- The bytes of a text. -/
def bytes (s : String) : List UInt8 := s.toByteArray.data.toList

/-- The text of the bytes, if they are UTF-8. -/
def decode (b : List UInt8) : Option String := String.fromUTF8? b.toByteArray

variable {s p : String} {n : Nat}

theorem toByteArray_bytes (s : String) : (bytes s).toByteArray = s.toByteArray := by
  apply ByteArray.ext
  rw [data_toByteArray, bytes, Array.toArray_toList]

theorem length_bytes (s : String) : (bytes s).length = s.utf8ByteSize := by
  rw [← String.size_toByteArray, bytes, Array.length_toList, ByteArray.size_data]

theorem bytes_append (s t : String) : bytes (s ++ t) = bytes s ++ bytes t := by
  rw [bytes, String.toByteArray_append, ByteArray.data_append, Array.toList_append, bytes, bytes]

theorem bytes_inj {t : String} : bytes s = bytes t ↔ s = t := by
  constructor
  · intro h
    rw [← String.toByteArray_inj, ← toByteArray_bytes, h, toByteArray_bytes]
  · rintro rfl
    rfl

/-- A byte list is decoded to the string that it is the bytes of. -/
theorem decode_eq_some_iff {b : List UInt8} : decode b = some s ↔ bytes s = b := by
  have hb : b.toByteArray.data.toList = b := by rw [data_toByteArray]
  unfold decode String.fromUTF8?
  constructor
  · intro h
    split_ifs at h with hvalid
    cases h
    exact hb
  · rintro rfl
    have hvalid : (bytes s).toByteArray.IsValidUTF8 := toByteArray_bytes s ▸ s.isValidUTF8
    rw [dif_pos hvalid]
    congr 1
    exact bytes_inj.mp hb

/-- The bytes of one string start with the bytes of another one exactly if its characters do. -/
theorem bytes_prefix_iff : bytes p <+: bytes s ↔ p.toList <+: s.toList := by
  constructor
  · rintro ⟨rest, h⟩
    refine isPrefix_of_utf8Encode_append_eq_utf8Encode rest.toByteArray ?_
    rw [← String.toByteArray_ofList, ← String.toByteArray_ofList, String.ofList_toList,
      String.ofList_toList, ← toByteArray_bytes, ← toByteArray_bytes, ← toByteArray_append, h]
  · rintro ⟨rest, h⟩
    have hs : s = p ++ String.ofList rest := by
      rw [← String.toList_inj, String.toList_append, String.toList_ofList, h]
    rw [hs, bytes_append]
    exact prefix_append _ _

theorem bytes_eq_flatMap (s : String) : bytes s = s.toList.flatMap String.utf8EncodeChar := by
  have h : s.toByteArray = s.toList.utf8Encode := by
    rw [← String.toByteArray_ofList, String.ofList_toList]
  rw [bytes, h, utf8Encode, data_toByteArray]

/-- The only character with a zero byte is the character zero. -/
theorem zero_mem_utf8EncodeChar {c : Char} (h : 0 ∈ String.utf8EncodeChar c) : c = '\x00' := by
  have hzero : ∀ n : Nat, (0 : UInt8) = UInt8.ofNat n → n % 256 = 0 := by
    intro n hn
    rw [← UInt8.toNat_ofNat', ← hn]
    rfl
  unfold String.utf8EncodeChar at h
  dsimp only at h
  split_ifs at h with h₁ h₂ h₃
  · have hval := hzero _ (mem_singleton.mp h)
    apply Char.ext
    apply UInt32.toNat_inj.mp
    show c.val.toNat = 0
    omega
  all_goals
    simp only [mem_cons, not_mem_nil, or_false] at h
    exfalso
  · rcases h with h | h <;> have := hzero _ h <;> omega
  · rcases h with h | h | h <;> have := hzero _ h <;> omega
  · rcases h with h | h | h | h <;> have := hzero _ h <;> omega

theorem zero_not_mem_bytes (h : '\x00' ∉ s.toList) : 0 ∉ bytes s := by
  rw [bytes_eq_flatMap]
  intro hzero
  obtain ⟨c, hc, hmem⟩ := mem_flatMap.mp hzero
  exact h (zero_mem_utf8EncodeChar hmem ▸ hc)

/-! ## Cutting a string -/

/-- The string that is cut off after `n` bytes is a string if it is not cut at all, or between
two characters. -/
theorem decode_take_isSome_iff :
    (decode ((bytes s).take n)).isSome = true ↔
      s.utf8ByteSize ≤ n ∨ (⟨n⟩ : String.Pos.Raw).IsValid s := by
  by_cases hn : s.utf8ByteSize ≤ n
  · rw [take_of_length_le (by rw [length_bytes]; exact hn), decode_eq_some_iff.mpr rfl]
    simp [hn]
  · have hcut : ((bytes s).take n).toByteArray = s.toByteArray.extract 0 n := by
      apply ByteArray.ext
      rw [data_toByteArray, ByteArray.data_extract, bytes, ← Array.toList_inj]
      simp
    have hend : (⟨n⟩ : String.Pos.Raw) ≤ s.rawEndPos := by
      rw [String.Pos.Raw.le_iff, String.byteIdx_rawEndPos]
      show n ≤ _
      omega
    rw [String.Pos.Raw.isValid_iff_isValidUTF8_extract_zero, decode, String.fromUTF8?, hcut]
    split_ifs with hvalid
    · simp [hend, hvalid]
    · simp [hn, hvalid]

/-- `p` is the longest prefix of `s` with at most `n` bytes.  A prefix ends at the end of a
character. -/
structure LongestPrefix (s : String) (n : Nat) (p : String) : Prop where
  isPrefix : p.toList <+: s.toList
  size_le : p.utf8ByteSize ≤ n
  longest : ∀ q : String, q.toList <+: s.toList → q.utf8ByteSize ≤ n → q.toList <+: p.toList

/-- If the cut leaves a string, this is the longest prefix. -/
theorem longestPrefix_of_bytes (h : bytes p = (bytes s).take n) : LongestPrefix s n p where
  isPrefix := bytes_prefix_iff.mp (h ▸ take_prefix n (bytes s))
  size_le := by
    rw [← length_bytes, h, length_take]
    exact Nat.min_le_left _ _
  longest := by
    intro q hq hsize
    rw [← length_bytes] at hsize
    apply bytes_prefix_iff.mp
    rw [h]
    exact prefix_take_iff.mpr ⟨bytes_prefix_iff.mpr hq, hsize⟩

/-- Nothing is left of a string whose first character does not fit. -/
theorem longestPrefix_empty_iff :
    LongestPrefix s n "" ↔ ∀ c, s.toList.head? = some c → n < c.utf8Size := by
  constructor
  · intro h c hc
    by_contra hfits
    obtain ⟨rest, hs⟩ := head?_eq_some_iff.mp hc
    have hprefix := h.longest (String.singleton c)
      (by rw [hs, String.toList_singleton]; exact ⟨rest, rfl⟩)
      (by rw [String.utf8ByteSize_singleton]; omega)
    rw [String.toList_singleton, String.toList_empty] at hprefix
    exact absurd (prefix_nil.mp hprefix) (cons_ne_nil _ _)
  · intro h
    refine ⟨ nil_prefix, Nat.zero_le n, fun q hq hsize => ?_⟩
    cases hlist : q.toList with
    | nil => exact nil_prefix
    | cons c rest =>
      -- the first character of `q` is that of `s`
      obtain ⟨more, hmore⟩ := hq
      rw [hlist] at hmore
      have hfirst := h c (by rw [← hmore]; rfl)
      have hq : q = String.singleton c ++ String.ofList rest := by
        rw [← String.toList_inj, hlist, String.toList_append, String.toList_singleton,
          String.toList_ofList]
        rfl
      rw [hq, String.utf8ByteSize_append, String.utf8ByteSize_singleton] at hsize
      omega

end Lib.Utf8
