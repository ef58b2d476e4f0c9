import IronSbe.Core.Buffer
import IronSbe.Lib.Utf8

/-!
# Strings of a fixed length

`put_str` writes a string into a field of `max_len` bytes: the bytes that fit, and zeros in
the rest of the field.  `get_str` reads the bytes in front of the first zero.  The first one
cuts the string after a number of bytes and the second one wants whole characters, so where
the cut goes through a character nothing is read at all.

* `putStr_eq`: `put_str` writes all the bytes of the field, and only these.
* `getStr_of_putStr`: what is read back.
* `readsBackPrefix_iff`: the strings of which the longest possible part is read back.
-/

namespace IronSbe.Core

open Lib.Slice Lib.Utf8 List

/-! ## The code -/

/-- `ReadBuffer::get_bytes`. -/
def getBytes (buf : Buffer) (offset len : Nat) : Option (List UInt8) :=
  slice buf offset (offset + len)

/-- `ReadBuffer::get_str`.  Bytes that are no string are read as the empty one. -/
def getStr (buf : Buffer) (offset len : Nat) : Option String := do
  let data ← getBytes buf offset len
  let stop := (data.findIdx? (· == 0)).getD len
  return (decode (data.take stop)).getD ""

/-- `WriteBuffer::put_str`. -/
def putStr (buf : Buffer) (offset : Nat) (value : String) (maxLen : Nat) : Option Buffer := do
  let data := bytes value
  let copyLen := min data.length maxLen
  let buf ← blit buf offset (data.take copyLen)
  if copyLen < maxLen then blit buf (offset + copyLen) (List.replicate (maxLen - copyLen) 0)
  else return buf

/-! ## What is written -/

/-- The bytes of a field with the string in it. -/
def fieldBytes (value : String) (maxLen : Nat) : List UInt8 :=
  (bytes value).take maxLen ++ List.replicate (maxLen - (bytes value).length) 0

variable {s : String} {maxLen : Nat}

theorem length_fieldBytes (s : String) (maxLen : Nat) : (fieldBytes s maxLen).length = maxLen := by
  rw [fieldBytes, length_append, length_take, length_replicate]
  omega

/-- `put_str` writes the whole field at once. -/
theorem putStr_eq (buf : Buffer) (offset : Nat) (s : String) (maxLen : Nat) :
    putStr buf offset s maxLen = blit buf offset (fieldBytes s maxLen) := by
  have htake : (bytes s).take (min (bytes s).length maxLen) = (bytes s).take maxLen := by
    by_cases h : (bytes s).length ≤ maxLen
    · rw [Nat.min_eq_left h, take_length, take_of_length_le h]
    · rw [Nat.min_eq_right (by omega)]
  have hlen : ((bytes s).take maxLen).length = min (bytes s).length maxLen := by
    rw [length_take, Nat.min_comm]
  rw [fieldBytes, blit_append, hlen, putStr, htake]
  cases hfirst : blit buf offset ((bytes s).take maxLen) with
  | none => rfl
  | some next =>
    show (if _ then _ else _) = blit next _ _
    split_ifs with hshort
    · rw [show maxLen - min (bytes s).length maxLen = maxLen - (bytes s).length by omega]
    · -- no room is left behind the string
      have hinside : offset + min (bytes s).length maxLen ≤ next.length := by
        rw [length_of_blit hfirst, ← hlen]
        unfold blit at hfirst
        split_ifs at hfirst with hfit
        exact hfit
      rw [show maxLen - (bytes s).length = 0 by omega, replicate_zero, blit_nil hinside]
      rfl

/-! ## What is read back -/

/-- The bytes in front of the first zero of a field are those of the string that fit. -/
theorem take_findIdx?_fieldBytes (hs : '\x00' ∉ s.toList) (maxLen : Nat) :
    (fieldBytes s maxLen).take (((fieldBytes s maxLen).findIdx? (· == 0)).getD maxLen) =
      (bytes s).take maxLen := by
  have hnone : ((bytes s).take maxLen).findIdx? (· == 0) = none := by
    rw [findIdx?_eq_none_iff]
    intro b hb
    have hb0 : b ≠ 0 := by
      rintro rfl
      exact zero_not_mem_bytes hs (mem_of_mem_take hb)
    simpa using hb0
  rw [fieldBytes, findIdx?_append, hnone, findIdx?_replicate, Option.none_or]
  by_cases hroom : 0 < maxLen - (bytes s).length
  · rw [if_pos ⟨hroom, rfl⟩, Option.map_some, Option.getD_some, Nat.zero_add, take_left]
  · rw [if_neg fun h => hroom h.1, Option.map_none, Option.getD_none,
      show maxLen - (bytes s).length = 0 by omega, replicate_zero, append_nil,
      take_take, Nat.min_self]

/-- What `get_str` reads from a field that `put_str` has written. -/
theorem getStr_of_putStr (hs : '\x00' ∉ s.toList) {buf buf' : Buffer} {offset : Nat}
    (h : putStr buf offset s maxLen = some buf') :
    getStr buf' offset maxLen = some ((decode ((bytes s).take maxLen)).getD "") := by
  rw [putStr_eq] at h
  have hdata : getBytes buf' offset maxLen = some (fieldBytes s maxLen) := by
    have hslice := slice_of_blit h
    rwa [length_fieldBytes] at hslice
  rw [getStr, hdata]
  show some _ = _
  rw [take_findIdx?_fieldBytes hs]

/-- After `put_str` of the string `get_str` gives its longest prefix that fits, and the bytes
around the field are as before. -/
def ReadsBackPrefix (buf : Buffer) (offset : Nat) (s : String) (maxLen : Nat) : Prop :=
  ∃ buf', putStr buf offset s maxLen = some buf' ∧
    (∃ p, LongestPrefix s maxLen p ∧ getStr buf' offset maxLen = some p) ∧
    ∀ i, i < offset ∨ offset + maxLen ≤ i → buf'[i]? = buf[i]?

/-- The string fits into the field, or the field ends between two of its characters, or not
even the first character fits. -/
def CutBetweenCharacters (s : String) (maxLen : Nat) : Prop :=
  s.utf8ByteSize ≤ maxLen ∨ (⟨maxLen⟩ : String.Pos.Raw).IsValid s ∨
    ∀ c, s.toList.head? = some c → maxLen < c.utf8Size

/-- The result of `get_str` is the longest prefix exactly if the cut is between characters. -/
theorem longestPrefix_decode_take_iff :
    LongestPrefix s maxLen ((decode ((bytes s).take maxLen)).getD "") ↔
      CutBetweenCharacters s maxLen := by
  have hcut := @decode_take_isSome_iff s maxLen
  rw [CutBetweenCharacters, ← or_assoc, ← hcut]
  cases hdecode : decode ((bytes s).take maxLen) with
  | some p => simp [longestPrefix_of_bytes (decode_eq_some_iff.mp hdecode)]
  | none => simp [longestPrefix_empty_iff]

/-- A string without a zero character, put into any field inside the buffer: its longest prefix
that fits is read back exactly if the cut is between characters. -/
theorem readsBackPrefix_iff (hs : '\x00' ∉ s.toList) {buf : Buffer} {offset : Nat}
    (hfit : offset + maxLen ≤ buf.length) :
    ReadsBackPrefix buf offset s maxLen ↔ CutBetweenCharacters s maxLen := by
  have hfit' : offset + (fieldBytes s maxLen).length ≤ buf.length := by
    rwa [length_fieldBytes]
  have hput : putStr buf offset s maxLen =
      some (overwrite buf offset (fieldBytes s maxLen)) := by
    rw [putStr_eq, blit, if_pos hfit']
  have hget := getStr_of_putStr hs hput
  rw [← longestPrefix_decode_take_iff]
  constructor
  · rintro ⟨buf', hbuf', ⟨p, hp, hread⟩, -⟩
    cases hput.symm.trans hbuf'
    cases hget.symm.trans hread
    exact hp
  · intro hprefix
    refine ⟨_, hput, ⟨_, hprefix, hget⟩, fun i hi => ?_⟩
    rw [getElem?_overwrite hfit', length_fieldBytes, if_neg (by omega)]

/-- Two of the four bytes of a string of two characters fit, and one character is read back. -/
theorem readsBackPrefix_between :
    '\x00' ∉ "éé".toList ∧ ReadsBackPrefix [9, 9, 9, 9, 9] 1 "éé" 2 := by
  have hs : '\x00' ∉ "éé".toList := by decide
  have hcut : (⟨2⟩ : String.Pos.Raw).IsValid "éé" := by decide
  exact ⟨hs, (readsBackPrefix_iff hs (by decide)).mpr (.inr (.inl hcut))⟩

/-- The second byte of a field of two bytes is the first half of a character, and nothing is
read back, not even the character in front of it. -/
theorem not_readsBackPrefix : ¬ ReadsBackPrefix [9, 9, 9, 9] 1 "aé" 2 := by
  rintro ⟨buf', hput, ⟨p, hp, hread⟩, -⟩
  have hs : '\x00' ∉ "aé".toList := by decide
  have hget := getStr_of_putStr hs hput
  cases hget.symm.trans hread
  have hcut := longestPrefix_decode_take_iff.mp hp
  rcases hcut with hsize | hvalid | hfirst
  · exact absurd hsize (by decide)
  · exact absurd hvalid (by decide)
  · exact absurd (hfirst 'a' rfl) (by decide)

end IronSbe.Core
