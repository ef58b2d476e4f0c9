import IronSbe.Lib.Record

/-!
# Changes to single bits

Setting, clearing and testing one bit of a machine word with shifts and masks, as programs
write it, and sequences of such changes.

* `getLsbD_put`: a change affects its own bit only.
* `getLsbD_putAll`: after a sequence of changes a bit is what its last change made it, or
  what it was.
* `lowBit_ushiftRight`, `lowBit_sshiftRight`: the test works with both kinds of shift.
-/

namespace Lib.Bits

open Lib.Record

variable {w : Nat}

/-- The word with bit `i` set to `b`. -/
def put (x : BitVec w) (i : Nat) (b : Bool) : BitVec w :=
  if b then x ||| (1#w <<< i) else x &&& ~~~(1#w <<< i)

theorem getLsbD_one_shiftLeft {i : Nat} (hi : i < w) (j : Nat) :
    (1#w <<< i).getLsbD j = decide (j = i) := by
  rw [BitVec.getLsbD_shiftLeft, BitVec.getLsbD_one]
  by_cases hj : j = i
  · subst hj
    simp [hi]
    omega
  · simp only [hj, decide_false]
    by_cases hlt : j < i
    · simp [hlt]
    · have hne : ¬ j - i = 0 := by omega
      simp [hne]

/-- A change of bit `i` leaves every other bit. -/
theorem getLsbD_put (x : BitVec w) {i : Nat} (hi : i < w) (b : Bool) (j : Nat) :
    (put x i b).getLsbD j = if j = i then b else x.getLsbD j := by
  unfold put
  cases b with
  | true =>
    simp only [if_true, BitVec.getLsbD_or, getLsbD_one_shiftLeft hi]
    split_ifs with hj <;> simp [hj]
  | false =>
    simp only [Bool.false_eq_true, if_false, BitVec.getLsbD_and, BitVec.getLsbD_not,
      getLsbD_one_shiftLeft hi]
    split_ifs with hj
    · simp [hj]
    · by_cases hw : j < w
      · simp [hj, hw]
      · simp [hj, BitVec.getLsbD_of_ge x j (by omega)]

/-- The changes, one after the other. -/
def putAll (x : BitVec w) (changes : List (Nat × Bool)) : BitVec w :=
  changes.foldl (fun x c => put x c.1 c.2) x

/-- A bit is what the last change of it made it. -/
theorem getLsbD_putAll {changes : List (Nat × Bool)} (h : ∀ c ∈ changes, c.1 < w) (x : BitVec w)
    (j : Nat) :
    (putAll x changes).getLsbD j = (lastAssigned changes j).getD (x.getLsbD j) := by
  induction changes generalizing x with
  | nil => rfl
  | cons c rest ih =>
    rw [List.forall_mem_cons] at h
    show (putAll (put x c.1 c.2) rest).getLsbD j = _
    rw [ih h.2, lastAssigned, getLsbD_put x h.1]
    cases lastAssigned rest j with
    | some b => rfl
    | none =>
      rw [Option.getD_none, Option.none_or]
      by_cases hj : j = c.1
      · rw [if_pos hj, if_pos hj.symm, Option.getD_some]
      · rw [if_neg hj, if_neg (Ne.symm hj), Option.getD_none]

/-- The test of the lowest bit by a mask. -/
theorem lowBit_eq (x : BitVec w) : (x &&& 1#w != 0#w) = x.getLsbD 0 := by
  have hand : x &&& 1#w = if x.getLsbD 0 then 1#w else 0#w := by
    apply BitVec.eq_of_getLsbD_eq
    intro i hi
    rw [BitVec.getLsbD_and, BitVec.getLsbD_one]
    cases hx : x.getLsbD 0 <;> by_cases h0 : i = 0 <;> simp [h0, hx]
  rw [hand]
  cases hx : x.getLsbD 0 with
  | false => simp
  | true =>
    have hpos : 0 < w := by
      by_contra hzero
      rw [BitVec.getLsbD_of_ge x 0 (by omega)] at hx
      cases hx
    have hne : 1#w ≠ 0#w := by
      intro heq
      have hbit := congrArg (fun y : BitVec w => y.getLsbD 0) heq
      simp [hpos] at hbit
    simpa using hne

theorem lowBit_ushiftRight (x : BitVec w) (i : Nat) :
    ((x >>> i) &&& 1#w != 0#w) = x.getLsbD i := by
  rw [lowBit_eq, BitVec.getLsbD_ushiftRight, Nat.add_zero]

/-- An arithmetic shift brings down the same bit. -/
theorem lowBit_sshiftRight (x : BitVec w) {i : Nat} (hi : i < w) :
    (x.sshiftRight i &&& 1#w != 0#w) = x.getLsbD i := by
  rw [lowBit_eq, BitVec.getLsbD_sshiftRight, Nat.add_zero, if_pos hi]
  simp
  omega

end Lib.Bits
