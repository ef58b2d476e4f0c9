import Mathlib.Data.List.Basic
import Mathlib.Data.List.DropRight

/-!
# Numbered lists

The items of a list with their numbers, from a first one on.  Searching such a list for a
number, or for the numbers from one on, is going to a place in it.

* `filter_numberFrom`, `find?_numberFrom`: the two searches.
* `rtake_concat`: a window of the last items moves on by one.
-/

namespace Lib

open List

variable {α : Type*}

/-- The items with their numbers, the first of which is `n`. -/
def numberFrom (n : Nat) (l : List α) : List (Nat × α) := (l.zipIdx n).map Prod.swap

namespace Numbered

variable {n k i : Nat} {a : α} {l : List α}

@[simp] theorem numberFrom_nil : numberFrom n ([] : List α) = [] := rfl

@[simp] theorem numberFrom_cons : numberFrom n (a :: l) = (n, a) :: numberFrom (n + 1) l := rfl

@[simp] theorem length_numberFrom : (numberFrom n l).length = l.length := by
  simp [numberFrom]

theorem numberFrom_concat : numberFrom n (l ++ [a]) = numberFrom n l ++ [(n + l.length, a)] := by
  simp [numberFrom, zipIdx_append]

theorem drop_numberFrom : (numberFrom n l).drop k = numberFrom (n + k) (l.drop k) := by
  induction k generalizing n l with
  | zero => rfl
  | succ k ih =>
    cases l with
    | nil => simp
    | cons a l =>
      rw [numberFrom_cons, drop_succ_cons, drop_succ_cons, ih, Nat.add_right_comm,
        Nat.add_assoc]

theorem getElem?_numberFrom : (numberFrom n l)[i]? = l[i]?.map fun a => (n + i, a) := by
  rw [numberFrom, getElem?_map, getElem?_zipIdx, Option.map_map]
  rfl

theorem mem_numberFrom : (i, a) ∈ numberFrom n l ↔ n ≤ i ∧ l[i - n]? = some a := by
  induction l generalizing n with
  | nil => simp
  | cons b l ih =>
    rw [numberFrom_cons, mem_cons, ih, Prod.mk.injEq]
    constructor
    · rintro (⟨rfl, rfl⟩ | ⟨hle, hget⟩)
      · simp
      · refine ⟨by omega, ?_⟩
        rw [show i - n = i - (n + 1) + 1 by omega]
        exact hget
    · rintro ⟨hle, hget⟩
      obtain rfl | hlt := Nat.eq_or_lt_of_le hle
      · rw [Nat.sub_self] at hget
        exact Or.inl ⟨rfl, (Option.some.inj hget).symm⟩
      · rw [show i - n = i - (n + 1) + 1 by omega] at hget
        exact Or.inr ⟨hlt, hget⟩

/-- The numbers of the items. -/
theorem fst_mem_numberFrom : (∃ a, (i, a) ∈ numberFrom n l) ↔ n ≤ i ∧ i < n + l.length := by
  simp only [mem_numberFrom, exists_and_left]
  refine and_congr_right fun hle => ?_
  rw [← Option.isSome_iff_exists, isSome_getElem?]
  omega

/-- The items that have the number `k` or a greater one. -/
theorem filter_numberFrom :
    (numberFrom n l).filter (fun m => k ≤ m.1) = (numberFrom n l).drop (k - n) := by
  induction l generalizing n with
  | nil => simp
  | cons a l ih =>
    rw [numberFrom_cons, filter_cons]
    by_cases hle : k ≤ n
    · rw [if_pos (decide_eq_true hle), ih, Nat.sub_eq_zero_of_le hle,
        Nat.sub_eq_zero_of_le (Nat.le_succ_of_le hle)]
      rfl
    · rw [if_neg (by simpa using hle), ih, show k - n = k - (n + 1) + 1 by omega,
        drop_succ_cons]

/-- The item with the number `k`. -/
theorem find?_numberFrom :
    (numberFrom n l).find? (fun m => m.1 == k) =
      if n ≤ k then (numberFrom n l)[k - n]? else none := by
  induction l generalizing n with
  | nil => simp
  | cons a l ih =>
    rw [numberFrom_cons]
    obtain hlt | rfl | hlt := Nat.lt_trichotomy n k
    · rw [find?_cons_of_neg (by simp; omega), ih, if_pos (by omega), if_pos (by omega),
        show k - n = k - (n + 1) + 1 by omega]
      rfl
    · simp
    · rw [find?_cons_of_neg (by simp; omega), ih, if_neg (by omega), if_neg (by omega)]

/-- A part of a numbered list that begins with an item, and the rest behind it. -/
theorem drop_numberFrom_of_lt (h : k < l.length) :
    ∃ a, l[k]? = some a ∧
      (numberFrom 0 l).drop k = (k, a) :: (numberFrom 0 l).drop (k + 1) := by
  refine ⟨l[k], getElem?_eq_getElem h, ?_⟩
  rw [drop_numberFrom, drop_numberFrom, drop_eq_getElem_cons h, numberFrom_cons,
    Nat.add_assoc]
  simp

theorem pairwise_numberFrom : ((numberFrom n l).map Prod.fst).Pairwise (· < ·) := by
  induction l generalizing n with
  | nil => exact List.Pairwise.nil
  | cons a l ih =>
    rw [numberFrom_cons, map_cons, pairwise_cons]
    refine ⟨fun i hi => ?_, ih⟩
    obtain ⟨⟨i, b⟩, hm, rfl⟩ := mem_map.mp hi
    exact (mem_numberFrom.mp hm).1

end Numbered

/-- The window of the last `c` items moves on, and is not longer than before. -/
theorem rtake_concat {c : Nat} (hc : 0 < c) (l : List α) (a : α) :
    (l ++ [a]).rtake c = (l.rtake c).drop ((l.rtake c).length + 1 - c) ++ [a] := by
  simp only [rtake, length_append, length_singleton, length_drop,
    drop_drop]
  rw [drop_append_of_le_length (by omega)]
  congr 2
  omega

end Lib
