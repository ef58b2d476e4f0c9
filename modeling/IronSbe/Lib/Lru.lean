import Mathlib.Data.List.DropRight
import Mathlib.Data.List.Nodup

/-!
# Least recently used

A set of at most `capacity` keys that forgets the key that was put in the longest time ago.
Looking a key up does not count as a use of it.

As long as only keys are put in that are not there, the set is a window over what was put
in: the last `capacity` keys of the history (`keys_put_of_window`), and no key comes back
while it is in the window (`Spaced`).
-/

namespace Lib

open List

/-- A least recently used set, the most recent key first. -/
structure LruSet (κ : Type) where
  capacity : Nat
  keys : List κ
  nodup : keys.Nodup
  bounded : keys.length ≤ capacity

namespace LruSet

variable {κ : Type}

/-- A set without keys. -/
def empty (capacity : Nat) : LruSet κ := ⟨capacity, [], .nil, Nat.zero_le _⟩

/-- Forget all keys. -/
def clear (s : LruSet κ) : LruSet κ := empty s.capacity

variable [DecidableEq κ]

/-- Membership, which does not refresh the key. -/
def contains (s : LruSet κ) (key : κ) : Bool := decide (key ∈ s.keys)

/-- Put a key in as the most recent one, and forget the least recent one if that is one too
many. -/
def put (s : LruSet κ) (key : κ) : LruSet κ where
  capacity := s.capacity
  keys := (key :: s.keys.erase key).take s.capacity
  nodup := by
    refine List.Nodup.sublist (List.take_sublist _ _) (List.nodup_cons.mpr ⟨?_, s.nodup.erase key⟩)
    exact s.nodup.not_mem_erase
  bounded := List.length_take_le _ _

variable {s : LruSet κ} {key : κ} {history : List κ}

theorem contains_iff : s.contains key = true ↔ key ∈ s.keys := by
  rw [contains, decide_eq_true_iff]

/-- A new key pushes the others back by one place. -/
theorem keys_put_of_not_mem (h : key ∉ s.keys) :
    (s.put key).keys = (key :: s.keys).take s.capacity := by
  show (key :: s.keys.erase key).take s.capacity = _
  rw [erase_of_not_mem h]

/-- If the set is a window over the keys of a history, then it still is after a new key. -/
theorem keys_put_of_window (hwindow : s.keys = (history.rtake s.capacity).reverse)
    (hnew : key ∉ s.keys) :
    (s.put key).keys = ((history ++ [key]).rtake s.capacity).reverse := by
  rw [keys_put_of_not_mem hnew, hwindow, rtake_eq_reverse_take_reverse,
    rtake_eq_reverse_take_reverse, reverse_reverse, reverse_reverse,
    reverse_append, reverse_singleton, singleton_append]
  cases s.capacity with
  | zero => rfl
  | succ n =>
    rw [take_succ_cons, take_succ_cons, take_take, Nat.min_eq_left (Nat.le_succ n)]

/-- Two places of the list that are at most `n` apart hold different items. -/
def Spaced (n : Nat) (l : List κ) : Prop :=
  ∀ i j x, i < j → j ≤ i + n → l[i]? = some x → l[j]? ≠ some x

omit [DecidableEq κ] in
/-- A history grows by a key that is not in its window. -/
theorem Spaced.concat {n : Nat} (h : Spaced n history) (hnew : key ∉ history.rtake n) :
    Spaced n (history ++ [key]) := by
  intro i j x hij hnear hi hj
  have hjlt : j < history.length + 1 := by simpa using (List.getElem?_eq_some_iff.mp hj).1
  rw [getElem?_append_left (by omega)] at hi
  rcases Nat.lt_or_ge j history.length with hlt | hge
  · rw [getElem?_append_left hlt] at hj
    exact h i j x hij hnear hi hj
  · -- the later place is the new one, and the earlier one is in the window
    obtain rfl : j = history.length := by omega
    obtain rfl : key = x := by simpa using hj
    refine hnew (mem_of_getElem? (i := i - (history.length - n)) ?_)
    rw [rtake, getElem?_drop, ← hi]
    congr 1
    omega

end LruSet

end Lib
