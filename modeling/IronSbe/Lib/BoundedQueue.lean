import Mathlib.Data.List.Basic

/-!
# Bounded queues

A first-in first-out queue with a capacity.  `push?` fails on a full queue and `pop?`
on an empty one, and `offerAll` takes all of its items or none; the bound is a field, so
a queue that holds too much cannot be built.
-/

namespace Lib

/-- A queue of at most `capacity` items, the oldest first. -/
structure BoundedQueue (α : Type) where
  capacity : Nat
  items : List α
  bounded : items.length ≤ capacity
  deriving DecidableEq

namespace BoundedQueue

variable {α : Type}

/-- A queue without items. -/
def empty (capacity : Nat) : BoundedQueue α := ⟨capacity, [], Nat.zero_le _⟩

@[simp] theorem capacity_empty (capacity : Nat) :
    (empty capacity : BoundedQueue α).capacity = capacity := rfl

@[simp] theorem items_empty (capacity : Nat) : (empty capacity : BoundedQueue α).items = [] := rfl

/-- Put an item at the end, if there is room. -/
def push? (q : BoundedQueue α) (item : α) : Option (BoundedQueue α) :=
  if h : q.items.length < q.capacity then
    some ⟨q.capacity, q.items ++ [item], by rw [List.length_append]; exact h⟩
  else none

/-- Put an item at the end, or drop it when there is no room. -/
def offer (q : BoundedQueue α) (item : α) : BoundedQueue α := (q.push? item).getD q

/-- Put all the items at the end, or none of them when there is no room for all. -/
def offerAll (q : BoundedQueue α) (items : List α) : BoundedQueue α :=
  if h : q.items.length + items.length ≤ q.capacity then
    ⟨q.capacity, q.items ++ items, by rw [List.length_append]; exact h⟩
  else q

/-- Take the oldest item. -/
def pop? (q : BoundedQueue α) : Option (α × BoundedQueue α) :=
  match q with
  | ⟨_, [], _⟩ => none
  | ⟨capacity, item :: items, h⟩ => some (item, ⟨capacity, items, Nat.le_trans (Nat.le_succ _) h⟩)

variable {q q' : BoundedQueue α} {items : List α} {item : α}

theorem items_offer_of_lt (h : q.items.length < q.capacity) (item : α) :
    (q.offer item).items = q.items ++ [item] := by
  simp [offer, push?, h]

theorem items_offerAll_of_le (h : q.items.length + items.length ≤ q.capacity) :
    (q.offerAll items).items = q.items ++ items := by
  simp [offerAll, h]

theorem offerAll_of_lt (h : q.capacity < q.items.length + items.length) : q.offerAll items = q := by
  rw [offerAll, dif_neg (Nat.not_le.mpr h)]

theorem offer_of_le (h : q.capacity ≤ q.items.length) (item : α) :
    q.offer item = q := by
  rw [offer, push?, dif_neg (Nat.not_lt.mpr h)]
  rfl

/-- A queue that is offered an item keeps those it has. -/
theorem subset_items_offer (q : BoundedQueue α) (item : α) : q.items ⊆ (q.offer item).items := by
  by_cases h : q.items.length < q.capacity
  · rw [items_offer_of_lt h]
    exact List.subset_append_left _ _
  · rw [offer_of_le (Nat.le_of_not_lt h)]
    exact List.Subset.refl _

theorem items_of_push? (h : q.push? item = some q') :
    q'.items = q.items ++ [item] := by
  unfold push? at h
  split_ifs at h
  cases h
  rfl

theorem capacity_of_push? (h : q.push? item = some q') :
    q'.capacity = q.capacity := by
  unfold push? at h
  split_ifs at h
  cases h
  rfl

theorem push?_eq_none_iff :
    q.push? item = none ↔ q.capacity ≤ q.items.length := by
  unfold push?
  split_ifs with hroom
  · exact iff_of_false (by rintro ⟨⟩) (Nat.not_le.mpr hroom)
  · exact iff_of_true rfl (Nat.le_of_not_lt hroom)

theorem lt_of_push? (h : q.push? item = some q') :
    q.items.length < q.capacity := by
  apply Nat.lt_of_not_le
  intro hfull
  cases (push?_eq_none_iff.mpr hfull).symm.trans h

theorem mem_items_of_push? (h : q.push? item = some q') :
    item ∈ q'.items := by
  rw [items_of_push? h]
  exact List.mem_append_right _ (List.mem_singleton_self _)

theorem items_of_pop? (h : q.pop? = some (item, q')) :
    q.items = item :: q'.items := by
  obtain ⟨capacity, items, hbounded⟩ := q
  cases items with
  | nil => cases h
  | cons head items =>
    cases h
    rfl

theorem capacity_of_pop? (h : q.pop? = some (item, q')) :
    q'.capacity = q.capacity := by
  obtain ⟨capacity, items, hbounded⟩ := q
  cases items with
  | nil => cases h
  | cons head items =>
    cases h
    rfl

theorem items_eq_nil_of_pop? (h : q.pop? = none) : q.items = [] := by
  obtain ⟨capacity, items, hbounded⟩ := q
  cases items with
  | nil => rfl
  | cons head items => cases h

theorem pop?_of_items_eq_nil (h : q.items = []) : q.pop? = none := by
  obtain ⟨capacity, items, hbounded⟩ := q
  subst h
  rfl

end BoundedQueue

end Lib
