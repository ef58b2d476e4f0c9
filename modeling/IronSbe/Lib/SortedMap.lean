import Mathlib.Order.Lattice
import Mathlib.Data.List.Basic
import Mathlib.Data.List.Perm.Subperm
import Mathlib.Tactic.Common

/-!
# Maps kept in key order

`std::collections::BTreeMap` by its content: one entry per key, in strictly
increasing key order.  The order is a field of the structure, so two maps with
the same content are the same value, and the first and the last entry are those
of the least and the greatest key.

* `get?_insert`, `get?_erase`, `get?_retain_eq_some_iff`: what a key holds after an
  operation.
* `size_insert_le`, `size_erase_le`: how many entries there are.
* `mem_values_iff`, `nodup_values`: the values, and when no value is there twice.

Where only the content of a `std::collections::HashMap` matters, it is such a map too.
-/

namespace Lib

open List

variable {κ ν : Type} [LinearOrder κ]

/-- A map from `κ` to `ν`, as its entries in key order. -/
structure SortedMap (κ ν : Type) [LinearOrder κ] where
  entries : List (κ × ν)
  sorted : entries.Pairwise (fun a b => a.1 < b.1)

namespace SortedMap

instance [DecidableEq ν] : DecidableEq (SortedMap κ ν) := fun a b =>
  decidable_of_iff (a.entries = b.entries) (by cases a; cases b; simp)

/-- The map without entries. -/
def empty : SortedMap κ ν := ⟨[], List.Pairwise.nil⟩

/-- The value under `key`. -/
def get? (m : SortedMap κ ν) (key : κ) : Option ν :=
  (m.entries.find? (fun entry => entry.1 == key)).map Prod.snd

/-- The values in key order. -/
def values (m : SortedMap κ ν) : List ν := m.entries.map Prod.snd

/-- Put an entry in its place, over one with the same key. -/
def insertEntry (key : κ) (value : ν) : List (κ × ν) → List (κ × ν)
  | [] => [(key, value)]
  | entry :: rest =>
    if key < entry.1 then (key, value) :: entry :: rest
    else if key = entry.1 then (key, value) :: rest
    else entry :: insertEntry key value rest

variable {l : List (κ × ν)} {m : SortedMap κ ν}

theorem fst_mem_insertEntry {key : κ} {value : ν} {e : κ × ν} (h : e ∈ insertEntry key value l) :
    e.1 = key ∨ e ∈ l := by
  induction l with
  | nil =>
    rw [insertEntry, mem_singleton] at h
    exact Or.inl (by rw [h])
  | cons entry rest ih =>
    unfold insertEntry at h
    split_ifs at h
    · rcases mem_cons.mp h with rfl | h
      · exact Or.inl rfl
      · exact Or.inr h
    · rcases mem_cons.mp h with rfl | h
      · exact Or.inl rfl
      · exact Or.inr (mem_cons_of_mem _ h)
    · rcases mem_cons.mp h with rfl | h
      · exact Or.inr mem_cons_self
      · exact (ih h).imp id (mem_cons_of_mem _)

theorem sorted_insertEntry (key : κ) (value : ν) (h : l.Pairwise (fun a b => a.1 < b.1)) :
    (insertEntry key value l).Pairwise (fun a b => a.1 < b.1) := by
  induction l with
  | nil => exact pairwise_singleton _ _
  | cons entry rest ih =>
    obtain ⟨hfirst, hrest⟩ := pairwise_cons.mp h
    unfold insertEntry
    split_ifs with hlt heq
    · refine pairwise_cons.mpr ⟨fun e he => ?_, h⟩
      rcases mem_cons.mp he with rfl | he
      · exact hlt
      · exact lt_trans hlt (hfirst e he)
    · refine pairwise_cons.mpr ⟨fun e he => ?_, hrest⟩
      exact heq ▸ hfirst e he
    · refine pairwise_cons.mpr ⟨fun e he => ?_, ih hrest⟩
      rcases fst_mem_insertEntry he with hkey | he
      · rw [hkey]
        exact lt_of_le_of_ne (not_lt.mp hlt) (Ne.symm heq)
      · exact hfirst e he

/-- Put a value under a key, in place of what was there. -/
def insert (m : SortedMap κ ν) (key : κ) (value : ν) : SortedMap κ ν :=
  ⟨insertEntry key value m.entries, sorted_insertEntry key value m.sorted⟩

/-- Take a key out. -/
def erase (m : SortedMap κ ν) (key : κ) : SortedMap κ ν :=
  ⟨m.entries.filter (fun entry => entry.1 != key), m.sorted.filter _⟩

theorem get?_insert (m : SortedMap κ ν) (key : κ) (value : ν) (k : κ) :
    (m.insert key value).get? k = if k = key then some value else m.get? k := by
  simp only [get?, insert]
  induction m.entries with
  | nil =>
    by_cases hk : k = key
    · simp [insertEntry, hk]
    · simp [insertEntry, hk, Ne.symm hk]
  | cons entry rest ih =>
    unfold insertEntry
    by_cases hk : k = key
    · subst hk
      rw [if_pos rfl] at ih ⊢
      split_ifs with hlt heq
      · simp
      · simp
      · rw [find?_cons_of_neg (by simpa using Ne.symm heq)]
        exact ih
    · rw [if_neg hk] at ih ⊢
      split_ifs with hlt heq
      · rw [find?_cons_of_neg (by simpa using Ne.symm hk)]
      · rw [find?_cons_of_neg (by simpa using Ne.symm hk),
          find?_cons_of_neg (by simpa [← heq] using Ne.symm hk)]
      · rw [find?_cons, find?_cons]
        split
        · rfl
        · exact ih

theorem get?_erase (m : SortedMap κ ν) (key k : κ) :
    (m.erase key).get? k = if k = key then none else m.get? k := by
  simp only [get?, erase]
  induction m.entries with
  | nil => simp
  | cons entry rest ih =>
    by_cases hentry : entry.1 = key
    · rw [filter_cons_of_neg (by simp [hentry]), ih]
      split_ifs with hk
      · rfl
      · rw [find?_cons_of_neg (by simpa [hentry] using Ne.symm hk)]
    · rw [filter_cons_of_pos (by simpa using hentry)]
      by_cases hk : entry.1 = k
      · have hne : k ≠ key := hk ▸ hentry
        rw [find?_cons_of_pos (by simpa using hk), find?_cons_of_pos (by simpa using hk),
          if_neg hne]
      · rw [find?_cons_of_neg (by simpa using hk), find?_cons_of_neg (by simpa using hk)]
        exact ih

/-! ## Content without an order -/

/-- There is an entry under `key`. -/
def contains (m : SortedMap κ ν) (key : κ) : Bool := (m.get? key).isSome

/-- How many keys there are. -/
def size (m : SortedMap κ ν) : Nat := m.entries.length

/-- Keep the entries whose value passes. -/
def retain (m : SortedMap κ ν) (keep : ν → Bool) : SortedMap κ ν :=
  ⟨m.entries.filter (fun entry => keep entry.2), m.sorted.filter _⟩

@[simp] theorem get?_empty (k : κ) : (empty : SortedMap κ ν).get? k = none := rfl

theorem contains_insert (m : SortedMap κ ν) (key : κ) (value : ν) (k : κ) :
    (m.insert key value).contains k = (decide (k = key) || m.contains k) := by
  rw [contains, get?_insert]
  split_ifs with hk <;> simp [hk, contains]

theorem contains_erase (m : SortedMap κ ν) (key k : κ) :
    (m.erase key).contains k = (!decide (k = key) && m.contains k) := by
  rw [contains, get?_erase]
  split_ifs with hk <;> simp [hk, contains]

/-- A key holds a value exactly if the entry is there. -/
theorem get?_eq_some_iff (m : SortedMap κ ν) (k : κ) (value : ν) :
    m.get? k = some value ↔ (k, value) ∈ m.entries := by
  obtain ⟨entries, hsorted⟩ := m
  simp only [get?]
  induction entries with
  | nil => simp
  | cons entry rest ih =>
    obtain ⟨hfirst, hrest⟩ := pairwise_cons.mp hsorted
    rw [mem_cons]
    by_cases hk : entry.1 = k
    · rw [find?_cons_of_pos (by simpa using hk)]
      constructor
      · intro h
        exact .inl (Prod.ext hk.symm (Option.some.inj h).symm)
      · rintro (h | h)
        · rw [← h]
          rfl
        · exact absurd (hk ▸ hfirst _ h) (lt_irrefl _)
    · rw [find?_cons_of_neg (by simpa using hk), ih hrest]
      constructor
      · exact .inr
      · rintro (h | h)
        · exact absurd (congrArg Prod.fst h).symm hk
        · exact h

theorem get?_retain_eq_some_iff (m : SortedMap κ ν) (keep : ν → Bool) (k : κ) (value : ν) :
    (m.retain keep).get? k = some value ↔ m.get? k = some value ∧ keep value = true := by
  rw [get?_eq_some_iff, get?_eq_some_iff, retain, mem_filter]

theorem mem_values_iff (m : SortedMap κ ν) (value : ν) :
    value ∈ m.values ↔ ∃ k, m.get? k = some value := by
  rw [values, mem_map]
  constructor
  · rintro ⟨entry, hentry, rfl⟩
    exact ⟨entry.1, (m.get?_eq_some_iff _ _).mpr hentry⟩
  · rintro ⟨k, hk⟩
    exact ⟨(k, value), (m.get?_eq_some_iff _ _).mp hk, rfl⟩

/-- No value is there twice if no two keys share one. -/
theorem nodup_values (h : ∀ k k' value, m.get? k = some value → m.get? k' = some value → k = k') :
    m.values.Nodup := by
  refine pairwise_map.mpr (m.sorted.imp_of_mem fun {a b} ha hb hlt heq => ?_)
  have hkeys : a.1 = b.1 :=
    h a.1 b.1 a.2 ((m.get?_eq_some_iff _ _).mpr ha) (heq ▸ (m.get?_eq_some_iff _ _).mpr hb)
  exact absurd hlt (hkeys ▸ lt_irrefl _)

theorem contains_of_contains_retain {keep : ν → Bool} {k : κ}
    (h : (m.retain keep).contains k = true) : m.contains k = true := by
  obtain ⟨value, hvalue⟩ := Option.isSome_iff_exists.mp h
  exact Option.isSome_iff_exists.mpr ⟨value, ((m.get?_retain_eq_some_iff keep k value).mp hvalue).1⟩

theorem size_erase_le (m : SortedMap κ ν) (key : κ) : (m.erase key).size ≤ m.size :=
  length_filter_le _ _

theorem size_insert_le (m : SortedMap κ ν) (key : κ) (value : ν) :
    (m.insert key value).size ≤ m.size + 1 := by
  simp only [size, insert]
  induction m.entries with
  | nil => exact Nat.le_refl _
  | cons entry rest ih =>
    unfold insertEntry
    split_ifs
    · exact Nat.le_refl _
    · exact Nat.le_succ _
    · exact Nat.succ_le_succ ih

/-- Different keys that are all there. -/
theorem length_le_size {keys : List κ} (hnodup : keys.Nodup) (h : ∀ k ∈ keys, m.contains k = true) :
    keys.length ≤ m.size := by
  have hsubset : keys ⊆ m.entries.map Prod.fst := by
    intro k hk
    obtain ⟨value, hvalue⟩ := Option.isSome_iff_exists.mp (h k hk)
    exact mem_map_of_mem ((m.get?_eq_some_iff _ _).mp hvalue)
  have hlen := (subperm_of_subset hnodup hsubset).length_le
  rwa [length_map] at hlen

/-- A map with fewer keys is smaller. -/
theorem size_le_of_contains {μ : Type} {m' : SortedMap κ μ}
    (h : ∀ k, m.contains k = true → m'.contains k = true) : m.size ≤ m'.size := by
  have hnodup : (m.entries.map Prod.fst).Nodup :=
    pairwise_map.mpr (m.sorted.imp fun hlt => ne_of_lt hlt)
  have hlen := length_le_size (m := m') hnodup fun k hk => by
    obtain ⟨entry, hentry, rfl⟩ := mem_map.mp hk
    have hget : m.get? entry.1 = some entry.2 := (m.get?_eq_some_iff _ _).mpr hentry
    exact h entry.1 (by rw [contains, hget]; rfl)
  rwa [length_map] at hlen

end SortedMap

end Lib
