import Mathlib.Algebra.GroupWithZero.Nat
import Mathlib.Tactic.Common
import Mathlib.Tactic.Tauto

/-!
# Loops that add up, and loops that remember

A loop goes through a list with a number `acc`.  An element is refused unless `go acc a`,
and then the loop ends; otherwise `out acc a` is computed and is the next number.  In a
machine the next number is kept modulo `M`: `wrap` is what becomes of a number that is stored.

* `sums`: the numbers that are computed, before they are stored.
* `Passes`, `final`: whether no element is refused, and the number at the end.
* `bounded_iff`: the numbers of the machine are below `M` exactly if those of the loop
  without a bound are.
* `passes_iff`, `final_eq`: then the two loops do the same.

A loop that remembers the keys it has `seen` and refuses one of them looks for `Fresh` keys.
What a loop has read when it comes to an element is a first part of the list
(`forall_split_cons_iff`, `forall_split_foldl_iff`).
-/

namespace Lib.Accumulate

open List

variable {α : Type*}

section Loop

variable (wrap : Nat → Nat) (go : Nat → α → Prop) [∀ acc a, Decidable (go acc a)]
  (out : Nat → α → Nat)

/-- The numbers that the loop computes, up to the element at which it stops. -/
def sums : Nat → List α → List Nat
  | _, [] => []
  | acc, a :: rest => if go acc a then out acc a :: sums (wrap (out acc a)) rest else []

/-- The loop goes through all elements. -/
def Passes : Nat → List α → Prop
  | _, [] => True
  | acc, a :: rest => go acc a ∧ Passes (wrap (out acc a)) rest

/-- The accumulator behind all elements. -/
def final : Nat → List α → Nat
  | acc, [] => acc
  | acc, a :: rest => final (wrap (out acc a)) rest

end Loop

section Bounded

variable {M : Nat} {go : Nat → α → Prop} [∀ acc a, Decidable (go acc a)] {out : Nat → α → Nat}
  {acc : Nat} {l : List α}

/-- As long as the numbers are below `M`, the machine computes them. -/
theorem bounded_iff :
    (∀ n ∈ sums (· % M) go out acc l, n < M) ↔ ∀ n ∈ sums (fun n => n) go out acc l, n < M := by
  induction l generalizing acc with
  | nil => rfl
  | cons a rest ih =>
    rw [sums, sums]
    split
    · rw [forall_mem_cons, forall_mem_cons]
      refine and_congr_right fun hlt => ?_
      rw [Nat.mod_eq_of_lt hlt]
      exact ih
    · rfl

theorem passes_iff (h : ∀ n ∈ sums (fun n => n) go out acc l, n < M) :
    Passes (· % M) go out acc l ↔ Passes (fun n => n) go out acc l := by
  induction l generalizing acc with
  | nil => rfl
  | cons a rest ih =>
    refine and_congr_right fun hgo => ?_
    rw [sums, if_pos hgo, forall_mem_cons] at h
    show Passes _ go out (out acc a % M) rest ↔ _
    rw [Nat.mod_eq_of_lt h.1]
    exact ih h.2

theorem final_eq (h : ∀ n ∈ sums (fun n => n) go out acc l, n < M)
    (hpass : Passes (fun n => n) go out acc l) :
    final (· % M) out acc l = final (fun n => n) out acc l := by
  induction l generalizing acc with
  | nil => rfl
  | cons a rest ih =>
    rw [sums, if_pos hpass.1, forall_mem_cons] at h
    rw [final, final, Nat.mod_eq_of_lt h.1]
    exact ih h.2 hpass.2

end Bounded

/-! ## Sums -/

/-- The partial sums of numbers are below `M` exactly if the sum is. -/
theorem partialSums_lt_iff {M acc : Nat} {l : List Nat} (hacc : acc < M) :
    (∀ n ∈ sums (fun n => n) (fun _ _ => True) (· + ·) acc l, n < M) ↔ acc + l.sum < M := by
  induction l generalizing acc with
  | nil => exact iff_of_true (by rintro n ⟨⟩) hacc
  | cons a rest ih =>
    rw [sums, if_pos trivial, forall_mem_cons, sum_cons, ← Nat.add_assoc]
    constructor
    · rintro ⟨hlt, hrest⟩
      exact (ih hlt).mp hrest
    · intro h
      have hlt : acc + a < M := by omega
      exact ⟨hlt, (ih hlt).mpr h⟩

/-! ## Places in a list -/

theorem forall_split_nil {R : List α → α → Prop} :
    ∀ before a after, [] = before ++ a :: after → R before a := by
  rintro (- | -) a after ⟨⟩

/-- The first place and those behind it. -/
theorem forall_split_cons_iff {R : List α → α → Prop} {x : α} {l : List α} :
    (∀ before a after, x :: l = before ++ a :: after → R before a) ↔
      R [] x ∧ ∀ before a after, l = before ++ a :: after → R (x :: before) a := by
  constructor
  · intro h
    refine ⟨h [] x l rfl, fun before a after hsplit => h (x :: before) a after ?_⟩
    rw [hsplit, cons_append]
  · rintro ⟨hfirst, hrest⟩ before a after hsplit
    cases before with
    | nil =>
      cases hsplit
      exact hfirst
    | cons y before =>
      obtain ⟨rfl, htail⟩ := cons.inj hsplit
      exact hrest before a after htail

/-- A loop without an end: every element is fine in the state it finds if and only if none is
bad, where a bad element is never fine, and the other ones are and keep the invariant. -/
theorem forall_split_foldl_iff {σ : Type*} {P : σ → Prop} {next : σ → α → σ}
    {fine : σ → α → Prop} {Bad : α → Prop} (hbad : ∀ s a, P s → Bad a → ¬ fine s a)
    (hgood : ∀ s a, P s → ¬ Bad a → fine s a ∧ P (next s a)) {s : σ} (hs : P s)
    (l : List α) :
    (∀ before a after, l = before ++ a :: after → fine (before.foldl next s) a) ↔
      ∀ a ∈ l, ¬ Bad a := by
  induction l generalizing s with
  | nil => exact iff_of_true forall_split_nil (by simp)
  | cons x rest ih =>
    rw [forall_split_cons_iff, forall_mem_cons]
    by_cases hx : Bad x
    · exact iff_of_false (fun h => hbad s x hs hx h.1) fun h => h.1 hx
    · obtain ⟨hfine, hnext⟩ := hgood s x hs hx
      exact and_congr (iff_of_true hfine hx) (ih hnext)

/-! ## Keys -/

/-- No key is one of the keys `seen`, and no key comes twice. -/
def Fresh {κ : Type*} (key : α → κ) (seen : List κ) (l : List α) : Prop :=
  (∀ a ∈ l, key a ∉ seen) ∧ (l.map key).Nodup

section Fresh

variable {κ : Type*} {key : α → κ} {seen : List κ} {a : α} {l : List α}

theorem fresh_nil : Fresh key seen [] := ⟨by rintro a ⟨⟩, nodup_nil⟩

theorem fresh_cons_iff :
    Fresh key seen (a :: l) ↔ key a ∉ seen ∧ Fresh key (key a :: seen) l := by
  have hsplit : (∀ b ∈ l, key b ∉ key a :: seen) ↔ key a ∉ l.map key ∧ ∀ b ∈ l, key b ∉ seen := by
    simp only [mem_cons, not_or, forall_and, mem_map, not_exists, not_and]
  rw [Fresh, Fresh, hsplit, forall_mem_cons, map_cons, nodup_cons]
  tauto

theorem fresh_empty_iff : Fresh key [] l ↔ (l.map key).Nodup :=
  and_iff_right fun _ _ => not_mem_nil

end Fresh

end Lib.Accumulate
