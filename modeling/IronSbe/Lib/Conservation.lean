import Mathlib.Data.List.Count
import Mathlib.Data.List.Nodup

/-!
# Conservation of resources

A system that moves resources between places.  A `Ledger` counts, for each resource, the
places that hold it, and says which resources a step loses.  Nothing brings a lost
resource back, so the resources are all there, each in one place, exactly as long as no
step loses any (`Ledger.conserved_iff`).
-/

namespace Lib

/-- A step function with the places of the resources and what each step loses. -/
structure Ledger (σ α ι : Type) [DecidableEq ι] where
  step : σ → α → σ
  /-- The number of places that hold the resource. -/
  located : σ → ι → Nat
  lost : σ → α → List ι
  balance : ∀ s a x, located (step s a) x + (lost s a).count x = located s x

namespace Ledger

variable {σ α ι : Type} [DecidableEq ι] (L : Ledger σ α ι)

/-- The state after the actions. -/
def run (s : σ) (actions : List α) : σ := actions.foldl L.step s

/-- What the actions lose, in their order. -/
def lostAlong : σ → List α → List ι
  | _, [] => []
  | s, a :: as => L.lost s a ++ lostAlong (L.step s a) as

/-- Every action of the run meets the condition in the state that it is taken in. -/
def Along (P : σ → α → Prop) : σ → List α → Prop
  | _, [] => True
  | s, a :: as => P s a ∧ Along P (L.step s a) as

variable {P : σ → α → Prop} {s : σ} {gone items : List ι}

theorem lostAlong_eq_nil_iff (hP : ∀ s a, L.lost s a = [] ↔ P s a) (s : σ) (actions : List α) :
    L.lostAlong s actions = [] ↔ L.Along P s actions := by
  induction actions generalizing s with
  | nil => simp [lostAlong, Along]
  | cons a as ih => rw [lostAlong, Along, List.append_eq_nil_iff, ih, hP]

/-- What is in its places and what has been lost on the way is what there was. -/
theorem located_run (s : σ) (actions : List α) (x : ι) :
    L.located (L.run s actions) x + (L.lostAlong s actions).count x = L.located s x := by
  induction actions generalizing s with
  | nil => simp [run, lostAlong]
  | cons a as ih =>
    have hrest := ih (L.step s a)
    have hstep := L.balance s a x
    rw [run, List.foldl_cons, lostAlong, List.count_append]
    unfold run at hrest
    omega

theorem Along.of_isPrefix {taken actions : List α} (h : L.Along P s actions)
    (htaken : taken <+: actions) : L.Along P s taken := by
  induction taken generalizing s actions with
  | nil => trivial
  | cons a taken ih =>
    obtain ⟨rest, rfl⟩ := htaken
    exact ⟨h.1, ih h.2 (List.prefix_append taken rest)⟩

/-- Distinct resources are each in exactly one place if and only if none is lost. -/
theorem eq_one_iff_of_balance {located : ι → Nat} (hnodup : items.Nodup)
    (h : ∀ x, located x + gone.count x = items.count x) :
    (∀ x ∈ items, located x = 1) ↔ gone = [] := by
  constructor
  · intro hone
    refine List.eq_nil_iff_forall_not_mem.mpr fun x hx => ?_
    have hcount : 0 < gone.count x := List.count_pos_iff.mpr hx
    have hmem : x ∈ items := List.count_pos_iff.mp (by have := h x; omega)
    have hunique := List.count_eq_one_of_mem hnodup hmem
    have hlocated := hone x hmem
    have := h x
    omega
  · rintro rfl x hx
    rw [← List.count_eq_one_of_mem hnodup hx, ← h x, List.count_nil, Nat.add_zero]

/-- The resources are conserved along a run, each of them in one place between any two
steps, if and only if none was gone at the start and no step loses any.  `P` is the
condition under which a step loses nothing. -/
theorem conserved_iff (hP : ∀ s a, L.lost s a = [] ↔ P s a) (hnodup : items.Nodup)
    (hstart : ∀ x, L.located s x + gone.count x = items.count x) (actions : List α) :
    (∀ taken, taken <+: actions → ∀ x ∈ items, L.located (L.run s taken) x = 1) ↔
      gone = [] ∧ L.Along P s actions := by
  have hbalance : ∀ taken x,
      L.located (L.run s taken) x + (gone ++ L.lostAlong s taken).count x = items.count x := by
    intro taken x
    have hrun := L.located_run s taken x
    have hx := hstart x
    rw [List.count_append]
    omega
  constructor
  · intro h
    have hall := (eq_one_iff_of_balance hnodup (hbalance actions)).mp (h actions List.prefix_rfl)
    obtain ⟨hgone, hlost⟩ := List.append_eq_nil_iff.mp hall
    exact ⟨hgone, (L.lostAlong_eq_nil_iff hP s actions).mp hlost⟩
  · rintro ⟨rfl, halong⟩ taken htaken
    refine (eq_one_iff_of_balance hnodup (hbalance taken)).mpr ?_
    rw [List.nil_append]
    exact (L.lostAlong_eq_nil_iff hP s taken).mpr (halong.of_isPrefix L htaken)

end Ledger

end Lib
