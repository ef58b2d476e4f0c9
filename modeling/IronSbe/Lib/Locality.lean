import IronSbe.Lib.Transition

/-!
# Steps that touch one key

The state of a system is seen as a value under each key, and every action has a key.  A
system is `Local` if a step reads and writes only the value under the key of its action.

* `Local.run_filter`: what a run leaves under a key is what the actions with that key
  leave there.
* `Local.map_view_run_swap`: two neighbouring actions with different keys may change places.

An invariant of the states may be needed to see that a step is local, and it is a part of
the definition.
-/

namespace Lib.Transition

open Option

variable {σ α κ ν : Type}

/-- In the states with `Inv`, a step reads and writes the value under one key only. -/
structure Local (Inv : σ → Prop) (step : σ → α → Option σ) (key : α → κ) (view : σ → κ → ν) :
    Prop where
  inv : ∀ {s s' : σ} {a : α}, Inv s → step s a = some s' → Inv s'
  frame : ∀ {s s' : σ} {a : α}, Inv s → step s a = some s' → ∀ k, k ≠ key a → view s' k = view s k
  congr : ∀ {s t : σ} {a : α}, Inv s → Inv t → view s (key a) = view t (key a) →
    (step s a).map (view · (key a)) = (step t a).map (view · (key a))

namespace Local

variable {Inv : σ → Prop} {step : σ → α → Option σ} {key : α → κ} {view : σ → κ → ν}

variable {s t s' : σ} {a b : α} {after before actions : List α}

/-- The same step from another state with the same value under the key. -/
theorem step_of_view_eq (h : Local Inv step key view) (hs : Inv s) (ht : Inv t)
    (hview : view s (key a) = view t (key a)) (hstep : step s a = some s') :
    ∃ t', step t a = some t' ∧ view t' (key a) = view s' (key a) := by
  have hcongr := h.congr hs ht hview
  rw [hstep, map_some] at hcongr
  obtain ⟨t', ht', hview'⟩ := map_eq_some_iff.mp hcongr.symm
  exact ⟨t', ht', hview'⟩

/-- The actions with another key can be left out. -/
theorem run_filter [DecidableEq κ] (h : Local Inv step key view) {k : κ} (hs : Inv s) (ht : Inv t)
    (hview : view s k = view t k) (hrun : run step s actions = some s') :
    ∃ t', run step t (actions.filter fun a => key a = k) = some t' ∧ view t' k = view s' k := by
  induction actions generalizing s t with
  | nil =>
    cases hrun
    exact ⟨t, rfl, hview.symm⟩
  | cons a as ih =>
    obtain ⟨mid, hmid, hrest⟩ := bind_eq_some_iff.mp hrun
    by_cases hkey : key a = k
    · subst hkey
      obtain ⟨t₁, ht₁, hview₁⟩ := h.step_of_view_eq hs ht hview hmid
      obtain ⟨t', hrun', hview'⟩ := ih (h.inv hs hmid) (h.inv ht ht₁) hview₁.symm hrest
      rw [List.filter_cons_of_pos (by simp)]
      exact ⟨t', by rw [run, ht₁, bind_some, hrun'], hview'⟩
    · rw [List.filter_cons_of_neg (by simpa using hkey)]
      apply ih (h.inv hs hmid) ht _ hrest
      rw [h.frame hs hmid k (Ne.symm hkey), hview]

/-- Two steps with different keys can be taken in the other order. -/
theorem step_swap (h : Local Inv step key view) {s₁ s₁₂ : σ} (hs : Inv s) (hab : key a ≠ key b)
    (ha : step s a = some s₁) (hb : step s₁ b = some s₁₂) :
    ∃ s₂ s₂₁, step s b = some s₂ ∧ step s₂ a = some s₂₁ ∧ view s₂₁ = view s₁₂ := by
  have hs₁ := h.inv hs ha
  obtain ⟨s₂, hb', hview₂⟩ := h.step_of_view_eq hs₁ hs (h.frame hs ha _ hab.symm) hb
  have hs₂ := h.inv hs hb'
  obtain ⟨s₂₁, ha', hview₂₁⟩ := h.step_of_view_eq hs hs₂ (h.frame hs hb' _ hab).symm ha
  refine ⟨s₂, s₂₁, hb', ha', funext fun k => ?_⟩
  by_cases hka : k = key a
  · subst hka
    rw [hview₂₁, h.frame hs₁ hb _ hab]
  by_cases hkb : k = key b
  · subst hkb
    rw [h.frame hs₂ ha' _ hka, hview₂]
  · rw [h.frame hs₂ ha' _ hka, h.frame hs hb' _ hkb, h.frame hs₁ hb _ hkb, h.frame hs ha _ hka]

/-- A run from another state with the same values under all keys. -/
theorem run_of_view_eq (h : Local Inv step key view) (hs : Inv s) (ht : Inv t)
    (hview : view s = view t) (hrun : run step s actions = some s') :
    ∃ t', run step t actions = some t' ∧ view t' = view s' := by
  induction actions generalizing s t with
  | nil =>
    cases hrun
    exact ⟨t, rfl, hview.symm⟩
  | cons a as ih =>
    obtain ⟨mid, hmid, hrest⟩ := bind_eq_some_iff.mp hrun
    obtain ⟨t₁, ht₁, hview₁⟩ := h.step_of_view_eq hs ht (congrFun hview _) hmid
    have hmids : view mid = view t₁ := by
      funext k
      by_cases hk : k = key a
      · rw [hk, hview₁]
      · rw [h.frame hs hmid k hk, h.frame ht ht₁ k hk, hview]
    obtain ⟨t', hrun', hview'⟩ := ih (h.inv hs hmid) (h.inv ht ht₁) hmids hrest
    exact ⟨t', by rw [run, ht₁, bind_some, hrun'], hview'⟩

/-- Two neighbouring actions with different keys change places in a run. -/
theorem run_swap (h : Local Inv step key view) (hs : Inv s) (hab : key a ≠ key b)
    (hrun : run step s (before ++ a :: b :: after) = some s') :
    ∃ t', run step s (before ++ b :: a :: after) = some t' ∧ view t' = view s' := by
  induction before generalizing s with
  | nil =>
    obtain ⟨s₁, ha, hrest⟩ := bind_eq_some_iff.mp hrun
    obtain ⟨s₁₂, hb, hafter⟩ := bind_eq_some_iff.mp hrest
    obtain ⟨s₂, s₂₁, hb', ha', hview⟩ := h.step_swap hs hab ha hb
    obtain ⟨t', hrun', hview'⟩ := h.run_of_view_eq (h.inv (h.inv hs ha) hb)
      (h.inv (h.inv hs hb') ha') hview.symm hafter
    exact ⟨t', by rw [List.nil_append, run, hb', bind_some, run, ha', bind_some,
      hrun'], hview'⟩
  | cons c before ih =>
    obtain ⟨mid, hmid, hrest⟩ := bind_eq_some_iff.mp hrun
    obtain ⟨t', hrun', hview'⟩ := ih (h.inv hs hmid) hrest
    exact ⟨t', by rw [List.cons_append, run, hmid, bind_some, hrun'], hview'⟩

theorem map_view_run_swap (h : Local Inv step key view) (hs : Inv s) (hab : key a ≠ key b) :
    (run step s (before ++ a :: b :: after)).map view =
      (run step s (before ++ b :: a :: after)).map view := by
  cases hrun : run step s (before ++ a :: b :: after) with
  | some s' =>
    obtain ⟨t', ht', hview⟩ := h.run_swap hs hab hrun
    rw [ht', map_some, map_some, hview]
  | none =>
    -- if the swapped actions ran, so would these
    cases hswap : run step s (before ++ b :: a :: after) with
    | none => rfl
    | some t' =>
      obtain ⟨s', hs', -⟩ := h.run_swap hs hab.symm hswap
      rw [hrun] at hs'
      cases hs'

end Local

end Lib.Transition
