import Mathlib.Tactic.Common

/-!
# Computations that may fail

Inversion and invariants for `Except`.

* `bind_eq_ok`, `map_eq_ok`: a computation that succeeds went through its first step.
* `invariant_of_foldlM`, `invariant_of_foldlM_split`: what every step of a fold preserves
  holds at its end.
* `simulate_of_foldlM`: a fold that never fails, next to one that may.
* `project_of_foldlM`: what every step computes from a part of the state.
* `foldlM_flatMap`: a fold over elements, from what it does with the items of each.
* `mem_trace_iff`: what the steps of a fold put out on the way, up to the first that fails.
-/

namespace Lib.Fallible

variable {α β ε σ : Type}

variable {x : Except ε α} {b : β} {f : σ → α → Except ε σ} {as : List α} {s s' : σ} {τ : Type}

theorem bind_eq_ok {f : α → Except ε β} (h : (x >>= f) = .ok b) :
    ∃ a, x = .ok a ∧ f a = .ok b := by
  cases x with
  | error e => cases h
  | ok a => exact ⟨a, rfl, h⟩

theorem map_eq_ok {f : α → β} (h : x.map f = .ok b) :
    ∃ a, x = .ok a ∧ f a = b := by
  cases x with
  | error e => cases h
  | ok a => exact ⟨a, rfl, Except.ok.inj h⟩

/-- What each step preserves holds at the end of a fold.  Of a step it is known which elements
the fold has read and which element it reads. -/
theorem invariant_of_foldlM_split (P : σ → Prop) {s₀ : σ}
    (hstep : ∀ before a after s s', as = before ++ a :: after → before.foldlM f s₀ = .ok s →
      P s → f s a = .ok s' → P s') (hs : P s₀) (h : as.foldlM f s₀ = .ok s') : P s' := by
  induction as generalizing s₀ with
  | nil =>
    cases h
    exact hs
  | cons a as ih =>
    rw [List.foldlM_cons] at h
    obtain ⟨mid, hmid, hrest⟩ := bind_eq_ok h
    have hP : P mid := hstep [] a as s₀ mid rfl rfl hs hmid
    refine ih (fun before a' after s s' hsplit hbefore => ?_) hP hrest
    refine hstep (a :: before) a' after s s' (by rw [hsplit, List.cons_append]) ?_
    rw [List.foldlM_cons, hmid]
    exact hbefore

/-- What every step preserves holds at the end of a fold. -/
theorem invariant_of_foldlM (P : σ → Prop) (hstep : ∀ s a s', P s → f s a = .ok s' → P s')
    (hs : P s) (h : as.foldlM f s = .ok s') : P s' :=
  invariant_of_foldlM_split P (fun _ a _ s s' _ _ => hstep s a s') hs h

/-- A fold that never fails and keeps up with every step. -/
theorem simulate_of_foldlM {g : τ → α → τ} (R : σ → τ → Prop)
    (hstep : ∀ s a s' t, R s t → f s a = .ok s' → R s' (g t a)) {t : τ} (hs : R s t)
    (h : as.foldlM f s = .ok s') : R s' (as.foldl g t) := by
  induction as generalizing s t with
  | nil =>
    cases h
    exact hs
  | cons a as ih =>
    rw [List.foldlM_cons] at h
    obtain ⟨mid, hmid, hrest⟩ := bind_eq_ok h
    exact ih (hstep s a mid t hs hmid) hrest

/-- A part of the state that every step computes from that part alone. -/
theorem project_of_foldlM {g : τ → α → τ} (part : σ → τ)
    (hstep : ∀ s a s', f s a = .ok s' → part s' = g (part s) a) (h : as.foldlM f s = .ok s') :
    part s' = as.foldl g (part s) := by
  refine simulate_of_foldlM (fun s t => part s = t) (fun s a s' t ht hs => ?_) rfl h
  rw [hstep s a s' hs, ht]

/-- What the steps of a fold put out, with `last` for the end. -/
def trace {β : Type} (f : σ → α → Except ε σ) (out : σ → α → List β) (last : σ → List β) :
    σ → List α → List β
  | s, [] => last s
  | s, a :: as =>
    out s a ++ match f s a with
      | .ok s' => trace f out last s' as
      | .error _ => []

theorem mem_trace_iff {β : Type} {out : σ → α → List β} {last : σ → List β} {b : β} :
    b ∈ trace f out last s as ↔
      (∃ before a after s', as = before ++ a :: after ∧ before.foldlM f s = .ok s' ∧
        b ∈ out s' a) ∨
      ∃ s', as.foldlM f s = .ok s' ∧ b ∈ last s' := by
  induction as generalizing s with
  | nil =>
    constructor
    · intro h
      exact .inr ⟨s, rfl, h⟩
    · rintro (⟨before, a, after, s', hsplit, -⟩ | ⟨s', hs', h⟩)
      · cases before <;> cases hsplit
      · cases hs'
        exact h
  | cons a as ih =>
    rw [trace, List.mem_append]
    constructor
    · rintro (h | h)
      · exact .inl ⟨[], a, as, s, rfl, rfl, h⟩
      · cases hstep : f s a with
        | error e =>
          rw [hstep] at h
          cases h
        | ok mid =>
          rw [hstep] at h
          rcases ih.mp h with ⟨before, a', after, s', rfl, hbefore, hout⟩ | ⟨s', hs', hlast⟩
          · refine .inl ⟨a :: before, a', after, s', rfl, ?_, hout⟩
            rw [List.foldlM_cons, hstep]
            exact hbefore
          · refine .inr ⟨s', ?_, hlast⟩
            rw [List.foldlM_cons, hstep]
            exact hs'
    · rintro (⟨before, a', after, s', hsplit, hbefore, hout⟩ | ⟨s', hs', hlast⟩)
      · cases before with
        | nil =>
          cases hsplit
          cases hbefore
          exact .inl hout
        | cons a'' before =>
          obtain ⟨rfl, hrest⟩ := List.cons.inj hsplit
          rw [List.foldlM_cons] at hbefore
          obtain ⟨mid, hmid, hbefore⟩ := bind_eq_ok hbefore
          rw [hmid]
          exact .inr (ih.mpr (.inl ⟨before, a', after, s', hrest, hbefore, hout⟩))
      · rw [List.foldlM_cons] at hs'
        obtain ⟨mid, hmid, hrest⟩ := bind_eq_ok hs'
        rw [hmid]
        exact .inr (ih.mpr (.inr ⟨s', hrest, hlast⟩))

/-- Elements that are gone through one after the other, in a state that is made from `t`. -/
theorem foldlM_flatMap {ι : Type} {next : τ → σ} {g : τ → ι → Except ε τ} {items : ι → List α}
    {es : List ι} (h : ∀ e ∈ es, ∀ t, (items e).foldlM f (next t) = (g t e).map next) (t : τ) :
    (es.flatMap items).foldlM f (next t) = (es.foldlM g t).map next := by
  induction es generalizing t with
  | nil => rfl
  | cons e es ih =>
    rw [List.forall_mem_cons] at h
    rw [List.flatMap_cons, List.foldlM_append, h.1 t, List.foldlM_cons]
    cases g t e with
    | error err => rfl
    | ok t' => exact ih h.2 t'

end Lib.Fallible
