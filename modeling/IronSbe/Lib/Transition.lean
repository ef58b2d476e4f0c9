import Mathlib.Data.List.Infix
import Mathlib.Tactic.Common

/-!
# Step functions and their reachable states

A system is a step function: an action is possible in a state and leads to the
next one, or it is not possible.  `run` takes a list of actions, and `Reach` is
the set of states that are reached by steps that all meet a condition on the
action and the state before it.

* `Reach.invariant`: what holds at the start, and what every such step preserves,
  holds in every reachable state.
* `reach_of_run`: the steps of a run that is written down can be checked one by
  one, and it reaches its last state.
* `of_guard`: the condition of a step that was possible, and the next state.
* `always_iff`: what holds at all times of a run, as a condition on each of its steps.
-/

namespace Lib.Transition

open Option

variable {σ α : Type}

/-- The state after the actions, if each of them is possible in its turn. -/
def run (step : σ → α → Option σ) : σ → List α → Option σ
  | s, [] => some s
  | s, a :: as => (step s a).bind fun s' => run step s' as

/-- The actions, as far as they are possible, lead through a state with `P`. -/
def Passes (step : σ → α → Option σ) (P : σ → Prop) : σ → List α → Prop
  | s, [] => P s
  | s, a :: as => P s ∨ ∃ s', step s a = some s' ∧ Passes step P s' as

/-- Every step of the run has the property, which sees the states before and after it. -/
def Along (step : σ → α → Option σ) (P : σ → α → σ → Prop) : σ → List α → Prop
  | _, [] => True
  | s, a :: as => ∃ s', step s a = some s' ∧ P s a s' ∧ Along step P s' as

/-- No condition on the steps. -/
def Anything (_ : σ) (_ : α) : Prop := True

instance (s : σ) (a : α) : Decidable (Anything s a) := inferInstanceAs (Decidable True)

/-- The states reached from `start` by steps that meet `Allowed`. -/
inductive Reach (step : σ → α → Option σ) (Allowed : σ → α → Prop) (start : σ) : σ → Prop
  | start : Reach step Allowed start start
  | step {s s' : σ} {a : α} (h : Reach step Allowed start s) (ha : Allowed s a)
      (hstep : step s a = some s') : Reach step Allowed start s'

variable {step : σ → α → Option σ} {Allowed : σ → α → Prop} {start s : σ}

/-- A step that is possible under a condition. -/
theorem of_guard {c : Prop} [Decidable c] {s s' : σ} (h : (if c then some s else none) = some s') :
    c ∧ s = s' := by
  split_ifs at h with hc
  exact ⟨hc, some.inj h⟩

/-- An invariant of the allowed steps holds in every state they reach. -/
theorem Reach.invariant (P : σ → Prop) (hstart : P start)
    (hstep : ∀ s a s', P s → Allowed s a → step s a = some s' → P s')
    (h : Reach step Allowed start s) : P s := by
  induction h with
  | start => exact hstart
  | step _ ha hs ih => exact hstep _ _ _ ih ha hs

variable {P Q : σ → α → σ → Prop} {actions : List α} {last : σ}

/-- Steps with one property have another one, if they keep an invariant that it follows from. -/
theorem Along.imp (I : σ → Prop)
    (hI : ∀ s a s', I s → step s a = some s' → P s a s' → I s' ∧ Q s a s') (hs : I s)
    (h : Along step P s actions) : Along step Q s actions := by
  induction actions generalizing s with
  | nil => trivial
  | cons a as ih =>
    obtain ⟨mid, hmid, hP, hrest⟩ := h
    obtain ⟨hinv, hQ⟩ := hI s a mid hs hmid hP
    exact ⟨mid, hmid, hQ, ih hinv hrest⟩

theorem Along.and (hP : Along step P s actions) (hQ : Along step Q s actions) :
    Along step (fun s a s' => P s a s' ∧ Q s a s') s actions := by
  induction actions generalizing s with
  | nil => trivial
  | cons a as ih =>
    obtain ⟨mid, hmid, hPmid, hPrest⟩ := hP
    obtain ⟨mid', hmid', hQmid, hQrest⟩ := hQ
    cases hmid.symm.trans hmid'
    exact ⟨mid, hmid, ⟨hPmid, hQmid⟩, ih hPrest hQrest⟩

/-- What no step makes smaller is, along a run, at most what it is at the end. -/
theorem le_of_run {size : σ → Nat} (hsize : ∀ s a s', step s a = some s' → size s ≤ size s')
    (hrun : run step s actions = some last) :
    size s ≤ size last ∧ Along step (fun _ _ s' => size s' ≤ size last) s actions := by
  induction actions generalizing s with
  | nil =>
    cases hrun
    exact ⟨Nat.le_refl _, trivial⟩
  | cons a as ih =>
    obtain ⟨mid, hmid, hrest⟩ := bind_eq_some_iff.mp hrun
    obtain ⟨hle, halong⟩ := ih hrest
    exact ⟨Nat.le_trans (hsize s a mid hmid) hle, mid, hmid, hle, halong⟩

theorem Reach.trans {mid : σ} (h : Reach step Allowed start mid) (h' : Reach step Allowed mid s) :
    Reach step Allowed start s := by
  induction h' with
  | start => exact h
  | step _ ha hs ih => exact .step ih ha hs

/-- The step function, for the allowed steps only. -/
def guarded (step : σ → α → Option σ) (Allowed : σ → α → Prop)
    [∀ s a, Decidable (Allowed s a)] (s : σ) (a : α) : Option σ :=
  if Allowed s a then step s a else none

/-- A run of allowed steps reaches its last state. -/
theorem reach_of_run [∀ s a, Decidable (Allowed s a)] (actions : List α)
    (h : run (guarded step Allowed) start actions = some s) : Reach step Allowed start s := by
  have hgen : ∀ (actions : List α) (t : σ), Reach step Allowed start t →
      run (guarded step Allowed) t actions = some s → Reach step Allowed start s := by
    intro actions
    induction actions with
    | nil =>
      intro t ht hrun
      exact some.inj hrun ▸ ht
    | cons a as ih =>
      intro t ht hrun
      obtain ⟨mid, hmid, hrest⟩ := bind_eq_some_iff.mp hrun
      unfold guarded at hmid
      split_ifs at hmid with ha
      exact ih mid (.step ht ha hmid) hrest
  exact hgen actions start .start h

/-! ## What holds at all times of a run -/

/-- The action is taken in the run, and it is taken in this state. -/
def Taken (step : σ → α → Option σ) (start : σ) (actions : List α) (s : σ) (a : α) : Prop :=
  ∃ before after, actions = before ++ a :: after ∧ run step start before = some s

theorem run_append (as bs : List α) :
    run step s (as ++ bs) = (run step s as).bind fun s' => run step s' bs := by
  induction as generalizing s with
  | nil => rfl
  | cons a as ih =>
    rw [List.cons_append, run, run, bind_assoc]
    simp only [ih]

theorem run_concat (as : List α) (a : α) :
    run step s (as ++ [a]) = (run step s as).bind fun s' => step s' a := by
  rw [run_append]
  simp only [run, bind_fun_some]

/-- What holds at the start and is kept by every action of a run holds at its end. -/
theorem run_invariant (P : σ → Prop)
    (hstep : ∀ s a s', a ∈ actions → P s → step s a = some s' → P s') (hs : P s)
    (hrun : run step s actions = some last) : P last := by
  induction actions generalizing s with
  | nil => exact some.inj hrun ▸ hs
  | cons a as ih =>
    obtain ⟨mid, hmid, hrest⟩ := bind_eq_some_iff.mp hrun
    exact ih (fun s b s' hb => hstep s b s' (List.mem_cons_of_mem a hb))
      (hstep s a mid List.mem_cons_self hs hmid) hrest

section Always

variable {P I : List α → σ → Prop} {A C : σ → α → Prop} {actions : List α}

/-- A property of the state and its history, and an invariant that is kept as long as the
property holds. -/
theorem invariant_of_always (hI : I [] start)
    (hinv : ∀ before s a s', run step start before = some s → P before s → I before s →
      step s a = some s' → P (before ++ [a]) s' → I (before ++ [a]) s')
    (h : ∀ before after s, actions = before ++ after → run step start before = some s →
      P before s) :
    ∀ before after s, actions = before ++ after → run step start before = some s →
      I before s := by
  intro before
  induction before using List.reverseRecOn with
  | nil =>
    intro after s _ hrun
    cases hrun
    exact hI
  | append_singleton before a ih =>
    intro after s' hsplit hrun
    have hP := h _ after s' hsplit hrun
    rw [run_concat] at hrun
    obtain ⟨s, hbefore, hstep⟩ := bind_eq_some_iff.mp hrun
    have hsplit' : actions = before ++ a :: after := by rw [hsplit]; simp
    exact hinv before s a s' hbefore (h before _ s hsplit' hbefore)
      (ih (a :: after) s hsplit' hbefore) hstep hP

/-- A property of the state and its history holds at all times of a run if and only if every
step meets a condition `C`, where `C` is the condition for one step.  Of the steps `A` is known,
and `I` is an invariant of the steps that keep the property. -/
theorem always_iff (hstart : P [] start) (hI : I [] start)
    (hinv : ∀ before s a s', run step start before = some s → P before s → I before s →
      step s a = some s' → P (before ++ [a]) s' → I (before ++ [a]) s')
    (hcall : ∀ before s a, run step start before = some s → A s a → P before s → I before s →
      ((∀ s', step s a = some s' → P (before ++ [a]) s') ↔ C s a))
    (hknown : ∀ s a, Taken step start actions s a → A s a) :
    (∀ before after s, actions = before ++ after → run step start before = some s →
        P before s) ↔
      ∀ s a, Taken step start actions s a → C s a := by
  constructor
  · rintro hall s a ⟨before, after, rfl, hrun⟩
    have hbefore := hall before (a :: after) s rfl hrun
    have hIbefore := invariant_of_always hI hinv hall before (a :: after) s rfl hrun
    have hA := hknown s a ⟨before, after, rfl, hrun⟩
    refine (hcall before s a hrun hA hbefore hIbefore).mp fun s' hstep => ?_
    refine hall (before ++ [a]) after s' (by simp) ?_
    rw [run_concat, hrun, bind_some, hstep]
  · intro hall before after s hsplit hrun
    suffices h : P before s ∧ I before s from h.1
    induction before using List.reverseRecOn generalizing after s with
    | nil =>
      cases hrun
      exact ⟨hstart, hI⟩
    | append_singleton before a ih =>
      rw [run_concat] at hrun
      obtain ⟨mid, hbefore, hstep⟩ := bind_eq_some_iff.mp hrun
      have hsplit' : actions = before ++ a :: after := by rw [hsplit]; simp
      have htaken : Taken step start actions mid a := ⟨before, after, hsplit', hbefore⟩
      obtain ⟨hP, hIbefore⟩ := ih (a :: after) mid hsplit' hbefore
      have hP' := (hcall before mid a hbefore (hknown mid a htaken) hP hIbefore).mpr
        (hall mid a htaken) s hstep
      exact ⟨hP', hinv before mid a s hbefore hP hIbefore hstep hP'⟩

end Always

/-- A step function that is total. -/
theorem run_some (next : σ → α → σ) (s : σ) (actions : List α) :
    run (fun s a => some (next s a)) s actions = some (actions.foldl next s) := by
  induction actions generalizing s with
  | nil => rfl
  | cons a as ih => exact ih (next s a)

/-- The rule `always_iff` for a step function that is total, and a property of the state. -/
theorem always_foldl_iff {next : σ → α → σ} {P I : σ → Prop} {C : σ → α → Prop} (hstart : P start)
    (hI : I start) (hinv : ∀ s a, P s → I s → P (next s a) → I (next s a))
    (hcall : ∀ s a, P s → I s → (P (next s a) ↔ C s a)) :
    (∀ before after, actions = before ++ after → P (before.foldl next start)) ↔
      ∀ before a after, actions = before ++ a :: after → C (before.foldl next start) a := by
  have h : (∀ before after s, actions = before ++ after →
        run (fun s a => some (next s a)) start before = some s → P s) ↔
      ∀ s a, Taken (fun s a => some (next s a)) start actions s a → C s a := by
    refine always_iff (P := fun _ => P) (I := fun _ => I) (A := fun _ _ => True) hstart hI
      (fun _ s a s' _ hP hIs hs' => ?_) (fun _ s a _ _ hP hIs => ?_) (fun _ _ _ => trivial)
    · cases hs'
      exact hinv s a hP hIs
    · rw [← hcall s a hP hIs]
      exact ⟨fun h => h _ rfl, fun h s' hs' => some.inj hs' ▸ h⟩
  simp only [Taken, run_some, some.injEq] at h
  constructor
  · rintro hall before a after rfl
    exact h.mp (fun b c s hbc hs => hs ▸ hall b c hbc) _ a ⟨before, after, rfl, rfl⟩
  · rintro hall before after rfl
    refine h.mpr ?_ before after _ rfl rfl
    rintro s a ⟨b, c, hbc, rfl⟩
    exact hall b a c hbc

end Lib.Transition
