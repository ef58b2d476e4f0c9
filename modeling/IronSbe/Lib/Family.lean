import IronSbe.Lib.Locality

/-!
# Systems that are a family of machines

The state of a system has a part for each key, and a log.  An action has a key, and what it
does to the part under this key, and what it adds to the log, is what a small machine does
that knows of nothing else.  The other parts stay as they are.

* `Family.step_eq_some`: a step of the system is a step of one machine.
* `Family.step_isSome`: both are possible at the same time.
* `Family.toLocal`: a step reads and writes one part only.
* `Family.invariant`: what every machine keeps holds of all parts after every run.
* `Family.map_run`: a run with one key is a run of one machine.
-/

namespace Lib.Transition

open Option

variable {σ α κ ν ε : Type}

/-- In the states with `Inv`, the system is a family of copies of `part`. -/
structure Family (Inv : σ → Prop) (step : σ → α → Option σ) (key : α → κ) (view : σ → κ → ν)
    (log : σ → List ε) (part : ν → α → Option (ν × List ε)) : Prop where
  inv : ∀ {s s' : σ} {a : α}, Inv s → step s a = some s' → Inv s'
  frame : ∀ {s s' : σ} {a : α}, Inv s → step s a = some s' → ∀ k, k ≠ key a → view s' k = view s k
  refine : ∀ {s : σ} {a : α}, Inv s →
    (step s a).map (fun s' => (view s' (key a), log s')) =
      (part (view s (key a)) a).map fun r => (r.1, log s ++ r.2)

namespace Family

variable {Inv : σ → Prop} {step : σ → α → Option σ} {key : α → κ} {view : σ → κ → ν}
  {log : σ → List ε} {part : ν → α → Option (ν × List ε)} {s s' : σ} {a : α}

theorem step_eq_some (h : Family Inv step key view log part) (hs : Inv s)
    (hstep : step s a = some s') :
    ∃ events, part (view s (key a)) a = some (view s' (key a), events) ∧
      log s' = log s ++ events := by
  have hrefine := h.refine (a := a) hs
  rw [hstep, map_some] at hrefine
  obtain ⟨⟨v, events⟩, hpart, heq⟩ := map_eq_some_iff.mp hrefine.symm
  obtain ⟨rfl, hlog⟩ := Prod.mk.inj heq
  exact ⟨events, hpart, hlog.symm⟩

theorem step_isSome (h : Family Inv step key view log part) (hs : Inv s) :
    (step s a).isSome = (part (view s (key a)) a).isSome := by
  have hrefine := congrArg isSome (h.refine (a := a) hs)
  rwa [isSome_map, isSome_map] at hrefine

/-- A machine knows of its own part only. -/
theorem toLocal (h : Family Inv step key view log part) : Local Inv step key view where
  inv := h.inv
  frame := h.frame
  congr {s t a} hs ht hview := by
    have hpart : ∀ s, Inv s →
        (step s a).map (view · (key a)) = (part (view s (key a)) a).map Prod.fst := by
      intro s hs
      have hfst := congrArg (Option.map Prod.fst) (h.refine (a := a) hs)
      rwa [map_map, map_map] at hfst
    rw [hpart s hs, hpart t ht, hview]

/-- A property of the parts that every step of a machine keeps. -/
theorem invariant [DecidableEq κ] (h : Family Inv step key view log part) (P : κ → ν → Prop)
    (Allowed : α → Prop)
    (hpart : ∀ a v v' events, P (key a) v → Allowed a → part v a = some (v', events) →
      P (key a) v')
    {actions : List α} (hallowed : ∀ a ∈ actions, Allowed a) (hs : Inv s)
    (hstart : ∀ k, P k (view s k)) (hrun : run step s actions = some s') :
    Inv s' ∧ ∀ k, P k (view s' k) := by
  induction actions generalizing s with
  | nil =>
    cases hrun
    exact ⟨hs, hstart⟩
  | cons a as ih =>
    obtain ⟨ha, has⟩ := List.forall_mem_cons.mp hallowed
    obtain ⟨mid, hmid, hrest⟩ := bind_eq_some_iff.mp hrun
    refine ih has (h.inv hs hmid) (fun k => ?_) hrest
    by_cases hk : k = key a
    · obtain ⟨events, hstep, -⟩ := h.step_eq_some hs hmid
      rw [hk]
      exact hpart a _ _ events (hstart _) ha hstep
    · rw [h.frame hs hmid k hk]
      exact hstart k

end Family

/-- The actions one after the other, with all that they add to the log. -/
def runLog (part : ν → α → Option (ν × List ε)) : ν → List α → Option (ν × List ε)
  | v, [] => some (v, [])
  | v, a :: as => (part v a).bind fun r => (runLog part r.1 as).map fun r' => (r'.1, r.2 ++ r'.2)

theorem runLog_cons {part : ν → α → Option (ν × List ε)} {v v' : ν} {a : α} {events : List ε}
    (hpart : part v a = some (v', events)) (as : List α) :
    runLog part v (a :: as) = (runLog part v' as).map fun r => (r.1, events ++ r.2) := by
  rw [runLog, hpart, bind_some]

theorem Family.map_run {Inv : σ → Prop} {step : σ → α → Option σ} {key : α → κ} {view : σ → κ → ν}
    {log : σ → List ε} {part : ν → α → Option (ν × List ε)}
    (h : Family Inv step key view log part) {s : σ} (hs : Inv s) {k : κ} {actions : List α}
    (hkey : ∀ a ∈ actions, key a = k) :
    (run step s actions).map (fun s' => (view s' k, log s')) =
      (runLog part (view s k) actions).map fun r => (r.1, log s ++ r.2) := by
  induction actions generalizing s with
  | nil => simp only [run, runLog, map_some, List.append_nil]
  | cons a as ih =>
    obtain ⟨rfl, has⟩ := List.forall_mem_cons.mp hkey
    cases hstep : step s a with
    | none =>
      have hnone : part (view s (key a)) a = none := by
        rw [← not_isSome_iff_eq_none, ← h.step_isSome hs, hstep]
        rintro ⟨⟩
      rw [run, hstep, runLog, hnone]
      rfl
    | some mid =>
      obtain ⟨events, hpart, hlog⟩ := h.step_eq_some hs hstep
      rw [run, hstep, bind_some, ih (h.inv hs hstep) has, runLog_cons hpart,
        map_map, hlog]
      congr 1
      funext r
      simp only [Function.comp_apply, List.append_assoc]

end Lib.Transition
