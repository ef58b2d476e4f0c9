import IronSbe.Client.Reconnect

/-!
# The delays between attempts

`ReconnectState` under any sequence of failures and successes.

* `onFailure_cases`: the three things that a failure can do.
* `countP_answers_le`: how many failures in a row are answered with a delay.
* `withinBounds_iff`: the first delay behind a success is `initial_delay` as it is configured, and
  only the later ones are cut at `max_delay`.
-/

namespace IronSbe.Client.ReconnectState

/-- The calls that `run` makes on its reconnect state. -/
inductive Call where
  | onFailure
  | onSuccess
  deriving DecidableEq, Repr

/-- The state after a call. -/
def after (s : ReconnectState) : Call → ReconnectState
  | .onFailure => s.onFailure.2
  | .onSuccess => s.onSuccess

/-- What the failures of a sequence of calls are answered with. -/
def answers : ReconnectState → List Call → List (Option Nat)
  | _, [] => []
  | s, .onFailure :: calls => s.onFailure.1 :: answers s.onFailure.2 calls
  | s, .onSuccess :: calls => answers s.onSuccess calls

/-- The bounds on the delays and the attempts, for one sequence of calls. -/
structure WithinBounds (config : ReconnectConfig) (calls : List Call) : Prop where
  delay_le : ∀ delay, some delay ∈ answers (new config) calls → delay ≤ config.maxDelay
  /-- Of failures in a row. -/
  attempts_le : 0 < config.maxAttempts → ∀ before n rest,
    calls = before ++ List.replicate n .onFailure ++ rest →
      (answers (before.foldl after (new config)) (List.replicate n .onFailure)).countP
        Option.isSome ≤ config.maxAttempts - 1
  fresh : ∀ before rest, calls = before ++ .onSuccess :: rest →
    answers ((before ++ [.onSuccess]).foldl after (new config)) rest = answers (new config) rest
  some_iff : config.enabled = true → ∀ before rest, calls = before ++ .onFailure :: rest →
    ((before.foldl after (new config)).onFailure.1.isSome = true ↔
      (before.foldl after (new config)).onFailure.2.canRetry = true)

variable {s : ReconnectState} {config : ReconnectConfig} {calls : List Call}

/-! ## One call -/

/-- The attempts are used up. -/
def Exhausted (s : ReconnectState) : Prop :=
  0 < s.config.maxAttempts ∧ s.config.maxAttempts ≤ s.attempts + 1

theorem onFailure_of_disabled (h : s.config.enabled = false) : s.onFailure = (none, s) := by
  rw [onFailure, if_pos (by rw [h]; rfl)]

theorem onFailure_of_exhausted (henabled : s.config.enabled = true) (h : s.Exhausted) :
    s.onFailure = (none, { s with attempts := s.attempts + 1 }) := by
  rw [onFailure, if_neg (by rw [henabled]; decide)]
  exact if_pos h

theorem onFailure_of_not_exhausted (henabled : s.config.enabled = true) (h : ¬ s.Exhausted) :
    s.onFailure = (some s.currentDelay,
      { s with
        attempts := s.attempts + 1
        currentDelay := min (s.config.backoff s.currentDelay) s.config.maxDelay }) := by
  rw [onFailure, if_neg (by rw [henabled]; decide)]
  exact if_neg h

/-- All that a failure can do. -/
theorem onFailure_cases (s : ReconnectState) :
    (s.config.enabled = false ∧ s.onFailure = (none, s)) ∨
    (s.config.enabled = true ∧ s.Exhausted ∧
      s.onFailure = (none, { s with attempts := s.attempts + 1 })) ∨
    (s.config.enabled = true ∧ ¬ s.Exhausted ∧
      s.onFailure = (some s.currentDelay,
        { s with
          attempts := s.attempts + 1
          currentDelay := min (s.config.backoff s.currentDelay) s.config.maxDelay })) := by
  cases henabled : s.config.enabled with
  | false => exact Or.inl ⟨rfl, onFailure_of_disabled henabled⟩
  | true =>
    by_cases h : s.Exhausted
    · exact Or.inr (Or.inl ⟨rfl, h, onFailure_of_exhausted henabled h⟩)
    · exact Or.inr (Or.inr ⟨rfl, h, onFailure_of_not_exhausted henabled h⟩)

theorem config_onFailure (s : ReconnectState) : s.onFailure.2.config = s.config := by
  obtain ⟨-, h⟩ | ⟨-, -, h⟩ | ⟨-, -, h⟩ := s.onFailure_cases <;> rw [h]

theorem config_after (s : ReconnectState) (call : Call) : (s.after call).config = s.config := by
  cases call with
  | onFailure => exact s.config_onFailure
  | onSuccess => rfl

theorem config_foldl (s : ReconnectState) (calls : List Call) :
    (calls.foldl after s).config = s.config := by
  induction calls generalizing s with
  | nil => rfl
  | cons call rest ih => exact (ih (s.after call)).trans (s.config_after call)

/-- A success leads back to the start. -/
theorem onSuccess_eq_new (s : ReconnectState) : s.onSuccess = new s.config := rfl

theorem isSome_onFailure_iff (henabled : s.config.enabled = true) :
    s.onFailure.1.isSome = true ↔ s.onFailure.2.canRetry = true := by
  obtain ⟨hdisabled, -⟩ | ⟨-, hlimit, h⟩ | ⟨-, hlimit, h⟩ := s.onFailure_cases
  · cases henabled.symm.trans hdisabled
  · obtain ⟨hpos, hle⟩ := hlimit
    rw [h]
    refine iff_of_false (by rintro ⟨⟩) ?_
    simp only [canRetry, henabled, Bool.true_and, Bool.or_eq_true, beq_iff_eq, decide_eq_true_eq]
    omega
  · rw [h]
    refine iff_of_true rfl ?_
    simp only [canRetry, henabled, Bool.true_and, Bool.or_eq_true, beq_iff_eq, decide_eq_true_eq]
    unfold Exhausted at hlimit
    omega

/-! ## Sequences of calls -/

/-- Of failures in a row, no more are answered with a delay than there are attempts left. -/
theorem countP_answers_le (hpos : 0 < s.config.maxAttempts) (n : Nat) :
    (answers s (List.replicate n .onFailure)).countP Option.isSome ≤
      s.config.maxAttempts - 1 - s.attempts := by
  induction n generalizing s with
  | zero => exact Nat.zero_le _
  | succ n ih =>
    have hrest := ih (s.config_onFailure ▸ hpos)
    rw [List.replicate_succ, answers, List.countP_cons]
    obtain ⟨-, h⟩ | ⟨-, -, h⟩ | ⟨-, hlimit, h⟩ := s.onFailure_cases
    · rw [h] at hrest ⊢
      exact hrest
    · rw [h] at hrest ⊢
      simp only [Option.isSome_none, Bool.false_eq_true, if_false] at hrest ⊢
      omega
    · rw [h] at hrest ⊢
      simp only [Option.isSome_some, if_true] at hrest ⊢
      unfold Exhausted at hlimit
      omega

/-- A failure is answered with the current delay. -/
theorem eq_currentDelay {delay : Nat} (h : s.onFailure.1 = some delay) :
    delay = s.currentDelay := by
  obtain ⟨-, hcall⟩ | ⟨-, -, hcall⟩ | ⟨-, -, hcall⟩ := s.onFailure_cases
  · cases (congrArg Prod.fst hcall).symm.trans h
  · cases (congrArg Prod.fst hcall).symm.trans h
  · exact (Option.some.inj ((congrArg Prod.fst hcall).symm.trans h)).symm

theorem currentDelay_onFailure_le (hs : s.currentDelay ≤ s.config.maxDelay) :
    s.onFailure.2.currentDelay ≤ s.config.maxDelay := by
  obtain ⟨-, hcall⟩ | ⟨-, -, hcall⟩ | ⟨-, -, hcall⟩ := s.onFailure_cases
  · rw [hcall]
    exact hs
  · rw [hcall]
    exact hs
  · rw [hcall]
    exact Nat.min_le_right _ _

/-- As long as the delay that comes next is not too long, none is. -/
theorem delay_le_of_mem (hinitial : config.initialDelay ≤ config.maxDelay)
    (hconfig : s.config = config) (hs : s.currentDelay ≤ config.maxDelay) {delay : Nat}
    (h : some delay ∈ answers s calls) : delay ≤ config.maxDelay := by
  induction calls generalizing s with
  | nil => cases h
  | cons call rest ih =>
    cases call with
    | onSuccess =>
      have hs' : s.onSuccess.currentDelay ≤ config.maxDelay := by
        show s.config.initialDelay ≤ _
        rw [hconfig]
        exact hinitial
      have hconfig' : s.onSuccess.config = config := hconfig
      exact ih hconfig' hs' h
    | onFailure =>
      obtain hfirst | hmem := List.mem_cons.mp h
      · rw [eq_currentDelay hfirst.symm]
        exact hs
      · refine ih (s.config_onFailure.trans hconfig) ?_ hmem
        rw [← hconfig]
        exact currentDelay_onFailure_le (by rw [hconfig]; exact hs)

/-- Failures that are never answered with a delay: nothing is to be retried, or the first attempt
is the last one. -/
theorem not_mem_answers (hnone : s.config.enabled = false ∨ s.config.maxAttempts = 1)
    (delay : Nat) : some delay ∉ answers s calls := by
  induction calls generalizing s with
  | nil => exact List.not_mem_nil
  | cons call rest ih =>
    cases call with
    | onSuccess => exact ih (s.onSuccess_eq_new ▸ hnone)
    | onFailure =>
      have hfirst : s.onFailure.1 = none := by
        obtain ⟨-, h⟩ | ⟨-, -, h⟩ | ⟨henabled, hlimit, h⟩ := s.onFailure_cases
        · rw [h]
        · rw [h]
        · unfold Exhausted at hlimit
          obtain hdisabled | hone := hnone
          · cases henabled.symm.trans hdisabled
          · omega
      intro hmem
      rw [answers, hfirst, List.mem_cons] at hmem
      refine ih ?_ (hmem.resolve_left (by rintro ⟨⟩))
      rw [s.config_onFailure]
      exact hnone

/-- The first failure is answered with the initial delay. -/
theorem initialDelay_mem_answers (henabled : config.enabled = true) (hone : config.maxAttempts ≠ 1)
    (hcall : .onFailure ∈ calls) : some config.initialDelay ∈ answers (new config) calls := by
  induction calls with
  | nil => cases hcall
  | cons call rest ih =>
    cases call with
    | onSuccess => exact ih ((List.mem_cons.mp hcall).resolve_left (by rintro ⟨⟩))
    | onFailure =>
      have hlimit : ¬ (new config).Exhausted := by
        show ¬ (0 < config.maxAttempts ∧ config.maxAttempts ≤ 0 + 1)
        omega
      rw [answers, onFailure_of_not_exhausted henabled hlimit]
      exact List.mem_cons_self

theorem not_mem_answers_of_not_mem (hcall : .onFailure ∉ calls) (delay : Nat) :
    some delay ∉ answers s calls := by
  induction calls generalizing s with
  | nil => exact List.not_mem_nil
  | cons call rest ih =>
    rw [List.mem_cons, not_or] at hcall
    cases call with
    | onSuccess => exact ih hcall.2
    | onFailure => exact absurd rfl hcall.1

/-- The bounds hold exactly if no delay is ever returned, or the initial delay is not longer than
the longest one. -/
theorem withinBounds_iff (config : ReconnectConfig) (calls : List Call) :
    WithinBounds config calls ↔
      config.enabled = false ∨ config.maxAttempts = 1 ∨ .onFailure ∉ calls ∨
        config.initialDelay ≤ config.maxDelay := by
  constructor
  · intro h
    by_contra hnot
    simp only [not_or, Bool.not_eq_false, not_not, Nat.not_le] at hnot
    obtain ⟨henabled, hone, hcall, hlong⟩ := hnot
    have hle := h.delay_le _ (initialDelay_mem_answers henabled hone hcall)
    omega
  · intro h
    refine ⟨fun delay hmem => ?_, fun hpos before n rest _ => ?_, fun before rest _ => ?_,
      fun henabled before rest _ => ?_⟩
    · obtain hdisabled | hone | hcall | hinitial := h
      · exact absurd hmem (not_mem_answers (Or.inl hdisabled) delay)
      · exact absurd hmem (not_mem_answers (Or.inr hone) delay)
      · exact absurd hmem (not_mem_answers_of_not_mem hcall delay)
      · exact delay_le_of_mem hinitial rfl hinitial hmem
    · have hconfig : (before.foldl after (new config)).config = config := config_foldl _ _
      have hle := countP_answers_le (s := before.foldl after (new config))
        (by rw [hconfig]; exact hpos) n
      rw [hconfig] at hle
      omega
    · rw [List.foldl_append]
      show answers (before.foldl after (new config)).onSuccess rest = _
      rw [onSuccess_eq_new, config_foldl]
      rfl
    · refine isSome_onFailure_iff ?_
      rw [config_foldl]
      exact henabled

/-- The first delay is a minute, where half a minute is the longest. -/
theorem not_withinBounds :
    ¬ WithinBounds { initialDelay := 60000000000 } [.onFailure] := by
  intro h
  have hle := h.delay_le 60000000000 (by decide)
  exact absurd hle (by decide)

end IronSbe.Client.ReconnectState
