import IronSbe.Lib.EventLoop

/-!
# Loops as a machine

A nest of loops that share one reader, against a machine that is handed the
items one at a time and can be stopped after any of them.  A state of the machine
says in which loop the program is and what the loops around it hold.

`Enacts M n x m next` says that on at most `n` items the machine in state `m`
does what `x` does and what comes after it, where `next` is the state after `x`.
`Handles` is the same for a machine that has an item in front of it first.

* `enacts_loop`: a loop, from its single rounds.
* `run_eq_of_loop`: the outermost loop, which ends with the items.
* `handles_bind`, `Handles.map`, `Enacts.map`: the ways in which a loop body
  calls other functions.
-/

namespace Lib.Incremental

open Lib.EventLoop

variable {α β γ δ ε σ μ : Type}

/-- A machine that is handed items.  `finish` is its answer when there are no more. -/
structure Machine (μ α ε δ : Type) where
  step : μ → α → Except ε μ
  finish : μ → Except ε δ

namespace Machine

variable (M : Machine μ α ε δ)

/-- Read all items and finish. -/
def run (m : μ) (items : List α) : Except ε δ := items.foldlM M.step m >>= M.finish

theorem run_cons (m : μ) (item : α) (rest : List α) :
    M.run m (item :: rest) = M.step m item >>= fun m' => M.run m' rest := by
  rw [run, List.foldlM_cons, bind_assoc]
  rfl

end Machine

/-! ## What the machine does for a computation -/

section Enacts

variable (M : Machine μ α ε δ) (n : Nat)

/-- The answer is what the machine gives when it goes on behind `x` in the state `next`, and
`x` leaves no more items than it was given. -/
structure Follows (x : Reader α ε β) (items : List α) (next : β → μ) (answer : Except ε δ) :
    Prop where
  eq : answer = x items >>= fun p => M.run (next p.1) p.2
  length_le : ∀ b rest, x items = .ok (b, rest) → rest.length ≤ items.length

/-- On at most `n` items, the machine in state `m` does what `x` does and goes on
in the state `next`. -/
def Enacts (x : Reader α ε β) (m : μ) (next : β → μ) : Prop :=
  ∀ items, items.length ≤ n → Follows M x items next (M.run m items)

/-- With `item` and less than `n` items behind it, the machine in state `m` does what
`x` does behind the item. -/
def Handles (m : μ) (item : α) (x : Reader α ε β) (next : β → μ) : Prop :=
  ∀ rest, rest.length < n → Follows M x rest next (M.run m (item :: rest))

/-- The state after one round of a loop. -/
def resume (inside after : σ → μ) : ForInStep σ → μ
  | .yield s => inside s
  | .done s => after s

end Enacts

variable {M : Machine μ α ε δ} {n : Nat} {m : μ} {item : α} {items : List α} {answer : Except ε δ}

variable {b : β} {next : γ → μ} {x : Reader α ε β} {f : β → γ} {r : Except ε β}

theorem follows_pure {next : β → μ} : Follows M (pure b) items next (M.run (next b) items) := by
  refine ⟨rfl, fun b rest h => ?_⟩
  obtain ⟨-, rfl⟩ := Prod.mk.inj (Except.ok.inj h)
  exact Nat.le_refl _

theorem follows_of_error {e : ε} {x : Reader α ε γ} (h : x items = .error e) :
    Follows M x items next (.error e) :=
  ⟨by rw [h]; rfl, fun b rest hb => by rw [h] at hb; cases hb⟩

theorem enacts_pure {next : β → μ} (h : m = next b) :
    Enacts M n (pure b : Reader α ε β) m next :=
  fun _ _ => h ▸ follows_pure

theorem Follows.map (h : Follows M x items (fun b => next (f b)) answer) :
    Follows M (x >>= fun b => pure (f b)) items next answer := by
  refine ⟨?_, fun c rest hc => ?_⟩
  · rw [h.eq]
    show _ = (x items >>= fun p => pure (f p.1, p.2)) >>= _
    rw [bind_assoc]
    rfl
  · obtain ⟨b, mid, hb, hpure⟩ := bind_eq_ok hc
    obtain ⟨-, rfl⟩ := Prod.mk.inj (Except.ok.inj hpure)
    exact h.length_le b mid hb

theorem Enacts.map (h : Enacts M n x m fun b => next (f b)) :
    Enacts M n (x >>= fun b => pure (f b)) m next :=
  fun items hitems => (h items hitems).map

theorem Handles.map (h : Handles M n m item x fun b => next (f b)) :
    Handles M n m item (x >>= fun b => pure (f b)) next :=
  fun rest hrest => (h rest hrest).map

/-- The item is read, and then `k` goes on. -/
theorem handles_bind {k : β → Reader α ε γ} {inside : β → μ} (hstep : M.step m item = r.map inside)
    (hk : ∀ b, ∀ n' < n, Enacts M n' (k b) (inside b) next) :
    Handles M n m item (liftM r >>= k) next := by
  intro rest hrest
  rw [Machine.run_cons, hstep]
  cases r with
  | error e => exact follows_of_error (bind_of_error (liftM_of_error rfl rest))
  | ok b =>
    have heq : (liftM (Except.ok b) >>= k) rest = k b rest := bind_of_ok (liftM_of_ok rfl rest)
    obtain ⟨hanswer, hle⟩ := hk b rest.length hrest rest (Nat.le_refl _)
    exact ⟨by rw [heq]; exact hanswer, by rwa [heq]⟩

/-- The item calls a function that reads on. -/
theorem handles_call {x : Reader α ε γ} {m' : μ} (hstep : M.step m item = .ok m')
    (hx : ∀ n' < n, Enacts M n' x m' next) : Handles M n m item x next := by
  intro rest hrest
  rw [Machine.run_cons, hstep]
  exact hx rest.length hrest rest (Nat.le_refl _)

theorem handles_pure {next : β → μ} (hstep : M.step m item = .ok (next b)) :
    Handles M n m item (pure b) next :=
  handles_call hstep fun _ _ => enacts_pure rfl

/-- An item with a value that may be refused. -/
theorem handles_liftM (hstep : M.step m item = r.map fun b => next (f b)) :
    Handles M n m item (liftM r >>= fun b => pure (f b)) next :=
  handles_bind hstep fun _ _ _ => enacts_pure rfl

theorem handles_throw {e : ε} (hstep : M.step m item = .error e) :
    Handles M n m item (throw e) next := by
  intro rest _
  rw [Machine.run_cons, hstep]
  exact follows_of_error rfl

section Loop

variable {body : σ → α → Reader α ε (ForInStep σ)} {inside after : σ → μ}

/-- A loop is enacted round by round: inside it the machine is in the states `inside`,
behind it in the states `after`. -/
theorem enacts_loop (hfinish : ∀ s, M.finish (inside s) = M.finish (after s))
    (hround : ∀ s item, Handles M n (inside s) item (body s item) (resume inside after)) (s : σ) :
    Enacts M n (loop body s) (inside s) after := by
  -- any number of rounds will do that is not less than the number of items
  have hrounds : ∀ rounds s items, items.length ≤ rounds → items.length ≤ n →
      Follows M (loopN body rounds s) items after (M.run (inside s) items) := by
    intro rounds
    induction rounds with
    | zero =>
      intro s items hzero _
      obtain rfl := List.length_eq_zero_iff.mp (Nat.le_zero.mp hzero)
      exact ⟨hfinish s, fun b rest h => by cases h; exact Nat.le_refl _⟩
    | succ rounds ih =>
      intro s items hle hn
      cases items with
      | nil => exact ⟨hfinish s, fun b rest h => by cases h; exact Nat.le_refl _⟩
      | cons item rest =>
        rw [List.length_cons] at hle hn
        obtain ⟨hanswer, hshort⟩ := hround s item rest (by omega)
        rw [hanswer]
        cases hstep : body s item rest with
        | error e => exact follows_of_error (by rw [loopN, hstep])
        | ok p =>
          obtain ⟨outcome, rest'⟩ := p
          have hrest := hshort outcome rest' hstep
          cases outcome with
          | done s' =>
            have heq : loopN body (rounds + 1) s (item :: rest) = .ok (s', rest') := by
              rw [loopN, hstep]
            refine ⟨by rw [heq]; rfl, fun b rest'' h => ?_⟩
            rw [heq] at h
            cases h
            exact Nat.le_succ_of_le hrest
          | yield s' =>
            have heq : loopN body (rounds + 1) s (item :: rest) = loopN body rounds s' rest' := by
              rw [loopN, hstep]
            obtain ⟨hanswer, hle⟩ := ih s' rest' (by omega) (by omega)
            refine ⟨by rw [heq]; exact hanswer, fun b rest'' h => ?_⟩
            exact Nat.le_succ_of_le (Nat.le_trans (hle b rest'' (heq ▸ h)) hrest)
  intro items hitems
  obtain ⟨hanswer, hle⟩ := hrounds items.length s items (Nat.le_refl _) hitems
  exact ⟨hanswer, hle⟩

/-- A round of a loop that does not break. -/
def Continues (x : Reader α ε (ForInStep σ)) : Prop :=
  ∀ items s rest, x items ≠ .ok (.done s, rest)

theorem continues_bind {f : β → σ} : Continues (x >>= fun b => pure (.yield (f b))) := by
  intro items s rest h
  obtain ⟨b, mid, -, hpure⟩ := bind_eq_ok h
  cases hpure

/-- The outermost loop, if its body never breaks: it reads everything. -/
theorem run_eq_of_loop (hround : ∀ n s item,
      Handles M n (inside s) item (body s item) (resume inside after))
    (hyield : ∀ s item, Continues (body s item)) (s : σ) :
    M.run (inside s) items = loop body s items >>= fun p => M.finish (inside p.1) := by
  have hrounds : ∀ rounds s items, items.length ≤ rounds →
      M.run (inside s) items = loopN body rounds s items >>= fun p => M.finish (inside p.1) := by
    intro rounds
    induction rounds with
    | zero =>
      intro s items hzero
      obtain rfl := List.length_eq_zero_iff.mp (Nat.le_zero.mp hzero)
      rfl
    | succ rounds ih =>
      intro s items hle
      cases items with
      | nil => rfl
      | cons item rest =>
        rw [List.length_cons] at hle
        obtain ⟨hanswer, hshort⟩ := hround (rest.length + 1) s item rest (by omega)
        rw [hanswer, loopN]
        cases hstep : body s item rest with
        | error e => rfl
        | ok p =>
          obtain ⟨outcome, rest'⟩ := p
          have hrest := hshort outcome rest' hstep
          cases outcome with
          | done s' => exact absurd hstep (hyield s item rest s' rest')
          | yield s' => exact ih s' rest' (by omega)
  exact hrounds items.length s items (Nat.le_refl _)

end Loop

end Lib.Incremental
