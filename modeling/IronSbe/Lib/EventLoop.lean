import Mathlib.Data.List.Basic
import IronSbe.Lib.Fallible

/-!
# Loops that read items

A program that reads a stream of items with one shared reader, through loops
that call functions that read on.  `Reader` is such a computation: it takes
items off the front of a list and may fail.  `loop body` is

    loop { match next() { None => break, Some(item) => body(item) } }

where the body goes on with `yield`, breaks with `done`, and may itself read
items.

The number of rounds is bounded by the number of items.  `Lib.Incremental` shows that this
bound is never the reason to stop, for bodies that leave no more items than they were given.
-/

namespace Lib.EventLoop

open List

variable {α β γ ε σ : Type}

/-- A computation that takes items off the front of a list and may fail. -/
abbrev Reader (α ε : Type) := StateT (List α) (Except ε)

/-! ## Running a computation -/

variable {x : Reader α ε β} {f : β → Reader α ε γ} {rest items : List α} {b : β} {e : ε}

theorem bind_of_ok (h : x items = .ok (b, rest)) : (x >>= f) items = f b rest := by
  show (x items >>= fun p => f p.1 p.2) = _
  rw [h]
  rfl

theorem bind_of_error (h : x items = .error e) : (x >>= f) items = .error e := by
  show (x items >>= fun p => f p.1 p.2) = _
  rw [h]
  rfl

/-- A computation that succeeds went through its first step. -/
theorem bind_eq_ok {c : γ} (h : (x >>= f) items = .ok (c, rest)) :
    ∃ b mid, x items = .ok (b, mid) ∧ f b mid = .ok (c, rest) := by
  obtain ⟨p, hx, hf⟩ := Fallible.bind_eq_ok h
  exact ⟨p.1, p.2, hx, hf⟩

theorem liftM_of_ok {x : Except ε β} (h : x = .ok b) (items : List α) :
    (liftM x : Reader α ε β) items = .ok (b, items) := by
  rw [h]
  rfl

theorem liftM_of_error {x : Except ε β} (h : x = .error e) (items : List α) :
    (liftM x : Reader α ε β) items = .error e := by
  rw [h]
  rfl

/-! ## The loop -/

/-- At most `n` rounds of a loop. -/
def loopN (body : σ → α → Reader α ε (ForInStep σ)) : Nat → σ → Reader α ε σ
  | 0, s, items => .ok (s, items)
  | _ + 1, s, [] => .ok (s, [])
  | n + 1, s, item :: rest =>
    match body s item rest with
    | .error e => .error e
    | .ok (.done s', rest') => .ok (s', rest')
    | .ok (.yield s', rest') => loopN body n s' rest'

/-- Read items until the body is done or there are none left. -/
def loop (body : σ → α → Reader α ε (ForInStep σ)) (s : σ) : Reader α ε σ :=
  fun items => loopN body items.length s items

end Lib.EventLoop
