import AnnotatedCircuit.Failure

/-!
Steps of a lowering that may fail.

A failure concerns one note or one request: it is recorded, and the lowering goes on from the state
that the failed step left. An overflow ends the whole lowering.
-/

namespace AnnotatedCircuit

inductive Halt where
  | failure (error : LowerError)
  | overflow (cause : Overflow)
deriving DecidableEq, Repr

abbrev Attempt (σ : Type) := EStateM Halt σ

namespace Attempt

variable {σ α : Type}

def fail (e : LowerError) : Attempt σ α := throw (.failure e)

/-- A question to a design. -/
def ofDesign : Except DesignError α → Attempt σ α
  | .ok a => pure a
  | .error e => fail (.design e)

theorem eq_ok_of_ofDesign {question : Except DesignError α} {a : α} {s s' : σ}
    (h : (ofDesign question : Attempt σ α) s = .ok a s') : question = .ok a := by
  cases question with
  | ok b => exact congrArg Except.ok (EStateM.Result.ok.inj h).1
  | error e => cases h

/-- A computation with words. -/
def ofChecked : Except Overflow α → Attempt σ α
  | .ok a => pure a
  | .error o => throw (.overflow o)

/-- Run a step on a part of the state. -/
def within {τ : Type} (view : σ → τ) (put : τ → σ → σ) (x : Attempt τ α) : Attempt σ α := fun s =>
  match x (view s) with
  | .ok a t => .ok a (put t s)
  | .error e t => .error e (put t s)

variable {τ : Type} {x : Attempt τ α} {s : σ} {t : τ}

theorem within_of_ok {a : α} (view : σ → τ) (put : τ → σ → σ) (h : x (view s) = .ok a t) :
    within view put x s = .ok a (put t s) := by
  rw [within, h]

theorem within_of_error {e : Halt} (view : σ → τ) (put : τ → σ → σ)
    (h : x (view s) = .error e t) : within view put x s = .error e (put t s) := by
  rw [within, h]

end Attempt

end AnnotatedCircuit
