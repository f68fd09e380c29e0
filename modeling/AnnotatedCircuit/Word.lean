/-!
Arithmetic on 32-bit words that reports a result which does not fit.

A word is a natural number below `Word.limit`. `Word.add` and `Word.mul` answer the exact sum or
product, or say which of the two operations left the range (`add_eq_ok_iff`, `mul_eq_ok_iff`).
-/

namespace AnnotatedCircuit

/-- The operation whose result does not fit into a word. -/
inductive Overflow where
  | add
  | mul
deriving DecidableEq, Repr, Inhabited

namespace Overflow

def message : Overflow → String
  | add => "attempt to add with overflow"
  | mul => "attempt to multiply with overflow"

end Overflow

namespace Word

/-- The first number that is not a word. -/
def limit : Nat := 4294967296

def add (a b : Nat) : Except Overflow Nat :=
  if a + b < limit then .ok (a + b) else .error .add

def mul (a b : Nat) : Except Overflow Nat :=
  if a * b < limit then .ok (a * b) else .error .mul

@[simp] theorem add_eq_ok_iff {a b c : Nat} : add a b = .ok c ↔ c = a + b ∧ a + b < limit := by
  unfold add
  split <;> rename_i h <;> simp [h, eq_comm]

@[simp] theorem mul_eq_ok_iff {a b c : Nat} : mul a b = .ok c ↔ c = a * b ∧ a * b < limit := by
  unfold mul
  split <;> rename_i h <;> simp [h, eq_comm]

end Word

end AnnotatedCircuit
