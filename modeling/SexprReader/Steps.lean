/-! Taking steps until one gives a result. A run is cut into rounds, each allowed twice as many
steps as the one before, so that a small number of rounds bounds a very long run. -/

namespace SexprReader.Steps

variable {S R : Type}

/-- The result of the first `bound` steps, or where they lead if they give none. -/
def runFor (step : S → S ⊕ R) : (bound : Nat) → S → S ⊕ R
  | 0, state => .inl state
  | bound + 1, state =>
    match step state with
    | .inl next => runFor step bound next
    | .inr result => .inr result

def runDoubling (step : S → S ⊕ R) : (rounds budget : Nat) → S → Option R
  | 0, _, _ => none
  | rounds + 1, budget, state =>
    match runFor step budget state with
    | .inl next => runDoubling step rounds (2 * budget) next
    | .inr result => some result

theorem runFor_add (step : S → S ⊕ R) (first second : Nat) (state : S) :
    runFor step (first + second) state =
      (runFor step first state).elim (runFor step second) .inr := by
  induction first generalizing state with
  | zero => simp [runFor]
  | succ first ih =>
    rw [Nat.succ_add]
    simp only [runFor]
    cases step state with
    | inl next => exact ih next
    | inr result => rfl

theorem runFor_of_le {step : S → S ⊕ R} {few many : Nat} {state : S} {result : R}
    (ends : runFor step few state = .inr result) (le : few ≤ many) :
    runFor step many state = .inr result := by
  obtain ⟨more, rfl⟩ := Nat.le.dest le
  simp [runFor_add, ends]

/-- The rounds together are one run: doubling a budget `rounds` times makes it `2 ^ rounds - 1`
times as long. -/
theorem runDoubling_eq (step : S → S ⊕ R) (rounds budget : Nat) (state : S) :
    runDoubling step rounds budget state =
      (runFor step ((Nat.pow 2 rounds - 1) * budget) state).getRight? := by
  induction rounds generalizing budget state with
  | zero => simp [runDoubling, runFor]
  | succ rounds ih =>
    have positive : 1 ≤ Nat.pow 2 rounds := Nat.one_le_two_pow
    have total : (Nat.pow 2 (rounds + 1) - 1) * budget =
        budget + (Nat.pow 2 rounds - 1) * (2 * budget) := by
      rw [show Nat.pow 2 (rounds + 1) = Nat.pow 2 rounds * 2 from rfl]
      obtain ⟨less, equal⟩ := Nat.exists_eq_add_of_le positive
      rw [equal, show (1 + less) * 2 - 1 = 1 + less * 2 by omega,
        show 1 + less - 1 = less by omega]
      simp [Nat.add_mul, Nat.mul_assoc]
    rw [total, runFor_add, runDoubling]
    cases runFor step budget state with
    | inl next => exact ih (2 * budget) next
    | inr result => rfl

end SexprReader.Steps
