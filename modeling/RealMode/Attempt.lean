import RealMode.Fault

/-! Operations that change a state or refuse to. -/

set_option autoImplicit false

namespace RealMode

/-- How an operation on a state ended, and the state that it left. -/
inductive Attempt (σ : Type) where
  | ok (state : σ)
  | error (fault : Fault) (state : σ)
  deriving DecidableEq, Repr

namespace Attempt

variable {σ τ : Type}

/-- The state behind an operation, whether it was done or not. -/
def state : Attempt σ → σ
  | .ok state => state
  | .error _ state => state

def isOk : Attempt σ → Bool
  | .ok _ => true
  | .error _ _ => false

/-- The operation on a whole, by what became of a part. -/
def within (whole : σ → τ) : Attempt σ → Attempt τ
  | .ok state => .ok (whole state)
  | .error fault state => .error fault (whole state)

/-- The operation has left `before` as it was if it was not done. -/
structure Keeps (outcome : Attempt σ) (before : σ) : Prop where
  eq : ∀ fault kept, outcome = .error fault kept → kept = before

section Outcomes

variable {outcome : Attempt σ} {before after : σ}

theorem Keeps.ok (state before : σ) : (Attempt.ok state).Keeps before where
  eq _ _ refused := by cases refused

theorem Keeps.error (fault : Fault) (before : σ) : (Attempt.error fault before).Keeps before where
  eq _ _ refused := (Attempt.error.inj refused).2.symm

theorem state_of_ok (done : outcome = .ok after) : outcome.state = after :=
  congrArg state done

theorem Keeps.state_of_error (keeps : outcome.Keeps before) {fault : Fault} {kept : σ}
    (refused : outcome = .error fault kept) : outcome.state = before :=
  (congrArg state refused).trans (keeps.eq fault kept refused)

theorem Keeps.state_cases (keeps : outcome.Keeps before) :
    (∃ after, outcome = .ok after ∧ outcome.state = after) ∨ outcome.state = before := by
  cases result : outcome with
  | ok after => exact .inl ⟨after, rfl, rfl⟩
  | error fault kept => exact .inr (keeps.eq fault kept result)

/-- What held before an operation and holds if it is done, holds of the state that it leaves. -/
theorem Keeps.induction {motive : σ → Prop} (keeps : outcome.Keeps before) (unchanged : motive before)
    (done : ∀ after, outcome = .ok after → motive after) : motive outcome.state := by
  rcases keeps.state_cases with ⟨after, result, same⟩ | same
  · exact same ▸ done after result
  · exact same ▸ unchanged

theorem exists_error_iff :
    (∃ fault kept, outcome = .error fault kept) ↔ ¬∃ result, outcome = .ok result := by
  cases outcome <;> simp

end Outcomes

end Attempt

end RealMode
