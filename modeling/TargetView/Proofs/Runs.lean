import TargetView.Evaluation

/-! # Single runs

Where the run of a computation that may fail ends, from one state.  A sequence
ends as its first part does if that fails, and otherwise as its second part does
from there.
-/
namespace TargetView

variable {ε σ α β : Type} {x : ExceptT ε (StateM σ) α} {f : α → ExceptT ε (StateM σ) β}
  {s t u : σ}

theorem run_bind_of_ok {a : α} (h : x.run.run s = (.ok a, t)) :
    (x >>= f).run.run s = (f a).run.run t := by
  rw [ExceptT.run_bind, StateT.run_bind, h]
  rfl

theorem run_bind_of_error {e : ε} (h : x.run.run s = (.error e, t)) :
    (x >>= f).run.run s = (.error e, t) := by
  rw [ExceptT.run_bind, StateT.run_bind, h]
  rfl

/-- A sequence succeeds if both of its parts do. -/
theorem run_bind_eq_ok {b : β} (h : (x >>= f).run.run s = (.ok b, u)) :
    ∃ a t, x.run.run s = (.ok a, t) ∧ (f a).run.run t = (.ok b, u) := by
  rcases hx : x.run.run s with ⟨e | a, t⟩
  · rw [run_bind_of_error hx] at h
    cases h
  · rw [run_bind_of_ok hx] at h
    exact ⟨a, t, rfl, h⟩

/-- A sequence fails if one of its parts does. -/
theorem run_bind_eq_error {e : ε} (h : (x >>= f).run.run s = (.error e, u)) :
    x.run.run s = (.error e, u) ∨
      ∃ a t, x.run.run s = (.ok a, t) ∧ (f a).run.run t = (.error e, u) := by
  rcases hx : x.run.run s with ⟨e' | a, t⟩
  · rw [run_bind_of_error hx] at h
    cases h
    exact .inl rfl
  · rw [run_bind_of_ok hx] at h
    exact .inr ⟨a, t, rfl, h⟩

theorem run_liftM (act : StateM σ α) (s : σ) :
    (liftM act : ExceptT ε (StateM σ) α).run.run s = (.ok (act.run s).1, (act.run s).2) :=
  rfl

theorem run_liftM_bind {act : StateM σ α} {a : α} (h : act.run s = (a, t)) :
    (liftM act >>= f).run.run s = (f a).run.run t := by
  refine run_bind_of_ok ?_
  rw [run_liftM, h]

end TargetView
