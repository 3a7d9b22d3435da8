import Mathlib.Logic.Basic

/-! Runs of a transition system whose steps meet a condition on the state they start from. -/
namespace Runs

variable {σ α : Type*} {step : σ → α → σ} {start : σ}

inductive Reached (step : σ → α → σ) (meets : σ → α → Prop) (start : σ) : σ → Prop
  | start : Reached step meets start start
  | step {s : σ} {a : α} : Reached step meets start s → meets s a →
      Reached step meets start (step s a)

/-- What holds at the start and is kept by every step holds in every state reached. -/
theorem Reached.invariant {P : σ → Prop} (h : Reached step meets start s) (hstart : P start)
    (hstep : ∀ s a, P s → meets s a → P (step s a)) : P s := by
  induction h with
  | start => exact hstart
  | step _ hmeets ih => exact hstep _ _ ih hmeets

/-- A list of actions each of which meets the condition where it is taken. -/
inductive Schedule (step : σ → α → σ) (meets : σ → α → Prop) : σ → List α → Prop
  | nil (s : σ) : Schedule step meets s []
  | cons {s : σ} {a : α} {as : List α} : meets s a → Schedule step meets (step s a) as →
      Schedule step meets s (a :: as)

theorem Schedule.reached (h : Schedule step meets s as) (hs : Reached step meets start s) :
    Reached step meets start (as.foldl step s) := by
  induction h with
  | nil => exact hs
  | cons hmeets _ ih => exact ih (hs.step hmeets)

theorem Schedule.free (step : σ → α → σ) (s : σ) (as) : Schedule step (fun _ _ => True) s as := by
  induction as generalizing s with
  | nil => exact .nil s
  | cons a as ih => exact .cons trivial (ih _)

end Runs
