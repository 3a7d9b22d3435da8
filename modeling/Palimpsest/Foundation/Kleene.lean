import Mathlib.Data.List.Basic

/-! Three-valued logic on `Option Bool`, with `none` for the unknown. -/
namespace Kleene

def not : Option Bool → Option Bool := Option.map Bool.not

def and : Option Bool → Option Bool → Option Bool
  | some false, _ => some false
  | _, some false => some false
  | some true, some true => some true
  | _, _ => none

def or : Option Bool → Option Bool → Option Bool
  | some true, _ => some true
  | _, some true => some true
  | some false, some false => some false
  | _, _ => none

def any (xs : List (Option Bool)) : Option Bool := xs.foldr or (some false)

def signed (negated : Bool) (x : Option Bool) : Option Bool := if negated then not x else x

theorem not_eq_true : not x = some true ↔ x = some false := by
  rcases x with _ | _ | _ <;> decide

theorem and_eq_true : and x y = some true ↔ x = some true ∧ y = some true := by
  rcases x with _ | _ | _ <;> rcases y with _ | _ | _ <;> decide

theorem or_eq_true : or x y = some true ↔ x = some true ∨ y = some true := by
  rcases x with _ | _ | _ <;> rcases y with _ | _ | _ <;> decide

theorem or_eq_false : or x y = some false ↔ x = some false ∧ y = some false := by
  rcases x with _ | _ | _ <;> rcases y with _ | _ | _ <;> decide

theorem any_eq_true : any xs = some true ↔ some true ∈ xs := by
  induction xs with
  | nil => simp [any]
  | cons x xs ih => rw [any, List.foldr_cons, or_eq_true, ← any, ih, List.mem_cons, eq_comm]

theorem any_eq_false : any xs = some false ↔ ∀ x ∈ xs, x = some false := by
  induction xs with
  | nil => simp [any]
  | cons x xs ih => rw [any, List.foldr_cons, or_eq_false, ← any, ih, List.forall_mem_cons]

end Kleene
