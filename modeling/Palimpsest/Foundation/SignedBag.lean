import Mathlib.Algebra.BigOperators.Group.List.Basic
import Mathlib.Data.List.Count
import Mathlib.Data.List.Dedup
import Mathlib.Tactic.Ring

/-! Bags as integer counts, and the net change a list of signed changes makes to them. -/
namespace SignedBag
open List

variable {α : Type*} [DecidableEq α]

def net (changes : List (α × ℤ)) (a : α) : ℤ :=
  (changes.map fun change => if change.1 = a then change.2 else 0).sum

@[simp]
theorem net_nil (a : α) : net [] a = 0 := rfl

@[simp]
theorem net_cons (change : α × ℤ) (changes) (a : α) :
    net (change :: changes) a = (if change.1 = a then change.2 else 0) + net changes a := by
  simp [net]

@[simp]
theorem net_append (changes changes' : List (α × ℤ)) (a : α) :
    net (changes ++ changes') a = net changes a + net changes' a := by
  simp [net]

@[simp]
theorem net_replicate (n : ℕ) (change : α × ℤ) (a : α) :
    net (replicate n change) a = if change.1 = a then n * change.2 else 0 := by
  induction n with
  | zero => simp
  | succ n ih =>
    rw [replicate_succ, net_cons, ih]
    split
    · push_cast
      ring
    · exact add_zero 0

theorem net_map_const (l : List α) (weight : ℤ) (a : α) :
    net (l.map fun b => (b, weight)) a = l.count a * weight := by
  induction l with
  | nil => simp
  | cons b l ih =>
    rw [map_cons, net_cons, ih]
    by_cases hb : b = a
    · simp [hb]
      ring
    · simp [hb]

theorem net_eq_zero {changes : List (α × ℤ)} (h : ∀ change ∈ changes, change.1 ≠ a) :
    net changes a = 0 := by
  induction changes with
  | nil => rfl
  | cons change changes ih =>
    rw [forall_mem_cons] at h
    rw [net_cons, if_neg h.1, ih h.2, add_zero]

/-- Each index of a list without repetition makes the changes of its own element. -/
theorem net_flatMap_self [DecidableEq ι] {l : List ι} (hl : l.Nodup) {key : ι → α}
    (hkey : Function.Injective key) (hpart : ∀ i, ∀ change ∈ part i, change.1 = key i) (i : ι) :
    net (l.flatMap part) (key i) = if i ∈ l then net (part i) (key i) else 0 := by
  induction l with
  | nil => simp
  | cons first l ih =>
    rw [nodup_cons] at hl
    rw [flatMap_cons, net_append, ih hl.2]
    rcases eq_or_ne i first with rfl | hi
    · rw [if_neg hl.1, if_pos mem_cons_self, add_zero]
    · have hzero : net (part first) (key i) = 0 := by
        apply net_eq_zero
        intro change hchange
        rw [hpart first change hchange]
        exact fun h => hi (hkey h).symm
      simp [hzero, hi]

end SignedBag
