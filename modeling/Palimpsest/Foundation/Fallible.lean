import Mathlib.Data.List.Forall2

/-! Fallible loops over lists, seen from their successful runs. -/
namespace Fallible
open List

universe u

variable {ε α β : Type*}
variable {as : List α}

theorem map_ok_iff {f : α → β} {x : Except ε α} : x.map f = .ok y ↔ ∃ a, x = .ok a ∧ f a = y := by
  cases x with
  | error | ok => simp [Except.map]

theorem bind_ok {α β : Type u} {x : Except ε α} {f : α → Except ε β} {y : β} (h : x >>= f = .ok y) :
    ∃ a, x = .ok a ∧ f a = .ok y := by
  cases x with
  | error => cases h
  | ok a => exact ⟨a, rfl, h⟩

theorem ok_bind {α β : Type u} {x : Except ε α} {f : α → Except ε β} {a : α} {y : β}
    (hx : x = .ok a) (hf : f a = .ok y) : x >>= f = .ok y := by
  rw [hx]
  exact hf

variable {f : α → Except ε β}

theorem mapM_cons_ok :
    (a :: as).mapM f = .ok ys ↔ ∃ y zs, f a = .ok y ∧ as.mapM f = .ok zs ∧ ys = y :: zs := by
  rw [mapM_cons]
  cases f a with
  | error => simp [bind, Except.bind]
  | ok =>
    cases as.mapM f with
    | error | ok => simp [bind, Except.bind, pure, Except.pure, eq_comm]

theorem mapM_ok_iff : (∃ ys, as.mapM f = .ok ys) ↔ ∀ a ∈ as, ∃ y, f a = .ok y := by
  induction as with
  | nil => simp [pure, Except.pure]
  | cons a as ih =>
    rw [forall_mem_cons, ← ih]
    constructor
    · rintro ⟨ys, h⟩
      obtain ⟨y, zs, hy, hzs, -⟩ := mapM_cons_ok.mp h
      exact ⟨⟨y, hy⟩, ⟨zs, hzs⟩⟩
    · rintro ⟨⟨y, hy⟩, ⟨zs, hzs⟩⟩
      exact ⟨y :: zs, mapM_cons_ok.mpr ⟨y, zs, hy, hzs, rfl⟩⟩

theorem ok_of_mapM (h : as.mapM f = .ok bs) (ha : a ∈ as) : ∃ b, f a = .ok b :=
  mapM_ok_iff.mp ⟨bs, h⟩ a ha

theorem mapM_eq_ok_iff : as.mapM f = .ok bs ↔ List.Forall₂ (fun a b => f a = .ok b) as bs := by
  induction as generalizing bs with
  | nil => simp [pure, Except.pure, eq_comm]
  | cons a as ih => simp only [mapM_cons_ok, forall₂_cons_left_iff, ih]

theorem forM_ok_iff {f : α → Except ε PUnit} : as.forM f = .ok ⟨⟩ ↔ ∀ a ∈ as, f a = .ok ⟨⟩ := by
  induction as with
  | nil => simp [List.forM, pure, Except.pure]
  | cons a as ih =>
    rw [forall_mem_cons, ← ih, List.forM]
    cases f a with
    | error | ok => simp [bind, Except.bind]

theorem mapM_congr (h : ∀ a ∈ as, f a = g a) : as.mapM f = as.mapM g := by
  induction as with
  | nil => rfl
  | cons a as ih =>
    rw [forall_mem_cons] at h
    rw [mapM_cons, mapM_cons, h.1, ih h.2]

theorem mem_mapM (h : as.mapM f = .ok bs) : b ∈ bs ↔ ∃ a ∈ as, f a = .ok b := by
  have hall := mapM_eq_ok_iff.mp h
  induction hall with
  | nil => simp
  | cons hab htail ih => simp [hab, ih (mapM_eq_ok_iff.mpr htail), eq_comm]

theorem mapM_length (h : as.mapM f = .ok ys) : ys.length = as.length :=
  (mapM_eq_ok_iff.mp h).length_eq.symm

theorem mapM_sublist {few : List α} (h : few.Sublist many) (hmany : many.mapM f = .ok ys) :
    ∃ xs, few.mapM f = .ok xs ∧ xs.Sublist ys := by
  induction h generalizing ys with
  | slnil => exact ⟨ys, hmany, .refl _⟩
  | cons a _ ih =>
    obtain ⟨y, zs, -, hrest, rfl⟩ := mapM_cons_ok.mp hmany
    obtain ⟨xs, hxs, hsub⟩ := ih hrest
    exact ⟨xs, hxs, hsub.cons y⟩
  | cons_cons a _ ih =>
    obtain ⟨y, zs, hy, hrest, rfl⟩ := mapM_cons_ok.mp hmany
    obtain ⟨xs, hxs, hsub⟩ := ih hrest
    exact ⟨y :: xs, mapM_cons_ok.mpr ⟨y, xs, hy, hxs, rfl⟩, hsub.cons_cons y⟩

/-- Both succeed, with related results, or both fail. -/
def Related (r : α → β → Prop) : Except ε α → Except ε β → Prop
  | .ok a, .ok b => r a b
  | .error _, .error _ => True
  | _, _ => False

namespace Related
variable {r : α → β → Prop} {x : Except ε α} {y : Except ε β}

theorem refl {r : α → α → Prop} (h : ∀ a, r a a) (x : Except ε α) : Related r x x := by
  cases x with
  | error => trivial
  | ok a => exact h a

theorem symm {s : β → α → Prop} (h : Related r x y) (hsymm : ∀ a b, r a b → s b a) :
    Related s y x := by
  cases x <;> cases y <;> first | exact h | exact hsymm _ _ h

theorem imp {s : α → β → Prop} (h : Related r x y) (himp : ∀ a b, r a b → s a b) :
    Related s x y := by
  cases x <;> cases y <;> first | exact h | exact himp _ _ h

theorem of_ok (h : Related r (.ok a : Except ε α) y) : ∃ b, y = .ok b ∧ r a b := by
  cases y with
  | error => exact h.elim
  | ok b => exact ⟨b, rfl, h⟩

theorem bind {α β γ δ : Type u} {r : α → β → Prop} {s : γ → δ → Prop} {x : Except ε α}
    {y : Except ε β} {f : α → Except ε γ} {g : β → Except ε δ} (h : Related r x y)
    (hfg : ∀ a b, r a b → Related s (f a) (g b)) : Related s (x >>= f) (y >>= g) := by
  cases x <;> cases y <;> first | exact h.elim | trivial | exact hfg _ _ h

end Related

end Fallible
