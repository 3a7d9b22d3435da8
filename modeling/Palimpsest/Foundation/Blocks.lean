import Mathlib.Data.List.Sublists

/-! Lists in which equal keys stand together. -/
namespace Blocks

variable {α κ : Type*} {key : α → κ}

/-- Between two entries of one key there are only entries of that key. -/
def Together (key : α → κ) (l : List α) : Prop :=
  ∀ a c b, [a, c, b].Sublist l → key a = key b → key c = key a

theorem Together.nil : Together key [] := by
  intro a c b h
  cases h

theorem Together.sublist (h : Together key l) (hsub : l'.Sublist l) : Together key l' :=
  fun a c b hl' => h a c b (hl'.trans hsub)

theorem Together.append_fresh (h : Together key l) (hnew : ∀ a ∈ l', key a = k)
    (hfr : ∀ a ∈ l, key a ≠ k) : Together key (l ++ l') := by
  intro a c b hsub hkey
  obtain ⟨front, back, hsplit, hfront, hback⟩ := List.sublist_append_iff.mp hsub
  have hback : ∀ x ∈ back, key x = k := fun x hx => hnew x (hback.subset hx)
  -- where the two halves meet: a key shared across the border would not be fresh
  match front with
  | [] =>
    subst hsplit
    rw [hback c (by simp), hback a (by simp)]
  | [x] =>
    obtain ⟨rfl, rfl⟩ := List.cons.inj hsplit
    exact absurd (hkey.trans (hback b (by simp))) (hfr a (hfront.subset (by simp)))
  | [x, y] =>
    obtain ⟨rfl, rfl, rfl⟩ := hsplit
    exact absurd (hkey.trans (hback b (by simp))) (hfr a (hfront.subset (by simp)))
  | x :: y :: z :: front =>
    simp only [List.cons_append, List.cons.injEq] at hsplit
    obtain ⟨rfl, rfl, rfl, hnil⟩ := hsplit
    obtain ⟨rfl, rfl⟩ := List.append_eq_nil_iff.mp hnil.symm
    exact h a c b hfront hkey

theorem Together.not_again (h : Together key (xs ++ a :: c :: ys)) (hc : key c ≠ key a) :
    ∀ b ∈ ys, key b ≠ key a := by
  intro b hb hkey
  have hsub : [a, c, b].Sublist (xs ++ a :: c :: ys) :=
    ((List.singleton_sublist.mpr hb).cons_cons c).cons_cons a |>.trans
      (List.sublist_append_right _ _)
  exact hc (h a c b hsub hkey.symm)

end Blocks
