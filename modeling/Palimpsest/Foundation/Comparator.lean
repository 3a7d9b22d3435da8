import Mathlib.Order.Compare

/-! Comparators law by law: three results that can belong to a chain of three elements. -/
namespace Comparator

/-- Results for `a` and `b`, `b` and `c`, and `a` and `c` that fit together. -/
def Chained (ab bc ac : Ordering) : Prop :=
  (ab = .eq → ac = bc) ∧ (bc = .eq → ac = ab) ∧ (ab = bc → ac = ab)

instance (ab bc ac : Ordering) : Decidable (Chained ab bc ac) :=
  inferInstanceAs (Decidable (_ ∧ _ ∧ _))

theorem Chained.swap (h : Chained ab bc ac) : Chained ab.swap bc.swap ac.swap := by
  revert h
  cases ab <;> cases bc <;> cases ac <;> decide

theorem Chained.then (h : Chained ab bc ac) (h' : ab = .eq → bc = .eq → Chained ab' bc' ac') :
    Chained (ab.then ab') (bc.then bc') (ac.then ac') := by
  revert h h'
  cases ab <;> cases bc <;> cases ac <;>
    cases ab' <;> cases bc' <;> cases ac' <;> decide

theorem Chained.isLE (h : Chained ab bc ac) (hab : ab.isLE = true) (hbc : bc.isLE = true) :
    ac.isLE = true := by
  revert h hab hbc
  cases ab <;> cases bc <;> cases ac <;> decide

theorem Chained.eq_swap (h : Chained ab bc .eq) : bc = ab.swap := by
  revert h
  cases ab <;> cases bc <;> decide

theorem chained_of_transCmp (cmp : α → α → Ordering) [Std.TransCmp cmp] (a b c : α) :
    Chained (cmp a b) (cmp b c) (cmp a c) := by
  refine ⟨Std.TransCmp.congr_left, fun h => ?_, fun h => ?_⟩
  · exact (Std.TransCmp.congr_right h).symm
  · cases hab : cmp a b with
    | lt => exact Std.TransCmp.lt_trans hab (h ▸ hab)
    | eq => exact Std.TransCmp.eq_trans hab (h ▸ hab)
    | gt => exact Std.TransCmp.gt_trans hab (h ▸ hab)

structure PreordersOn {α : Type*} (cmp : α → α → Ordering) (valid : α → Prop) : Prop where
  self : ∀ a, valid a → cmp a a = .eq
  swap : ∀ a b, valid a → valid b → cmp b a = (cmp a b).swap
  trans : ∀ a b c, valid a → valid b → valid c → (cmp a b).isLE = true → (cmp b c).isLE = true →
    (cmp a c).isLE = true

theorem PreordersOn.of_chained {cmp : α → α → Ordering} (hself : ∀ a, valid a → cmp a a = .eq)
    (h : ∀ a b c, valid a → valid b → valid c → Chained (cmp a b) (cmp b c) (cmp a c)) :
    PreordersOn cmp valid where
  self := hself
  swap a b ha hb := by
    have hback := h a b a ha hb ha
    rw [hself a ha] at hback
    exact hback.eq_swap
  trans a b c ha hb hc := (h a b c ha hb hc).isLE

end Comparator
