import Mathlib.Algebra.Group.Nat.Even
import Mathlib.Data.List.Duplicate

/-! Requirements visited one after the other, and when their order does not matter. -/
namespace Agreement
open List

/-- One requirement after the other: the first stands until another one differs, and the next one
after that stands again. -/
def agree {κ : Type} [DecidableEq κ] : Option κ → κ → Option κ
  | none, new => some new
  | some old, new => if old = new then some old else none

variable {κ : Type} [DecidableEq κ]

theorem foldl_agree_twice (x : κ) (c) : [x, x].foldl agree c = some x := by
  cases c with
  | none => simp [agree]
  | some old => by_cases h : old = x <;> simp [agree, h]

theorem foldl_agree_ne {x y : κ} (h : y ≠ x) (c) : [y].foldl agree c ≠ some x := by
  cases c with
  | none => simp [agree, h]
  | some old => by_cases hold : old = y <;> simp [agree, hold, h]

theorem foldl_agree_nodup : ∀ {l : List κ}, l.Nodup → (l.foldl agree none = none ↔ Even l.length)
  | [], _ => by simp
  | [a], _ => by simp [agree]
  | a :: b :: rest, h => by
    have hne : a ≠ b := by grind
    simp [agree, hne, foldl_agree_nodup h.of_cons.of_cons, Nat.even_add]

variable {α : Type} {f : α → Option κ} {uses : List α}

omit [DecidableEq κ] in
theorem exists_perm_last (h : last <+ uses.filterMap f) :
    ∃ visited, visited ~ uses ∧ ∃ first, visited.filterMap f = first ++ last := by
  obtain ⟨tail, hsub, rfl⟩ := sublist_filterMap_iff.mp h
  obtain ⟨rest, hperm⟩ := hsub.exists_perm_append
  exact ⟨rest ++ tail, perm_append_comm.trans hperm.symm, _, filterMap_append⟩

theorem agree_perm_iff : (∀ visited, visited ~ uses →
      (visited.filterMap f).foldl agree none = (uses.filterMap f).foldl agree none) ↔
    (∀ a ∈ uses.filterMap f, ∀ b ∈ uses.filterMap f, a = b) ∨
      (uses.filterMap f).Nodup ∧ Even (uses.filterMap f).length := by
  constructor
  · refine fun h => or_iff_not_imp_left.mpr fun hdiffer => ?_
    -- a requirement that stands at the end is the only one: another could have been last
    have hnone : (uses.filterMap f).foldl agree none = none := by
      by_contra hsome
      obtain ⟨x, hx⟩ := Option.ne_none_iff_exists'.mp hsome
      refine hdiffer fun a ha b hb => ?_
      have honly : ∀ y ∈ uses.filterMap f, y = x := by
        intro y hy
        obtain ⟨visited, hperm, first, hlast⟩ := exists_perm_last (singleton_sublist.mpr hy)
        by_contra hyx
        refine foldl_agree_ne hyx (first.foldl agree none) ?_
        rw [← foldl_append, ← hlast, h visited hperm, hx]
      rw [honly a ha, honly b hb]
    have hnd : (uses.filterMap f).Nodup := by
      by_contra hdup
      obtain ⟨x, hx⟩ := exists_duplicate_iff_not_nodup.mpr hdup
      obtain ⟨visited, hperm, first, hlast⟩ := exists_perm_last (duplicate_iff_sublist.mp hx)
      have hvis := h visited hperm
      rw [hlast, foldl_append, foldl_agree_twice, hnone] at hvis
      cases hvis
    exact ⟨hnd, (foldl_agree_nodup hnd).mp hnone⟩
  · rintro (hsame | ⟨hnd, heven⟩) visited hperm
    · have hvis := hperm.filterMap f
      have hall (l : List κ) : l.Pairwise fun _ _ => True := pairwise_of_forall fun _ _ => trivial
      rw [hvis.eq_of_pairwise (fun a b ha hb _ _ => hsame a (hvis.mem_iff.mp ha) b hb)
        (hall _) (hall _)]
    · have hvis := hperm.filterMap f
      rw [(foldl_agree_nodup hnd).mpr heven, (foldl_agree_nodup
        (hvis.nodup_iff.mpr hnd)).mpr (hvis.length_eq ▸ heven)]

end Agreement
