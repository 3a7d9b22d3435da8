import Mathlib.Data.Multiset.Sort
import Mathlib.Data.Multiset.Dedup

/-! Selecting, for each key of a bag, the first value under a comparator. -/
namespace FirstPerKey

variable {α κ : Type*}

def minBy (cmp : α → α → Ordering) : List α → Option α
  | [] => none
  | x :: xs => some (xs.foldl (fun best y => if cmp best y = .gt then y else best) x)

theorem minBy_least (cmp : α → α → Ordering) [Std.TransCmp cmp] (a : α) (rest : List α) :
    ∃ m ∈ a :: rest, minBy cmp (a :: rest) = some m ∧ ∀ b ∈ a :: rest, (cmp m b).isLE = true := by
  induction rest generalizing a with
  | nil => exact ⟨a, List.mem_cons_self, rfl, by simp [Std.ReflCmp.compare_self]⟩
  | cons b rest ih =>
    obtain ⟨m, hm, hmin, hle⟩ := ih (if cmp a b = .gt then b else a)
    refine ⟨m, ?_, hmin, ?_⟩
    · split at hm
      · exact List.mem_cons_of_mem _ hm
      · simp only [List.mem_cons] at hm ⊢
        exact hm.imp_right .inr
    · have hnext := hle _ List.mem_cons_self
      have hboth : (cmp m a).isLE = true ∧ (cmp m b).isLE = true := by
        split at hnext
        next hgt =>
          exact ⟨Std.TransCmp.isLE_trans hnext (Std.OrientedCmp.gt_iff_lt.mp hgt ▸ rfl), hnext⟩
        next hle =>
          exact ⟨hnext, Std.TransCmp.isLE_trans hnext (Ordering.isLE_iff_ne_gt.mpr hle)⟩
      intro c hc
      rcases List.mem_cons.mp hc with rfl | hc
      · exact hboth.1
      rcases List.mem_cons.mp hc with rfl | hc
      · exact hboth.2
      · exact hle c (List.mem_cons_of_mem _ hc)

variable [LinearOrder α] [DecidableEq κ]

/-- One value for each key: the first minimum among the distinct values, taken in order. -/
def firstPerKey (key : α → κ) (cmp : α → α → Ordering) (rows : Multiset α) : Multiset α :=
  (rows.map key).dedup.filterMap fun k =>
    minBy cmp (((rows.filter fun r => key r = k).dedup).sort (· ≤ ·))

theorem firstPerKey_least {key : α → κ} {cmp : α → α → Ordering} [Std.TransCmp cmp]
    {rows : Multiset α} (h : a ∈ firstPerKey key cmp rows) :
    a ∈ rows ∧ ∀ b ∈ rows, key b = key a → (cmp a b).isLE = true := by
  obtain ⟨k, -, hpick⟩ := (Multiset.mem_filterMap _ _).mp h
  have hmem : ∀ b, b ∈ ((rows.filter fun r => key r = k).dedup).sort (· ≤ ·) ↔
      b ∈ rows ∧ key b = k := by
    simp
  cases hsort : ((rows.filter fun r => key r = k).dedup).sort (· ≤ ·) with
  | nil =>
    rw [hsort] at hpick
    cases hpick
  | cons first rest =>
    rw [hsort] at hpick hmem
    obtain ⟨m, hm, hmin, hle⟩ := minBy_least cmp first rest
    obtain rfl : m = a := Option.some.inj (hmin.symm.trans hpick)
    obtain ⟨hrow, rfl⟩ := (hmem m).mp hm
    exact ⟨hrow, fun b hb hkey => hle b ((hmem b).mpr ⟨hb, hkey⟩)⟩

end FirstPerKey
