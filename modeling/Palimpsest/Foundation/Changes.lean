import Palimpsest.Foundation.SignedBag
import Mathlib.Data.List.Sort
import Mathlib.Data.Multiset.Bind

/-! Signed changes between bags: the changes that lead from one bag to another, and the bag a list
of changes adds up to. -/
namespace Changes
open List

variable {α : Type*} [DecidableEq α]

structure Listing (α : Type*) [DecidableEq α] where
  order : Multiset α → List α
  perm : ∀ bag, (order bag : Multiset α) = bag.dedup

namespace Listing
variable (listing : Listing α)

theorem mem_order : a ∈ listing.order bag ↔ a ∈ bag := by
  rw [← Multiset.mem_coe, listing.perm, Multiset.mem_dedup]

theorem nodup_order (bag) : (listing.order bag).Nodup := by
  rw [← Multiset.coe_nodup, listing.perm]
  exact Multiset.nodup_dedup bag

omit [DecidableEq α] in
theorem insertionSort_eq_of_perm (r : α → α → Prop) [DecidableRel r] [IsTrans α r]
    [Std.Antisymm r] [Std.Total r] {l l' : List α} (h : l.Perm l') :
    l.insertionSort r = l'.insertionSort r :=
  List.Perm.eq_of_pairwise (fun _ _ _ _ => Std.Antisymm.antisymm _ _)
    (pairwise_insertionSort r l) (pairwise_insertionSort r l')
    (((perm_insertionSort r l).trans h).trans (perm_insertionSort r l').symm)

def sorted (r : α → α → Prop) [DecidableRel r] [IsTrans α r] [Std.Antisymm r] [Std.Total r] :
    Listing α where
  order bag := Quotient.liftOn bag.dedup (fun l => l.insertionSort r) fun _ _ h =>
    insertionSort_eq_of_perm r h
  perm bag := by
    obtain ⟨l, hl⟩ := Quotient.exists_rep bag.dedup
    rw [← hl]
    exact Quotient.sound (perm_insertionSort r l)

end Listing

def between (listing : Listing α) (old new : Multiset α) : List (α × ℤ) :=
  (listing.order (old + new)).filterMap fun a =>
    let diff : ℤ := new.count a - old.count a
    if diff = 0 then none else some (a, diff)

theorem mem_between {listing : Listing α} (h : change ∈ between listing old new) :
    change.2 = new.count change.1 - old.count change.1 ∧ change.2 ≠ 0 := by
  obtain ⟨a, -, ha⟩ := mem_filterMap.mp h
  dsimp only at ha
  split at ha
  · cases ha
  · next hne =>
    cases ha
    exact ⟨rfl, hne⟩

variable (listing : Listing α)

theorem nodup_between (old new) : ((between listing old new).map Prod.fst).Nodup := by
  have hsub : ((between listing old new).map Prod.fst).Sublist (listing.order (old + new)) := by
    unfold between
    induction listing.order (old + new) with
    | nil => exact .slnil
    | cons a rest ih =>
      rw [filterMap_cons]
      dsimp only
      split
      · next hnone => exact ih.cons a
      · next change hsome =>
        split at hsome
        · cases hsome
        · cases hsome
          exact ih.cons_cons a
  exact hsub.nodup (listing.nodup_order _)

theorem net_of_nodup {changes : List (α × ℤ)} (h : (changes.map Prod.fst).Nodup)
    (hmem : change ∈ changes) : SignedBag.net changes change.1 = change.2 := by
  induction changes with
  | nil => cases hmem
  | cons first rest ih =>
    rw [map_cons, nodup_cons] at h
    rw [SignedBag.net_cons]
    rcases mem_cons.mp hmem with rfl | hrest
    · have hnet : SignedBag.net rest change.1 = 0 := SignedBag.net_eq_zero fun other hother heq =>
        h.1 (heq ▸ mem_map_of_mem hother)
      rw [if_pos rfl, hnet, add_zero]
    · have hne : first.1 ≠ change.1 := fun heq => h.1 (heq ▸ mem_map_of_mem hrest)
      rw [if_neg hne, zero_add, ih h.2 hrest]

theorem net_between (old new) (a : α) :
    SignedBag.net (between listing old new) a = new.count a - old.count a := by
  by_cases hmem : ∃ diff, (a, diff) ∈ between listing old new
  · obtain ⟨diff, hdiff⟩ := hmem
    rw [net_of_nodup (nodup_between listing old new) hdiff]
    exact (mem_between hdiff).1
  · have hnet : SignedBag.net (between listing old new) a = 0 :=
      SignedBag.net_eq_zero fun change hchange heq => hmem ⟨change.2, heq ▸ hchange⟩
    rw [hnet]
    by_contra hne
    have hcount : (new.count a : ℤ) - old.count a ≠ 0 := fun heq => hne heq.symm
    refine hmem ⟨new.count a - old.count a, mem_filterMap.mpr ⟨a, ?_, ?_⟩⟩
    · rw [listing.mem_order, ← Multiset.count_pos, Multiset.count_add]
      omega
    · exact if_neg hcount

theorem between_self (bag) : between listing bag bag = [] := by
  rw [between, filterMap_eq_nil_iff]
  intro a _
  simp

theorem added_between_zero (bag) :
    ((((between listing 0 bag).filter fun change => 0 < change.2).map Prod.fst : List α) :
      Multiset α) = bag.dedup := by
  have hrows : ((between listing 0 bag).filter fun change => 0 < change.2).map Prod.fst =
      listing.order bag := by
    have hall : ∀ a ∈ listing.order bag, 0 < bag.count a := fun a ha =>
      Multiset.count_pos.mpr (listing.mem_order.mp ha)
    rw [between, zero_add]
    generalize listing.order bag = members at hall
    induction members with
    | nil => rfl
    | cons a rest ih =>
      have ha := hall a mem_cons_self
      have hne : ¬ ((bag.count a : ℤ) - (0 : Multiset α).count a = 0) := by
        rw [Multiset.count_zero]
        omega
      rw [filterMap_cons]
      simp only [if_neg hne]
      rw [filter_cons_of_pos (by simpa using ha), map_cons,
        ih fun b hb => hall b (mem_cons_of_mem _ hb)]
  rw [hrows, listing.perm]

def total (changes : List (α × ℤ)) : Multiset α :=
  (changes.map fun change => Multiset.replicate change.2.toNat change.1).sum -
    (changes.map fun change => Multiset.replicate (-change.2).toNat change.1).sum

theorem count_sum_replicate (weight : ℤ → ℕ) (changes : List (α × ℤ)) (a : α) :
    (changes.map fun change => Multiset.replicate (weight change.2) change.1).sum.count a =
      (changes.map fun change => if change.1 = a then weight change.2 else 0).sum := by
  induction changes with
  | nil => rfl
  | cons change rest ih =>
    rw [map_cons, sum_cons, Multiset.count_add, ih, map_cons, sum_cons, Multiset.count_replicate]

theorem count_total {changes : List (α × ℤ)} (h : 0 ≤ SignedBag.net changes a) :
    ((total changes).count a : ℤ) = SignedBag.net changes a := by
  have hsplit : SignedBag.net changes a =
      ((changes.map fun change => if change.1 = a then change.2.toNat else 0).sum : ℕ) -
        ((changes.map fun change => if change.1 = a then (-change.2).toNat else 0).sum : ℕ) := by
    clear h
    induction changes with
    | nil => rfl
    | cons =>
      rw [SignedBag.net_cons]
      simp only [map_cons, sum_cons]
      split <;> omega
  rw [total, Multiset.count_sub, count_sum_replicate Int.toNat,
    count_sum_replicate fun diff => (-diff).toNat]
  omega

end Changes
