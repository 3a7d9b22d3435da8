import Palimpsest.Server.Channel
import Palimpsest.Foundation.SignedBag
import Mathlib.Tactic.Linarith

/-! What a paired event adds to a bag of rows and takes from it. -/
namespace Palimpsest.Server
open Dataflow List SignedBag

variable {δ : Type}

/-- The old image goes, the new one comes. -/
def RowChange.signed (change : RowChange δ) : List (Row δ × ℤ) :=
  change.old.toList.map (fun row => (row, -1)) ++ change.new.toList.map fun row => (row, 1)

def DiffEvent.signed : DiffEvent δ → List (Row δ × ℤ)
  | .transactionUpdate _ _ _ _ changes => changes.flatMap RowChange.signed
  | _ => []

/-- A diff counts as one row, inserted or deleted, whatever its multiplicity. -/
def RawDiff.clipped (diff : RawDiff δ) : ℤ := if 0 < diff.diff then 1 else -1

section Counting
variable [DecidableEq δ]
variable {diffs : List (RawDiff δ)}

def marks (chosen : RawDiff δ → Bool) (diffs : List (RawDiff δ)) (row : Row δ) : ℤ :=
  net ((diffs.filter chosen).map fun diff => (diff.row, 1)) row

theorem marks_cons (chosen : RawDiff δ → Bool) (diff diffs row) : marks chosen (diff :: diffs) row =
      (if chosen diff ∧ diff.row = row then 1 else 0) + marks chosen diffs row := by
  unfold marks
  by_cases hchosen : chosen diff <;> simp [hchosen]

theorem marks_or (h : ∀ diff ∈ diffs, chosen diff → ¬ chosen' diff) (row) :
    marks (fun diff => chosen diff || chosen' diff) diffs row =
      marks chosen diffs row + marks chosen' diffs row := by
  induction diffs with
  | nil => rfl
  | cons diff diffs ih =>
    have hdiff := h diff mem_cons_self
    rw [marks_cons, marks_cons, marks_cons, ih fun d hd => h d (mem_cons_of_mem _ hd)]
    by_cases hc : chosen diff <;> by_cases hc' : chosen' diff <;> simp [hc, hc'] at hdiff ⊢
    · ring
    · ring

theorem marks_all (h : ∀ diff ∈ diffs, chosen diff = true) (row) :
    marks chosen diffs row = net (diffs.map fun diff => (diff.row, 1)) row := by
  rw [marks, filter_eq_self.mpr h]

theorem net_singles (h : ∀ diff, (change diff).signed = [(diff.row, weight)])
    (diffs : List (RawDiff δ)) (row) : net ((diffs.map change).flatMap RowChange.signed) row =
      weight * net (diffs.map fun diff => (diff.row, 1)) row := by
  rw [flatMap_map]
  induction diffs with
  | nil => simp
  | cons diff diffs ih =>
    rw [flatMap_cons, net_append, ih, h]
    by_cases hrow : diff.row = row <;> simp [hrow]
    ring

theorem net_deletes (diffs : List (RawDiff δ)) (row) :
    net ((diffs.map deleteOf).flatMap RowChange.signed) row =
      -net (diffs.map fun diff => (diff.row, 1)) row :=
  (net_singles (fun _ => rfl) diffs row).trans (neg_one_mul _)

section
omit [DecidableEq δ]

theorem pairBin_nil (ins : List (RawDiff δ)) : pairBin ins [] = ins.map insertOf := by
  simp [pairBin]

theorem pairBin_concat (ins outs : List (RawDiff δ)) (new old : RawDiff δ) :
    pairBin (ins ++ [new]) (outs ++ [old]) =
      ⟨.update, some old.row, some new.row⟩ :: (ins.map insertOf ++ outs.map deleteOf) := by
  simp [pairBin]

end

theorem net_pairBin (h : ins ≠ []) (row : Row δ) :
    net ((pairBin ins outs).flatMap RowChange.signed) row =
      net (ins.map fun diff => (diff.row, 1)) row -
        net (outs.map fun diff => (diff.row, 1)) row := by
  obtain ⟨ins, new, rfl⟩ := (eq_nil_or_concat' ins).resolve_left h
  rcases eq_nil_or_concat' outs with rfl | ⟨outs, old, rfl⟩
  · rw [pairBin_nil, net_singles fun _ => rfl]
    simp
  · rw [pairBin_concat, flatMap_cons, flatMap_append, net_append, net_append,
      net_singles fun _ => rfl, net_deletes, map_append, map_append, net_append,
      net_append]
    simp only [RowChange.signed, Option.toList_some, map_cons, map_nil,
      singleton_append, net_cons, net_nil]
    split <;> split <;> ring

section Bins
variable (key : Row δ → List (List ℕ))
variable {ks : List (List (List ℕ))} {diffs : List (RawDiff δ)} {k : List (List ℕ)}

section
omit [DecidableEq δ]

theorem mem_binKeys : k ∈ binKeys key diffs ↔ ∃ diff ∈ diffs, key diff.row = k := by
  simp [binKeys]

theorem nodup_binKeys (diffs : List (RawDiff δ)) : (binKeys key diffs).Nodup :=
  nodup_dedup _

theorem bin_ne_nil (h : k ∈ binKeys key diffs) : bin key diffs k ≠ [] := by
  obtain ⟨diff, hdiff, rfl⟩ := (mem_binKeys key).mp h
  exact ne_nil_of_mem (mem_filter.mpr ⟨hdiff, beq_self_eq_true _⟩)

end

/-- A sum over bins of different keys is a sum over the diffs with one of the keys. -/
theorem marks_keys (h : k ∉ ks) (diffs row) : marks (fun diff => key diff.row ∈ k :: ks) diffs row =
      net ((bin key diffs k).map fun diff => (diff.row, 1)) row +
        marks (fun diff => key diff.row ∈ ks) diffs row := by
  have hsplit : ∀ diff ∈ diffs, decide (key diff.row ∈ k :: ks) =
      ((key diff.row == k) || decide (key diff.row ∈ ks)) := fun diff _ => by
    rw [Bool.eq_iff_iff]
    simp
  rw [marks, filter_congr hsplit, ← marks, marks_or]
  · rfl
  · intro diff _ heq hmem
    exact h (eq_of_beq heq ▸ of_decide_eq_true hmem)

theorem net_paired (hnd : ks.Nodup) (hks : ∀ k ∈ ks, bin key ins k ≠ []) (row) :
    net ((ks.flatMap fun k => pairBin (bin key ins k) (bin key outs k)).flatMap
      RowChange.signed) row = marks (fun diff => key diff.row ∈ ks) ins row -
        marks (fun diff => key diff.row ∈ ks) outs row := by
  induction ks with
  | nil => simp [marks]
  | cons k ks ih =>
    rw [nodup_cons] at hnd
    rw [flatMap_cons, flatMap_append, net_append, net_pairBin (hks k mem_cons_self),
      ih hnd.2 fun k' hk' => hks k' (mem_cons_of_mem _ hk'),
      marks_keys key hnd.1, marks_keys key hnd.1]
    ring

theorem net_unpaired (hnd : ks.Nodup) (row) :
    net ((ks.flatMap fun k => (bin key outs k).map deleteOf).flatMap RowChange.signed)
      row = -marks (fun diff => key diff.row ∈ ks) outs row := by
  induction ks with
  | nil => simp [marks]
  | cons k ks ih =>
    rw [nodup_cons] at hnd
    rw [flatMap_cons, flatMap_append, net_append, net_deletes, ih hnd.2, marks_keys key hnd.1]
    ring

/-- Pairing makes one row of every diff. -/
theorem net_pairChanges (diffs row) : net ((pairChanges key diffs).flatMap RowChange.signed) row =
      net (diffs.map fun diff => (diff.row, diff.clipped)) row := by
  have hsplit : net (diffs.map fun diff => (diff.row, diff.clipped)) row =
      marks (fun diff => 0 < diff.diff) diffs row -
        marks (fun diff => ¬ 0 < diff.diff) diffs row := by
    induction diffs with
    | nil => rfl
    | cons diff diffs ih =>
      rw [map_cons, net_cons, ih, marks_cons, marks_cons, RawDiff.clipped]
      by_cases hsign : 0 < diff.diff <;> by_cases hrow : diff.row = row <;>
        simp [hsign, hrow] <;> ring
  have hinserts : ∀ diff ∈ diffs.filter fun diff => 0 < diff.diff,
      decide (key diff.row ∈ binKeys key (diffs.filter fun diff => 0 < diff.diff)) = true :=
    fun diff hdiff => decide_eq_true ((mem_binKeys key).mpr ⟨diff, hdiff, rfl⟩)
  -- a deleted row is in a bin with an insert or in one without
  have hdeletes : ∀ diff ∈ diffs.filter fun diff => ¬ 0 < diff.diff,
      (decide (key diff.row ∈ binKeys key (diffs.filter fun diff => 0 < diff.diff)) ||
        decide (key diff.row ∈ (binKeys key (diffs.filter fun diff => ¬ 0 < diff.diff)).filter
          fun k => k ∉ binKeys key (diffs.filter fun diff => 0 < diff.diff))) = true := by
    intro diff hdiff
    have hmem := (mem_binKeys key).mpr ⟨diff, hdiff, rfl⟩
    by_cases hkey : key diff.row ∈ binKeys key (diffs.filter fun diff => 0 < diff.diff)
    · simp [hkey]
    · simp only [Bool.or_eq_true, decide_eq_true_eq]
      exact .inr (mem_filter.mpr ⟨hmem, decide_eq_true hkey⟩)
  have houts := marks_all hdeletes row
  rw [marks_or] at houts
  · rw [pairChanges, flatMap_append, net_append,
      net_paired key (nodup_binKeys key _) fun k hk => bin_ne_nil key hk,
      net_unpaired key ((nodup_binKeys key _).filter _), marks_all hinserts, hsplit]
    unfold marks at houts ⊢
    linarith
  · intro diff _ hin hout
    have hnot := (mem_filter.mp (of_decide_eq_true hout)).2
    exact of_decide_eq_true hnot (of_decide_eq_true hin)

theorem net_pairChanges_of_unit (hunit : ∀ diff ∈ diffs, diff.diff = 1 ∨ diff.diff = -1) (row) :
    net ((pairChanges key diffs).flatMap RowChange.signed) row =
      net (diffs.map fun diff => (diff.row, diff.diff)) row := by
  have hclipped : ∀ diff ∈ diffs, (diff.row, diff.clipped) = (diff.row, diff.diff) := by
    intro diff hdiff
    rcases hunit diff hdiff with h | h <;> simp [RawDiff.clipped, h]
  rw [net_pairChanges, map_congr_left hclipped]

end Bins

/-- The changes add up to the diffs exactly when, row by row, the multiplicities beyond one row for
each diff cancel. -/
theorem pairChanges_net_iff (bytes : δ → List ℕ) (primaryKey : List ℕ) (diffs : List (RawDiff δ)) :
    (∀ row, net ((pairChanges (primaryKeyBytes bytes primaryKey) diffs).flatMap
        RowChange.signed) row = net (diffs.map fun diff => (diff.row, diff.diff)) row) ↔
      ∀ row, net (diffs.map fun diff => (diff.row, diff.diff - diff.clipped)) row = 0 := by
  have hsurplus (row : Row δ) :
      net (diffs.map fun diff => (diff.row, diff.diff - diff.clipped)) row =
        net (diffs.map fun diff => (diff.row, diff.diff)) row -
          net (diffs.map fun diff => (diff.row, diff.clipped)) row := by
    induction diffs with
    | nil => rfl
    | cons diff diffs ih =>
      simp only [map_cons, net_cons, ih]
      split <;> ring
  refine forall_congr' fun row => ?_
  rw [net_pairChanges, hsurplus, sub_eq_zero, eq_comm]

end Counting

/-- One insertion of multiplicity two: a single row is inserted. -/
theorem doubled_insert_lost :
    net ((pairChanges (primaryKeyBytes (fun n => [n]) [0]) [⟨none, [7], 1, 2⟩]).flatMap
        RowChange.signed) [7] = 1 ∧
      net ([(⟨none, [7], 1, 2⟩ : RawDiff ℕ)].map fun diff => (diff.row, diff.diff)) [7] = 2 := by
  decide +kernel

end Palimpsest.Server
