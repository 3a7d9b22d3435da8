import Mathlib.Data.List.Chain
import Palimpsest.Postgres.Batches
import Palimpsest.Server.Registry

/-! An in-memory cursor drained into batches of one LSN. -/
namespace Palimpsest.Server.VecCursor
open Dataflow Postgres List

variable {δ : Type}

/-- The loop of `next_batch`: diffs are pulled while the LSN to come is the first one's. -/
def pull (first : RawDiff δ) (diffs : List (RawDiff δ)) :
    List (RawDiff δ) → List (RawDiff δ) × List (RawDiff δ)
  | [] => (diffs, [])
  | next :: cursor =>
    if next.lsn ≠ first.lsn then (diffs, next :: cursor) else pull first (diffs ++ [next]) cursor

def nextBatch : List (RawDiff δ) → Option (LsnBatch δ × List (RawDiff δ))
  | [] => none
  | first :: cursor =>
    let (diffs, cursor) := pull first [first] cursor
    some (⟨first.lsn, diffs⟩, cursor)

theorem pull_eq (first : RawDiff δ) (diffs cursor) : pull first diffs cursor =
    (diffs ++ cursor.takeWhile (·.lsn = first.lsn), cursor.dropWhile (·.lsn = first.lsn)) := by
  induction cursor generalizing diffs with
  | nil => simp [pull]
  | cons next cursor ih => by_cases h : next.lsn = first.lsn <;> simp [pull, h, ih]

/-- A batch is a run of diffs with its LSN, and what follows starts with another one. -/
theorem nextBatch_spec {cursor : List (RawDiff δ)} (h : nextBatch cursor = some (batch, rest)) :
    batch.diffs ≠ [] ∧ batch.diffs ++ rest = cursor ∧ (∀ diff ∈ batch.diffs, diff.lsn = batch.lsn) ∧
      ∀ next ∈ rest.head?, next.lsn ≠ batch.lsn := by
  cases cursor with
  | nil => cases h
  | cons first cursor =>
    cases h
    rw [pull_eq]
    refine ⟨by simp, by simp, forall_mem_cons.mpr ⟨rfl, fun diff hdiff => ?_⟩, fun next hnext => ?_⟩
    · simpa using mem_takeWhile_imp hdiff
    · simpa [Option.mem_def.mp hnext] using head?_dropWhile_not (·.lsn = first.lsn) cursor

/-- The batches pushed, and the error that ended the loop. -/
def drain (last : Option Lsn) (batches : List (LsnBatch δ)) (cursor : List (RawDiff δ)) :
    List (LsnBatch δ) × Option RouterError :=
  match _hbatch : nextBatch cursor with
  | none => (batches, none)
  | some (batch, rest) =>
    if last.any (batch.lsn < ·) then (batches, some .channelSaturated)
    else drain (some batch.lsn) (batches ++ [batch]) rest
termination_by cursor.length
decreasing_by
  obtain ⟨hne, rfl, -⟩ := nextBatch_spec _hbatch
  simp [length_pos_iff.mpr hne]

def batchByLsn (cursor : List (RawDiff δ)) : Except RouterError (List (LsnBatch δ)) :=
  match drain none [] cursor with
  | (batches, none) => .ok batches
  | (_, some error) => .error error

/-- The batches are maximal runs of equal LSN: what is unread starts with another one. -/
structure Grouped (batches : List (LsnBatch δ)) (diffs unread : List (RawDiff δ)) : Prop where
  read : batches.flatMap LsnBatch.diffs ++ unread = diffs
  same : ∀ batch ∈ batches, batch.diffs ≠ [] ∧ ∀ diff ∈ batch.diffs, diff.lsn = batch.lsn
  increasing : batches.IsChain (·.lsn < ·.lsn)
  complete : ∀ batch ∈ batches.getLast?, ∀ next ∈ unread.head?, next.lsn ≠ batch.lsn

theorem drain_spec (batches : List (LsnBatch δ)) (last cursor)
    (hlast : batches.getLast?.map LsnBatch.lsn = last) (h : Grouped batches diffs cursor) :
    ∃ unread, Grouped (drain last batches cursor).1 diffs unread ∧
      match (drain last batches cursor).2 with
      | none => unread = []
      | some _ => ∃ next ∈ unread, ∃ batch ∈ (drain last batches cursor).1,
          next.lsn < batch.lsn := by
  fun_induction drain last batches cursor with
  | case1 last batches cursor hnone =>
    cases cursor with
    | nil => exact ⟨[], h, rfl⟩
    | cons first cursor => cases hnone
  | case2 last batches cursor batch rest hbatch hinverted =>
    obtain ⟨hne, rfl, hsame, -⟩ := nextBatch_spec hbatch
    obtain ⟨next, hnext⟩ := exists_mem_of_ne_nil _ hne
    rw [← hlast, Option.any_map, Option.any_eq_true_iff_get] at hinverted
    obtain ⟨hsome, hlt⟩ := hinverted
    refine ⟨_, h, next, mem_append_left _ hnext, _,
      mem_of_getLast? (Option.some_get hsome).symm, ?_⟩
    rw [hsame next hnext]
    simpa using hlt
  | case3 last batches cursor batch rest hbatch hordered ih =>
    obtain ⟨hne, rfl, hsame, hstop⟩ := nextBatch_spec hbatch
    refine ih (by simp) ⟨by simpa using h.read, ?_, ?_, by simpa using hstop⟩
    · exact forall_mem_append.mpr ⟨h.same, forall_mem_singleton.mpr ⟨hne, hsame⟩⟩
    · refine isChain_append.mpr ⟨h.increasing, isChain_singleton _, fun prev hbefore _ hmem => ?_⟩
      cases mem_singleton.mp (mem_of_mem_head? hmem)
      obtain ⟨first, more, hdiffs⟩ := exists_cons_of_ne_nil hne
      have hdiffer := h.complete prev hbefore first (by simp [hdiffs])
      rw [hsame first (by simp [hdiffs])] at hdiffer
      have hle : ¬ batch.lsn < prev.lsn := by
        simpa [← hlast, Option.mem_def.mp hbefore] using hordered
      lia

theorem Grouped.ordered {diffs : List (RawDiff δ)} (h : Grouped batches diffs []) :
    diffs.Pairwise (·.lsn ≤ ·.lsn) := by
  rw [← h.read, append_nil, pairwise_flatMap]
  refine ⟨fun batch hbatch => pairwise_of_forall_mem_list fun a ha b hb => ?_, ?_⟩
  · rw [(h.same batch hbatch).2 a ha, (h.same batch hbatch).2 b hb]
  · refine (isChain_iff_pairwise.mp h.increasing).imp_of_mem fun ha hb hlt a ha' b hb' => ?_
    rw [(h.same _ ha).2 a ha', (h.same _ hb).2 b hb']
    exact hlt.le

/-- The diffs are grouped exactly when their LSNs never decrease. When they are not, the batches
before the inversion were whole. -/
theorem batchByLsn_spec (diffs : List (RawDiff δ)) :
    ((∃ batches, batchByLsn diffs = .ok batches) ↔ diffs.Pairwise (·.lsn ≤ ·.lsn)) ∧
      (∀ batches, batchByLsn diffs = .ok batches → Grouped batches diffs []) ∧
      ∀ error, batchByLsn diffs = .error error →
        ∃ unread, Grouped (drain none [] diffs).1 diffs unread ∧
          ∃ next ∈ unread, ∃ batch ∈ (drain none [] diffs).1, next.lsn < batch.lsn := by
  have hstart : Grouped [] diffs diffs := ⟨rfl, nofun, .nil, nofun⟩
  obtain ⟨unread, h, hend⟩ := drain_spec [] none diffs rfl hstart
  unfold batchByLsn
  generalize drain none [] diffs = drained at h hend
  obtain ⟨batches, _ | error⟩ := drained
  · obtain rfl : unread = [] := hend
    exact ⟨⟨fun _ => h.ordered, fun _ => ⟨batches, rfl⟩⟩,
      fun _ hbatches => Except.ok.inj hbatches ▸ h,
      nofun⟩
  · refine ⟨⟨nofun, fun hordered => ?_⟩, nofun, fun _ _ => ⟨unread, h, hend⟩⟩
    obtain ⟨next, hnext, batch, hbatch, hlt⟩ := hend
    obtain ⟨hne, hsame⟩ := h.same batch hbatch
    obtain ⟨diff, hdiff⟩ := exists_mem_of_ne_nil _ hne
    rw [← h.read, pairwise_append] at hordered
    have hle := hordered.2.2 diff (mem_flatMap.mpr ⟨batch, hbatch, hdiff⟩) next hnext
    rw [hsame diff hdiff] at hle
    exact absurd hlt hle.not_gt

end Palimpsest.Server.VecCursor
