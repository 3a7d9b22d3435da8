import Mathlib.Data.List.Basic
import Mathlib.Algebra.Ring.Nat

/-! The transaction-id fence of a snapshot: which streamed transactions the snapshot already has. -/
namespace Palimpsest.Postgres

/-- Streamed ids carry 32 bits. -/
def xidRange : ℕ := 2 ^ 32

def low (xid : ℕ) : ℕ := xid % xidRange

structure SnapshotFence where
  xmax : ℕ
  inProgress : List ℕ
deriving Repr, DecidableEq

namespace SnapshotFence

/-- The id precedes `xmax` in the order of 32-bit ids, which wraps around. -/
def alreadyInSnapshot (fence : SnapshotFence) (xid : ℕ) : Bool :=
  if fence.inProgress.any (fun x => low x == xid) then false
  else decide (xidRange / 2 ≤ (xid + xidRange - low fence.xmax) % xidRange)

end SnapshotFence

section History

/-- What a database snapshot sees: ids below `xmax` that are not in progress. -/
structure PgSnapshot where
  xmin : ℕ
  xmax : ℕ
  xip : List ℕ
  xip_range : ∀ x ∈ xip, xmin ≤ x ∧ x < xmax

namespace PgSnapshot

def Sees (snapshot : PgSnapshot) (xid : ℕ) : Prop := xid < snapshot.xmax ∧ xid ∉ snapshot.xip

instance (snapshot : PgSnapshot) (xid : ℕ) : Decidable (snapshot.Sees xid) :=
  inferInstanceAs (Decidable (_ ∧ _))

def fence (snapshot : PgSnapshot) : SnapshotFence := ⟨snapshot.xmax, snapshot.xip⟩

/-- An id in progress has the same low half. -/
def Aliased (snapshot : PgSnapshot) (xid : ℕ) : Prop := ∃ x ∈ snapshot.xip, low x = low xid

instance (snapshot : PgSnapshot) (xid : ℕ) : Decidable (snapshot.Aliased xid) :=
  inferInstanceAs (Decidable (∃ x ∈ _, _))

/-- The id lies in the half cycle before `xmax` if the snapshot sees it and in the half cycle from
`xmax` on if not, and its low half is not confused with that of an id in progress. -/
def InWindow (snapshot : PgSnapshot) (xid : ℕ) : Prop :=
  (snapshot.Sees xid → ¬ snapshot.Aliased xid ∧ 0 < (snapshot.xmax - xid) % xidRange ∧
    (snapshot.xmax - xid) % xidRange ≤ xidRange / 2) ∧
  (¬ snapshot.Sees xid → snapshot.Aliased xid ∨ (xid - snapshot.xmax) % xidRange < xidRange / 2)

instance (snapshot : PgSnapshot) (xid : ℕ) : Decidable (snapshot.InWindow xid) :=
  inferInstanceAs (Decidable (_ ∧ _))

variable (snapshot : PgSnapshot)

theorem any_inProgress_iff (xid : ℕ) :
    snapshot.fence.inProgress.any (fun x => low x == low xid) = true ↔ snapshot.Aliased xid := by
  simp [fence, Aliased]

theorem aliased_of_mem {snapshot : PgSnapshot} (h : xid ∈ snapshot.xip) :
    snapshot.Aliased xid := ⟨xid, h, rfl⟩

theorem wrapped_of_le {xmax : ℕ} (h : xmax ≤ xid) :
    (low xid + xidRange - low xmax) % xidRange = (xid - xmax) % xidRange := by
  unfold low xidRange
  omega

theorem wrapped_of_lt {xmax : ℕ} (h : xid < xmax) :
    xidRange / 2 ≤ (low xid + xidRange - low xmax) % xidRange ↔
      0 < (xmax - xid) % xidRange ∧ (xmax - xid) % xidRange ≤ xidRange / 2 := by
  unfold low xidRange
  omega

theorem alreadyInSnapshot_iff (xid : ℕ) :
    snapshot.fence.alreadyInSnapshot (low xid) = true ↔ ¬ snapshot.Aliased xid ∧
      xidRange / 2 ≤ (low xid + xidRange - low snapshot.xmax) % xidRange := by
  unfold SnapshotFence.alreadyInSnapshot
  by_cases hals : snapshot.Aliased xid
  · rw [if_pos ((any_inProgress_iff snapshot xid).mpr hals)]
    simp [hals]
  · rw [if_neg fun h => hals ((any_inProgress_iff snapshot xid).mp h), decide_eq_true_eq]
    exact (and_iff_right hals).symm

/-- The fence decides membership from the low half exactly for ids in the window. -/
theorem fence_agrees_iff (xid : ℕ) :
    (snapshot.fence.alreadyInSnapshot (low xid) = true ↔ snapshot.Sees xid) ↔
      snapshot.InWindow xid := by
  rw [alreadyInSnapshot_iff]
  unfold InWindow
  by_cases hsees : snapshot.Sees xid
  · simp [wrapped_of_lt hsees.1, hsees]
  · by_cases hals : snapshot.Aliased xid
    · simp [hals]
    · have hge : snapshot.xmax ≤ xid := by
        by_contra hlt
        exact hsees ⟨Nat.not_le.mp hlt, fun hmem => hals (aliased_of_mem hmem)⟩
      simp [wrapped_of_le hge, hals, hsees]

end PgSnapshot

/-- The snapshot is taken when the first `taken` transactions of the history have committed. -/
def TakenAfter (history : List ℕ) (taken : ℕ) (snapshot : PgSnapshot) : Prop :=
  ∀ i xid, history[i]? = some xid → (snapshot.Sees xid ↔ i < taken)

/-- How often a transaction ends up in the mirror: once if the seed has it, and once if it is
streamed, which happens from `start` on, and not skipped. -/
def reflections (fence : SnapshotFence) (start taken i xid : ℕ) : ℕ :=
  (if i < taken then 1 else 0) +
    if start ≤ i ∧ fence.alreadyInSnapshot (low xid) = false then 1 else 0

/-- The fence is right about every streamed transaction, and each committed transaction is
reflected exactly once. -/
def ReflectedOnce (history : List ℕ) (start taken : ℕ) (snapshot : PgSnapshot) : Prop :=
  (∀ i xid, start ≤ i → history[i]? = some xid →
    (snapshot.fence.alreadyInSnapshot (low xid) = true ↔ snapshot.Sees xid)) ∧
  ∀ i xid, history[i]? = some xid → reflections snapshot.fence start taken i xid = 1

/-- For every history and every snapshot taken during it, streaming from before the snapshot
reflects each transaction once exactly when the streamed ids are in the window. -/
theorem reflectedOnce_iff {history : List ℕ} {start taken : ℕ} {snapshot : PgSnapshot}
    (htaken : TakenAfter history taken snapshot) (hstart : start ≤ taken) :
    ReflectedOnce history start taken snapshot ↔
      ∀ i xid, start ≤ i → history[i]? = some xid → snapshot.InWindow xid := by
  constructor
  · rintro ⟨hagrees, -⟩ i xid hi hxid
    exact (snapshot.fence_agrees_iff xid).mp (hagrees i xid hi hxid)
  · intro hwindow
    have hagrees : ∀ i xid, start ≤ i → history[i]? = some xid →
        (snapshot.fence.alreadyInSnapshot (low xid) = true ↔ snapshot.Sees xid) :=
      fun i xid hi hxid => (snapshot.fence_agrees_iff xid).mpr (hwindow i xid hi hxid)
    refine ⟨hagrees, fun i xid hxid => ?_⟩
    have hsees := htaken i xid hxid
    unfold reflections
    by_cases hi : start ≤ i
    · have hagree := (hagrees i xid hi hxid).trans hsees
      by_cases hearly : i < taken
      · simp [hearly, hagree.mpr hearly]
      · have hskip : snapshot.fence.alreadyInSnapshot (low xid) = false := by
          rw [← Bool.not_eq_true]
          exact fun h => hearly (hagree.mp h)
        simp [hearly, hi, hskip]
    · have hearly : i < taken := by omega
      simp [hearly, hi]

/-- Three transactions; the second was running when the snapshot was taken. -/
def runningSnapshot : PgSnapshot := ⟨6, 7, [6], by decide⟩

theorem running_reflected : TakenAfter [5, 6, 7] 1 runningSnapshot ∧
    ReflectedOnce [5, 6, 7] 0 1 runningSnapshot := by
  have htaken : TakenAfter [5, 6, 7] 1 runningSnapshot := by
    intro i xid hxid
    match i, hxid with
    | 0, rfl | 1, rfl | 2, rfl => decide
  refine ⟨htaken, (reflectedOnce_iff htaken (Nat.zero_le _)).mpr fun i xid _ hxid => ?_⟩
  match i, hxid with
  | 0, rfl | 1, rfl | 2, rfl => decide +kernel

/-- A snapshot that saw everything, and a transaction half a cycle of ids later. -/
def quietPgSnapshot : PgSnapshot := ⟨6, 6, [], by decide⟩

theorem half_cycle_lost : TakenAfter [5, 6 + 2 ^ 31] 1 quietPgSnapshot ∧
    ¬ ReflectedOnce [5, 6 + 2 ^ 31] 0 1 quietPgSnapshot := by
  constructor
  · intro i xid hxid
    match i, hxid with
    | 0, rfl => decide
    | 1, rfl => decide +kernel
  · rintro ⟨-, hcount⟩
    have hlost := hcount 1 (6 + 2 ^ 31) rfl
    revert hlost
    decide +kernel

end History

end Palimpsest.Postgres
