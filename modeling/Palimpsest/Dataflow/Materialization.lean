import Mathlib.Data.Finset.Basic

/-! Keys that are materialized or await an upquery, over any history of calls. -/
namespace Palimpsest.Dataflow
open List Function

inductive LookupOutcome where
  | hit
  | upquery
  | alreadyPending

structure MaterializedKeys (κ : Type) where
  materialized : Finset κ := ∅
  pending : Finset κ := ∅
  pendingWaiters : κ → Option ℕ := fun _ => none

inductive KeyCall (κ : Type) where
  | lookup (key : κ)
  | markMaterialized (key : κ)
  | forget (key : κ)
  | failPending (key : κ)
deriving DecidableEq

namespace MaterializedKeys
variable {κ : Type} [DecidableEq κ] (s : MaterializedKeys κ) (key : κ)

def lookup : LookupOutcome × MaterializedKeys κ :=
  if key ∈ s.materialized then (.hit, s)
  else if key ∈ s.pending then
    let waiters := (s.pendingWaiters key).getD 0 + 1
    (.alreadyPending, { s with pendingWaiters := update s.pendingWaiters key (some waiters) })
  else
    (.upquery, { s with
      pending := insert key s.pending
      pendingWaiters := update s.pendingWaiters key (some 1) })

def markMaterialized : ℕ × MaterializedKeys κ :=
  ((s.pendingWaiters key).getD 0,
    ⟨insert key s.materialized, s.pending.erase key, update s.pendingWaiters key none⟩)

def forget : Bool × MaterializedKeys κ :=
  (key ∈ s.materialized, { s with materialized := s.materialized.erase key })

def failPending : ℕ × MaterializedKeys κ :=
  ((s.pendingWaiters key).getD 0,
    ⟨s.materialized, s.pending.erase key, update s.pendingWaiters key none⟩)

def step : KeyCall κ → MaterializedKeys κ
  | .lookup key => (s.lookup key).2
  | .markMaterialized key => (s.markMaterialized key).2
  | .forget key => (s.forget key).2
  | .failPending key => (s.failPending key).2

def run (calls : List (KeyCall κ)) : MaterializedKeys κ := calls.foldl step {}

/-- What the three collections say of one key. -/
inductive KeyStatus where
  | materialized
  | pending (waiters : ℕ)
  | missing
deriving DecidableEq

def Shows : KeyStatus → Prop
  | .materialized => key ∈ s.materialized ∧ key ∉ s.pending ∧ s.pendingWaiters key = none
  | .pending waiters => key ∉ s.materialized ∧ key ∈ s.pending ∧ s.pendingWaiters key = some waiters
  | .missing => key ∉ s.materialized ∧ key ∉ s.pending ∧ s.pendingWaiters key = none

def KeyStatus.next (status : KeyStatus) (call : KeyCall κ) : KeyStatus :=
  match call, status with
  | .lookup other, .missing => if key = other then .pending 1 else status
  | .lookup other, .pending waiters => if key = other then .pending (waiters + 1) else status
  | .markMaterialized other, _ => if key = other then .materialized else status
  | .forget other, .materialized | .failPending other, .pending _ =>
    if key = other then .missing else status
  | _, _ => status

def KeyStatus.outcome : KeyStatus → LookupOutcome
  | .materialized => .hit
  | .pending _ => .alreadyPending
  | .missing => .upquery

def statusAfter (calls : List (KeyCall κ)) : KeyStatus := calls.foldl (KeyStatus.next key) .missing

variable {s key}

theorem Shows.step (h : Shows s key status) (call) :
    Shows (s.step call) key (status.next key call) := by
  cases call with
  | lookup other =>
    rcases eq_or_ne key other with rfl | hkey
    · cases status <;> simp_all [Shows, MaterializedKeys.step, lookup, KeyStatus.next]
    · simp only [MaterializedKeys.step, lookup]
      split_ifs <;> cases status <;> simp_all [Shows, KeyStatus.next]
  | markMaterialized other | forget other | failPending other =>
    by_cases hkey : key = other <;> cases status <;>
      simp_all [Shows, MaterializedKeys.step, markMaterialized, forget, failPending, KeyStatus.next]

theorem shows_run (key : κ) (calls) : Shows (run calls) key (statusAfter key calls) := by
  induction calls using reverseRecOn with
  | nil => simp [run, statusAfter, Shows]
  | append_singleton calls call ih => simpa [run, statusAfter] using ih.step call

theorem lookup_run (calls) : ((run calls).lookup key).1 = (statusAfter key calls).outcome := by
  have h := shows_run key calls
  cases hst : statusAfter key calls <;> simp_all [Shows, lookup, KeyStatus.outcome]

variable {calls during : List (KeyCall κ)}

/-- Neither completed nor failed, an upquery stays open, and every lookup waits for it. -/
theorem statusAfter_open (hmiss : statusAfter key before = .missing)
    (h : .markMaterialized key ∉ during ∧ .failPending key ∉ during) :
    statusAfter key (before ++ .lookup key :: during) =
      .pending (1 + during.count (.lookup key)) := by
  rw [statusAfter, foldl_append, ← statusAfter, hmiss]
  induction during using reverseRecOn with
  | nil => simp [KeyStatus.next]
  | append_singleton during call ih =>
    rw [← cons_append, foldl_concat, ih (by simp_all)]
    cases call <;> grind [KeyStatus.next]

theorem pending_since (h : statusAfter key calls = .pending n) : ∃ before during,
    calls = before ++ .lookup key :: during ∧ statusAfter key before = .missing ∧
      .markMaterialized key ∉ during ∧ .failPending key ∉ during := by
  induction calls using reverseRecOn generalizing n with
  | nil => cases h
  | append_singleton calls call ih =>
    rw [statusAfter, foldl_concat, ← statusAfter] at h
    cases hst : statusAfter key calls with
    | materialized => cases call <;> grind [KeyStatus.next]
    | missing =>
      obtain rfl : call = .lookup key := by cases call <;> grind [KeyStatus.next]
      exact ⟨calls, [], rfl, hst, not_mem_nil, not_mem_nil⟩
    | pending m =>
      obtain ⟨before, during, rfl, hmiss, hmark, hfail⟩ := ih hst
      refine ⟨before, during ++ [call], by simp, hmiss, ?_⟩
      cases call <;> grind [KeyStatus.next]

/-- After any history: the sets are apart, a key's waiters are counted exactly while it is pending,
the count that is handed back is that of the lookups since then, and an upquery starts again only
after the one before was completed or failed. -/
theorem waiters_accounted (calls : List (KeyCall κ)) (key : κ) :
    (key ∈ (run calls).materialized → key ∉ (run calls).pending) ∧
      ((run calls).pendingWaiters key ≠ none ↔ key ∈ (run calls).pending) ∧
      (∀ count ∈ [((run calls).markMaterialized key).1, ((run calls).failPending key).1],
        (key ∉ (run calls).pending → count = 0) ∧
        (key ∈ (run calls).pending → ∃ before during, calls = before ++ .lookup key :: during ∧
          ((run before).lookup key).1 = .upquery ∧
          count = 1 + during.count (.lookup key) ∧
            ∀ first rest, during = first ++ .lookup key :: rest →
            ((run (before ++ .lookup key :: first)).lookup key).1 = .alreadyPending)) ∧
      ∀ before during, calls = before ++ .lookup key :: during →
        ((run before).lookup key).1 = .upquery → ((run calls).lookup key).1 = .upquery →
        .markMaterialized key ∈ during ∨ .failPending key ∈ during := by
  have hshows := shows_run key calls
  simp only [lookup_run, mem_cons, markMaterialized, failPending, not_mem_nil, or_false, or_self,
    forall_eq]
  refine ⟨?_, ?_, ⟨?_, fun hpend => ?_⟩, ?_⟩
  iterate 3 cases hst : statusAfter key calls <;> grind [Shows]
  · cases hst : statusAfter key calls with
    | materialized | missing => grind [Shows]
    | pending n =>
      obtain ⟨before, during, rfl, hmiss, hmark, hfail⟩ := pending_since hst
      rw [statusAfter_open hmiss ⟨hmark, hfail⟩] at hshows
      refine ⟨before, during, rfl, by rw [hmiss]; rfl, by rw [hshows.2.2, Option.getD_some], ?_⟩
      rintro first rest rfl
      rw [statusAfter_open hmiss (by grind)]
      rfl
  · rintro before during rfl hup hagain
    by_contra hopen
    have hmiss : statusAfter key before = .missing := by
      cases hst : statusAfter key before <;> grind [KeyStatus.outcome]
    rw [statusAfter_open hmiss (not_or.mp hopen)] at hagain
    cases hagain

/-- Completed a second time, the key hands back no waiters, though a lookup missed since it became
pending. -/
theorem completed_twice : ((run []).lookup ()).1 = .upquery ∧
    ((run [.lookup (), .markMaterialized ()]).markMaterialized ()).1 = 0 :=
  ⟨rfl, rfl⟩

end MaterializedKeys

end Palimpsest.Dataflow
