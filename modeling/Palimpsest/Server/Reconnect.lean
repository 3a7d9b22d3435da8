import Palimpsest.Server.Rollback

/-! The per-address limit on reconnects, over any history of attempts. -/
namespace Palimpsest.Server
open List Function Runs

structure SlidingWindowSpec where
  maxAttempts : ℕ
  window : ℕ

variable {κ : Type} [DecidableEq κ] (spec : SlidingWindowSpec)

namespace ReconnectTracker

/-- Instants count from the earliest one the platform's clock can represent. -/
def checkedSub (now window : ℕ) : Option ℕ := if window ≤ now then some (now - window) else none

def admitAt (inner : κ → List ℕ) (ip : κ) (now : ℕ) : LimitDecision × (κ → List ℕ) :=
  let cutoff := (checkedSub now spec.window).getD now
  let attempts := (inner ip).filter (cutoff ≤ ·)
  if spec.maxAttempts ≤ attempts.length then (.reconnectRateExceeded, update inner ip attempts)
  else (.allowed, update inner ip (attempts ++ [now]))

/-- The stamps kept, beside every attempt admitted so far and the time of the last attempt. -/
structure History (κ : Type) where
  inner : κ → List ℕ := fun _ => []
  admitted : κ → List ℕ := fun _ => []
  clock : ℕ := 0

def attempt (s : History κ) (a : κ × ℕ) : History κ :=
  match admitAt spec s.inner a.1 a.2 with
  | (.allowed, inner) => ⟨inner, update s.admitted a.1 (s.admitted a.1 ++ [a.2]), a.2⟩
  | (_, inner) => ⟨inner, s.admitted, a.2⟩

/-- Time does not run backwards, and the window's start can be represented. -/
def InWindow (s : History κ) (a : κ × ℕ) : Prop := s.clock ≤ a.2 ∧ spec.window ≤ a.2

/-- Of one address: the admitted attempts that count at a time are still kept, and no window has
too many. -/
structure Limited (stamps admitted : List ℕ) (clock : ℕ) : Prop where
  kept : ∀ now ≥ clock, stamps.filter (now - spec.window ≤ ·) =
    admitted.filter (now - spec.window ≤ ·)
  past : ∀ t ∈ admitted, t ≤ clock
  bounded : ∀ start, (admitted.filter fun t => start ≤ t ∧ t ≤ start + spec.window).length ≤
    spec.maxAttempts

variable {spec}

theorem admitAt_eq {inner : κ → List ℕ} (h : spec.window ≤ now) (ip) : admitAt spec inner ip now =
    let attempts := (inner ip).filter (now - spec.window ≤ ·)
    if spec.maxAttempts ≤ attempts.length then (.reconnectRateExceeded, update inner ip attempts)
    else (.allowed, update inner ip (attempts ++ [now])) := by
  simp [admitAt, checkedSub, h]

theorem Limited.mono (h : Limited spec stamps admitted clock) (hnow : clock ≤ now) :
    Limited spec stamps admitted now :=
  ⟨fun later hlater => h.kept later (hnow.trans hlater), fun t ht => (h.past t ht).trans hnow,
    h.bounded⟩

theorem Limited.drop (h : Limited spec stamps admitted clock) (hnow : clock ≤ now) :
    Limited spec (stamps.filter (now - spec.window ≤ ·)) admitted now := by
  refine { h.mono hnow with kept := fun later hlater => ?_ }
  rw [← h.kept later (hnow.trans hlater), filter_filter]
  exact filter_congr fun t _ => by grind

theorem Limited.admit (h : Limited spec stamps admitted now)
    (hroom : (stamps.filter (now - spec.window ≤ ·)).length < spec.maxAttempts) :
    Limited spec (stamps ++ [now]) (admitted ++ [now]) now := by
  rw [h.kept now le_rfl] at hroom
  refine ⟨fun later hlater => ?_, ?_, fun start => ?_⟩
  · rw [filter_append, filter_append, h.kept later hlater]
  · exact forall_mem_append.mpr ⟨h.past, forall_mem_singleton.mpr le_rfl⟩
  · rw [filter_append, length_append]
    by_cases hin : start ≤ now ∧ now ≤ start + spec.window
    · -- what the interval holds is in the window that ends at the attempt
      have hsub := (monotone_filter_right admitted
        (p := fun t => start ≤ t ∧ t ≤ start + spec.window) (q := (now - spec.window ≤ ·))
        (by grind)).length_le
      grind
    · simpa [hin] using h.bounded start

theorem attempt_limited {s : History κ}
    (h : ∀ ip, Limited spec (s.inner ip) (s.admitted ip) s.clock)
    (hmeets : InWindow spec s a) (ip) : Limited spec ((attempt spec s a).inner ip)
      ((attempt spec s a).admitted ip) (attempt spec s a).clock := by
  have hdrop := (h ip).drop hmeets.1
  have hother := (h ip).mono hmeets.1
  simp only [attempt, admitAt_eq hmeets.2]
  by_cases hfull : spec.maxAttempts ≤ ((s.inner a.1).filter (a.2 - spec.window ≤ ·)).length
  · rcases eq_or_ne ip a.1 with rfl | hip
    · simpa only [if_pos hfull, update_self] using hdrop
    · simpa only [if_pos hfull, update_of_ne hip] using hother
  · rcases eq_or_ne ip a.1 with rfl | hip
    · simpa only [if_neg hfull, update_self] using hdrop.admit (by simpa using hfull)
    · simpa only [if_neg hfull, update_of_ne hip] using hother

/-- An attempt is admitted exactly when fewer than the limit were in the window that ends then, and
no interval of the window's length has more. -/
theorem reconnects_limited {s : History κ} (h : Reached (attempt spec) (InWindow spec) {} s) :
    (∀ ip now, InWindow spec s (ip, now) → ((admitAt spec s.inner ip now).1 = .allowed ↔
        ((s.admitted ip).filter fun t => now - spec.window ≤ t ∧ t ≤ now).length <
          spec.maxAttempts)) ∧ ∀ ip start, ((s.admitted ip).filter fun t =>
        start ≤ t ∧ t ≤ start + spec.window).length ≤ spec.maxAttempts := by
  have hlimited : ∀ ip, Limited spec (s.inner ip) (s.admitted ip) s.clock :=
    h.invariant (fun _ => ⟨by simp, by simp, by simp⟩) fun _ _ => attempt_limited
  refine ⟨fun ip now hmeets => ?_, fun ip => (hlimited ip).bounded⟩
  have hpast : ((s.admitted ip).filter fun t => now - spec.window ≤ t ∧ t ≤ now) =
      (s.admitted ip).filter (now - spec.window ≤ ·) :=
    filter_congr fun t ht => by simp [((hlimited ip).past t ht).trans hmeets.1]
  rw [hpast, admitAt_eq hmeets.2, ← (hlimited ip).kept now hmeets.1]
  grind

def oneInThree : SlidingWindowSpec := ⟨1, 3⟩

theorem second_refused :
    (admitAt oneInThree (attempt oneInThree {} ((), 5)).inner () 6).1 ≠ .allowed :=
  fun h => absurd ((((reconnects_limited (.step .start ⟨by decide, by decide⟩)).1 () 6
    ⟨by decide, by decide⟩)).mp h) (by decide)

/-- An early clock forgets the attempts before: the window is full, and one more is admitted. -/
theorem second_admitted : let s := attempt oneInThree {} ((), 1)
    ((s.admitted ()).filter fun t => 2 - 3 ≤ t ∧ t ≤ 2).length = oneInThree.maxAttempts ∧
      (admitAt oneInThree s.inner () 2).1 = .allowed :=
  ⟨rfl, rfl⟩

end ReconnectTracker

end Palimpsest.Server
