import Palimpsest.Postgres.Snapshots

/-! The mirror against the journal: what a reconciliation appends, and the mirror as the seeded rows
and everything pushed since. -/
namespace Palimpsest.Postgres
open Dataflow Server Sql Function List

variable {δ : Type} [DecidableEq δ]

/-- The weight of a row's diffs depends on the row alone. -/
theorem mem_bagDiffs {hash : HashOrder δ} (h : diff ∈ bagDiffs lsn table hash old new) :
    diff.table = some table ∧
      diff.diff = if old.count diff.row < new.count diff.row then 1 else -1 := by
  obtain ⟨row, -, hrow⟩ := mem_flatMap.mp h
  simp only [tally_tally] at hrow
  rw [eq_of_mem_replicate hrow]
  split
  next hpos =>
    have hlt : old.count row < new.count row := by omega
    simp [addition, hlt]
  next hneg =>
    have hle : ¬ old.count row < new.count row := by omega
    simp [retraction, hle]

theorem foldl_reconcileTable_fst (lsn : Lsn) (fresh : Inputs δ) (hash) (tables : List TableId)
    (state table) : (tables.foldl (reconcileTable lsn fresh hash) state).1 table =
      if table ∈ tables then fresh table else state.1 table := by
  induction tables generalizing state with
  | nil => rfl
  | cons first tables ih =>
    rw [foldl_cons, ih]
    by_cases hfirst : table = first <;> simp [hfirst, reconcileTable]

theorem mem_foldl_reconcileTable {fresh : Inputs δ} {hash : HashOrder δ} {tables : List TableId}
    {state : Inputs δ × List (RawDiff δ)}
    (h : diff ∈ (tables.foldl (reconcileTable lsn fresh hash) state).2) : diff ∈ state.2 ∨
      ∃ table ∈ tables, diff ∈ bagDiffs lsn table hash (state.1 table) (fresh table) := by
  induction tables generalizing state with
  | nil => exact .inl h
  | cons first tables ih =>
    rcases ih h with hold | ⟨table, htab, hdiff⟩
    · exact (mem_append.mp hold).imp_right fun hnew => ⟨first, mem_cons_self, hnew⟩
    · dsimp only [reconcileTable] at hdiff
      by_cases hfirst : table = first
      · -- a table that comes again is the snapshot's by now
        subst hfirst
        simp [bagDiffs_of_perm lsn table hash (.refl _)] at hdiff
      · rw [update_of_ne hfirst] at hdiff
        exact .inr ⟨table, mem_cons_of_mem _ htab, hdiff⟩

/-- Reconciling makes every streamed table the snapshot's. The journal gets the difference of the
two bags as diffs, with no row both inserted and deleted; other tables are left alone. -/
theorem reconcileSnapshot_minimal (null : δ) (tables : List TableId) (mirror fresh : Inputs δ)
    (lsn : Lsn) (hash : HashOrder δ) : ∃ mirror' diffs,
      (WriterCall.reconcileSnapshot lsn fresh hash).run null tables mirror = some (mirror', diffs) ∧
      (∀ journal history, Journal.Holds journal history →
        (journal.pushAll diffs).Holds (history ++ diffs)) ∧
      (∀ table, mirror' table = if table ∈ tables then fresh table else mirror table) ∧
      (∀ table row, effect diffs table row =
        if table ∈ tables then ((fresh table).count row : ℤ) - (mirror table).count row else 0) ∧
      ∀ diff ∈ diffs, ∀ diff' ∈ diffs, diff.table = diff'.table → diff.row = diff'.row →
        diff.diff = diff'.diff := by
  refine ⟨_, _, rfl, fun _ _ h => h.pushAll _,
    foldl_reconcileTable_fst lsn fresh hash tables _, ?_, ?_⟩
  · intro table row
    obtain ⟨diffs, hdiffs, haccounts⟩ :=
      foldl_accounts (reconcileTable_accounts lsn fresh hash) tables (mirror, [])
    have hcount := haccounts table row
    rw [foldl_reconcileTable_fst] at hcount
    split <;> grind
  · intro diff hdiff diff' hdiff' htab hrow
    obtain hnil | ⟨table, -, hmem⟩ := mem_foldl_reconcileTable hdiff
    · cases hnil
    obtain hnil | ⟨table', -, hmem'⟩ := mem_foldl_reconcileTable hdiff'
    · cases hnil
    obtain ⟨hat, hwt⟩ := mem_bagDiffs hmem
    obtain ⟨hat', hwt'⟩ := mem_bagDiffs hmem'
    obtain rfl : table = table' := Option.some.inj (hat.symm.trans (htab.trans hat'))
    rw [hwt, hwt', hrow]

namespace Serving
variable {lower : String → Except String MirGraph} {streamed : Streamed} {null : δ}

/-- Updates and deletes name rows that the mirror has when their turn comes. -/
def WritesPresent (null : δ) (s : Serving δ) : ServingAction δ → Prop
  | .write call => call.Present null s.mirror
  | _ => True

theorem step_accounts {s : Serving δ} {action : ServingAction δ}
    (h : Accounts rows s.mirror s.history) (hmeets : WritesPresent null s action) :
    Accounts rows (step lower streamed null s action).mirror
      (step lower streamed null s action).history := by
  unfold step
  cases action with
  | write =>
    dsimp only
    split
    next mirror diffs _ hrun => exact h.trans (WriterCall.run_accounts null hmeets hrun)
    next => exact h
  | storeClock | copyRows | readClock =>
    dsimp only
    split <;> exact h
  | openCursor =>
    dsimp only
    split
    · split <;> exact h
    · exact h
  | nextDiff | fail => exact h

/-- In every run of such writes each table is its seeded rows and the sum of all diffs pushed. -/
theorem mirror_accounts (capacity : ℕ) (lsn : Lsn) (rows : Inputs δ)
    (h : Runs.Reached (step lower streamed null) (WritesPresent null)
      (seeded capacity lsn rows) s) :
    ∀ table row, ((s.mirror table).count row : ℤ) =
        (rows table).count row + effect s.history table row ∧
      0 ≤ (rows table).count row + effect s.history table row := by
  have haccounts : Accounts rows s.mirror s.history :=
    h.invariant (.refl rows) fun _ _ => step_accounts
  intro table row
  rw [← haccounts table row]
  exact ⟨rfl, Int.natCast_nonneg _⟩

theorem insertTwo_accounted : (((after [.write insertTwo]).mirror 7).count [2] : ℤ) =
      (oneRow.mirror 7).count [2] + effect (after [.write insertTwo]).history 7 [2] ∧
    0 ≤ (oneRow.mirror 7).count [2] + effect (after [.write insertTwo]).history 7 [2] :=
  mirror_accounts (s := after [.write insertTwo]) 8 1 _
    (Runs.Schedule.reached (.cons ⟨trivial, trivial⟩ (.nil _)) .start) 7 [2]

/-- The deleted row is not in the mirror, and the journal retracts it all the same. -/
theorem missing_row_retracted : ∃ s,
    Runs.Reached (step lowerT oneTable 0) (fun _ _ => True) oneRow s ∧
      (oneRow.mirror 7).count [2] + effect s.history 7 [2] = -1 ∧ (s.mirror 7).count [2] = 0 :=
  ⟨after [.write (.applyTransaction 2 [⟨7, .delete, some [.value 2], none⟩])],
    (Runs.Schedule.free _ _ _).reached .start, by decide, by decide⟩

end Serving

end Palimpsest.Postgres
