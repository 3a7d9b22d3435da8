import Palimpsest.Foundation.SignedBag
import Palimpsest.Postgres.Journal

/-! The in-memory mirror of the streamed tables: what each writer call does to the mirror and to the
journal. -/
namespace Palimpsest.Postgres
open List hiding getElem?_eq_some_iff
open Dataflow Server Sql Function

inductive RowOp where
  | insert
  | update
  | delete
deriving Repr, DecidableEq

/-- A column of a decoded tuple; an unchanged large value is left out of the stream. -/
inductive TupleDatum (δ : Type) where
  | value (datum : δ)
  | unchanged
deriving Repr, DecidableEq

abbrev Tuple (δ : Type) := List (TupleDatum δ)

structure Change (δ : Type) where
  table : TableId
  op : RowOp
  old : Option (Tuple δ)
  new : Option (Tuple δ)
deriving Repr, DecidableEq

/-- Some enumeration of the distinct rows of a list: the order in which a hash map lists its keys is
not specified. -/
structure HashOrder (δ : Type) [DecidableEq δ] where
  order : List (Row δ) → List (Row δ)
  perm : ∀ rows, (order rows).Perm rows.dedup

inductive WriterCall (δ : Type) [DecidableEq δ] where
  | applyTransaction (commitLsn : Lsn) (changes : List (Change δ))
  | applyTruncate (commitLsn : Lsn) (tables : List TableId)
  | reconcileSnapshot (lsn : Lsn) (fresh : Inputs δ) (hash : HashOrder δ)

section Writers
variable {δ : Type} (null : δ)

/-- Placeholders are resolved against the old row, if there is one. -/
def tupleToRow (tuple : Tuple δ) (old : Option (Row δ)) : Row δ :=
  tuple.mapIdx fun index datum =>
    match datum with
    | .value datum => datum
    | .unchanged => (old.bind (·[index]?)).getD null

def retraction (lsn : Lsn) (table : TableId) (row : Row δ) : RawDiff δ := ⟨some table, row, lsn, -1⟩

def addition (lsn : Lsn) (table : TableId) (row : Row δ) : RawDiff δ := ⟨some table, row, lsn, 1⟩

def changeDiffs (lsn : Lsn) (change : Change δ) : List (RawDiff δ) :=
  match change.op, change.old, change.new with
  | .insert, _, some new => [addition lsn change.table (tupleToRow null new none)]
  | .update, some old, some new =>
    let oldRow := tupleToRow null old none
    [retraction lsn change.table oldRow,
      addition lsn change.table (tupleToRow null new (some oldRow))]
  | .delete, some old, _ => [retraction lsn change.table (tupleToRow null old none)]
  | _, _, _ => []

theorem changeDiffs_table (lsn : Lsn) (change) :
    ∀ diff ∈ changeDiffs null lsn change, diff.table = some change.table ∧ diff.lsn = lsn := by
  intro diff hdiff
  unfold changeDiffs at hdiff
  split at hdiff
  · obtain rfl := mem_singleton.mp hdiff
    exact ⟨rfl, rfl⟩
  · simp only [mem_cons, not_mem_nil, or_false] at hdiff
    rcases hdiff with rfl | rfl <;> exact ⟨rfl, rfl⟩
  · obtain rfl := mem_singleton.mp hdiff
    exact ⟨rfl, rfl⟩
  · cases hdiff

variable [DecidableEq δ]

def changeRows (rows : List (Row δ)) (change : Change δ) : List (Row δ) :=
  match change.op, change.old, change.new with
  | .insert, _, some new => rows ++ [tupleToRow null new none]
  | .update, some old, some new =>
    let oldRow := tupleToRow null old none
    let newRow := tupleToRow null new (some oldRow)
    match rows.idxOf? oldRow with
    | some position => rows.set position newRow
    | none => rows ++ [newRow]
  | .delete, some old, _ => retract rows (tupleToRow null old none)
  | _, _, _ => rows

def applyChange (mirror : Inputs δ) (change : Change δ) : Inputs δ :=
  update mirror change.table (changeRows null (mirror change.table) change)

def truncateTable (lsn : Lsn) (state : Inputs δ × List (RawDiff δ)) (table : TableId) :
    Inputs δ × List (RawDiff δ) :=
  (update state.1 table [], state.2 ++ (state.1 table).map (retraction lsn table))

def tally (weight : ℤ) (rows : List (Row δ)) (counts : Row δ → ℤ) : Row δ → ℤ :=
  rows.foldl (fun counts row => update counts row (counts row + weight)) counts

/-- The difference of two bags as diffs of one row at a time. -/
def bagDiffs (lsn : Lsn) (table : TableId) (hash : HashOrder δ) (old new : List (Row δ)) :
    List (RawDiff δ) :=
  (hash.order (new ++ old)).flatMap fun row =>
    let count := tally (-1) old (tally 1 new fun _ => 0) row
    replicate count.natAbs (if 0 < count then addition lsn table row else retraction lsn table row)

def reconcileTable (lsn : Lsn) (fresh : Inputs δ) (hash : HashOrder δ)
    (state : Inputs δ × List (RawDiff δ)) (table : TableId) : Inputs δ × List (RawDiff δ) :=
  (update state.1 table (fresh table),
    state.2 ++ bagDiffs lsn table hash (state.1 table) (fresh table))

namespace WriterCall

def lsn : WriterCall δ → Lsn
  | .applyTransaction commitLsn _ => commitLsn
  | .applyTruncate commitLsn _ => commitLsn
  | .reconcileSnapshot lsn _ _ => lsn

/-- The mirror and the diffs a call leaves, for the streamed tables; a transaction without changes
returns at once. -/
def run (tables : List TableId) (mirror : Inputs δ) :
    WriterCall δ → Option (Inputs δ × List (RawDiff δ))
  | .applyTransaction commitLsn changes =>
    if changes.isEmpty then none
    else some
      (changes.foldl (applyChange null) mirror, changes.flatMap (changeDiffs null commitLsn))
  | .applyTruncate commitLsn truncated =>
    some (truncated.foldl (truncateTable commitLsn) (mirror, []))
  | .reconcileSnapshot lsn fresh hash =>
    some (tables.foldl (reconcileTable lsn fresh hash) (mirror, []))

end WriterCall

end Writers

section Effects
variable {δ : Type} [DecidableEq δ]

def effect (diffs : List (RawDiff δ)) (table : TableId) (row : Row δ) : ℤ :=
  SignedBag.net (diffs.map fun diff => ((diff.table, diff.row), diff.diff)) (some table, row)

@[simp]
theorem effect_nil (table) (row : Row δ) : effect [] table row = 0 := rfl

@[simp]
theorem effect_append (diffs diffs' : List (RawDiff δ)) (table row) :
    effect (diffs ++ diffs') table row = effect diffs table row + effect diffs' table row := by
  simp [effect]

@[simp]
theorem effect_cons (diff : RawDiff δ) (diffs table row) : effect (diff :: diffs) table row =
      (if diff.table = some table ∧ diff.row = row then diff.diff else 0) +
        effect diffs table row := by
  simp [effect]

variable {diffs : List (RawDiff δ)} {rows : List (Row δ)}

theorem effect_filter_congr (h : ∀ diff ∈ diffs, diff.table = some table → p diff = q diff) (row) :
    effect (diffs.filter p) table row = effect (diffs.filter q) table row := by
  induction diffs with
  | nil => rfl
  | cons diff diffs ih =>
    rw [forall_mem_cons] at h
    by_cases htab : diff.table = some table
    · rw [filter_cons, filter_cons, h.1 htab]
      split
      · rw [effect_cons, effect_cons, ih h.2]
      · exact ih h.2
    · rw [filter_cons, filter_cons]
      split <;> split <;> simp [htab, ih h.2]

/-- The diffs say what happened to the mirror. -/
def Accounts (mirror mirror' : Inputs δ) (diffs : List (RawDiff δ)) : Prop :=
  ∀ table row, ((mirror' table).count row : ℤ) = (mirror table).count row + effect diffs table row

theorem Accounts.refl (mirror : Inputs δ) : Accounts mirror mirror [] := by
  intro table row
  rw [effect_nil, add_zero]

theorem Accounts.trans (h : Accounts mirror mirror' diffs) (h' : Accounts mirror' mirror'' diffs') :
    Accounts mirror mirror'' (diffs ++ diffs') := by
  intro table row
  rw [h' table row, h table row, effect_append, add_assoc]

theorem Accounts.update (htab : ∀ diff ∈ diffs, diff.table = some table)
    (hrows : ∀ row, (rows.count row : ℤ) = (mirror table).count row + effect diffs table row) :
    Accounts mirror (update mirror table rows) diffs := by
  intro other row
  rcases eq_or_ne other table with rfl | hne
  · rw [update_self]
    exact hrows row
  · rw [update_of_ne hne]
    have hzero : effect diffs other row = 0 := by
      apply SignedBag.net_eq_zero
      refine forall_mem_map.mpr fun diff hdiff => ?_
      rw [htab diff hdiff]
      intro h
      exact hne (Option.some.inj (Prod.mk.inj h).1).symm
    rw [hzero, add_zero]

theorem count_retract (h : gone ∈ rows) (row) :
    (rows.count row : ℤ) = (retract rows gone).count row + if gone = row then 1 else 0 := by
  obtain ⟨position, hplace⟩ : ∃ position, rows.idxOf? gone = some position :=
    Option.isSome_iff_exists.mp (isSome_idxOf?.mpr h)
  obtain ⟨hlt, hget, -⟩ := idxOf?_eq_some_iff.mp hplace
  have hperm := IndexedDigraph.swapRemove_perm (List.getElem?_eq_some_iff.mpr ⟨hlt, hget⟩)
  simp [retract, hplace, ← hperm.count_eq row, count_cons]

theorem count_set (hplace : rows.idxOf? gone = some pos) (come row) :
    ((rows.set pos come).count row : ℤ) =
      rows.count row - (if gone = row then 1 else 0) + if come = row then 1 else 0 := by
  obtain ⟨hlt, hget, -⟩ := idxOf?_eq_some_iff.mp hplace
  have hwas := (getElem_cons_eraseIdx_perm hlt).count_eq row
  have hnow := (set_perm_cons_eraseIdx hlt come).count_eq row
  rw [hget, count_cons] at hwas
  rw [count_cons] at hnow
  rw [← hwas, hnow]
  push_cast
  simp only [beq_iff_eq]
  omega

section
variable (null : δ)

def ChangePresent (mirror : Inputs δ) (change : Change δ) : Prop :=
  match change.op, change.old, change.new with
  | .update, some old, some _ => tupleToRow null old none ∈ mirror change.table
  | .delete, some old, _ => tupleToRow null old none ∈ mirror change.table
  | _, _, _ => True

def ChangesPresent (mirror : Inputs δ) : List (Change δ) → Prop
  | [] => True
  | change :: changes =>
    ChangePresent null mirror change ∧ ChangesPresent (applyChange null mirror change) changes

theorem applyChange_accounts (lsn : Lsn) (h : ChangePresent null mirror change) :
    Accounts mirror (applyChange null mirror change) (changeDiffs null lsn change) := by
  refine .update (fun diff hdiff => (changeDiffs_table null lsn change diff hdiff).1) fun row => ?_
  unfold changeRows changeDiffs
  rcases change with ⟨table, op, old, new⟩
  dsimp only at h ⊢
  split
  next new =>
    simp [addition, count_singleton]
  next old new =>
    obtain ⟨position, hplace⟩ : ∃ position,
        (mirror table).idxOf? (tupleToRow null old none) = some position :=
      Option.isSome_iff_exists.mp (isSome_idxOf?.mpr h)
    rw [hplace, count_set hplace]
    simp only [effect_cons, effect_nil, retraction, addition, true_and]
    split <;> split <;> omega
  next old _ =>
    have hcount := count_retract h row
    simp only [effect_cons, retraction]
    split <;> simp_all
  next => simp

theorem applyChanges_accounts (lsn : Lsn) (h : ChangesPresent null mirror changes) :
    Accounts mirror (changes.foldl (applyChange null) mirror)
      (changes.flatMap (changeDiffs null lsn)) := by
  induction changes generalizing mirror with
  | nil => exact .refl mirror
  | cons change changes ih => exact (applyChange_accounts null lsn h.1).trans (ih h.2)

end

theorem effect_retractions (lsn : Lsn) (table) (rows : List (Row δ)) (row) :
    effect (rows.map (retraction lsn table)) table row = -(rows.count row : ℤ) := by
  induction rows with
  | nil => rfl
  | cons =>
    rw [map_cons, effect_cons, count_cons]
    simp only [retraction, true_and, beq_iff_eq]
    split <;> push_cast <;> omega

theorem tally_apply (weight : ℤ) (rows : List (Row δ)) (counts row) :
    tally weight rows counts row = counts row + weight * rows.count row := by
  unfold tally
  induction rows generalizing counts with
  | nil => simp
  | cons first rest ih =>
    rw [foldl_cons, ih]
    by_cases hrow : row = first
    · subst hrow
      rw [update_self, count_cons_self]
      push_cast
      ring
    · rw [update_of_ne hrow, count_cons_of_ne (Ne.symm hrow)]

theorem tally_tally (old new : List (Row δ)) (row) :
    tally (-1) old (tally 1 new fun _ => 0) row = new.count row - old.count row := by
  rw [tally_apply, tally_apply]
  omega

theorem effect_bagDiffs (lsn : Lsn) (table) (hash : HashOrder δ) (old new row) :
    effect (bagDiffs lsn table hash old new) table row = new.count row - old.count row := by
  have hnd : (hash.order (new ++ old)).Nodup := by
    rw [(hash.perm _).nodup_iff]
    exact nodup_dedup _
  have hmem : row ∈ hash.order (new ++ old) ↔ row ∈ new ∨ row ∈ old := by
    rw [(hash.perm _).mem_iff, mem_dedup, mem_append]
  have hkey : Function.Injective fun row : Row δ => (some table, row) := fun _ _ h =>
    (Prod.mk.inj h).2
  rw [effect, bagDiffs, map_flatMap]
  simp only [tally_tally]
  refine (SignedBag.net_flatMap_self hnd hkey ?_ row).trans ?_
  · intro r change hchange
    obtain ⟨diff, hdiff, rfl⟩ := mem_map.mp hchange
    rw [eq_of_mem_replicate hdiff]
    split <;> rfl
  · split
    next =>
      rw [map_replicate, SignedBag.net_replicate]
      split
      next hpos =>
        simp only [addition, ↓reduceIte]
        omega
      next hneg =>
        simp only [retraction, ↓reduceIte]
        omega
    next hnot =>
      rw [hmem, not_or] at hnot
      simp [count_eq_zero_of_not_mem hnot.1, count_eq_zero_of_not_mem hnot.2]

theorem foldl_accounts (hf : ∀ state table, ∃ diffs, (f state table).2 = state.2 ++ diffs ∧
      Accounts state.1 (f state table).1 diffs) (tables : List TableId)
    (state : Inputs δ × List (RawDiff δ)) : ∃ diffs, (tables.foldl f state).2 = state.2 ++ diffs ∧
      Accounts state.1 (tables.foldl f state).1 diffs := by
  induction tables generalizing state with
  | nil => exact ⟨[], (append_nil _).symm, .refl _⟩
  | cons table tables ih =>
    obtain ⟨first, hfirst, haccounts⟩ := hf state table
    obtain ⟨rest, hrest, haccounts'⟩ := ih (f state table)
    exact ⟨first ++ rest, by rw [foldl_cons, hrest, hfirst, append_assoc],
      haccounts.trans haccounts'⟩

theorem truncateTable_accounts (lsn : Lsn) (state : Inputs δ × List (RawDiff δ)) (table) :
    ∃ diffs, (truncateTable lsn state table).2 = state.2 ++ diffs ∧
      Accounts state.1 (truncateTable lsn state table).1 diffs := by
  refine ⟨_, rfl, .update ?_ fun row => ?_⟩
  · refine forall_mem_map.mpr fun row _ => ?_
    rfl
  · simp [effect_retractions]

theorem reconcileTable_accounts (lsn : Lsn) (fresh : Inputs δ) (hash state table) :
    ∃ diffs, (reconcileTable lsn fresh hash state table).2 = state.2 ++ diffs ∧
      Accounts state.1 (reconcileTable lsn fresh hash state table).1 diffs := by
  refine ⟨_, rfl, .update ?_ fun row => ?_⟩
  · intro diff hdiff
    obtain ⟨row, -, hrow⟩ := mem_flatMap.mp hdiff
    rw [eq_of_mem_replicate hrow]
    split <;> rfl
  · rw [effect_bagDiffs]
    omega

theorem bagDiffs_of_perm (lsn : Lsn) (table) (hash : HashOrder δ) (h : new.Perm old) :
    bagDiffs lsn table hash old new = [] := by
  rw [bagDiffs, flatMap_eq_nil_iff]
  intro row _
  simp [tally_tally, h.count_eq row]

theorem foldl_reconcileTable_of_perm (lsn : Lsn) (fresh : Inputs δ) (hash) {tables : List TableId}
    (h : ∀ table ∈ tables, (fresh table).Perm (state.1 table)) :
    (tables.foldl (reconcileTable lsn fresh hash) state).2 = state.2 := by
  induction tables generalizing state with
  | nil => rfl
  | cons table tables ih =>
    rw [foldl_cons, ih]
    · rw [reconcileTable, bagDiffs_of_perm lsn table hash (h table mem_cons_self), append_nil]
    · intro other hother
      rcases eq_or_ne other table with rfl | heq
      · dsimp only [reconcileTable]
        rw [update_self]
      · dsimp only [reconcileTable]
        rw [update_of_ne heq]
        exact h other (mem_cons_of_mem _ hother)

namespace WriterCall
variable (null : δ)

/-- Every update and delete of the call names a row that is there when its turn comes. -/
def Present (mirror : Inputs δ) : WriterCall δ → Prop
  | .applyTransaction _ changes => ChangesPresent null mirror changes
  | .applyTruncate _ _ => True
  | .reconcileSnapshot _ _ _ => True

/-- The diffs of a call whose rows are there account for the change of the mirror. -/
theorem run_accounts {call : WriterCall δ} (hpres : call.Present null mirror)
    (h : call.run null tables mirror = some result) : Accounts mirror result.1 result.2 := by
  cases call with
  | applyTransaction commitLsn =>
    unfold run at h
    dsimp only at h
    split at h
    · cases h
    · cases h
      exact applyChanges_accounts null commitLsn hpres
  | applyTruncate commitLsn truncated =>
    cases h
    obtain ⟨diffs, hdiffs, haccounts⟩ :=
      foldl_accounts (truncateTable_accounts commitLsn) truncated (mirror, [])
    rw [hdiffs]
    exact haccounts
  | reconcileSnapshot lsn fresh hash =>
    cases h
    obtain ⟨diffs, hdiffs, haccounts⟩ :=
      foldl_accounts (reconcileTable_accounts lsn fresh hash) tables (mirror, [])
    rw [hdiffs]
    exact haccounts

omit [DecidableEq δ] in
theorem foldl_lsn {lsn : Lsn}
    {f : Inputs δ × List (RawDiff δ) → TableId → Inputs δ × List (RawDiff δ)}
    (hf : ∀ state table, (∀ diff ∈ state.2, diff.lsn = lsn) →
      ∀ diff ∈ (f state table).2, diff.lsn = lsn) (tables : List TableId)
    (state : Inputs δ × List (RawDiff δ)) (hst : ∀ diff ∈ state.2, diff.lsn = lsn) :
    ∀ diff ∈ (tables.foldl f state).2, diff.lsn = lsn := by
  induction tables generalizing state with
  | nil => exact hst
  | cons table tables ih => exact ih (f state table) (hf state table hst)

theorem run_lsn {call : WriterCall δ} (h : call.run null tables mirror = some result) :
    ∀ diff ∈ result.2, diff.lsn = call.lsn := by
  cases call with
  | applyTransaction commitLsn =>
    unfold run at h
    dsimp only at h
    split at h
    · cases h
    · cases h
      intro diff hdiff
      obtain ⟨change, -, hdiff⟩ := mem_flatMap.mp hdiff
      exact (changeDiffs_table null commitLsn change diff hdiff).2
  | applyTruncate commitLsn truncated =>
    cases h
    refine foldl_lsn ?_ truncated _ nofun
    intro state table hst diff hdiff
    rcases mem_append.mp hdiff with hold | hnew
    · exact hst diff hold
    · obtain ⟨row, -, rfl⟩ := mem_map.mp hnew
      rfl
  | reconcileSnapshot =>
    cases h
    refine foldl_lsn ?_ tables _ nofun
    intro state table hst diff hdiff
    rcases mem_append.mp hdiff with hold | hnew
    · exact hst diff hold
    · obtain ⟨row, -, hrow⟩ := mem_flatMap.mp hnew
      rw [eq_of_mem_replicate hrow]
      split <;> rfl

end WriterCall

end Effects

end Palimpsest.Postgres
