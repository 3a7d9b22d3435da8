import Palimpsest.Postgres.Fence
import Palimpsest.Postgres.Naming
import Palimpsest.Postgres.Runtime

/-! Decoded replication frames, the transactions put together from them and what a commit does. -/
namespace Palimpsest.Postgres
open List hiding isEmpty_iff
open Dataflow Server Function

/-- A decoded frame; the parts of a frame that nothing here reads are left out. -/
inductive DecodedEvent (δ : Type) where
  | begin (xid : ℕ)
  | row (change : Change δ)
  | truncate (tables : List TableId)
  | commit (commitLsn : Lsn)
  | schema (table : TableId) (columns : List String)
  | other

inductive FrameError where
  | transport (detail : String)
  | fatal (message : String)
deriving Repr, DecidableEq

structure PendingTransaction (δ : Type) where
  xid : ℕ
  changes : List (Change δ)
  truncates : List TableId

def schemaDrift (table : IntrospectedTable) (streamed : List String) : String :=
  "schema drift detected on table '" ++ table.name ++ "': columns changed from [" ++
    String.intercalate ", " (table.columns.map (·.name)) ++ "] to [" ++
    String.intercalate ", " streamed ++ "]; restart the runtime to re-introspect the catalog"

/-- What one frame leaves: the transaction under way, the writer calls to make in order and the
result of the frame. -/
structure FrameOutcome (δ : Type) [DecidableEq δ] where
  pending : Option (PendingTransaction δ)
  calls : List (WriterCall δ)
  result : Except FrameError (Option Lsn)

section
variable {δ : Type} [DecidableEq δ] (tables : TableId → Option IntrospectedTable)
  (fence : SnapshotFence)

/-- The writer calls of a committed transaction: all truncates first, then all row changes. -/
def commitCalls (transaction : PendingTransaction δ) (commitLsn : Lsn) : List (WriterCall δ) :=
  if fence.alreadyInSnapshot transaction.xid then []
  else
    (if transaction.truncates.isEmpty then []
      else [.applyTruncate commitLsn transaction.truncates]) ++
    (if transaction.changes.isEmpty then []
      else [.applyTransaction commitLsn transaction.changes])

def applyFrame (pending : Option (PendingTransaction δ)) : DecodedEvent δ → FrameOutcome δ
  | .begin xid => ⟨some ⟨xid, [], []⟩, [], .ok none⟩
  | .row change =>
    if (tables change.table).isSome then
      ⟨pending.map fun transaction =>
        { transaction with changes := transaction.changes ++ [change] }, [], .ok none⟩
    else ⟨pending, [], .ok none⟩
  | .truncate truncated =>
    ⟨pending.map fun transaction => { transaction with
      truncates := transaction.truncates ++ truncated.filter fun table => (tables table).isSome },
      [], .ok none⟩
  | .commit commitLsn =>
    match pending with
    | none => ⟨none, [], .ok none⟩
    | some transaction => ⟨none, commitCalls fence transaction commitLsn, .ok (some commitLsn)⟩
  | .schema table columns =>
    match tables table with
    | none => ⟨pending, [], .ok none⟩
    | some known =>
      if columns = known.columns.map (·.name) then ⟨pending, [], .ok none⟩
      else ⟨pending, [], .error (.fatal (schemaDrift known columns))⟩
  | .other => ⟨pending, [], .ok none⟩

def pendingAfter (pending : Option (PendingTransaction δ)) (events : List (DecodedEvent δ)) :
    Option (PendingTransaction δ) :=
  events.foldl (fun pending event => (applyFrame tables fence pending event).pending) pending

end

inductive StreamOp (δ : Type) where
  | row (change : Change δ)
  | truncate (tables : List TableId)

namespace StreamOp
variable {δ : Type}

def event : StreamOp δ → DecodedEvent δ
  | .row change => .row change
  | .truncate tables => .truncate tables

def changes (tables : TableId → Option IntrospectedTable) (ops : List (StreamOp δ)) :
    List (Change δ) :=
  ops.flatMap fun op => match op with
    | .row change => if (tables change.table).isSome then [change] else []
    | .truncate _ => []

def truncates (tables : TableId → Option IntrospectedTable) (ops : List (StreamOp δ)) :
    List TableId :=
  ops.flatMap fun op => match op with
    | .row _ => []
    | .truncate truncated => truncated.filter fun table => (tables table).isSome

variable [DecidableEq δ]

/-- What the operation means: a row change, or every row of the tables gone. -/
def apply (null : δ) (mirror : Inputs δ) : StreamOp δ → Inputs δ
  | .row change => applyChange null mirror change
  | .truncate tables => fun table => if table ∈ tables then [] else mirror table

end StreamOp
open StreamOp

section
variable {δ : Type} [DecidableEq δ] (tables : TableId → Option IntrospectedTable)
  (fence : SnapshotFence)

/-- The frames of a transaction collect its row changes and its truncates separately. -/
theorem pendingAfter_ops (txn : PendingTransaction δ) (ops) :
    pendingAfter tables fence (some txn) (ops.map event) =
      some ⟨txn.xid, txn.changes ++ changes tables ops, txn.truncates ++ truncates tables ops⟩ := by
  induction ops generalizing txn with
  | nil => simp [pendingAfter, changes, truncates]
  | cons op ops ih =>
    rw [map_cons, pendingAfter, foldl_cons, ← pendingAfter]
    cases op with
    | row change =>
      by_cases hknown : (tables change.table).isSome = true
      · simp [event, applyFrame, hknown, ih, changes, truncates]
      · simp [event, applyFrame, hknown, ih, changes, truncates]
    | truncate => simp [event, applyFrame, ih, changes, truncates]

def transactionCalls (xid : ℕ) (ops : List (StreamOp δ)) (commitLsn : Lsn) : List (WriterCall δ) :=
  (applyFrame tables fence
    (pendingAfter tables fence none (.begin xid :: ops.map event)) (.commit commitLsn)).calls

theorem transactionCalls_eq (xid : ℕ) (ops : List (StreamOp δ)) (commitLsn : Lsn) :
    transactionCalls tables fence xid ops commitLsn =
      commitCalls fence ⟨xid, changes tables ops, truncates tables ops⟩ commitLsn := by
  have hpend : pendingAfter tables fence none (.begin xid :: ops.map event) =
      some ⟨xid, changes tables ops, truncates tables ops⟩ :=
    pendingAfter_ops tables fence ⟨xid, [], []⟩ ops
  rw [transactionCalls, hpend]
  rfl

end

section OneStep
variable {δ : Type} [DecidableEq δ] (null : δ) (byId : List TableId)

/-- The mirror and everything pushed to the journal, after one more writer call. -/
def runCall (state : Inputs δ × List (RawDiff δ)) (call : WriterCall δ) :
    Inputs δ × List (RawDiff δ) :=
  match call.run null byId state.1 with
  | none => state
  | some (mirror, diffs) => (mirror, state.2 ++ diffs)

/-- What readers can find between the calls: the locks are free before, between and after them. -/
def callStates (state : Inputs δ × List (RawDiff δ)) :
    List (WriterCall δ) → List (Inputs δ × List (RawDiff δ))
  | [] => [state]
  | call :: calls => state :: callStates (runCall null byId state call) calls

variable (tables : TableId → Option IntrospectedTable) (snapshot : PgSnapshot)

/-- The operations in stream order; a transaction that the snapshot sees is in the mirror. -/
def expected (xid : ℕ) (ops : List (StreamOp δ)) (mirror : Inputs δ) : Inputs δ :=
  if snapshot.Sees xid then mirror else ops.foldl (apply null) mirror

/-- After the commit every streamed table holds the expected rows, and no reader finds the mirror or
the journal with some effects of the transaction and without others. The stream carries the low half
of the transaction's id. -/
def AppliedAsOneStep (xid : ℕ) (ops : List (StreamOp δ)) (commitLsn : Lsn) : Prop :=
  ∀ before : Inputs δ × List (RawDiff δ),
    let calls := transactionCalls tables snapshot.fence (low xid) ops commitLsn
    let final := calls.foldl (runCall null byId) before
    (∀ table, (tables table).isSome = true →
      (final.1 table).Perm (expected null snapshot xid ops before.1 table)) ∧
    ∀ state ∈ callStates null byId before calls,
      (state.1 = before.1 ∨ state.1 = final.1) ∧ (state.2 = before.2 ∨ state.2 = final.2)

def Neutral (ops : List (StreamOp δ)) : Prop :=
  ∀ (mirror : Inputs δ) (table : TableId), (tables table).isSome = true →
    (ops.foldl (apply null) mirror table).Perm (mirror table)

/-- The change has the row images its kind needs. -/
def Change.isEffective (change : Change δ) : Bool :=
  match change.op, change.old, change.new with
  | .insert, _, some _ => true
  | .update, some _, some _ => true
  | .delete, some _, _ => true
  | _, _, _ => false

variable {tables snapshot}
variable {ops : List (StreamOp δ)} {mirror mirror' : Inputs δ} {batch : List (Change δ)}
  {change : Change δ}

omit [DecidableEq δ] in
theorem changeDiffs_ne_nil (h : change.isEffective = true) (lsn : Lsn) :
    changeDiffs null lsn change ≠ [] := by
  unfold Change.isEffective at h
  unfold changeDiffs
  split <;> simp_all

theorem ineffective_change (h : change.isEffective = false) :
    (∀ lsn, changeDiffs null lsn change = []) ∧ ∀ rows, changeRows null rows change = rows := by
  unfold Change.isEffective at h
  unfold changeDiffs changeRows
  split <;> simp_all

theorem foldl_ineffective (h : ∀ change ∈ batch, change.isEffective = false) (mirror) (lsn : Lsn) :
    batch.foldl (applyChange null) mirror = mirror ∧ batch.flatMap (changeDiffs null lsn) = [] := by
  induction batch generalizing mirror with
  | nil => exact ⟨rfl, rfl⟩
  | cons change batch ih =>
    rw [forall_mem_cons] at h
    obtain ⟨hdiffs, hrows⟩ := ineffective_change null h.1
    have hsame : applyChange null mirror change = mirror := by
      rw [applyChange, hrows, update_eq_self]
    rw [foldl_cons, flatMap_cons, hsame, hdiffs]
    exact ih h.2 mirror

def SameStreamed (tables : TableId → Option IntrospectedTable) (mirror mirror' : Inputs δ) : Prop :=
  ∀ table, (tables table).isSome = true → mirror table = mirror' table

section
omit [DecidableEq δ]

theorem changes_cons (op : StreamOp δ) (ops : List (StreamOp δ)) :
    changes tables (op :: ops) = changes tables [op] ++ changes tables ops := by
  simp [changes]

theorem truncates_cons (op : StreamOp δ) (ops : List (StreamOp δ)) : truncates tables (op :: ops) =
      truncates tables [op] ++ truncates tables ops := by
  simp [truncates]

end

variable (h : SameStreamed tables mirror mirror')
include h

theorem sameStreamed_row (change) : SameStreamed tables (applyChange null mirror change)
      ((changes tables [.row change]).foldl (applyChange null) mirror') := by
  intro table hknown
  by_cases hchange : (tables change.table).isSome = true
  · have hlist : changes tables [.row change] = [change] := by
      simp [changes, hchange]
    rw [hlist, foldl_cons, foldl_nil, applyChange, applyChange, h _ hchange]
    by_cases htab : table = change.table
    · rw [htab, update_self, update_self]
    · rw [update_of_ne htab, update_of_ne htab]
      exact h table hknown
  · have hlist : changes tables [.row change] = [] := by
      simp [changes, hchange]
    have htab : table ≠ change.table := by
      rintro rfl
      exact hchange hknown
    rw [hlist, applyChange, update_of_ne htab]
    exact h table hknown

theorem sameStreamed_of_no_truncates (hops : truncates tables ops = []) :
    SameStreamed tables (ops.foldl (apply null) mirror)
      ((changes tables ops).foldl (applyChange null) mirror') := by
  induction ops generalizing mirror mirror' with
  | nil => exact h
  | cons op ops ih =>
    rw [truncates_cons, append_eq_nil_iff] at hops
    rw [changes_cons, foldl_append]
    refine ih ?_ hops.2
    cases op with
    | row change => exact sameStreamed_row null h change
    | truncate truncated =>
      intro table hknown
      have hnot : table ∉ truncated := by
        intro hmem
        have hfilt : table ∈ truncates tables [.truncate truncated (δ := δ)] := by
          simp [truncates, hmem, hknown]
        simp [hops.1] at hfilt
      show (if table ∈ truncated then [] else mirror table) = mirror' table
      rw [if_neg hnot]
      exact h table hknown

omit h in
omit [DecidableEq δ] in
theorem foldl_truncateTable (lsn : Lsn) (truncated : List TableId)
    (state : Inputs δ × List (RawDiff δ)) (table : TableId) :
    (truncated.foldl (truncateTable lsn) state).1 table =
      if table ∈ truncated then [] else state.1 table := by
  induction truncated generalizing state with
  | nil => rfl
  | cons first truncated ih =>
    rw [foldl_cons, ih, truncateTable]
    by_cases htab : table = first <;> simp [htab]

theorem sameStreamed_of_ineffective
    (hops : ∀ change ∈ changes tables ops, change.isEffective = false) :
    SameStreamed tables (ops.foldl (apply null) mirror)
      (fun table => if table ∈ truncates tables ops then [] else mirror' table) := by
  induction ops generalizing mirror mirror' with
  | nil => exact h
  | cons op ops ih =>
    rw [changes_cons] at hops
    rw [foldl_cons]
    cases op with
    | row change =>
      have hsame := sameStreamed_row null h change
      rw [(foldl_ineffective null (fun c hc => hops c (mem_append_left _ hc)) mirror' 0).1] at hsame
      exact ih hsame fun c hc => hops c (mem_append_right _ hc)
    | truncate truncated =>
      have hsame : SameStreamed tables (apply null mirror (.truncate truncated))
          (fun table => if table ∈ truncated then [] else mirror' table) := by
        intro table hknown
        show (if table ∈ truncated then [] else mirror table) = _
        rw [h table hknown]
      intro table hknown
      rw [ih hsame (fun c hc => hops c (mem_append_right _ hc)) table hknown, truncates_cons]
      have hmem : table ∈ truncates tables [.truncate truncated (δ := δ)] ↔ table ∈ truncated := by
        simp [truncates, hknown]
      simp only [mem_append, hmem]
      by_cases hlater : table ∈ truncates tables ops <;> simp [hlater]

omit h

theorem runCall_ineffective (h : ∀ change ∈ batch, change.isEffective = false) (state) (lsn : Lsn) :
    runCall null byId state (.applyTransaction lsn batch) = state := by
  obtain ⟨hmirror, hdiffs⟩ := foldl_ineffective null h state.1 lsn
  unfold runCall WriterCall.run
  by_cases hempty : batch.isEmpty = true <;> simp [hempty, hmirror, hdiffs]

theorem callStates_truncate_only (h : ∀ change ∈ batch, change.isEffective = false) (lsn : Lsn)
    (truncated prev) : let calls := [WriterCall.applyTruncate lsn truncated] ++
      (if batch.isEmpty then [] else [WriterCall.applyTransaction lsn batch])
    let final := runCall null byId prev (.applyTruncate lsn truncated)
    calls.foldl (runCall null byId) prev = final ∧
      ∀ state ∈ callStates null byId prev calls, state = prev ∨ state = final := by
  have hsame := runCall_ineffective null byId h
    (runCall null byId prev (.applyTruncate lsn truncated)) lsn
  by_cases hempty : batch.isEmpty = true <;> simp [hempty, callStates, hsame]

/-! A table that is truncated holds no more rows afterwards than the transaction has operations. -/
section Lengths

theorem length_changeRows (rows : List (Row δ)) (change) :
    (changeRows null rows change).length ≤ rows.length + 1 := by
  unfold changeRows
  split
  · simp
  · dsimp only
    split <;> simp
  · unfold retract
    split
    · rw [IndexedDigraph.swapRemove_length]
      omega
    · omega
  · omega

theorem length_applyChange (mirror : Inputs δ) (change table) :
    (applyChange null mirror change table).length ≤ (mirror table).length + 1 := by
  unfold applyChange
  by_cases htable : table = change.table
  · rw [htable, update_self]
    exact length_changeRows null _ change
  · rw [update_of_ne htable]
    omega

theorem length_foldl_applyChange (batch : List (Change δ)) (mirror : Inputs δ) (table) :
    (batch.foldl (applyChange null) mirror table).length ≤
      (mirror table).length + batch.length := by
  induction batch generalizing mirror with
  | nil => exact Nat.le_refl _
  | cons change batch ih =>
    have hrest := ih (applyChange null mirror change)
    have hfirst := length_applyChange null mirror change table
    rw [foldl_cons, length_cons]
    omega

theorem length_foldl_apply (ops : List (StreamOp δ)) (mirror : Inputs δ) (table) :
    (ops.foldl (apply null) mirror table).length ≤ (mirror table).length + ops.length ∧
      (table ∈ truncates tables ops →
        (ops.foldl (apply null) mirror table).length ≤ ops.length) := by
  induction ops generalizing mirror with
  | nil => exact ⟨Nat.le_refl _, nofun⟩
  | cons op ops ih =>
    obtain ⟨hlength, htruncated⟩ := ih (apply null mirror op)
    rw [foldl_cons, length_cons, truncates_cons]
    cases op with
    | row change =>
      have hfirst := length_applyChange null mirror change table
      refine ⟨by simp only [apply] at hlength ⊢; omega, fun hmem => ?_⟩
      have hlater := htruncated (by simpa [truncates] using hmem)
      omega
    | truncate cleared =>
      simp only [apply] at hlength htruncated ⊢
      by_cases hcleared : table ∈ cleared
      · simp only [hcleared, if_true, length_nil] at hlength ⊢
        omega
      · simp only [hcleared, if_false] at hlength ⊢
        refine ⟨by omega, fun hmem => ?_⟩
        have hlater := htruncated (by simpa [truncates, hcleared] using hmem)
        omega

omit [DecidableEq δ] in
theorem isSome_of_mem_truncates (h : table ∈ truncates tables ops) :
    (tables table).isSome = true := by
  obtain ⟨op, -, hop⟩ := mem_flatMap.mp h
  cases op with
  | row => cases hop
  | truncate cleared => exact (mem_filter.mp hop).2

theorem Neutral.truncates_nil (h : Neutral null tables ops) : truncates tables ops = [] := by
  rw [eq_nil_iff_forall_not_mem]
  intro table hmem
  have hsame := (h (fun _ => replicate (ops.length + 1) []) table
    (isSome_of_mem_truncates hmem)).length_eq
  have hfew := (length_foldl_apply null ops (fun _ => replicate (ops.length + 1) []) table).2 hmem
  rw [length_replicate] at hsame
  omega

end Lengths

variable (commitLsn : Lsn)

/-- A transaction that is not skipped and truncates nothing is made in stream order, by one call at
most. -/
theorem runs_of_no_truncates (hskip : snapshot.fence.alreadyInSnapshot (low xid) = false)
    (hops : truncates tables ops = []) (before : Inputs δ × List (RawDiff δ)) :
    let calls := transactionCalls tables snapshot.fence (low xid) ops commitLsn
    let final := calls.foldl (runCall null byId) before
    SameStreamed tables (ops.foldl (apply null) before.1) final.1 ∧
      ∀ state ∈ callStates null byId before calls,
        (state.1 = before.1 ∨ state.1 = final.1) ∧ (state.2 = before.2 ∨ state.2 = final.2) := by
  have hsame := sameStreamed_of_no_truncates null
    (fun _ _ => rfl : SameStreamed tables before.1 before.1) hops
  rw [transactionCalls_eq, commitCalls, hskip, hops]
  by_cases hempty : (changes tables ops).isEmpty = true
  · rw [List.isEmpty_iff] at hempty
    rw [hempty] at hsame ⊢
    refine ⟨hsame, fun state hstate => ?_⟩
    rw [show state = before by simpa [callStates] using hstate]
    exact ⟨.inl rfl, .inl rfl⟩
  · have hrun : runCall null byId before
        (.applyTransaction commitLsn (changes tables ops)) =
        ((changes tables ops).foldl (applyChange null) before.1,
          before.2 ++ (changes tables ops).flatMap (changeDiffs null commitLsn)) := by
      simp [runCall, WriterCall.run, hempty]
    simp only [Bool.false_eq_true, if_false, isEmpty_nil, if_true, hempty, nil_append,
      foldl_cons, foldl_nil, callStates, hrun]
    refine ⟨hsame, fun state hstate => ?_⟩
    simp only [mem_cons, not_mem_nil, or_false] at hstate
    rcases hstate with rfl | rfl
    · exact ⟨.inl rfl, .inl rfl⟩
    · exact ⟨.inr rfl, .inr rfl⟩

theorem appliedAsOneStep_skipped (hskip : snapshot.fence.alreadyInSnapshot (low xid) = true) :
    AppliedAsOneStep null byId tables snapshot xid ops commitLsn ↔
      snapshot.Sees xid ∨ Neutral null tables ops := by
  have hcalls : transactionCalls tables snapshot.fence (low xid) ops commitLsn = [] := by
    rw [transactionCalls_eq, commitCalls, if_pos hskip]
  unfold AppliedAsOneStep
  rw [hcalls]
  constructor
  · intro h
    by_cases hsees : snapshot.Sees xid
    · exact .inl hsees
    · refine .inr fun mirror table hstreamed => ?_
      have hperm := (h (mirror, [])).1 table hstreamed
      rw [expected, if_neg hsees] at hperm
      exact hperm.symm
  · intro h before
    refine ⟨fun table hstreamed => ?_, fun state hstate => ?_⟩
    · rw [expected]
      split
      next => exact .refl _
      next hsees => exact ((h.resolve_left hsees) before.1 table hstreamed).symm
    · rw [show state = before by simpa [callStates] using hstate]
      exact ⟨.inl rfl, .inl rfl⟩

section Streamed
variable (hskip : snapshot.fence.alreadyInSnapshot (low xid) = false)
include hskip

theorem appliedAsOneStep_of_ineffective (hsees : ¬ snapshot.Sees xid)
    (hsome : truncates tables ops ≠ [])
    (hops : ∀ change ∈ changes tables ops, change.isEffective = false) :
    AppliedAsOneStep null byId tables snapshot xid ops commitLsn := by
  intro prev
  have hsame := sameStreamed_of_ineffective null
    (fun _ _ => rfl : SameStreamed tables prev.1 prev.1) hops
  have hexpected : expected null snapshot xid ops prev.1 = ops.foldl (apply null) prev.1 :=
    if_neg hsees
  obtain ⟨hfinal, hstates⟩ := callStates_truncate_only null byId hops commitLsn
    (truncates tables ops) prev
  have hempty : (truncates tables ops).isEmpty = false := by
    rw [← Bool.not_eq_true, List.isEmpty_iff]
    exact hsome
  rw [transactionCalls_eq, commitCalls, hskip, hempty, hexpected]
  simp only [Bool.false_eq_true, if_false]
  rw [hfinal]
  refine ⟨fun table hknown => ?_, ?_⟩
  · rw [hsame table hknown]
    exact .of_eq (foldl_truncateTable commitLsn _ (prev.1, []) table)
  · intro state hst
    rcases hstates state hst with rfl | rfl
    · exact ⟨.inl rfl, .inl rfl⟩
    · exact ⟨.inr rfl, .inr rfl⟩

/-- Both calls leave diffs in the journal, and a cursor can read between them. -/
theorem not_appliedAsOneStep
    (hsome : truncates tables ops ≠ []) (hchange : change ∈ changes tables ops)
    (heffective : change.isEffective = true) :
    ¬ AppliedAsOneStep null byId tables snapshot xid ops commitLsn := by
  intro h
  -- every table holds one row, so the truncate has something to retract
  obtain ⟨-, hstates⟩ := h (fun _ => [[]], [])
  obtain ⟨first, rest, htrunc⟩ := exists_cons_of_ne_nil hsome
  have hempty : (changes tables ops).isEmpty = false := by
    rw [← Bool.not_eq_true, List.isEmpty_iff]
    exact ne_nil_of_mem hchange
  obtain ⟨more, hmore, -⟩ := foldl_accounts (truncateTable_accounts commitLsn) rest
    (truncateTable commitLsn ((fun _ => [[]] : Inputs δ), []) first)
  have hdiffs : (changes tables ops).flatMap (changeDiffs null commitLsn) ≠ [] := by
    intro hnil
    exact changeDiffs_ne_nil null heffective commitLsn
      (flatMap_eq_nil_iff.mp hnil change hchange)
  rw [transactionCalls_eq, commitCalls, hskip, htrunc] at hstates
  simp only [Bool.false_eq_true, if_false, isEmpty_cons, hempty, cons_append,
    nil_append, callStates, foldl_cons, foldl_nil] at hstates
  obtain ⟨-, hbetween⟩ := hstates (runCall null byId ((fun _ => [[]] : Inputs δ), [])
    (.applyTruncate commitLsn (first :: rest))) (by simp)
  have hpushed : (runCall null byId ((fun _ => [[]] : Inputs δ), [])
      (.applyTruncate commitLsn (first :: rest))).2 = retraction commitLsn first [] :: more := by
    rw [runCall, WriterCall.run, foldl_cons]
    dsimp only
    rw [hmore]
    rfl
  rcases hbetween with hnone | hall
  · rw [hpushed] at hnone
    cases hnone
  · have hfinal : ∀ state : Inputs δ × List (RawDiff δ), (runCall null byId state
        (.applyTransaction commitLsn (changes tables ops))).2 =
        state.2 ++ (changes tables ops).flatMap (changeDiffs null commitLsn) := by
      intro state
      simp [runCall, WriterCall.run, hempty]
    rw [hfinal] at hall
    exact hdiffs (self_eq_append_right.mp hall)

theorem length_truncated (hmem : table ∈ truncates tables ops)
    (before : Inputs δ × List (RawDiff δ)) :
    (((transactionCalls tables snapshot.fence (low xid) ops commitLsn).foldl
      (runCall null byId) before).1 table).length ≤ (changes tables ops).length := by
  have hsome : (truncates tables ops).isEmpty = false := by
    rw [← Bool.not_eq_true, List.isEmpty_iff]
    exact ne_nil_of_mem hmem
  have hcleared : (runCall null byId before
      (.applyTruncate commitLsn (truncates tables ops))).1 table = [] :=
    (foldl_truncateTable commitLsn _ (before.1, []) table).trans (if_pos hmem)
  rw [transactionCalls_eq, commitCalls, hskip, hsome]
  simp only [Bool.false_eq_true, if_false, singleton_append, foldl_cons]
  by_cases hempty : (changes tables ops).isEmpty = true
  · simp [hempty, hcleared]
  · have hgrown := length_foldl_applyChange null (changes tables ops) (runCall null byId before
      (.applyTruncate commitLsn (truncates tables ops))).1 table
    rw [hcleared, length_nil, Nat.zero_add] at hgrown
    simpa [hempty, runCall, WriterCall.run] using hgrown

/-- The mirror has the transaction already, and it is applied once more. -/
theorem appliedAsOneStep_again (hsees : snapshot.Sees xid) :
    AppliedAsOneStep null byId tables snapshot xid ops commitLsn ↔ Neutral null tables ops := by
  constructor
  · intro h
    by_cases hnone : truncates tables ops = []
    · intro mirror table hstreamed
      obtain ⟨hsame, -⟩ := runs_of_no_truncates null byId commitLsn hskip hnone (mirror, [])
      have hperm := (h (mirror, [])).1 table hstreamed
      rw [expected, if_pos hsees, ← hsame table hstreamed] at hperm
      exact hperm
    · -- a truncated table that held more rows than the transaction changes
      obtain ⟨table, hmem⟩ := exists_mem_of_ne_nil _ hnone
      have hperm := (h (fun _ => replicate ((changes tables ops).length + 1) [], [])).1 table
        (isSome_of_mem_truncates hmem)
      have hfew := length_truncated null byId commitLsn hskip hmem
        (fun _ => replicate ((changes tables ops).length + 1) [], [])
      rw [hperm.length_eq, expected, if_pos hsees, length_replicate] at hfew
      omega
  · intro h before
    obtain ⟨hsame, hstates⟩ :=
      runs_of_no_truncates null byId commitLsn hskip h.truncates_nil before
    refine ⟨fun table hstreamed => ?_, hstates⟩
    rw [expected, if_pos hsees, ← hsame table hstreamed]
    exact h before.1 table hstreamed

theorem appliedAsOneStep_once (hsees : ¬ snapshot.Sees xid) :
    AppliedAsOneStep null byId tables snapshot xid ops commitLsn ↔
      truncates tables ops = [] ∨ ∀ change ∈ changes tables ops, change.isEffective = false := by
  constructor
  · intro h
    by_contra hnot
    rw [not_or] at hnot
    obtain ⟨hsome, heffective⟩ := hnot
    push Not at heffective
    obtain ⟨change, hchange, heffective⟩ := heffective
    exact not_appliedAsOneStep null byId commitLsn hskip hsome hchange
      (Bool.eq_true_of_not_eq_false heffective) h
  · intro h
    by_cases hnone : truncates tables ops = []
    · intro before
      obtain ⟨hsame, hstates⟩ := runs_of_no_truncates null byId commitLsn hskip hnone before
      refine ⟨fun table hstreamed => ?_, hstates⟩
      rw [expected, if_neg hsees, ← hsame table hstreamed]
    · exact appliedAsOneStep_of_ineffective null byId commitLsn hskip hsees hnone
        (h.resolve_left hnone)

end Streamed

/-- A streamed transaction is applied in stream order and in one step exactly when the fence is
right about it and it does not both truncate a streamed table and change a row of one, or when it
leaves the tables as they are. -/
theorem appliedAsOneStep_iff (xid : ℕ) (ops : List (StreamOp δ)) (commitLsn : Lsn) :
    AppliedAsOneStep null byId tables snapshot xid ops commitLsn ↔ if snapshot.InWindow xid then
        snapshot.Sees xid ∨ truncates tables ops = [] ∨
          ∀ change ∈ changes tables ops, change.isEffective = false
      else Neutral null tables ops := by
  have hwindow := snapshot.fence_agrees_iff xid
  cases hskip : snapshot.fence.alreadyInSnapshot (low xid) with
  | true =>
    rw [appliedAsOneStep_skipped null byId commitLsn hskip]
    by_cases hsees : snapshot.Sees xid
    · simp [hwindow.mp (by simp [hskip, hsees]), hsees]
    · have hout : ¬ snapshot.InWindow xid := fun hin => hsees ((hwindow.mpr hin).mp hskip)
      simp [hout, hsees]
  | false =>
    by_cases hsees : snapshot.Sees xid
    · have hout : ¬ snapshot.InWindow xid := fun hin => by
        simpa [hskip] using (hwindow.mpr hin).mpr hsees
      rw [appliedAsOneStep_again null byId commitLsn hskip hsees, if_neg hout]
    · rw [appliedAsOneStep_once null byId commitLsn hskip hsees,
        if_pos (hwindow.mp (by simp [hskip, hsees])), or_iff_right hsees]

def oneStreamed : TableId → Option IntrospectedTable :=
  fun table => if table = 7 then some ⟨7, "public", "t", [⟨"id", .int⟩]⟩ else none

def insertThenTruncate : List (StreamOp ℕ) :=
  [.row ⟨7, .insert, none, some [.value 1]⟩, .truncate [7]]

theorem insertThenTruncate_not_one_step :
    ¬ AppliedAsOneStep 0 [7] oneStreamed quietPgSnapshot 6 insertThenTruncate 9 ∧
    ((transactionCalls oneStreamed quietPgSnapshot.fence 6 insertThenTruncate 9).foldl
      (runCall 0 [7]) (fun _ => [], [])).1 7 = [[1]] ∧
    expected 0 quietPgSnapshot 6 insertThenTruncate (fun _ => []) 7 = [] := by
  refine ⟨?_, by decide +kernel, by decide +kernel⟩
  exact not_appliedAsOneStep 0 [7] 9 (by decide +kernel) (by decide)
    (show (⟨7, .insert, none, some [.value 1]⟩ : Change ℕ) ∈ _ by decide) rfl

end OneStep

end Palimpsest.Postgres
