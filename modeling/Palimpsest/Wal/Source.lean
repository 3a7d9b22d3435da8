import Palimpsest.Foundation.Runs
import Palimpsest.Postgres.Runtime

/-! Decoded WAL events turned into the updates of committed transactions. -/
namespace Palimpsest.Wal
open Dataflow List
open Postgres (RowOp)

variable {δ : Type}

/-- The owner, a transaction and a subtransaction of it, is a history variable. -/
structure PendingRow (δ : Type) where
  table : TableId
  op : RowOp
  old : Option (Row δ)
  new : Option (Row δ)
  owner : ℕ × ℕ
deriving DecidableEq

structure WalUpdate (δ : Type) where
  table : TableId
  row : Row δ
  time : Lsn
  diff : ℤ
deriving DecidableEq

structure WalTransaction (δ : Type) where
  xid : Option ℕ
  beginLsn : Option Lsn
  commitLsn : Lsn
  endLsn : Lsn
  updates : List (WalUpdate δ)

structure WalSourceState (δ : Type) where
  transactionXid : Option ℕ
  pending : List (PendingRow δ)

inductive StreamAction where
  | start (xid : ℕ)
  | stop
  | commit (xid : ℕ) (commitLsn endLsn : Lsn)
  | abort (xid subxid : ℕ)

/-- The transaction that a `commit` ends is a history variable as well. -/
inductive DecodedEvent (δ : Type) where
  | begin (xid : ℕ)
  | row (row : PendingRow δ)
  | commit (xid : ℕ) (commitLsn endLsn : Lsn)
  | stream (action : StreamAction)
  | other

def rowUpdates (time : Lsn) (row : PendingRow δ) : List (WalUpdate δ) :=
  let gone := row.old.toList.map fun old => ⟨row.table, old, time, -1⟩
  let come := row.new.toList.map fun new => ⟨row.table, new, time, 1⟩
  match row.op with
  | .insert => come
  | .update => gone ++ come
  | .delete => gone

namespace WalSourceState

def drainPending (s : WalSourceState δ) (time : Lsn) : List (WalUpdate δ) :=
  s.pending.flatMap (rowUpdates time)

def applyTransaction (s : WalSourceState δ) :
    DecodedEvent δ → Option (WalTransaction δ) × WalSourceState δ
  | .begin xid | .stream (.start xid) => (none, { s with transactionXid := some xid })
  | .row row => (none, { s with pending := s.pending ++ [row] })
  | .commit _ commitLsn endLsn =>
    (some ⟨s.transactionXid, none, commitLsn, endLsn, s.drainPending commitLsn⟩, ⟨none, []⟩)
  | .stream (.commit xid commitLsn endLsn) =>
    (some ⟨s.transactionXid.or (some xid), none, commitLsn, endLsn, s.drainPending commitLsn⟩,
      ⟨none, []⟩)
  | .stream (.abort _ _) => (none, ⟨none, []⟩)
  | .stream .stop | .other => (none, s)

def apply (s : WalSourceState δ) (event : DecodedEvent δ) : List (WalUpdate δ) × WalSourceState δ :=
  (((s.applyTransaction event).1.map WalTransaction.updates).getD [], (s.applyTransaction event).2)

end WalSourceState

/-- What the stream means: the rows of open transactions, and the updates of committed ones. -/
structure Streams (δ : Type) where
  opened : List (PendingRow δ)
  committed : List (WalUpdate δ)

/-- An abort of a whole transaction names it twice. -/
def PendingRow.aborted (xid subxid : ℕ) (row : PendingRow δ) : Bool :=
  row.owner.1 = xid && (subxid = xid || row.owner.2 = subxid)

namespace Streams

def commit (s : Streams δ) (xid : ℕ) (lsn : Lsn) : Streams δ :=
  ⟨s.opened.filter (·.owner.1 ≠ xid),
    s.committed ++ (s.opened.filter (·.owner.1 = xid)).flatMap (rowUpdates lsn)⟩

def step (s : Streams δ) : DecodedEvent δ → Streams δ
  | .row row => { s with opened := s.opened ++ [row] }
  | .commit xid lsn _ | .stream (.commit xid lsn _) => s.commit xid lsn
  | .stream (.abort xid subxid) =>
    { s with opened := s.opened.filter fun row => !row.aborted xid subxid }
  | .begin _ | .stream (.start _) | .stream .stop | .other => s

end Streams

/-- The source and what it emitted, beside what the same events mean. -/
structure Feed (δ : Type) where
  source : WalSourceState δ
  emitted : List (WalUpdate δ)
  streams : Streams δ

namespace Feed

def start : Feed δ := ⟨⟨none, []⟩, [], ⟨[], []⟩⟩

def step (s : Feed δ) (event : DecodedEvent δ) : Feed δ :=
  ⟨(s.source.apply event).2, s.emitted ++ (s.source.apply event).1, s.streams.step event⟩

/-- A commit or abort finds no pending rows but those it is about. -/
def Alone (s : Feed δ) : DecodedEvent δ → Prop
  | .commit xid _ _ | .stream (.commit xid _ _) => ∀ row ∈ s.source.pending, row.owner.1 = xid
  | .stream (.abort xid subxid) => ∀ row ∈ s.source.pending, row.aborted xid subxid = true
  | _ => True

def Agrees (s : Feed δ) : Prop :=
  s.source.pending = s.streams.opened ∧ s.emitted = s.streams.committed

theorem Agrees.commit {s : Feed δ} (h : s.Agrees)
    (halone : ∀ row ∈ s.source.pending, row.owner.1 = xid) (lsn : Lsn) :
    (s.streams.commit xid lsn).opened = [] ∧
      s.emitted ++ s.source.drainPending lsn = (s.streams.commit xid lsn).committed := by
  obtain ⟨hpend, hemit⟩ := h
  rw [hpend] at halone
  have hall : s.streams.opened.filter (·.owner.1 = xid) = s.streams.opened :=
    filter_eq_self.mpr fun row hrow => decide_eq_true (halone row hrow)
  refine ⟨filter_eq_nil_iff.mpr fun row hrow => by simpa using halone row hrow, ?_⟩
  rw [Streams.commit, hall, WalSourceState.drainPending, hpend, hemit]

theorem step_agrees {s : Feed δ} (h : s.Agrees) (halone : s.Alone event) :
    (s.step event).Agrees := by
  obtain ⟨hpend, hemit⟩ := h
  match event with
  | .row row =>
    exact ⟨congrArg (· ++ [row]) hpend, (append_nil _).trans hemit⟩
  | .commit xid lsn _ | .stream (.commit xid lsn _) =>
    obtain ⟨hopen, hcommitted⟩ := Agrees.commit ⟨hpend, hemit⟩ halone lsn
    exact ⟨hopen.symm, hcommitted⟩
  | .stream (.abort xid subxid) =>
    refine ⟨(filter_eq_nil_iff.mpr fun row hrow => ?_).symm, (append_nil _).trans hemit⟩
    simpa using halone row (hpend ▸ hrow)
  | .begin _ | .stream (.start _) | .stream .stop | .other =>
    exact ⟨hpend, (append_nil _).trans hemit⟩

/-- What is emitted is what committed, at the commit LSNs and in stream order. -/
theorem emits_committed {s : Feed δ} (h : Runs.Reached step Alone start s) :
    s.emitted = s.streams.committed :=
  (h.invariant ⟨rfl, rfl⟩ fun _ _ => step_agrees : s.Agrees).2

def insertBy (xid value : ℕ) : DecodedEvent ℕ := .row ⟨7, .insert, none, some [value], (xid, xid)⟩

theorem abort_then_commit : ∃ s : Feed ℕ, s.emitted = s.streams.committed ∧
    s.emitted = [⟨7, [2], 9, 1⟩] :=
  ⟨_, emits_committed (Runs.Schedule.reached (.cons trivial (.cons (forall_mem_singleton.mpr rfl)
    (.cons trivial (.cons (forall_mem_singleton.mpr rfl) (.nil _))))) .start :
    Runs.Reached step Alone start ([insertBy 1 1, .stream (.abort 1 1), insertBy 2 2,
      .stream (.commit 2 9 9)].foldl step start)), rfl⟩

/-- Two streamed transactions are open when one of them commits. -/
theorem open_rows_emitted : ∃ s : Feed ℕ, Runs.Reached step (fun _ _ => True) start s ∧
    s.emitted = [⟨7, [1], 9, 1⟩, ⟨7, [2], 9, 1⟩] ∧ s.streams.committed = [⟨7, [1], 9, 1⟩] :=
  ⟨[.stream (.start 1), insertBy 1 1, .stream .stop, .stream (.start 2), insertBy 2 2,
    .stream .stop, .stream (.commit 1 9 9)].foldl step start,
    (Runs.Schedule.free _ _ _).reached .start, by decide, by decide⟩

end Feed

end Palimpsest.Wal
