import Palimpsest.Foundation.Mpsc
import Palimpsest.Dataflow.Host
import Mathlib.Data.List.Dedup
import Mathlib.Data.List.Lex

/-! The events a subscriber receives, how row diffs are paired into them, and the bounded channel
they travel through. -/
namespace Palimpsest.Server
open Dataflow List

inductive DiffOp where
  | initial
  | insert
  | update
  | delete
deriving Repr, DecidableEq

structure RowChange (δ : Type) where
  op : DiffOp
  old : Option (Row δ)
  new : Option (Row δ)
deriving Repr, DecidableEq

inductive ResyncReason where
  | lsnCompacted
  | schemaChanged
  | backpressure
  | slotRecreated
  | permissionsChanged
deriving Repr, DecidableEq

inductive DiffEvent (δ : Type) where
  | initial (lsn : Lsn) (rows : List (Row δ))
  | transactionUpdate (transactionId : Option ℕ) (beginLsn : Option Lsn) (commitLsn : Lsn)
      (endLsn : Option Lsn) (changes : List (RowChange δ))
  | resync (reason : ResyncReason)
deriving Repr, DecidableEq

structure RawDiff (δ : Type) where
  table : Option TableId
  row : Row δ
  lsn : Lsn
  diff : ℤ
deriving Repr, DecidableEq

structure QueryTransactionDelta (δ : Type) where
  transactionId : Option ℕ
  beginLsn : Option Lsn
  commitLsn : Lsn
  endLsn : Option Lsn
  diffs : List (RawDiff δ)
deriving Repr, DecidableEq

variable {δ : Type}

def QueryTransactionDelta.isEmpty (delta : QueryTransactionDelta δ) : Bool := delta.diffs.isEmpty

def RowChange.rows (change : RowChange δ) : List (Row δ) := change.old.toList ++ change.new.toList

def DiffEvent.rows : DiffEvent δ → List (Row δ)
  | .initial _ rows => rows
  | .transactionUpdate _ _ _ _ changes => changes.flatMap RowChange.rows
  | .resync _ => []

section

/-- Key of a row: the encoding of each key column, empty where the row has no such column. -/
def primaryKeyBytes (datumToKeyBytes : δ → List ℕ) (primaryKey : List ℕ) (row : Row δ) :
    List (List ℕ) :=
  primaryKey.map fun index => (row[index]?.map datumToKeyBytes).getD []

def insertOf (diff : RawDiff δ) : RowChange δ := ⟨.insert, none, some diff.row⟩

def deleteOf (diff : RawDiff δ) : RowChange δ := ⟨.delete, some diff.row, none⟩

variable (key : Row δ → List (List ℕ))

/-- The distinct keys of a bin map, in key order. -/
def binKeys (diffs : List (RawDiff δ)) : List (List (List ℕ)) :=
  ((diffs.map fun diff => key diff.row).insertionSort (· ≤ ·)).dedup

def bin (diffs : List (RawDiff δ)) (k : List (List ℕ)) : List (RawDiff δ) :=
  diffs.filter fun diff => key diff.row == k

/-- The last insert and the last delete of one key become an update, the others stay. -/
def pairBin (ins outs : List (RawDiff δ)) : List (RowChange δ) :=
  match ins.getLast?, outs.getLast? with
  | some new, some old =>
    ⟨.update, some old.row, some new.row⟩ ::
      (ins.dropLast.map insertOf ++ outs.dropLast.map deleteOf)
  | _, _ => ins.map insertOf

def pairChanges (diffs : List (RawDiff δ)) : List (RowChange δ) :=
  let inserts := diffs.filter fun diff => 0 < diff.diff
  let deletes := diffs.filter fun diff => ¬ 0 < diff.diff
  let paired :=
    (binKeys key inserts).flatMap fun k => pairBin (bin key inserts k) (bin key deletes k)
  let unpaired := (binKeys key deletes).filter fun k => k ∉ binKeys key inserts
  paired ++ unpaired.flatMap fun k => (bin key deletes k).map deleteOf

def pairTransaction (delta : QueryTransactionDelta δ) : DiffEvent δ :=
  .transactionUpdate delta.transactionId delta.beginLsn delta.commitLsn delta.endLsn
    (pairChanges key delta.diffs)

theorem rows_pairBin {ins : List (RawDiff δ)} (hchange : change ∈ pairBin ins outs)
    (hrow : row ∈ change.rows) : ∃ diff ∈ ins ++ outs, diff.row = row := by
  unfold pairBin at hchange
  split at hchange
  next new old hnew hold =>
    rcases mem_cons.mp hchange with rfl | hrest
    · rcases mem_append.mp hrow with hold' | hnew'
      · obtain rfl : row = old.row := by simpa using hold'
        exact ⟨old, mem_append_right _ (mem_of_getLast? hold), rfl⟩
      · obtain rfl : row = new.row := by simpa using hnew'
        exact ⟨new, mem_append_left _ (mem_of_getLast? hnew), rfl⟩
    · rcases mem_append.mp hrest with hins | houts
      · obtain ⟨diff, hdiff, rfl⟩ := mem_map.mp hins
        exact ⟨diff, mem_append_left _ (dropLast_subset _ hdiff), (mem_singleton.mp hrow).symm⟩
      · obtain ⟨diff, hdiff, rfl⟩ := mem_map.mp houts
        exact ⟨diff, mem_append_right _ (dropLast_subset _ hdiff), (mem_singleton.mp hrow).symm⟩
  next =>
    obtain ⟨diff, hdiff, rfl⟩ := mem_map.mp hchange
    exact ⟨diff, mem_append_left _ hdiff, (mem_singleton.mp hrow).symm⟩

theorem rows_pairTransaction {key : Row δ → List (List ℕ)}
    (hrow : row ∈ (pairTransaction key delta).rows) : ∃ diff ∈ delta.diffs, diff.row = row := by
  obtain ⟨change, hchange, hrow⟩ := mem_flatMap.mp hrow
  rcases mem_append.mp hchange with hpair | hunpaired
  · obtain ⟨k, -, hbin⟩ := mem_flatMap.mp hpair
    obtain ⟨diff, hdiff, rfl⟩ := rows_pairBin hbin hrow
    refine ⟨diff, ?_, rfl⟩
    rcases mem_append.mp hdiff with h | h
    · exact mem_of_mem_filter (mem_of_mem_filter h)
    · exact mem_of_mem_filter (mem_of_mem_filter h)
  · obtain ⟨k, -, hbin⟩ := mem_flatMap.mp hunpaired
    obtain ⟨diff, hdiff, rfl⟩ := mem_map.mp hbin
    exact ⟨diff, mem_of_mem_filter (mem_of_mem_filter hdiff), (mem_singleton.mp hrow).symm⟩

end

inductive BackpressurePolicy where
  | dropAndResync
  | coalesce
deriving Repr, DecidableEq

inductive BackpressureOutcome where
  | sent
  | saturatedDropResync
  | saturatedCoalesce
  | closed
deriving Repr, DecidableEq

structure BoundedDiffChannel (δ : Type) where
  sender : Mpsc (DiffEvent δ)
  policy : BackpressurePolicy
  fullEvents : ℕ

namespace BoundedDiffChannel

def new (capacity : ℕ) (capacity_pos : 0 < capacity) (policy : BackpressurePolicy) :
    BoundedDiffChannel δ :=
  ⟨Mpsc.new capacity capacity_pos, policy, 0⟩

def trySend (channel : BoundedDiffChannel δ) (event : DiffEvent δ) :
    BackpressureOutcome × BoundedDiffChannel δ :=
  let sender := (channel.sender.trySend event).2
  match (channel.sender.trySend event).1, channel.policy with
  | .sent, _ => (.sent, { channel with sender := sender })
  | .full, .dropAndResync =>
    (.saturatedDropResync, { channel with sender := sender, fullEvents := channel.fullEvents + 1 })
  | .full, .coalesce =>
    (.saturatedCoalesce, { channel with sender := sender, fullEvents := channel.fullEvents + 1 })
  | .closed, _ => (.closed, { channel with sender := sender })

/-- A saturated or closed channel swallows the resync. -/
def forceResync (channel : BoundedDiffChannel δ) (reason : ResyncReason) : BoundedDiffChannel δ :=
  { channel with sender := (channel.sender.trySend (.resync reason)).2 }

theorem sender_trySend (chan : BoundedDiffChannel δ) (event) :
    (chan.trySend event).2.sender = (chan.sender.trySend event).2 := by
  unfold trySend
  split <;> rfl

theorem trySend_sent_iff (chan : BoundedDiffChannel δ) (event) :
    (chan.trySend event).1 = .sent ↔ (chan.sender.trySend event).1 = .sent := by
  unfold trySend
  split <;> simp_all

theorem receiving_of_trySend_closed {chan : BoundedDiffChannel δ}
    (h : (chan.trySend event).1 = .closed) : chan.sender.receiving = false := by
  by_contra hopen
  rw [Bool.not_eq_false] at hopen
  unfold trySend Mpsc.trySend at h
  rw [if_pos hopen] at h
  split at h <;> split at h <;> simp_all

end BoundedDiffChannel

end Palimpsest.Server
