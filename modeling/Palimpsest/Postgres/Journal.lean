import Palimpsest.Server.Channel

/-! The bounded journal of row diffs and the cursors that read it. -/
namespace Palimpsest.Postgres
open Dataflow Server List

variable {δ : Type}

structure Journal (δ : Type) where
  entries : List (RawDiff δ)
  /-- Sequence number of the first entry. -/
  baseSeq : ℕ
  /-- Highest LSN that has been dropped from the front. -/
  truncatedThrough : Lsn
  capacity : ℕ
  capacity_pos : 0 < capacity
  bounded : entries.length ≤ capacity

namespace Journal

def new (capacity : ℕ) : Journal δ :=
  ⟨[], 0, 0, max capacity 1, Nat.lt_of_lt_of_le Nat.one_pos (Nat.le_max_right _ _), Nat.zero_le _⟩

/-- A full journal drops its oldest entry. -/
def push (journal : Journal δ) (diff : RawDiff δ) : Journal δ :=
  if h : journal.entries.length = journal.capacity then
    { journal with
      entries := journal.entries.tail ++ [diff]
      baseSeq := journal.baseSeq + 1
      truncatedThrough :=
        (journal.entries.head?.map fun dropped => max journal.truncatedThrough dropped.lsn).getD
          journal.truncatedThrough
      bounded := by
        have := journal.capacity_pos
        rw [length_append, length_tail, length_singleton]
        omega }
  else
    { journal with
      entries := journal.entries ++ [diff]
      bounded := by
        have := journal.bounded
        rw [length_append, length_singleton]
        omega }

def pushAll (journal : Journal δ) (diffs : List (RawDiff δ)) : Journal δ :=
  diffs.foldl push journal

/-- The journal is what is left of everything ever pushed. -/
structure Holds (journal : Journal δ) (history : List (RawDiff δ)) : Prop where
  base_le : journal.baseSeq ≤ history.length
  entries_eq : journal.entries = history.drop journal.baseSeq
  dropped_le : ∀ diff ∈ history.take journal.baseSeq, diff.lsn ≤ journal.truncatedThrough

theorem holds_new (capacity : ℕ) : (new capacity : Journal δ).Holds [] :=
  ⟨le_rfl, rfl, nofun⟩

theorem Holds.push {journal : Journal δ} (h : journal.Holds history) (diff) :
    (journal.push diff).Holds (history ++ [diff]) := by
  obtain ⟨hbase, hentries, hdrop⟩ := h
  unfold Journal.push
  split
  next hfull =>
    have hpos := journal.capacity_pos
    have hlen : journal.entries.length = history.length - journal.baseSeq := by
      rw [hentries, length_drop]
    have hlt : journal.baseSeq < history.length := by omega
    have hhead : journal.entries.head? = some (history.get ⟨journal.baseSeq, hlt⟩) := by
      rw [hentries, head?_drop]
      exact getElem?_eq_getElem hlt
    refine ⟨?_, ?_, ?_⟩
    · rw [length_append]
      show journal.baseSeq + 1 ≤ history.length + 1
      omega
    · show journal.entries.tail ++ [diff] = (history ++ [diff]).drop (journal.baseSeq + 1)
      rw [hentries, tail_drop, drop_append_of_le_length hlt]
    · intro d hd
      rw [hhead]
      rw [take_append_of_le_length hlt, take_add_one, mem_append] at hd
      rcases hd with hold | hnew
      · exact (hdrop d hold).trans (le_max_left _ _)
      · rw [getElem?_eq_getElem hlt, Option.toList_some, mem_singleton] at hnew
        rw [hnew]
        exact le_max_right _ _
  next hroom =>
    refine ⟨?_, ?_, ?_⟩
    · rw [length_append]
      exact hbase.trans (Nat.le_add_right _ _)
    · show journal.entries ++ [diff] = (history ++ [diff]).drop journal.baseSeq
      rw [hentries, drop_append_of_le_length hbase]
    · intro d hd
      rw [take_append_of_le_length hbase] at hd
      exact hdrop d hd

theorem Holds.pushAll {journal : Journal δ} (h : journal.Holds history) (diffs) :
    (journal.pushAll diffs).Holds (history ++ diffs) := by
  induction diffs generalizing journal history with
  | nil => simpa [Journal.pushAll] using h
  | cons diff diffs ih => simpa [Journal.pushAll] using ih (h.push diff)

theorem baseSeq_push_le (journal : Journal δ) (diff) :
    journal.baseSeq ≤ (journal.push diff).baseSeq := by
  unfold push
  split
  · exact Nat.le_succ _
  · exact le_rfl

theorem baseSeq_pushAll_le (journal : Journal δ) (diffs) :
    journal.baseSeq ≤ (journal.pushAll diffs).baseSeq := by
  induction diffs generalizing journal with
  | nil => exact le_rfl
  | cons diff diffs ih => exact (journal.baseSeq_push_le diff).trans (ih _)

end Journal

structure JournalCursor where
  nextSeq : ℕ
  fromLsn : Lsn
  tables : List TableId
  poisoned : Bool
deriving Repr, DecidableEq

/-- A cursor starts at the oldest entry, unless diffs it would need are gone. -/
def openCursor (journal : Journal δ) (tables : List TableId) (fromLsn : Lsn) :
    Except String JournalCursor :=
  if journal.truncatedThrough > fromLsn then
    .error ("diff journal no longer covers LSN " ++ toString fromLsn ++ " (truncated through " ++
      toString journal.truncatedThrough ++ "); resubscribe for a fresh snapshot")
  else .ok ⟨journal.baseSeq, fromLsn, tables, false⟩

namespace JournalCursor

def relevant (cursor : JournalCursor) (entry : RawDiff δ) : Bool :=
  decide (cursor.fromLsn < entry.lsn) && entry.table.any (cursor.tables.contains ·)

/-- Passes entries until a relevant one. -/
def scan (cursor : JournalCursor) : List (RawDiff δ) → Option (RawDiff δ) × JournalCursor
  | [] => (none, cursor)
  | entry :: rest =>
    if cursor.relevant entry then (some entry, { cursor with nextSeq := cursor.nextSeq + 1 })
    else scan { cursor with nextSeq := cursor.nextSeq + 1 } rest

/-- A cursor that was overtaken is parked for good. -/
def nextDiff (journal : Journal δ) (cursor : JournalCursor) : Option (RawDiff δ) × JournalCursor :=
  if cursor.poisoned then (none, cursor)
  else if cursor.nextSeq < journal.baseSeq then (none, { cursor with poisoned := true })
  else cursor.scan (journal.entries.drop (cursor.nextSeq - journal.baseSeq))

def peekLsn (journal : Journal δ) (cursor : JournalCursor) : Option Lsn :=
  if cursor.poisoned then none
  else if cursor.nextSeq < journal.baseSeq then none
  else ((journal.entries.drop (cursor.nextSeq - journal.baseSeq)).find? cursor.relevant).map
    RawDiff.lsn

/-- The relevant diffs of the whole history that the cursor has not passed. -/
def pending (cursor : JournalCursor) (history : List (RawDiff δ)) : List (RawDiff δ) :=
  (history.drop cursor.nextSeq).filter cursor.relevant

/-- What the cursor will yield from the journal as it is. -/
def remaining (journal : Journal δ) (cursor : JournalCursor) : List (RawDiff δ) :=
  (journal.entries.drop (cursor.nextSeq - journal.baseSeq)).filter cursor.relevant

def Overtaken (journal : Journal δ) (cursor : JournalCursor) : Prop :=
  cursor.poisoned = true ∨ cursor.nextSeq < journal.baseSeq

instance (journal : Journal δ) (cursor : JournalCursor) : Decidable (cursor.Overtaken journal) :=
  inferInstanceAs (Decidable (_ ∨ _))

def SameFilter (cursor cursor' : JournalCursor) : Prop :=
  cursor'.fromLsn = cursor.fromLsn ∧ cursor'.tables = cursor.tables

theorem SameFilter.relevant_eq {cursor : JournalCursor} (h : cursor.SameFilter cursor') :
    (cursor'.relevant : RawDiff δ → Bool) = cursor.relevant := by
  funext entry
  rw [relevant, relevant, h.1, h.2]

theorem scan_spec (cursor : JournalCursor) (ents : List (RawDiff δ)) :
    cursor.SameFilter (cursor.scan ents).2 ∧ (cursor.scan ents).2.poisoned = cursor.poisoned ∧
      (cursor.scan ents).1 = (ents.filter cursor.relevant).head? ∧ ∃ passed, passed ≤ ents.length ∧
        (cursor.scan ents).2.nextSeq = cursor.nextSeq + passed ∧
        (ents.drop passed).filter cursor.relevant = (ents.filter cursor.relevant).tail := by
  induction ents generalizing cursor with
  | nil => exact ⟨⟨rfl, rfl⟩, rfl, rfl, 0, le_rfl, rfl, rfl⟩
  | cons entry rest ih =>
    by_cases hrelevant : cursor.relevant entry = true
    · rw [scan, if_pos hrelevant, filter_cons_of_pos hrelevant]
      exact ⟨⟨rfl, rfl⟩, rfl, rfl, 1, by simp, rfl, rfl⟩
    · rw [scan, if_neg hrelevant, filter_cons_of_neg hrelevant]
      obtain ⟨hfilt, hpoison, hfound, passed, hpass, hseq, hrest⟩ :=
        ih { cursor with nextSeq := cursor.nextSeq + 1 }
      refine ⟨hfilt, hpoison, hfound, passed + 1, ?_, ?_, ?_⟩
      · rw [length_cons]
        omega
      · rw [hseq]
        dsimp only
        omega
      · exact hrest

variable {journal : Journal δ} {history : List (RawDiff δ)} {cursor : JournalCursor}

variable (h : journal.Holds history)
include h

theorem unread_entries (hbase : journal.baseSeq ≤ cursor.nextSeq) :
    journal.entries.drop (cursor.nextSeq - journal.baseSeq) = history.drop cursor.nextSeq := by
  rw [h.entries_eq, drop_drop, Nat.add_sub_cancel' hbase]

theorem remaining_eq_pending (hover : ¬ cursor.Overtaken journal) :
    cursor.remaining journal = cursor.pending history := by
  rw [Overtaken, not_or, not_lt] at hover
  rw [remaining, unread_entries h hover.2, pending]

/-- A cursor that was not overtaken takes the first pending diff. -/
theorem nextDiff_spec (hover : ¬ cursor.Overtaken journal) :
    cursor.SameFilter (cursor.nextDiff journal).2 ∧ (cursor.nextDiff journal).2.poisoned = false ∧
      (cursor.nextDiff journal).1 = (cursor.pending history).head? ∧
      (cursor.nextDiff journal).2.pending history = (cursor.pending history).tail ∧
      cursor.nextSeq ≤ (cursor.nextDiff journal).2.nextSeq ∧
      (cursor.nextDiff journal).2.nextSeq ≤ max cursor.nextSeq history.length := by
  rw [Overtaken, not_or, Bool.not_eq_true, not_lt] at hover
  obtain ⟨hpoison, hbase⟩ := hover
  rw [nextDiff, if_neg (by simp [hpoison]), if_neg (not_lt.mpr hbase),
    unread_entries h hbase]
  obtain ⟨hfilt, hkept, hfound, passed, hpass, hseq, hrest⟩ :=
    cursor.scan_spec (history.drop cursor.nextSeq)
  rw [length_drop] at hpass
  refine ⟨hfilt, hkept.trans hpoison, hfound, ?_, by omega, by omega⟩
  rw [pending, hfilt.relevant_eq, hseq, ← drop_drop]
  exact hrest

omit h in
theorem nextDiff_overtaken (hover : cursor.Overtaken journal) :
    (cursor.nextDiff journal).1 = none ∧ cursor.SameFilter (cursor.nextDiff journal).2 ∧
      (cursor.nextDiff journal).2.nextSeq = cursor.nextSeq ∧
      (cursor.nextDiff journal).2.poisoned = true := by
  unfold nextDiff
  split
  next hpoison => exact ⟨rfl, ⟨rfl, rfl⟩, rfl, hpoison⟩
  next hpoison =>
    rcases hover with hover | hover
    · exact absurd hover hpoison
    · rw [if_pos hover]
      exact ⟨rfl, ⟨rfl, rfl⟩, rfl, rfl⟩

variable (cursor) in
/-- What a read takes comes before what it leaves pending. -/
theorem nextDiff_takes : cursor.SameFilter (cursor.nextDiff journal).2 ∧
    (cursor.nextDiff journal).1.toList ++ (cursor.nextDiff journal).2.pending history =
      cursor.pending history ∧
    (cursor.nextDiff journal).2.nextSeq ≤ max cursor.nextSeq history.length := by
  by_cases hover : cursor.Overtaken journal
  · obtain ⟨hnone, hsame, hseq, -⟩ := nextDiff_overtaken hover
    refine ⟨hsame, ?_, hseq.trans_le (le_max_left _ _)⟩
    rw [hnone, pending, hseq, hsame.relevant_eq]
    rfl
  · obtain ⟨hsame, -, hfound, htail, -, hle⟩ := nextDiff_spec h hover
    refine ⟨hsame, ?_, hle⟩
    rw [hfound, htail]
    cases cursor.pending history <;> rfl

theorem peekLsn_spec (hover : ¬ cursor.Overtaken journal) :
    cursor.peekLsn journal = (cursor.pending history).head?.map RawDiff.lsn := by
  rw [Overtaken, not_or, Bool.not_eq_true, not_lt] at hover
  obtain ⟨hpoison, hbase⟩ := hover
  rw [peekLsn, if_neg (by simp [hpoison]), if_neg (not_lt.mpr hbase),
    unread_entries h hbase, pending, head?_filter]

omit h

theorem pending_append (hread : cursor.nextSeq ≤ history.length) (diffs) :
    cursor.pending (history ++ diffs) = cursor.pending history ++ diffs.filter cursor.relevant := by
  simp [pending, drop_append_of_le_length hread]

end JournalCursor

/-- Everything dropped before a cursor was opened is at or below the LSN it starts from. -/
theorem openCursor_pending {journal : Journal δ} (h : journal.Holds history)
    (hopen : openCursor journal tables fromLsn = .ok cursor) :
    cursor = ⟨journal.baseSeq, fromLsn, tables, false⟩ ∧
      cursor.pending history = history.filter cursor.relevant := by
  unfold openCursor at hopen
  split at hopen
  · cases hopen
  next hcovers =>
    cases hopen
    refine ⟨rfl, ?_⟩
    rw [JournalCursor.pending]
    conv_rhs => rw [← take_append_drop journal.baseSeq history, filter_append]
    have hgone : (history.take journal.baseSeq).filter
        (JournalCursor.relevant ⟨journal.baseSeq, fromLsn, tables, false⟩) = [] := by
      refine filter_eq_nil_iff.mpr fun diff hdiff => ?_
      have hle := (h.dropped_le diff hdiff).trans (not_lt.mp hcovers)
      simp [JournalCursor.relevant, not_lt.mpr hle]
    rw [hgone, nil_append]

end Palimpsest.Postgres
