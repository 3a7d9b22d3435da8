import Palimpsest.Foundation.Blocks
import Palimpsest.Foundation.Runs
import Palimpsest.Postgres.Journal

/-! Reading the journal in batches of one LSN while transactions are pushed. -/
namespace Palimpsest.Postgres
open Dataflow Server List

variable {δ : Type}

structure LsnBatch (δ : Type) where
  lsn : Lsn
  diffs : List (RawDiff δ)
deriving Repr, DecidableEq

section

/-- A call of `next_batch` between two of its lock sections: about to look at the next LSN, or
about to take the diff it saw there. -/
inductive BatchCall (δ : Type) where
  | idle
  | peek (first : RawDiff δ) (diffs : List (RawDiff δ))
  | pull (first : RawDiff δ) (diffs : List (RawDiff δ))

def BatchCall.diffs : BatchCall δ → List (RawDiff δ)
  | .idle => []
  | .peek _ diffs | .pull _ diffs => diffs

/-- The journal with its cursor. The history of all pushes and the batches yielded are history
variables. -/
structure Reading (δ : Type) where
  journal : Journal δ
  history : List (RawDiff δ)
  cursor : Option JournalCursor
  call : BatchCall δ
  batches : List (LsnBatch δ)

inductive ReadingAction (δ : Type) where
  /-- One writer section: all its diffs are pushed under the journal lock. -/
  | commit (lsn : Lsn) (changes : List (TableId × Row δ × ℤ))
  | openAt (tables : List TableId) (fromLsn : Lsn)
  | advance

def commitDiffs (lsn : Lsn) (changes : List (TableId × Row δ × ℤ)) : List (RawDiff δ) :=
  changes.map fun change => ⟨some change.1, change.2.1, lsn, change.2.2⟩

namespace Reading

def start (capacity : ℕ) : Reading δ := ⟨.new capacity, [], none, .idle, []⟩

def yield (s : Reading δ) (first : RawDiff δ) (diffs : List (RawDiff δ)) : Reading δ :=
  { s with call := .idle, batches := s.batches ++ [⟨first.lsn, diffs⟩] }

def advance (s : Reading δ) (cursor : JournalCursor) : Reading δ :=
  match s.call with
  | .idle =>
    let taken := cursor.nextDiff s.journal
    match taken.1 with
    | none => { s with cursor := some taken.2 }
    | some first => { s with cursor := some taken.2, call := .peek first [first] }
  | .peek first diffs =>
    match cursor.peekLsn s.journal with
    | none => s.yield first diffs
    | some next => if next ≠ first.lsn then s.yield first diffs
      else { s with call := .pull first diffs }
  | .pull first diffs =>
    let taken := cursor.nextDiff s.journal
    match taken.1 with
    | none => { s with cursor := some taken.2 }.yield first diffs
    | some item => { s with cursor := some taken.2, call := .peek first (diffs ++ [item]) }

def step (s : Reading δ) : ReadingAction δ → Reading δ
  | .commit lsn changes =>
    { s with
      journal := s.journal.pushAll (commitDiffs lsn changes)
      history := s.history ++ commitDiffs lsn changes }
  | .openAt tables fromLsn =>
    match s.cursor, openCursor s.journal tables fromLsn with
    | none, .ok cursor => { s with cursor := some cursor }
    | _, _ => s
  | .advance =>
    match s.cursor with
    | none => s
    | some cursor => s.advance cursor

end Reading

end

section

/-- The batches are a prefix of the relevant diffs, each with all diffs of its LSN. -/
structure WholePrefix (s : Reading δ) (cursor : JournalCursor) : Prop where
  isPrefix : s.batches.flatMap LsnBatch.diffs <+: s.history.filter cursor.relevant
  whole : ∀ batch ∈ s.batches, batch.diffs =
    (s.history.filter cursor.relevant).filter fun diff => decide (diff.lsn = batch.lsn)

/-- Once unread entries are gone nothing more is yielded. -/
def Silenced (s : Reading δ) (cursor : JournalCursor) : Prop :=
  cursor.Overtaken s.journal → ∀ actions : List (ReadingAction δ),
    (actions.foldl Reading.step s).batches = s.batches

/-- Each LSN is pushed in one section, and no section drops an entry the cursor has not read while
a batch is being put together. -/
def Undisturbed (s : Reading δ) : ReadingAction δ → Prop
  | .commit lsn changes => (∀ diff ∈ s.history, diff.lsn ≠ lsn) ∧
      (s.call.diffs ≠ [] → ∀ cursor ∈ s.cursor,
        ¬ cursor.Overtaken (s.journal.pushAll (commitDiffs lsn changes)))
  | .openAt _ _ => True
  | .advance => True

end

section Invariant

/-- A batch under way holds diffs of one LSN, none of which was yielded before. -/
structure UnderWay (s : Reading δ) (cursor : JournalCursor) (first : RawDiff δ)
    (diffs : List (RawDiff δ)) : Prop where
  ne_nil : diffs ≠ []
  lsn_eq : ∀ diff ∈ diffs, diff.lsn = first.lsn
  fresh : ∀ diff ∈ s.batches.flatMap LsnBatch.diffs, diff.lsn ≠ first.lsn
  not_overtaken : ¬ cursor.Overtaken s.journal

/-- What was yielded, what is being put together and what is pending make up the relevant diffs. -/
structure Reads (s : Reading δ) (cursor : JournalCursor) : Prop where
  seq_le : cursor.nextSeq ≤ s.history.length
  split : s.history.filter cursor.relevant =
    s.batches.flatMap LsnBatch.diffs ++ (s.call.diffs ++ cursor.pending s.history)
  whole : ∀ batch ∈ s.batches, batch.diffs ≠ [] ∧ batch.diffs =
    (s.history.filter cursor.relevant).filter fun diff => decide (diff.lsn = batch.lsn)
  peeking : ∀ first diffs, s.call = .peek first diffs → UnderWay s cursor first diffs
  pulling : ∀ first diffs, s.call = .pull first diffs → UnderWay s cursor first diffs ∧
    (cursor.pending s.history).head?.map RawDiff.lsn = some first.lsn

structure Readable (s : Reading δ) : Prop where
  holds : s.journal.Holds s.history
  together : Blocks.Together RawDiff.lsn s.history
  unopened : s.cursor = none → s.call = .idle ∧ s.batches = []
  reads : ∀ cursor ∈ s.cursor, Reads s cursor

variable {s : Reading δ} {cursor cursor' : JournalCursor} {first : RawDiff δ}
  {diffs : List (RawDiff δ)}

theorem pending_filter_nil (hne : diffs ≠ []) (hlsn : ∀ diff ∈ diffs, diff.lsn = first.lsn)
    (htogether : Blocks.Together RawDiff.lsn (yielded ++ (diffs ++ pending)))
    (hnext : pending.head?.map RawDiff.lsn ≠ some first.lsn) :
    pending.filter (fun diff => decide (diff.lsn = first.lsn)) = [] := by
  rw [filter_eq_nil_iff]
  cases pending with
  | nil => exact nofun
  | cons next rest =>
    have hother : next.lsn ≠ first.lsn :=
      fun h => hnext (by rw [head?_cons, Option.map_some, h])
    have hlast := hlsn _ (getLast_mem hne)
    have hsplit : yielded ++ (diffs ++ next :: rest) =
        (yielded ++ diffs.dropLast) ++ diffs.getLast hne :: next :: rest := by
      conv_lhs => rw [← dropLast_append_getLast hne]
      simp
    rw [hsplit] at htogether
    have hagain := htogether.not_again (by rw [hlast]; exact hother)
    intro diff hdiff
    rw [decide_eq_true_eq]
    rcases mem_cons.mp hdiff with rfl | hrest
    · exact hother
    · rw [← hlast]
      exact hagain diff hrest

variable (h : Reads s cursor)
include h

/-- A batch is whole when the next pending diff has another LSN. -/
theorem Reads.yield (hread : Readable s)
    (hunder : UnderWay s cursor first diffs) (hdiffs : s.call.diffs = diffs)
    (hnext : (cursor.pending s.history).head?.map RawDiff.lsn ≠ some first.lsn) :
    Reads (s.yield first diffs) cursor := by
  have hsplit := h.split
  rw [hdiffs] at hsplit
  have htogether := hread.together.sublist (filter_sublist (p := cursor.relevant))
  rw [hsplit] at htogether
  refine ⟨h.seq_le, ?_, ?_, nofun, nofun⟩
  · show s.history.filter cursor.relevant =
      (s.batches ++ [LsnBatch.mk first.lsn diffs]).flatMap LsnBatch.diffs ++
        ([] ++ cursor.pending s.history)
    simp [hsplit]
  · intro batch hbatch
    rcases mem_append.mp hbatch with hold | hnew
    · exact h.whole batch hold
    · obtain rfl := mem_singleton.mp hnew
      refine ⟨hunder.ne_nil, ?_⟩
      have hyielded : (s.batches.flatMap LsnBatch.diffs).filter
          (fun diff => decide (diff.lsn = first.lsn)) = [] := by
        rw [filter_eq_nil_iff]
        intro diff hdiff
        simpa using hunder.fresh diff hdiff
      have hall : diffs.filter (fun diff => decide (diff.lsn = first.lsn)) = diffs := by
        rw [filter_eq_self]
        intro diff hdiff
        simpa using hunder.lsn_eq diff hdiff
      show diffs = (s.history.filter cursor.relevant).filter _
      simp [hsplit, hyielded, hall, pending_filter_nil hunder.ne_nil hunder.lsn_eq htogether hnext]

/-- The first diff of a batch has an LSN that was not yielded before. -/
theorem Reads.fresh_head (hidle : s.call.diffs = [])
    (hpend : cursor.pending s.history = first :: rest) :
    ∀ diff ∈ s.batches.flatMap LsnBatch.diffs, diff.lsn ≠ first.lsn := by
  intro diff hdiff hlsn
  obtain ⟨batch, hbatch, hdiff⟩ := mem_flatMap.mp hdiff
  have hwh := (h.whole batch hbatch).2
  have hbatchLsn : diff.lsn = batch.lsn := by
    rw [hwh] at hdiff
    simpa using (mem_filter.mp hdiff).2
  have hsub : batch.diffs.Sublist (s.batches.flatMap LsnBatch.diffs) := by
    exact sublist_flatten_of_mem (mem_map_of_mem hbatch)
  have hlen : (batch.diffs.filter fun diff => decide (diff.lsn = batch.lsn)).length ≤
      ((s.batches.flatMap LsnBatch.diffs).filter fun diff =>
        decide (diff.lsn = batch.lsn)).length := (hsub.filter _).length_le
  -- the whole LSN was in the earlier batch, and yet another diff of it is pending
  have hmore : batch.diffs.length = ((s.batches.flatMap LsnBatch.diffs).filter fun diff =>
      decide (diff.lsn = batch.lsn)).length + ((first :: rest).filter fun diff =>
        decide (diff.lsn = batch.lsn)).length := by
    rw [hwh, h.split, hidle, hpend, nil_append, filter_append, length_append]
  rw [filter_eq_self.mpr (fun d hd => by
    rw [hwh] at hd
    exact (mem_filter.mp hd).2)] at hlen
  have hfirst : first.lsn = batch.lsn := by rw [← hbatchLsn, hlsn]
  simp only [filter_cons, hfirst, decide_true, if_true, length_cons] at hmore
  omega

/-- The cursor moves on, and the call holds what was taken. -/
theorem Reads.moves (hsame : cursor.SameFilter cursor')
    (hseq : cursor'.nextSeq ≤ s.history.length) (call)
    (hpend : call.diffs ++ cursor'.pending s.history = s.call.diffs ++ cursor.pending s.history)
    (hpeek : ∀ first diffs, call = .peek first diffs → UnderWay s cursor' first diffs)
    (hpull : ∀ first diffs, call ≠ .pull first diffs) :
    Reads { s with cursor := some cursor', call } cursor' := by
  refine ⟨hseq, ?_, ?_, ?_, ?_⟩
  · show s.history.filter cursor'.relevant =
      s.batches.flatMap LsnBatch.diffs ++ (call.diffs ++ cursor'.pending s.history)
    rw [hsame.relevant_eq, hpend, h.split]
  · show ∀ batch ∈ s.batches, batch.diffs ≠ [] ∧ batch.diffs =
      (s.history.filter cursor'.relevant).filter fun diff => decide (diff.lsn = batch.lsn)
    rw [hsame.relevant_eq]
    exact h.whole
  · intro first diffs hcall
    have hunder := hpeek first diffs hcall
    exact ⟨hunder.ne_nil, hunder.lsn_eq, hunder.fresh, hunder.not_overtaken⟩
  · exact fun first diffs hcall => absurd hcall (hpull first diffs)

omit h

theorem not_overtaken_nextDiff (h : s.journal.Holds s.history)
    (hover : ¬ cursor.Overtaken s.journal) :
    ¬ (cursor.nextDiff s.journal).2.Overtaken s.journal := by
  obtain ⟨-, hpoison, -, -, hle, -⟩ := JournalCursor.nextDiff_spec h hover
  rw [JournalCursor.Overtaken, not_or, not_lt] at hover ⊢
  exact ⟨by simp [hpoison], hover.2.trans hle⟩

theorem advance_idle_reads (h : Readable s) (hreads : Reads s cursor) (hidle : s.call = .idle) :
    ∃ cursor', (s.advance cursor).cursor = some cursor' ∧ Reads (s.advance cursor) cursor' := by
  have hcall : s.call.diffs = [] := by rw [hidle]; rfl
  rw [Reading.advance, hidle]
  obtain ⟨hsame, hpend, hle⟩ := cursor.nextDiff_takes h.holds
  rw [max_eq_right hreads.seq_le] at hle
  dsimp only
  refine ⟨(cursor.nextDiff s.journal).2, ?_⟩
  cases hfound : (cursor.nextDiff s.journal).1 with
  | none =>
    rw [hfound] at hpend
    exact ⟨rfl, hreads.moves hsame hle .idle (by rw [hcall]; exact hpend) nofun nofun⟩
  | some item =>
    rw [hfound] at hpend
    refine ⟨rfl, hreads.moves hsame hle (.peek item [item]) (by rw [hcall]; exact hpend) ?_ nofun⟩
    rintro first diffs ⟨⟩
    refine ⟨by simp, by simp, hreads.fresh_head hcall hpend.symm,
      not_overtaken_nextDiff h.holds fun hover => ?_⟩
    simp [(JournalCursor.nextDiff_overtaken hover).1] at hfound

theorem advance_peek_reads (h : Readable s) (hreads : Reads s cursor)
    (hcursor : s.cursor = some cursor)
    (hpeek : s.call = .peek first diffs) :
    ∃ cursor', (s.advance cursor).cursor = some cursor' ∧ Reads (s.advance cursor) cursor' := by
  have hunder := hreads.peeking first diffs hpeek
  have hcall : s.call.diffs = diffs := by rw [hpeek]; rfl
  have hlook := JournalCursor.peekLsn_spec h.holds hunder.not_overtaken
  refine ⟨cursor, ?_⟩
  rw [Reading.advance, hpeek]
  cases hnext : cursor.peekLsn s.journal with
  | none => exact ⟨hcursor, hreads.yield h hunder hcall (by rw [← hlook, hnext]; simp)⟩
  | some next =>
    dsimp only
    split
    next hother =>
      exact ⟨hcursor, hreads.yield h hunder hcall (by rw [← hlook, hnext]; simpa using hother)⟩
    next hsame =>
      rw [not_not] at hsame
      refine ⟨hcursor, hreads.seq_le, ?_, hreads.whole, nofun, ?_⟩
      · rw [hreads.split, hcall]
        rfl
      · intro first' diffs' hpull
        cases hpull
        exact ⟨⟨hunder.ne_nil, hunder.lsn_eq, hunder.fresh, hunder.not_overtaken⟩,
          by rw [← hlook, hnext, hsame]⟩

theorem advance_pull_reads (h : Readable s) (hreads : Reads s cursor)
    (hpull : s.call = .pull first diffs) :
    ∃ cursor', (s.advance cursor).cursor = some cursor' ∧ Reads (s.advance cursor) cursor' := by
  obtain ⟨hunder, hhead⟩ := hreads.pulling first diffs hpull
  obtain ⟨hsame, -, hfound, htail, -, hle⟩ :=
    JournalCursor.nextDiff_spec h.holds hunder.not_overtaken
  rw [max_eq_right hreads.seq_le] at hle
  refine ⟨(cursor.nextDiff s.journal).2, ?_⟩
  rw [Reading.advance, hpull]
  dsimp only
  cases hpend : cursor.pending s.history with
  | nil =>
    simp [hpend] at hhead
  | cons item =>
    rw [hpend, head?_cons, Option.map_some, Option.some.injEq] at hhead
    rw [hpend] at hfound htail
    rw [hfound]
    refine ⟨rfl, hreads.moves hsame hle (.peek first (diffs ++ [item])) ?_ ?_ nofun⟩
    · simp [BatchCall.diffs, hpull, hpend, htail]
    · rintro _ _ ⟨⟩
      refine ⟨by simp, ?_, hunder.fresh, not_overtaken_nextDiff h.holds hunder.not_overtaken⟩
      exact forall_mem_append.mpr ⟨hunder.lsn_eq, forall_mem_singleton.mpr hhead⟩

theorem advance_frame (s : Reading δ) (cursor) :
    (s.advance cursor).journal = s.journal ∧ (s.advance cursor).history = s.history := by
  unfold Reading.advance Reading.yield
  cases s.call with
  | idle =>
    dsimp only
    cases (cursor.nextDiff s.journal).1 <;> exact ⟨rfl, rfl⟩
  | peek =>
    cases cursor.peekLsn s.journal with
    | none => exact ⟨rfl, rfl⟩
    | some =>
      dsimp only
      split <;> exact ⟨rfl, rfl⟩
  | pull =>
    dsimp only
    cases (cursor.nextDiff s.journal).1 <;> exact ⟨rfl, rfl⟩

theorem advance_readable (h : Readable s) (hcursor : s.cursor = some cursor) :
    Readable (s.advance cursor) := by
  have hreads := h.reads cursor hcursor
  obtain ⟨hjournal, hhist⟩ := advance_frame s cursor
  have hnext : ∃ cursor', (s.advance cursor).cursor = some cursor' ∧
      Reads (s.advance cursor) cursor' := by
    cases hcall : s.call with
    | idle => exact advance_idle_reads h hreads hcall
    | peek => exact advance_peek_reads h hreads hcursor hcall
    | pull => exact advance_pull_reads h hreads hcall
  obtain ⟨cursor', hcursor', hreads'⟩ := hnext
  refine ⟨by rw [hjournal, hhist]; exact h.holds, by rw [hhist]; exact h.together, ?_, ?_⟩
  · intro hnone
    simp [hcursor'] at hnone
  · intro cursor'' hcursor''
    rw [hcursor', Option.mem_some_iff] at hcursor''
    rw [← hcursor'']
    exact hreads'

theorem commit_reads (hreads : Reads s cursor) (hfr : ∀ diff ∈ s.history, diff.lsn ≠ lsn)
    (hover : s.call.diffs ≠ [] → ¬ cursor.Overtaken (s.journal.pushAll (commitDiffs lsn changes))) :
    Reads (s.step (.commit lsn changes)) cursor := by
  have hnew : ∀ diff ∈ commitDiffs lsn changes, diff.lsn = lsn := by
    refine forall_mem_map.mpr fun change _ => ?_
    rfl
  have hpend := JournalCursor.pending_append hreads.seq_le
    (commitDiffs lsn changes)
  have hunder : ∀ first diffs, s.call.diffs = diffs → UnderWay s cursor first diffs →
      UnderWay (s.step (.commit lsn changes)) cursor first diffs := by
    intro first diffs hdiffs hunder
    exact ⟨hunder.ne_nil, hunder.lsn_eq, hunder.fresh, hover (by rw [hdiffs]; exact hunder.ne_nil)⟩
  refine ⟨?_, ?_, ?_, ?_, ?_⟩
  · show cursor.nextSeq ≤ (s.history ++ commitDiffs lsn changes).length
    rw [length_append]
    exact hreads.seq_le.trans (Nat.le_add_right _ _)
  · show (s.history ++ commitDiffs lsn changes).filter cursor.relevant =
      s.batches.flatMap LsnBatch.diffs ++
        (s.call.diffs ++ cursor.pending (s.history ++ commitDiffs lsn changes))
    simp [hreads.split, hpend]
  · intro batch hbatch
    obtain ⟨hne, hwh⟩ := hreads.whole batch hbatch
    refine ⟨hne, ?_⟩
    -- the batch's LSN is in the history already, so the new section has another one
    obtain ⟨diff, rest, hdiff⟩ := exists_cons_of_ne_nil hne
    have hmem : diff ∈ (s.history.filter cursor.relevant).filter
        fun diff => decide (diff.lsn = batch.lsn) := by
      rw [← hwh, hdiff]
      exact mem_cons_self
    obtain ⟨hhist, hlsn⟩ := mem_filter.mp hmem
    have hother : lsn ≠ batch.lsn := by
      rintro rfl
      exact hfr diff (mem_of_mem_filter hhist) (by simpa using hlsn)
    have hnone : ((commitDiffs lsn changes).filter cursor.relevant).filter
        (fun diff => decide (diff.lsn = batch.lsn)) = [] := by
      rw [filter_eq_nil_iff]
      intro d hd
      rw [hnew d (mem_of_mem_filter hd)]
      simpa using hother
    show batch.diffs = ((s.history ++ commitDiffs lsn changes).filter cursor.relevant).filter
      fun diff => decide (diff.lsn = batch.lsn)
    rw [filter_append, filter_append, hnone, append_nil]
    exact hwh
  · intro first diffs hpeek
    have hdiffs : s.call.diffs = diffs := congrArg BatchCall.diffs hpeek
    exact hunder first diffs hdiffs (hreads.peeking first diffs hpeek)
  · intro first diffs hpull
    have hdiffs : s.call.diffs = diffs := congrArg BatchCall.diffs hpull
    obtain ⟨hway, hhead⟩ := hreads.pulling first diffs hpull
    refine ⟨hunder first diffs hdiffs hway, ?_⟩
    show (cursor.pending (s.history ++ commitDiffs lsn changes)).head?.map RawDiff.lsn = _
    rw [hpend]
    cases hlist : cursor.pending s.history with
    | nil =>
      simp [hlist] at hhead
    | cons =>
      rwa [hlist] at hhead

theorem step_readable (h : Readable s) (hmeets : Undisturbed s action) :
    Readable (s.step action) := by
  cases action with
  | commit lsn =>
    obtain ⟨hfr, hover⟩ := hmeets
    refine ⟨h.holds.pushAll _, ?_, h.unopened, ?_⟩
    · refine h.together.append_fresh (k := lsn) ?_ hfr
      refine forall_mem_map.mpr fun change _ => ?_
      rfl
    · intro cursor hcursor
      exact commit_reads (h.reads cursor hcursor) hfr fun hcall => hover hcall cursor hcursor
  | openAt =>
    simp only [Reading.step]
    split
    next cursor hnone hopen =>
      obtain ⟨hidle, hbatches⟩ := h.unopened hnone
      obtain ⟨hnew, hpend⟩ := openCursor_pending h.holds hopen
      refine ⟨h.holds, h.together, nofun, fun cursor' hcursor' => ?_⟩
      rw [Option.mem_some_iff] at hcursor'
      subst hcursor'
      refine ⟨?_, ?_, ?_, ?_, ?_⟩
      · rw [hnew]
        exact h.holds.base_le
      · show s.history.filter cursor.relevant =
          s.batches.flatMap LsnBatch.diffs ++ (s.call.diffs ++ cursor.pending s.history)
        rw [hpend, hbatches, hidle]
        rfl
      · intro batch hbatch
        rw [show s.batches = [] from hbatches] at hbatch
        cases hbatch
      · intro first diffs hcall
        rw [show s.call = .idle from hidle] at hcall
        cases hcall
      · intro first diffs hcall
        rw [show s.call = .idle from hidle] at hcall
        cases hcall
    next => exact h
  | advance =>
    simp only [Reading.step]
    split
    next => exact h
    next cursor hcursor => exact advance_readable h hcursor

theorem start_readable (capacity : ℕ) : Readable (Reading.start (δ := δ) capacity) :=
  ⟨Journal.holds_new capacity, .nil, fun _ => ⟨rfl, rfl⟩, nofun⟩

end Invariant

section Main

variable {s : Reading δ}

theorem step_silent (action) (hcursor : s.cursor = some cursor) (hover : cursor.Overtaken s.journal)
    (hidle : s.call = .idle) : ∃ cursor', (s.step action).cursor = some cursor' ∧
      cursor'.Overtaken (s.step action).journal ∧ (s.step action).call = .idle ∧
      (s.step action).batches = s.batches := by
  cases action with
  | commit =>
    refine ⟨cursor, hcursor, ?_, hidle, rfl⟩
    exact hover.imp_right fun hlt => hlt.trans_le (s.journal.baseSeq_pushAll_le _)
  | openAt tables fromLsn =>
    have hsame : s.step (.openAt tables fromLsn) = s := by
      rw [Reading.step, hcursor]
    rw [hsame]
    exact ⟨cursor, hcursor, hover, hidle, rfl⟩
  | advance =>
    obtain ⟨hnone, -, -, hpoison⟩ := JournalCursor.nextDiff_overtaken hover
    have hstep : s.step .advance = { s with cursor := some (cursor.nextDiff s.journal).2 } := by
      unfold Reading.step Reading.advance
      rw [hcursor, hidle]
      dsimp only
      rw [hnone]
    rw [hstep]
    exact ⟨_, rfl, .inl hpoison, hidle, rfl⟩

theorem run_silent (actions : List (ReadingAction δ)) (hcursor : s.cursor = some cursor)
    (hover : cursor.Overtaken s.journal) (hidle : s.call = .idle) :
    (actions.foldl Reading.step s).batches = s.batches := by
  induction actions generalizing s cursor with
  | nil => rfl
  | cons action actions ih =>
    obtain ⟨cursor', hcursor', hover', hidle', hbatches⟩ :=
      step_silent action hcursor hover hidle
    rw [foldl_cons, ih hcursor' hover' hidle', hbatches]

theorem Reads.silenced (h : Reads s cursor) (hcursor : s.cursor = some cursor) :
    Silenced s cursor := by
  intro hover actions
  cases hcall : s.call with
  | idle => exact run_silent actions hcursor hover hcall
  | peek first diffs => exact absurd hover (h.peeking first diffs hcall).not_overtaken
  | pull first diffs => exact absurd hover (h.pulling first diffs hcall).1.not_overtaken

theorem Reads.wholePrefix (h : Reads s cursor) : WholePrefix s cursor :=
  ⟨⟨_, h.split.symm⟩, fun batch hbatch => (h.whole batch hbatch).2⟩

/-- In every run whose sections each push an LSN of their own and drop nothing unread during a
batch, the batches are a prefix of the relevant diffs in whole transactions, and a cursor that is
overtaken yields nothing more. -/
theorem batches_whole (capacity : ℕ)
    (h : Runs.Reached Reading.step Undisturbed (Reading.start capacity) s) :
    ∀ cursor ∈ s.cursor, WholePrefix s cursor ∧ Silenced s cursor := by
  have hread : Readable s := h.invariant (start_readable capacity)
    fun _ _ hread hmeets => step_readable hread hmeets
  intro cursor hcursor
  have hreads := hread.reads cursor hcursor
  exact ⟨hreads.wholePrefix, hreads.silenced hcursor⟩

def twoRows (lsn : Lsn) (row row' : ℕ) : ReadingAction ℕ :=
  .commit lsn [(7, [row], 1), (7, [row'], 1)]

def quietActions : List (ReadingAction ℕ) :=
  [.openAt [7] 0, twoRows 1 10 11, .advance, .advance, .advance, .advance]

theorem quiet_batch_whole :
    (quietActions.foldl Reading.step (Reading.start 2)).batches.map (·.diffs.length) = [2] ∧
    ∀ cursor ∈ (quietActions.foldl Reading.step (Reading.start 2)).cursor,
      WholePrefix (quietActions.foldl Reading.step (Reading.start 2)) cursor ∧
        Silenced (quietActions.foldl Reading.step (Reading.start 2)) cursor := by
  refine ⟨by decide, batches_whole 2 ?_⟩
  refine Runs.Schedule.reached ?_ .start
  refine .cons trivial (.cons ⟨by decide, fun h => ?_⟩ (.cons trivial (.cons trivial
    (.cons trivial (.cons trivial (.nil _))))))
  exact absurd rfl h

/-- Between two diffs of one transaction another one is pushed and the journal is too small. -/
def disturbedActions : List (ReadingAction ℕ) :=
  [.openAt [7] 0, twoRows 1 10 11, .advance, twoRows 2 12 13, .advance]

theorem disturbed_batch_partial : ∃ s cursor,
    Runs.Reached Reading.step (fun _ _ => True) (Reading.start (δ := ℕ) 2) s ∧
      s.cursor = some cursor ∧ ¬ WholePrefix s cursor := by
  refine ⟨disturbedActions.foldl Reading.step (Reading.start 2), ⟨1, 0, [7], false⟩,
    (Runs.Schedule.free _ _ _).reached .start, by decide, fun h => ?_⟩
  have hwh := h.whole ⟨1, [⟨some 7, [10], 1, 1⟩]⟩ (by decide)
  revert hwh
  decide

end Main

end Palimpsest.Postgres
