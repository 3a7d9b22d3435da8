import Palimpsest.Client.Connection
import Palimpsest.Client.Feed
import Palimpsest.Server.Router

/-! A client that reconnects with the LSN it has applied: the decision the router takes on it, and
what the client makes of the events that follow. -/
namespace Palimpsest.Client
open Dataflow Server List LocalCache

variable {δ : Type}

structure OutputCommit (δ : Type) where
  commitLsn : Lsn
  changes : List (RowChange δ)
  after : List (Row δ)
deriving Repr, DecidableEq

structure OutputHistory (δ : Type) where
  origin : List (Row δ)
  commits : List (OutputCommit δ)

namespace OutputCommit

def event (commit : OutputCommit δ) : DiffEvent δ :=
  .transactionUpdate none none commit.commitLsn none commit.changes

def lastBag (origin : List (Row δ)) (commits : List (OutputCommit δ)) : List (Row δ) :=
  (commits.getLast?.map OutputCommit.after).getD origin

@[simp]
theorem lastBag_append_singleton (origin : List (Row δ)) (commits commit) :
    lastBag origin (commits ++ [commit]) = commit.after := by
  simp [lastBag]

theorem lastBag_append (origin : List (Row δ)) (commits later) :
    lastBag origin (commits ++ later) = lastBag (lastBag origin commits) later := by
  rcases eq_nil_or_concat' later with rfl | ⟨later, commit, rfl⟩
  · simp [lastBag]
  · rw [← append_assoc, lastBag_append_singleton, lastBag_append_singleton]

end OutputCommit

section
variable [DecidableEq δ]

/-- What a client makes of an event. Initial rows replace what it holds. -/
def LocalCache.take (schema : Schema) (cache : LocalCache δ) : DiffEvent δ → LocalCache δ
  | .initial _ rows => (forSchema schema).apply .initial rows
  | .transactionUpdate _ _ _ _ changes => cache.applyTransaction (changes.map encodeChange)
  | .resync _ => .default

def LocalCache.takeAll (cache : LocalCache δ) (commits : List (OutputCommit δ)) : LocalCache δ :=
  commits.foldl (fun cache commit => cache.applyTransaction (commit.changes.map encodeChange)) cache

namespace LocalCache

theorem foldl_take_events (schema) (cache : LocalCache δ) (commits) :
    (commits.map OutputCommit.event).foldl (take schema) cache = cache.takeAll commits := by
  rw [foldl_map]
  rfl

theorem takeAll_append (cache : LocalCache δ) (commits later) :
    cache.takeAll (commits ++ later) = (cache.takeAll commits).takeAll later := foldl_append

theorem pkColumns_takeAll (cache : LocalCache δ) (commits) :
    (cache.takeAll commits).pkColumns = cache.pkColumns := by
  induction commits generalizing cache with
  | nil => rfl
  | cons commit commits ih => exact (ih _).trans (pkColumns_applyTransaction cache _)

theorem rows_takeAll_congr {cache cache' : LocalCache δ}
    (hcols : cache.pkColumns = cache'.pkColumns)
    (hrows : ∀ key, cache.rows key = cache'.rows key) (commits key) :
    (cache.takeAll commits).rows key = (cache'.takeAll commits).rows key := by
  induction commits generalizing cache cache' with
  | nil => exact hrows key
  | cons commit commits ih =>
    refine @ih (cache.applyTransaction (commit.changes.map encodeChange))
      (cache'.applyTransaction (commit.changes.map encodeChange)) (by simp [hcols]) fun key => ?_
    rw [applyTransaction_eq, applyTransaction_eq]
    exact rows_editAll_congr hcols (hrows key) _

end LocalCache

def OutputCommit.Touches (pkColumns : List ℕ) (commit : OutputCommit δ)
    (key : PrimaryKey δ) : Prop :=
  ∃ edit ∈ commit.changes.flatMap editsOf, keyBy pkColumns edit.row = key

end

namespace OutputHistory
open OutputCommit

def viewAt (history : OutputHistory δ) (lsn : Lsn) : List (Row δ) :=
  lastBag history.origin (history.commits.filter fun commit => commit.commitLsn ≤ lsn)

def sentAfter (history : OutputHistory δ) (lsn : Lsn) : List (OutputCommit δ) :=
  history.commits.filter fun commit => lsn < commit.commitLsn

/-- Commits are in the order of their LSNs, each takes the bag before it to the bag after it, and
the key of the schema tells the rows apart. -/
structure Coherent [DecidableEq δ] (pkColumns : List ℕ) (history : OutputHistory δ) : Prop where
  ordered : history.commits.Pairwise fun commit later => commit.commitLsn < later.commitLsn
  carried : ∀ done commit rest, history.commits = done ++ commit :: rest →
    Session.Carries pkColumns (lastBag history.origin done) commit.after
      (commit.changes.map encodeChange)
  apart : ∀ lsn, KeysApart pkColumns (history.viewAt lsn)

theorem filter_append_sentAfter {commits : List (OutputCommit δ)}
    (h : commits.Pairwise fun commit later => commit.commitLsn < later.commitLsn) (lsn : Lsn) :
    (commits.filter fun commit => commit.commitLsn ≤ lsn) ++
      (commits.filter fun commit => lsn < commit.commitLsn) = commits := by
  induction commits with
  | nil => rfl
  | cons commit commits ih =>
    obtain ⟨hlater, hrest⟩ := pairwise_cons.mp h
    by_cases hearly : commit.commitLsn ≤ lsn
    · simp only [filter_cons, hearly, not_lt.mpr hearly, decide_true, decide_false, if_true,
        Bool.false_eq_true, if_false, cons_append]
      rw [ih hrest]
    · have hnone : (commits.filter fun commit => commit.commitLsn ≤ lsn) = [] := by
        rw [filter_eq_nil_iff]
        intro later hmem
        have hlt := hlater later hmem
        lia
      have hall : (commits.filter fun commit => lsn < commit.commitLsn) = commits := by
        rw [filter_eq_self]
        intro later hmem
        have hlt := hlater later hmem
        lia
      rw [filter_cons_of_neg (by simpa using hearly), hnone,
        filter_cons_of_pos (by simpa using hearly), hall]
      rfl

section
variable [DecidableEq δ] {pkColumns : List ℕ} {history : OutputHistory δ}

variable (h : history.Coherent pkColumns)
include h

theorem Coherent.split (lsn : Lsn) : history.commits =
      (history.commits.filter fun commit => commit.commitLsn ≤ lsn) ++ history.sentAfter lsn :=
  (filter_append_sentAfter h.ordered lsn).symm

theorem Coherent.viewAt_commit (hsplit : history.commits = done ++ commit :: rest) :
    history.viewAt commit.commitLsn = commit.after := by
  have hordered := h.ordered
  rw [hsplit, pairwise_append, pairwise_cons] at hordered
  obtain ⟨-, ⟨hlater, -⟩, hearly⟩ := hordered
  have hrest : (rest.filter fun c => c.commitLsn ≤ commit.commitLsn) = [] := by
    rw [filter_eq_nil_iff]
    intro c hc
    have hlt := hlater c hc
    lia
  rw [viewAt, hsplit, filter_append, filter_cons_of_pos (by simp), hrest, lastBag_append_singleton]

/-- A cache that shows the view at an LSN keeps up with everything sent after it. -/
theorem Coherent.holds_prefix {cache : LocalCache δ} (hpk : cache.pkColumns = pkColumns)
    (hcache : cache.Holds (history.viewAt lsn)) (hsent : history.sentAfter lsn = done ++ rest) :
    (cache.takeAll done).Holds (lastBag (history.viewAt lsn) done) := by
  induction done using reverseRecOn generalizing rest with
  | nil => exact hcache
  | append_singleton done commit ih =>
    rw [append_assoc, singleton_append] at hsent
    have hcarry := h.carried ((history.commits.filter fun commit => commit.commitLsn ≤ lsn) ++ done)
      commit rest (by rw [append_assoc, ← hsent, ← h.split lsn])
    rw [lastBag_append] at hcarry
    rw [takeAll_append, lastBag_append_singleton]
    exact hcarry _ ((cache.pkColumns_takeAll done).trans hpk) (ih hsent)

end

end OutputHistory

section Resume
variable [DecidableEq δ]

/-- What the channel of a new subscription holds when it is opened. -/
def openingEvents (config : RouterConfig) (resumeLsn : Option Lsn)
    (snapshot : Lsn × List (Row δ) × List (TableDiff δ)) : List (DiffEvent δ) :=
  match openChannel config resumeLsn snapshot with
  | .ok opened => opened.channel.sender.queue
  | .error _ => []

omit [DecidableEq δ] in
theorem openingEvents_eq (config : RouterConfig) (resumeLsn : Option Lsn)
    (snap : Lsn × List (Row δ) × List (TableDiff δ)) : openingEvents config resumeLsn snap =
      if ∀ lsn ∈ resumeLsn, lsn < snap.1 then [.initial snap.1 snap.2.1] else [] := by
  have hroom : (freshChannel config : BoundedDiffChannel δ).sender.hasRoom :=
    ⟨rfl, config.capacity_pos⟩
  obtain ⟨hsent, hq⟩ := Mpsc.trySend_of_hasRoom hroom (.initial snap.1 snap.2.1)
  have hsent := (BoundedDiffChannel.trySend_sent_iff _ _).mpr hsent
  by_cases hfr : ∀ lsn ∈ resumeLsn, lsn < snap.1
  · have hres : resolveResume resumeLsn ⟨snap.1, config.defaultLatestKnownLsn⟩ =
        .freshInitial .lsnCompacted := by
      cases resumeLsn with
      | none => rfl
      | some lsn => simp [resolveResume, CompactionWindow.contains, hfr lsn rfl]
    simp only [openingEvents, openChannel, hres, hsent, if_true, if_pos hfr,
      BoundedDiffChannel.sender_trySend, hq]
    rfl
  · obtain ⟨lsn, rfl, hlsn⟩ : ∃ lsn, resumeLsn = some lsn ∧ snap.1 ≤ lsn := by
      simpa using hfr
    have hres : resolveResume (some lsn) ⟨snap.1, config.defaultLatestKnownLsn⟩ =
        .replay lsn := by
      simp [resolveResume, CompactionWindow.contains, hlsn]
    simp only [openingEvents, openChannel, hres, if_neg hfr]
    rfl

/-- The client ends with the server's view at the latest LSN delivered to it. -/
def Rejoins (config : RouterConfig) (schema : Schema) (history : OutputHistory δ)
    (resumeLsn : Option Lsn) (snapshotLsn : Lsn) (seedUpdates : List (TableDiff δ))
    (cache : LocalCache δ) : Prop :=
  let opening := openingEvents config resumeLsn
    (snapshotLsn, history.viewAt snapshotLsn, seedUpdates)
  (opening ≠ [] → (opening.foldl (take schema) cache).Holds (history.viewAt snapshotLsn)) ∧
    ∀ done commit rest, history.sentAfter snapshotLsn = done ++ commit :: rest →
      ((opening ++ (done ++ [commit]).map OutputCommit.event).foldl (take schema)
        cache).Holds (history.viewAt commit.commitLsn)

/-- The client is given fresh rows; or the first transaction it is sent touches every key where what
it holds differs from the view at the snapshot. -/
def RejoinsSafely (schema : Schema) (history : OutputHistory δ) (resumeLsn : Option Lsn)
    (snapshotLsn : Lsn) (cache : LocalCache δ) : Prop :=
  (∀ lsn ∈ resumeLsn, lsn < snapshotLsn) ∨ ∀ first ∈ (history.sentAfter snapshotLsn).head?, ∀ key,
      first.Touches schema.primaryKeyColumns key ∨ cache.rows key =
          ((forSchema schema).apply .initial (history.viewAt snapshotLsn)).rows key

/-- Clients that take the same transactions agree after the first one exactly when it touches every
key they differ on. -/
theorem rows_applyTransaction_eq_iff {cache cache' : LocalCache δ}
    (hcols : cache.pkColumns = cache'.pkColumns) (commit : OutputCommit δ) (key) :
    (cache.applyTransaction (commit.changes.map encodeChange)).rows key =
        (cache'.applyTransaction (commit.changes.map encodeChange)).rows key ↔
      commit.Touches cache.pkColumns key ∨ cache.rows key = cache'.rows key := by
  have hedits : (commit.changes.map encodeChange).flatMap WireRowChange.edits =
      commit.changes.flatMap editsOf := flatMap_map ..
  rw [applyTransaction_eq, applyTransaction_eq, hedits]
  by_cases htouch : commit.Touches cache.pkColumns key
  · exact ⟨fun _ => .inl htouch, fun _ => rows_editAll_of_touched hcols htouch⟩
  · rw [rows_editAll_of_untouched fun edit hedit hkey => htouch ⟨edit, hedit, hkey⟩,
      rows_editAll_of_untouched fun edit hedit hkey => htouch ⟨edit, hedit, ?_⟩]
    · exact ⟨.inr, fun h => h.resolve_left htouch⟩
    · rw [hcols]
      exact hkey

section
variable {schema : Schema} {history : OutputHistory δ}
  (hcoh : history.Coherent schema.primaryKeyColumns) (snapshotLsn : Lsn)
include hcoh

theorem holds_takeAll_initial (hsent : history.sentAfter snapshotLsn = done ++ rest) :
    (((forSchema schema).apply .initial (history.viewAt snapshotLsn)).takeAll done).Holds
      (OutputCommit.lastBag (history.viewAt snapshotLsn) done) :=
  hcoh.holds_prefix (pkColumns_initial _ _)
    ((holds_initial_iff schema _).mpr (hcoh.apart snapshotLsn)) hsent

theorem viewAt_sent (hsent : history.sentAfter snapshotLsn = done ++ commit :: rest) :
    history.viewAt commit.commitLsn =
      OutputCommit.lastBag (history.viewAt snapshotLsn) (done ++ [commit]) := by
  have hsplit : history.commits = ((history.commits.filter fun commit =>
      commit.commitLsn ≤ snapshotLsn) ++ done) ++ commit :: rest := by
    rw [append_assoc, ← hsent, ← hcoh.split snapshotLsn]
  rw [OutputCommit.lastBag_append_singleton]
  exact hcoh.viewAt_commit hsplit

/-- Without fresh rows, a client keeps up exactly when the first transaction makes up for every
difference from the snapshot. -/
theorem holds_takeAll_iff {cache : LocalCache δ}
    (hpk : cache.pkColumns = schema.primaryKeyColumns) :
    (∀ done commit rest, history.sentAfter snapshotLsn = done ++ commit :: rest →
      (cache.takeAll (done ++ [commit])).Holds (history.viewAt commit.commitLsn)) ↔
    ∀ first ∈ (history.sentAfter snapshotLsn).head?, ∀ key,
      first.Touches schema.primaryKeyColumns key ∨ cache.rows key =
          ((forSchema schema).apply .initial (history.viewAt snapshotLsn)).rows key := by
  have hcols : cache.pkColumns =
      ((forSchema schema).apply .initial (history.viewAt snapshotLsn)).pkColumns :=
    hpk.trans (pkColumns_initial _ _).symm
  constructor
  · intro h first hfirst key
    obtain ⟨rest, hsent⟩ := head?_eq_some_iff.mp hfirst
    have hsent : history.sentAfter snapshotLsn = [] ++ first :: rest := hsent
    have hcli := h [] first rest hsent
    have hserver := holds_takeAll_initial hcoh snapshotLsn
      (show history.sentAfter snapshotLsn = [first] ++ rest from hsent)
    rw [viewAt_sent hcoh snapshotLsn hsent] at hcli
    have hrows := hcli.rows_eq (by rw [pkColumns_takeAll,
      pkColumns_takeAll, hcols]) hserver key
    rw [← hpk]
    exact (rows_applyTransaction_eq_iff hcols first key).mp hrows
  · intro h done commit rest hsent
    have hpre : history.sentAfter snapshotLsn = (done ++ [commit]) ++ rest := by
      simp [hsent]
    have hserver := holds_takeAll_initial hcoh snapshotLsn hpre
    rw [viewAt_sent hcoh snapshotLsn hsent]
    refine hserver.of_rows_eq fun key => ?_
    obtain ⟨first, later, hsplit⟩ : ∃ first later, done ++ [commit] = first :: later := by
      cases done with
      | nil => exact ⟨commit, [], rfl⟩
      | cons first done => exact ⟨first, done ++ [commit], rfl⟩
    have hfirst : first ∈ (history.sentAfter snapshotLsn).head? := by
      simp [hpre, hsplit]
    rw [hsplit]
    refine rows_takeAll_congr (by simp [hcols]) (fun key => ?_) later key
    rw [rows_applyTransaction_eq_iff hcols, hpk]
    exact h first hfirst key

end

/-- A client that resumes ends with the server's view at the latest LSN delivered exactly when it
rejoins safely. When the router decides on a replay, every later transaction is sent. -/
theorem rejoins_iff (config : RouterConfig) {schema : Schema} {history : OutputHistory δ}
    (hcoherent : history.Coherent schema.primaryKeyColumns) (resumeLsn : Option Lsn)
    (snapshotLsn : Lsn) (seedUpdates : List (TableDiff δ)) {cache : LocalCache δ}
    (hpk : cache.pkColumns = schema.primaryKeyColumns) :
    (Rejoins config schema history resumeLsn snapshotLsn seedUpdates cache ↔
      RejoinsSafely schema history resumeLsn snapshotLsn cache) ∧
    ∀ lsn latestKnown, resolveResume resumeLsn ⟨snapshotLsn, latestKnown⟩ = .replay lsn →
      ∀ commit ∈ history.commits, lsn < commit.commitLsn →
        commit ∈ history.sentAfter snapshotLsn := by
  constructor
  · rw [Rejoins, RejoinsSafely, openingEvents_eq]
    by_cases hfr : ∀ lsn ∈ resumeLsn, lsn < snapshotLsn
    · rw [if_pos hfr]
      refine iff_of_true ⟨fun _ => ?_, fun done commit rest hsent => ?_⟩ (.inl hfr)
      · exact (holds_initial_iff schema _).mpr (hcoherent.apart snapshotLsn)
      · rw [singleton_append, foldl_cons, foldl_take_events,
          viewAt_sent hcoherent snapshotLsn hsent]
        exact holds_takeAll_initial hcoherent snapshotLsn (by rw [hsent, append_assoc]; rfl)
    · rw [if_neg hfr]
      simp only [ne_eq, not_true_eq_false, false_implies, true_and, hfr, false_or,
        nil_append, foldl_take_events]
      exact holds_takeAll_iff hcoherent snapshotLsn hpk
  · intro lsn latestKnown hrep commit hcommit hlater
    cases resumeLsn with
    | none => cases hrep
    | some =>
      simp only [resolveResume, CompactionWindow.contains, decide_eq_true_eq] at hrep
      split at hrep
      next hwindow =>
        exact mem_filter.mpr ⟨hcommit, decide_eq_true (by lia)⟩
      next => cases hrep

/-- The paired changes of a clean transaction take a client from one bag to the next. -/
theorem carries_pairChanges {bytes : δ → List ℕ} (h : Consolidates past step.after step.diffs)
    (hapart : LeadsApart step.after) (hclean : CleanStep bytes step) :
    Session.Carries [0] past step.after
      ((pairChanges (primaryKeyBytes bytes [0]) step.diffs).map encodeChange) := by
  intro cache hpk hholds
  have hreceived := (holds_receive_iff hpk hholds h).mpr ⟨hapart, hclean⟩
  rwa [receive, hpk] at hreceived

end Resume

section

def replaced : OutputHistory ℕ :=
  ⟨[[1, 10], [2, 20]],
    [⟨6, pairChanges (primaryKeyBytes (fun n => [n]) [0]) replacement.diffs, replacement.after⟩]⟩

theorem replaced_coherent : replaced.Coherent [0] where
  ordered := pairwise_singleton ..
  carried done commit rest hsplit := by
    obtain ⟨rfl, hrest⟩ : done = [] ∧ _ = commit :: rest := by
      cases done with
      | nil => exact ⟨rfl, hsplit⟩
      | cons first done => cases done <;> cases hsplit
    cases hrest
    exact carries_pairChanges replacement_evolves.1 (by decide) (by decide)
  apart lsn := by
    rw [keysApart_leading]
    by_cases hlsn : 6 ≤ lsn
    · have hview : replaced.viewAt lsn = replacement.after := by
        simp [OutputHistory.viewAt, OutputCommit.lastBag, replaced, hlsn]
      rw [hview]
      decide
    · have hview : replaced.viewAt lsn = [[1, 10], [2, 20]] := by
        simp [OutputHistory.viewAt, OutputCommit.lastBag, replaced, hlsn]
      rw [hview]
      decide

def config : RouterConfig := ⟨8, .dropAndResync, 0, by decide⟩

theorem resumed_at_snapshot : Rejoins config ⟨["id", "n"], [0]⟩ replaced (some 5) 5 []
      (initialCache ["id", "n"] [[1, 10], [2, 20]]) := by
  refine (rejoins_iff config replaced_coherent (some 5) 5 []
    (pkColumns_initial _ _)).1.mpr (.inr fun first _ key => .inr ?_)
  rfl

/-- A client that is ahead of the server keeps a row that the server does not have. -/
theorem resumed_ahead : replaced.Coherent [0] ∧
    openingEvents config (some 10) (5, replaced.viewAt 5, []) = [] ∧
    ¬ Rejoins config ⟨["id", "n"], [0]⟩ replaced (some 10) 5 []
      (initialCache ["id", "n"] [[3, 30]]) := by
  refine ⟨replaced_coherent, by decide, fun h => ?_⟩
  have hholds := h.2 [] _ [] rfl
  have hkept := (hholds [3, 30]).mp ⟨[3], by decide +kernel⟩
  exact absurd hkept (by decide +kernel)

end

end Palimpsest.Client
