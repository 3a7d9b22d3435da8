import Palimpsest.Client.Replica
import Mathlib.Data.List.TakeWhile

/-! Local mutations together with the server that executes them: each is written, commits in some
transaction, and comes back through the stream or inside a snapshot. -/
namespace Palimpsest.Client
open Function List

/-- What the server sends for a mirrored table. The tokens of a transaction are a history variable:
the client's mutations it contains. -/
inductive MirrorEvent (δ : Type) where
  | transaction (tokens : List MutationToken) (changes : List (WireRowChange δ))
  | initial (rows : List (WireRow δ))
deriving Repr, DecidableEq

/-- A staged mutation that the server has not executed yet. -/
structure Unwritten (δ : Type) where
  token : MutationToken
  table : String
  key : PrimaryKey δ
deriving Repr, DecidableEq

/-- The replica, the rows of the server, the events under way for each table, and which writes have
yet to commit and to report back. -/
structure Roundtrip (specs : String → TableSpec) (δ : Type) where
  replica : Replica specs δ
  rows : ∀ table, TableRows (specs table) δ
  queue : String → List (MirrorEvent δ)
  nextToken : MutationToken
  unwritten : List (Unwritten δ)
  unfinished : List MutationToken

inductive RoundtripAction (δ : Type) where
  | mutate (mutation : Mutation δ)
  | commit (table : String) (tokens : List MutationToken)
      (images : List (PrimaryKey δ × Option (WireRow δ)))
  | snapshot (table : String) (rows : List (WireRow δ))
  | deliver (table : String)
  | finish (token : MutationToken) (order : List String)
deriving Repr, DecidableEq

def RoundtripAction.stream {δ : Type} : RoundtripAction δ → Option String
  | .commit table _ _ => some table
  | .snapshot table _ => some table
  | .deliver table => some table
  | _ => none

section
variable {δ : Type} [DecidableEq δ]

/-- The change of one key that a transaction makes, if it makes one. -/
def netChange (old new : Option (WireRow δ)) : Option (WireRowChange δ) :=
  match old, new with
  | none, none => none
  | none, some new => some ⟨.insert, none, some new⟩
  | some old, none => some ⟨.delete, some old, none⟩
  | some old, some new => if old = new then none else some ⟨.update, some old, some new⟩

def netChanges {spec : TableSpec} (rows : TableRows spec δ)
    (images : List (PrimaryKey δ × Option (WireRow δ))) : List (WireRowChange δ) :=
  images.filterMap fun entry => netChange (rows.get entry.1) entry.2

theorem images_netChange {keyOf : WireRow δ → PrimaryKey δ} (hold : ∀ row ∈ old, keyOf row = key)
    (hnew : ∀ row ∈ new, keyOf row = key) (h : netChange old new = some change) :
    images keyOf change = [(key, new)] := by
  cases old with
  | none =>
    cases new with
    | none => cases h
    | some new =>
      cases h
      simp [images, hnew new rfl]
  | some old =>
    cases new with
    | none =>
      cases h
      simp [images, hold old rfl]
    | some new =>
      simp only [netChange] at h
      split at h
      · cases h
      · cases h
        simp [images, hold old rfl, hnew new rfl]

theorem netChange_eq_none {old : Option (WireRow δ)} : netChange old new = none ↔ old = new := by
  cases old <;> cases new <;> simp [netChange]

theorem images_netChanges (rows : TableRows spec δ)
    (h : ∀ entry ∈ ents, ∀ row ∈ entry.2, spec.keyOf row = entry.1) :
    (netChanges rows ents).flatMap (images spec.keyOf) =
      ents.filter fun entry => rows.get entry.1 ≠ entry.2 := by
  induction ents with
  | nil => rfl
  | cons entry ents ih =>
    obtain ⟨hentry, hentries⟩ := forall_mem_cons.mp h
    rw [netChanges, filterMap_cons]
    cases hchange : netChange (rows.get entry.1) entry.2 with
    | none =>
      rw [filter_cons_of_neg (by simpa using netChange_eq_none.mp hchange)]
      exact ih hentries
    | some =>
      have hne : rows.get entry.1 ≠ entry.2 := by
        rw [ne_eq, ← netChange_eq_none, hchange]
        exact nofun
      rw [filter_cons_of_pos (by simpa using hne), flatMap_cons,
        images_netChange (rows.keyed entry.1) hentry hchange]
      exact congrArg (entry :: ·) (ih hentries)

end

section Settle
variable {δ : Type} [DecidableEq δ]

/-- A mutation that does not hold up the queue of its key when an image arrives. -/
def passes (image : Option (WireRow δ)) (op : PendingOp δ) : Bool :=
  confirms op.kind image || op.writerDone

theorem settle_on_self (key : PrimaryKey δ) (image ops) :
    (settle key image ops).1.filter (fun op => op.key = key) =
      (ops.filter fun op => op.key = key).dropWhile (passes image) := by
  induction ops with
  | nil => rfl
  | cons op ops ih =>
    unfold settle
    split
    next hkey =>
      split
      next hconfirms => simpa [hkey, passes, hconfirms] using ih
      next hnot =>
        split
        next hdone => simpa [hkey, passes, hdone] using ih
        next hopen => simp [hkey, passes, hnot, hopen]
    next hkey => simpa [hkey] using ih

theorem foldChange_on_self (ledger : TableLedger δ) (out key image) :
    (foldChange (ledger, out) (key, image)).1.on key =
      (ledger.on key).dropWhile (passes image) := by
  simp only [foldChange]
  split
  next =>
    rw [TableLedger.on, TableLedger.writeFor_pending]
    exact settle_on_self key image ledger.pending
  next hnone =>
    simp [TableLedger.on_eq_nil hnone]

theorem foldChange_on_of_ne (ledger : TableLedger δ) (out) (h : other ≠ key) (image) :
    (foldChange (ledger, out) (key, image)).1.on other = ledger.on other := by
  simp only [foldChange]
  split
  next =>
    rw [TableLedger.on, TableLedger.writeFor_pending]
    exact settle_on_of_ne h image ledger.pending
  next => rfl

theorem foldChanges_on_of_not_mem {ents : List (PrimaryKey δ × Option (WireRow δ))}
    (h : key ∉ ents.map Prod.fst) (state) :
    (ents.foldl foldChange state).1.on key = state.1.on key := by
  induction ents generalizing state with
  | nil => rfl
  | cons entry ents ih =>
    rw [map_cons, mem_cons, not_or] at h
    rw [foldl_cons, ih h.2]
    exact foldChange_on_of_ne state.1 state.2 h.1 entry.2

/-- A transaction takes from the queue of each key it names the mutations that do not hold it up. -/
theorem foldChanges_on_of_mem {ents : List (PrimaryKey δ × Option (WireRow δ))}
    (hnd : (ents.map Prod.fst).Nodup) (h : entry ∈ ents) (state) :
    (ents.foldl foldChange state).1.on entry.1 =
      (state.1.on entry.1).dropWhile (passes entry.2) := by
  induction ents generalizing state with
  | nil => cases h
  | cons first ents ih =>
    rw [map_cons, nodup_cons] at hnd
    rw [foldl_cons]
    rcases mem_cons.mp h with rfl | h
    · rw [foldChanges_on_of_not_mem hnd.1]
      exact foldChange_on_self state.1 state.2 entry.1 entry.2
    · have hne : entry.1 ≠ first.1 := fun heq => hnd.1 (heq ▸ mem_map_of_mem h)
      rw [ih hnd.2 h]
      exact congrArg _ (foldChange_on_of_ne state.1 state.2 hne first.2)

/-- What is left in the queue has something before it, or is itself, that holds it up. -/
theorem exists_of_mem_dropWhile {α : Type} {p : α → Bool} {l : List α} {a : α}
    (h : a ∈ l.dropWhile p) :
    ∃ prev after, l = prev ++ a :: after ∧ ∃ b ∈ prev ++ [a], p b = false := by
  induction l with
  | nil => cases h
  | cons first rest ih =>
    rw [dropWhile_cons] at h
    split at h
    · obtain ⟨prev, after, rfl, b, hb, hpb⟩ := ih h
      exact ⟨first :: prev, after, rfl, b, mem_cons_of_mem _ hb, hpb⟩
    next hstop =>
      obtain ⟨prev, after, hsplit⟩ := append_of_mem h
      refine ⟨prev, after, hsplit, first, ?_, by simpa using hstop⟩
      cases prev with
      | nil =>
        cases hsplit
        exact mem_singleton_self _
      | cons =>
        cases hsplit
        exact mem_cons_self

end Settle

namespace Roundtrip
variable {specs : String → TableSpec} {δ : Type} [DecidableEq δ]

def start (db : ∀ table, TableRows (specs table) δ) : Roundtrip specs δ :=
  ⟨.start db, db, fun _ => [], 1, [], []⟩

/-- Stages the mutation under the next token and hands it to the writer. -/
def mutate (null : δ) (s : Roundtrip specs δ) (mutation : Mutation δ) : Roundtrip specs δ :=
  match resolveMutation (specs mutation.table) null mutation with
  | .error _ => s
  | .ok (key, _) =>
    { s with
      replica := s.replica.stage null s.nextToken mutation
      nextToken := s.nextToken + 1
      unwritten := s.unwritten ++ [⟨s.nextToken, mutation.table, key⟩]
      unfinished := s.unfinished ++ [s.nextToken] }

/-- A transaction that leaves the given keys with the given images. Nothing is sent when it changes
nothing. -/
def commit (s : Roundtrip specs δ) (table : String) (tokens : List MutationToken)
    (entries : List (PrimaryKey δ × Option (WireRow δ))) : Roundtrip specs δ :=
  let changes := netChanges (s.rows table) entries
  { s with
    rows := update s.rows table
      ((changes.flatMap (images (specs table).keyOf)).foldl TableRows.applyImage (s.rows table))
    queue := if changes = [] then s.queue
      else update s.queue table (s.queue table ++ [.transaction tokens changes])
    unwritten := s.unwritten.filter fun write => write.token ∉ tokens }

/-- A new subscription starts with the rows of the server; what was under way is dropped. -/
def snapshot (s : Roundtrip specs δ) (table : String) (rows : List (WireRow δ)) :
    Roundtrip specs δ :=
  { s with queue := update s.queue table [.initial rows] }

def receive (replica : Replica specs δ) (table : String) : MirrorEvent δ → Replica specs δ
  | .transaction _ changes => replica.applyChanges table changes
  | .initial rows => replica.applyInitial table rows

def deliver (s : Roundtrip specs δ) (table : String) : Roundtrip specs δ :=
  match s.queue table with
  | [] => s
  | event :: rest =>
    { s with
      replica := receive s.replica table event
      queue := update s.queue table rest }

def finish (s : Roundtrip specs δ) (token : MutationToken) (order : List String) :
    Roundtrip specs δ :=
  { s with
    replica := s.replica.writerFinished token true order
    unfinished := s.unfinished.filter (· ≠ token) }

def step (null : δ) (s : Roundtrip specs δ) : RoundtripAction δ → Roundtrip specs δ
  | .mutate mutation => s.mutate null mutation
  | .commit table tokens entries => s.commit table tokens entries
  | .snapshot table rows => s.snapshot table rows
  | .deliver table => s.deliver table
  | .finish token order => s.finish token order

def pending (s : Roundtrip specs δ) (table : String) : List (PendingOp δ) :=
  (s.replica.reconciler.tables table).pending

/-- A transaction contains writes of its table that have not committed before and names each key
once; a snapshot shows the server's rows; a write reports success after it has committed. -/
def Environment (s : Roundtrip specs δ) : RoundtripAction δ → Prop
  | .commit table tokens entries =>
    (∀ token ∈ tokens, ∃ write ∈ s.unwritten, write.token = token) ∧
      (∀ write ∈ s.unwritten, write.token ∈ tokens → write.table = table) ∧
      (entries.map Prod.fst).Nodup ∧
      ∀ entry ∈ entries, ∀ row ∈ entry.2, (specs table).keyOf row = entry.1
  | .snapshot table rows => TableRows.replaceRows (specs table) rows = s.rows table
  | .finish token _ => token ∈ s.unfinished ∧ ∀ write ∈ s.unwritten, write.token ≠ token
  | _ => True

/-- Every write has committed and reported back, and everything has been delivered. -/
def Quiescent (s : Roundtrip specs δ) : Prop :=
  s.unwritten = [] ∧ s.unfinished = [] ∧ ∀ table, s.queue table = []

/-- The conditions that keep a mutation from being left behind: its transaction changes the row; a
snapshot is taken while all pending mutations of the table have yet to commit; and when its
transaction arrives, the mutation and those pending before it on the key are confirmed by the image
or acknowledged. -/
def Orderly (s : Roundtrip specs δ) : RoundtripAction δ → Prop
  | .commit table tokens entries => ∀ write ∈ s.unwritten, write.token ∈ tokens →
    ∃ entry ∈ entries, entry.1 = write.key ∧ (s.rows table).get entry.1 ≠ entry.2
  | .snapshot table _ => ∀ op ∈ s.pending table, ⟨op.token, table, op.key⟩ ∈ s.unwritten
  | .deliver table => ∀ tokens changes rest, s.queue table = .transaction tokens changes :: rest →
      ∀ entry ∈ changes.flatMap (images (specs table).keyOf), ∀ before op after,
        (s.replica.reconciler.tables table).on entry.1 = before ++ op :: after → op.token ∈ tokens →
          ∀ earlier ∈ before ++ [op], confirms earlier.kind entry.2 = true ∨
            earlier.writerDone = true
  | _ => True

theorem mem_pending_iff_on {ledger : TableLedger δ} :
    op ∈ ledger.pending ↔ op ∈ ledger.on op.key := by
  simp [TableLedger.on]

def received {spec : TableSpec} (rows : TableRows spec δ) : MirrorEvent δ → TableRows spec δ
  | .transaction _ changes => (changes.flatMap (images spec.keyOf)).foldl TableRows.applyImage rows
  | .initial rows => TableRows.replaceRows spec rows

/-- Every pending mutation has yet to commit, or its transaction is on its way with a change of its
key. What is on its way leads to the server's rows. -/
structure Tracked (s : Roundtrip specs δ) : Prop where
  rebased : s.replica.Rebased
  leads : ∀ table, (s.queue table).foldl received (s.replica.server table) = s.rows table
  once : ∀ table tokens changes, MirrorEvent.transaction tokens changes ∈ s.queue table →
    ((changes.flatMap (images (specs table).keyOf)).map Prod.fst).Nodup
  coming : ∀ table, ∀ op ∈ s.pending table, ⟨op.token, table, op.key⟩ ∈ s.unwritten ∨
    ∃ tokens changes, MirrorEvent.transaction tokens changes ∈ s.queue table ∧ op.token ∈ tokens ∧
      ∃ entry ∈ changes.flatMap (images (specs table).keyOf), entry.1 = op.key

theorem tracked_start (db : ∀ table, TableRows (specs table) δ) : (start db).Tracked :=
  ⟨Replica.rebased_start db, fun _ => rfl, fun _ _ _ h => absurd h not_mem_nil,
    fun _ _ h => absurd h not_mem_nil⟩

variable {s : Roundtrip specs δ}

variable (h : s.Tracked)
include h

theorem Tracked.mutate (null : δ) (mutation) : (s.mutate null mutation).Tracked := by
  unfold Roundtrip.mutate
  split
  · exact h
  next key kind hresolved =>
    have hstaged : (s.replica.stage null s.nextToken mutation).reconciler =
          (s.replica.reconciler.stage mutation.table s.nextToken key kind
            ((s.replica.db mutation.table).get key)).2 ∧
        (s.replica.stage null s.nextToken mutation).server = s.replica.server := by
      rw [Replica.stage, hresolved]
      exact ⟨rfl, rfl⟩
    refine ⟨h.rebased.stage null s.nextToken mutation, fun table => ?_, h.once,
      fun table op hop => ?_⟩
    · rw [hstaged.2]
      exact h.leads table
    · unfold pending at hop
      rw [hstaged.1, Reconciler.pending_stage] at hop
      rcases mem_append.mp hop with hold | hnew
      · exact (h.coming table op hold).imp_left (mem_append_left _)
      · split at hnew
        next htab =>
          rw [mem_singleton.mp hnew, htab]
          exact .inl (mem_append_right _ (mem_singleton_self _))
        next => cases hnew

theorem Tracked.commit (henv : s.Environment (.commit table toks ents))
    (horderly : s.Orderly (.commit table toks ents)) : (s.commit table toks ents).Tracked := by
  obtain ⟨-, htab, hnd, hkeyed⟩ := henv
  have himages := images_netChanges (s.rows table) hkeyed
  have hq : ∀ other, (s.commit table toks ents).queue other = s.queue other ++
      if other = table ∧ netChanges (s.rows table) ents ≠ [] then
        [.transaction toks (netChanges (s.rows table) ents)] else [] := by
    intro other
    unfold Roundtrip.commit
    by_cases hnone : netChanges (s.rows table) ents = []
    · simp [hnone]
    · rcases eq_or_ne other table with rfl | hne
      · simp [hnone]
      · simp [hnone, hne]
  refine ⟨h.rebased, fun other => ?_, fun other known changes hmem => ?_, fun other op hop => ?_⟩
  · have hserver : (s.commit table toks ents).replica.server = s.replica.server := rfl
    rw [hq, hserver, foldl_append, h.leads other]
    simp only [Roundtrip.commit]
    rcases eq_or_ne other table with rfl | hne
    · by_cases hnone : netChanges (s.rows other) ents = [] <;> simp [hnone, received]
    · rw [update_of_ne hne, if_neg (fun hand => hne hand.1)]
      rfl
  · rw [hq] at hmem
    rcases mem_append.mp hmem with hold | hnew
    · exact h.once other known changes hold
    · split at hnew
      next hand =>
        obtain ⟨rfl, -⟩ := hand
        cases mem_singleton.mp hnew
        rw [himages]
        exact hnd.sublist (filter_sublist.map _)
      next => cases hnew
  · rcases h.coming other op hop with hwaiting | ⟨known, changes, hmem, hrest⟩
    · by_cases htok : op.token ∈ toks
      · obtain rfl : other = table := htab _ hwaiting htok
        obtain ⟨entry, hentry, hkey, hdiffers⟩ := horderly _ hwaiting htok
        have hin : entry ∈ (netChanges (s.rows other) ents).flatMap
            (images (specs other).keyOf) := by
          rw [himages]
          exact mem_filter.mpr ⟨hentry, decide_eq_true hdiffers⟩
        have hsome : netChanges (s.rows other) ents ≠ [] := by
          intro hnone
          simp [hnone] at hin
        refine .inr ⟨toks, _, ?_, htok, entry, hin, hkey⟩
        rw [hq, if_pos ⟨rfl, hsome⟩]
        exact mem_append_right _ (mem_singleton_self _)
      · exact .inl (mem_filter.mpr ⟨hwaiting, decide_eq_true htok⟩)
    · refine .inr ⟨known, changes, ?_, hrest⟩
      rw [hq]
      exact mem_append_left _ hmem

theorem Tracked.snapshot {rows : List (WireRow δ)}
    (henv : s.Environment (.snapshot table rows)) (horderly : s.Orderly (.snapshot table rows)) :
    (s.snapshot table rows).Tracked := by
  have hq : ∀ other, other ≠ table → (s.snapshot table rows).queue other = s.queue other :=
    fun other hne => update_of_ne hne ..
  have hself : (s.snapshot table rows).queue table = [.initial rows] := update_self ..
  refine ⟨h.rebased, fun other => ?_, fun other toks changes hmem => ?_, fun other op hop => ?_⟩
  · rcases eq_or_ne other table with rfl | hne
    · rw [hself]
      exact henv
    · rw [hq other hne]
      exact h.leads other
  · rcases eq_or_ne other table with rfl | hne
    · rw [hself] at hmem
      cases mem_singleton.mp hmem
    · exact h.once other toks changes (hq other hne ▸ hmem)
  · rcases eq_or_ne other table with rfl | hne
    · exact .inl (horderly op hop)
    · rw [hq other hne]
      exact h.coming other op hop

theorem Tracked.receive (hq : s.queue table = event :: rest) {replica : Replica specs δ}
    (hrebased : replica.Rebased) (hserver : replica.server = update s.replica.server table
      (received (s.replica.server table) event)) (hothers : ∀ other, other ≠ table →
      replica.reconciler.tables other = s.replica.reconciler.tables other)
    (hpend : ∀ op ∈ (replica.reconciler.tables table).pending, op ∈ s.pending table ∧
      ∀ toks changes, event = .transaction toks changes → op.token ∈ toks →
        ∀ entry ∈ changes.flatMap (images (specs table).keyOf), entry.1 ≠ op.key) :
    Tracked { s with replica := replica, queue := update s.queue table rest } := by
  refine ⟨hrebased, fun other => ?_, fun other toks changes hmem => ?_, fun other op hop => ?_⟩
  · dsimp only
    rw [hserver]
    rcases eq_or_ne other table with rfl | hne
    · have hleads := h.leads other
      rw [hq] at hleads
      rw [update_self, update_self]
      exact hleads
    · rw [update_of_ne hne, update_of_ne hne]
      exact h.leads other
  · rcases eq_or_ne other table with rfl | hne
    · have hmem : MirrorEvent.transaction toks changes ∈ rest := by
        simpa using hmem
      exact h.once other toks changes (hq ▸ mem_cons_of_mem _ hmem)
    · have hmem : MirrorEvent.transaction toks changes ∈ s.queue other := by
        simpa [update_of_ne hne] using hmem
      exact h.once other toks changes hmem
  · rcases eq_or_ne other table with rfl | hne
    · obtain ⟨hold, hgone⟩ := hpend op hop
      rcases h.coming other op hold with hwaiting | ⟨toks, changes, hmem, htok, entry, hentry, hkey⟩
      · exact .inl hwaiting
      · rw [hq] at hmem
        rcases mem_cons.mp hmem with hfirst | hlater
        · exact absurd hkey (hgone toks changes hfirst.symm htok entry hentry)
        · refine .inr ⟨toks, changes, ?_, htok, entry, hentry, hkey⟩
          simpa using hlater
    · have hop : op ∈ s.pending other := by
        unfold pending at hop ⊢
        rw [← hothers other hne]
        exact hop
      dsimp only
      rw [update_of_ne hne]
      exact h.coming other op hop

theorem Tracked.deliver (horderly : s.Orderly (.deliver table)) : (s.deliver table).Tracked := by
  unfold Roundtrip.deliver
  split
  · exact h
  next event rest hq =>
    cases event with
    | initial rows =>
      refine h.receive hq (h.rebased.applyInitial table rows) rfl
        (fun other hne => update_of_ne hne ..) fun op hop => ⟨?_, nofun⟩
      simpa [Roundtrip.receive, Replica.applyInitial, Reconciler.applyInitial,
        Reconciler.setTable, pending] using hop
    | transaction toks changes =>
      have hnd := h.once table toks changes (hq ▸ mem_cons_self)
      have htab : (s.replica.applyChanges table changes).reconciler.tables table =
          ((changes.flatMap (images (specs table).keyOf)).foldl foldChange
            (s.replica.reconciler.tables table, ⟨[], [], []⟩)).1 := update_self ..
      refine h.receive hq (h.rebased.applyChanges table changes)
        (congrArg (update _ _) (TableRows.foldl_applyChange ..))
        (fun other hne => update_of_ne hne ..) fun op hop => ?_
      rw [Roundtrip.receive, htab, mem_pending_iff_on] at hop
      by_cases hkey : op.key ∈ (changes.flatMap (images (specs table).keyOf)).map Prod.fst
      · obtain ⟨entry, hentry, hkey⟩ := mem_map.mp hkey
        rw [← hkey, foldChanges_on_of_mem hnd hentry] at hop
        obtain ⟨prev, after, hsplit, blocking, hblock, hstops⟩ := exists_of_mem_dropWhile hop
        have hold : op ∈ (s.replica.reconciler.tables table).on entry.1 := by
          rw [hsplit]
          exact mem_append_right _ mem_cons_self
        refine ⟨mem_of_mem_filter hold, ?_⟩
        -- a mutation of this transaction would have been let through
        rintro tokens' changes' ⟨⟩ htok - - -
        have hpass := horderly toks changes rest hq entry hentry prev op after hsplit htok
          blocking hblock
        rw [passes, Bool.or_eq_false_iff] at hstops
        rcases hpass with hconfirms | hdone
        · exact absurd (hstops.1.symm.trans hconfirms) (by decide)
        · exact absurd (hstops.2.symm.trans hdone) (by decide)
      · rw [foldChanges_on_of_not_mem hkey] at hop
        refine ⟨mem_of_mem_filter hop, ?_⟩
        rintro tokens' changes' ⟨⟩ - entry hentry heq
        exact hkey (heq ▸ mem_map_of_mem hentry)

omit h

theorem Tracked.finish (h : s.Tracked) (token order) : (s.finish token order).Tracked := by
  have hsame : (s.replica.writerFinished token true order).server = s.replica.server ∧
      ∀ table, ∀ p : PendingOp δ → Prop, (∀ op, p op → p { op with writerDone := true }) →
        (∀ op ∈ s.pending table, p op) →
        ∀ op ∈ ((s.replica.writerFinished token true order).reconciler.tables table).pending,
          p op := by
    unfold Replica.writerFinished
    rcases s.replica.reconciler.writerFinished_cases token true order with ⟨hnone, -⟩ |
      ⟨found, -, index, op, hget, -, ⟨-, hdone⟩ | ⟨_, _, hback, -⟩⟩
    · rw [hnone]
      exact ⟨rfl, fun table p _ hall => hall⟩
    · rw [hdone]
      refine ⟨rfl, fun table p hp hall => ?_⟩
      rcases eq_or_ne table found with rfl | htab
      · simp only [Replica.write, Reconciler.setTable, update_self]
        exact forall_mem_modify hp index hall
      · simp only [Replica.write, Reconciler.setTable, update_of_ne htab]
        exact hall
    · cases hback
  refine ⟨h.rebased.writerFinished token true order, fun table => ?_, h.once, fun table => ?_⟩
  · have hserver : (s.finish token order).replica.server = s.replica.server := hsame.1
    rw [hserver]
    exact h.leads table
  · exact hsame.2 table _ (fun _ hop => hop) (h.coming table)

theorem Tracked.step (h : s.Tracked) (null : δ) (henv : s.Environment action)
    (horderly : s.Orderly action) : (s.step null action).Tracked := by
  cases action with
  | mutate mutation => exact h.mutate null mutation
  | commit => exact h.commit henv horderly
  | snapshot => exact h.snapshot henv horderly
  | deliver => exact h.deliver horderly
  | finish token order => exact h.finish token order

/-- Once every write has completed and every effect is delivered, nothing is pending and the visible
rows are the server's. -/
theorem settles_of_orderly {db : ∀ table, TableRows (specs table) δ} {null : δ}
    (h : Runs.Reached (step null) (fun s action => Environment s action ∧ Orderly s action)
      (start db) s) (hquiet : s.Quiescent) (table : String) :
    s.pending table = [] ∧ ∀ key, (s.replica.db table).get key = (s.rows table).get key := by
  have htracked : s.Tracked := h.invariant (tracked_start db) fun _ _ hs hmeets =>
    hs.step null hmeets.1 hmeets.2
  obtain ⟨hwaiting, -, hq⟩ := hquiet
  have hpend : s.pending table = [] := by
    rw [eq_nil_iff_forall_not_mem]
    intro op hop
    rcases htracked.coming table op hop with hwrite | ⟨tokens, changes, hmem, -⟩
    · rw [hwaiting] at hwrite
      cases hwrite
    · rw [hq] at hmem
      cases hmem
  have hserver := htracked.leads table
  rw [hq] at hserver
  refine ⟨hpend, fun key => ?_⟩
  have hon : (s.replica.reconciler.tables table).on key = [] := by
    rw [TableLedger.on, show (s.replica.reconciler.tables table).pending = [] from hpend]
    rfl
  rw [(htracked.rebased table).visible, hon, ← hserver]
  rfl

theorem queue_run_of_ne (null : δ) {actions : List (RoundtripAction δ)}
    (h : ∀ action ∈ actions, action.stream ≠ some table) (s : Roundtrip specs δ) :
    (actions.foldl (step null) s).queue table = s.queue table := by
  induction actions generalizing s with
  | nil => rfl
  | cons action actions ih =>
    obtain ⟨hfirst, hrest⟩ := forall_mem_cons.mp h
    rw [foldl_cons, ih hrest]
    cases action with
    | mutate =>
      simp only [step, mutate]
      split <;> rfl
    | commit other =>
      have hne : table ≠ other := fun heq => hfirst (congrArg some heq.symm)
      simp only [step, commit]
      split
      · rfl
      · exact update_of_ne hne ..
    | snapshot => exact update_of_ne (fun heq => hfirst (congrArg some heq.symm)) ..
    | deliver other =>
      have hne : table ≠ other := fun heq => hfirst (congrArg some heq.symm)
      simp only [step, deliver]
      split
      · rfl
      · exact update_of_ne hne ..
    | finish => rfl

section

def counters (_ : String) : TableSpec := ⟨"counters", ⟨["id", "n"], [0]⟩⟩

def zero : Roundtrip counters ℕ := start fun table => .replaceRows (counters table) [[1, 0]]

def setCounter (value : ℕ) : RoundtripAction ℕ :=
  .mutate (.update "counters" [("id", 1)] [("n", value)])

def writeCounter (token : MutationToken) (value : ℕ) : RoundtripAction ℕ :=
  .commit "counters" [token] [([1], some [1, value])]

def oneWrite : List (RoundtripAction ℕ) :=
  [setCounter 5, writeCounter 1 5, .deliver "counters", .finish 1 ["counters"]]

/-- The server commits the second write first. -/
def crossedWrites : List (RoundtripAction ℕ) :=
  [setCounter 1, setCounter 2, writeCounter 2 2, writeCounter 1 1, .deliver "counters",
    .deliver "counters", .finish 1 ["counters"], .finish 2 ["counters"]]

theorem queue_zero_run {actions : List (RoundtripAction ℕ)}
    (h : ∀ action ∈ actions, action.stream ∈ [none, some "counters"])
    (hself : (actions.foldl (step 0) zero).queue "counters" = []) (table) :
    (actions.foldl (step 0) zero).queue table = [] := by
  by_cases htab : table = "counters"
  · rw [htab, hself]
  · refine queue_run_of_ne 0 (fun action haction hstream => ?_) zero
    have hin := h action haction
    rw [hstream] at hin
    simp [htab] at hin

theorem oneWrite_settles : (oneWrite.foldl (step 0) zero).pending "counters" = [] ∧
    ∀ key, ((oneWrite.foldl (step 0) zero).replica.db "counters").get key =
      ((oneWrite.foldl (step 0) zero).rows "counters").get key := by
  have hrun : Runs.Schedule (step 0) (fun s action => Environment s action ∧ Orderly s action) zero
      oneWrite := by
    refine .cons ⟨trivial, trivial⟩ (.cons ⟨?_, ?_⟩ (.cons ⟨trivial, ?_⟩ (.cons ⟨?_, trivial⟩
      (.nil _))))
    · exact ⟨by decide +kernel, by decide +kernel, by decide +kernel, by decide +kernel⟩
    · show ∀ write ∈ _, _
      decide +kernel
    · intro tokens changes rest hq entry hentry before op after hon htok earlier hearly
      have hev : ([setCounter 5, writeCounter 1 5].foldl (step 0) zero).queue "counters" =
          [.transaction [1] [⟨.update, some [1, 0], some [1, 5]⟩]] := by decide +kernel
      cases hev.symm.trans hq
      have hkind : ∀ entry ∈ [(⟨.update, some [1, 0], some [1, 5]⟩ : WireRowChange ℕ)].flatMap
          (images (counters "counters").keyOf),
          ∀ op ∈ (([setCounter 5, writeCounter 1 5].foldl (step 0) zero).replica.reconciler.tables
            "counters").on entry.1, confirms op.kind entry.2 = true := by decide +kernel
      refine .inl (hkind entry hentry earlier ?_)
      refine hon.symm ▸ ?_
      rcases mem_append.mp hearly with hwas | hself
      · exact mem_append_left _ hwas
      · exact mem_append_right _ (mem_singleton.mp hself ▸ mem_cons_self)
    · exact ⟨by decide +kernel, by decide +kernel⟩
  refine settles_of_orderly (hrun.reached .start) ⟨by decide +kernel, by decide +kernel, ?_⟩
    "counters"
  exact queue_zero_run (by decide +kernel) (by decide +kernel)

/-- Both writes succeed and everything is delivered. The second mutation stays pending for good and
hides the value that the server has. -/
theorem crossed_writes_stick : Runs.Schedule (step 0) Environment zero crossedWrites ∧
      (crossedWrites.foldl (step 0) zero).Quiescent ∧
      ((crossedWrites.foldl (step 0) zero).pending "counters").map PendingOp.token = [2] ∧
      ((crossedWrites.foldl (step 0) zero).replica.db "counters").get [1] = some [1, 2] ∧
      ((crossedWrites.foldl (step 0) zero).rows "counters").get [1] = some [1, 1] := by
  refine ⟨.cons trivial (.cons trivial (.cons ?_ (.cons ?_ (.cons trivial (.cons trivial
    (.cons ?_ (.cons ?_ (.nil _)))))))), ⟨by decide +kernel, by decide +kernel,
      queue_zero_run (by decide +kernel) (by decide +kernel)⟩, by decide +kernel, by decide +kernel,
      by decide +kernel⟩
  · exact ⟨by decide +kernel, by decide +kernel, by decide +kernel, by decide +kernel⟩
  · exact ⟨by decide +kernel, by decide +kernel, by decide +kernel, by decide +kernel⟩
  · exact ⟨by decide +kernel, by decide +kernel⟩
  · exact ⟨by decide +kernel, by decide +kernel⟩

end

end Roundtrip

end Palimpsest.Client
