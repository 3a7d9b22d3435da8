import Palimpsest.Client.Replica
import Palimpsest.Dataflow.Host

/-! The pumps of the local replica: each turns the events of one subscription into writes to a local
table and reports how far that table is in step with the server. -/
namespace Palimpsest.Client
open Function List
open Dataflow (Lsn)

inductive TableSyncState where
  | connecting
  | snapshotting
  | live (lsn : Lsn)
  | resyncing
  | errored (message : String)
deriving Repr, DecidableEq

/-- What a pump waits for. A failure is the text of the error with which the local database refused
a write; `requested` tells whether the request for a fresh snapshot could be queued. -/
inductive PumpEvent (δ : Type) where
  | accepted (failure : Option String)
  | diff (lsn : Lsn) (op : DiffOp) (rows : List (WireRow δ)) (failure : Option String)
  | transaction (lsn : Lsn) (changes : List (WireRowChange δ)) (failure : Option String)
  | resync (requested : Bool)
  | error (code message : String)
  | failed (message : String)
  | closed
  | shutdown
deriving Repr, DecidableEq

/-- One pump. The last five fields are history: how far the server's stream has come, what LSN the
local table shows, whether events were lost without notice, and whether there has been a `Resync`,
or a reason not to trust the local table, since the last snapshot. -/
structure PumpState where
  known : Bool
  running : Bool
  replaceOnInitial : Bool
  status : TableSyncState
  sent : Lsn
  position : Lsn
  gap : Bool
  resynced : Bool
  trusted : Bool
deriving Repr, DecidableEq

def PumpState.start : PumpState := ⟨false, true, true, .connecting, 0, 0, false, false, false⟩

structure Pumps (specs : String → TableSpec) (δ : Type) where
  reconciler : Reconciler δ
  db : ∀ table, TableRows (specs table) δ
  nextToken : MutationToken
  pumps : String → PumpState

/-- A run mixes events, losses on the server's side, local mutations and the results of their
writes. The orders are those in which the ledger's tables are searched. -/
inductive PumpAction (δ : Type) where
  | event (table : String) (event : PumpEvent δ)
  | drop (table : String) (lsn : Lsn)
  | mutate (mutation : Mutation δ) (failure : Option String) (order : List String)
  | writerFinished (token : MutationToken) (ok : Bool) (order : List String)
      (failure : Option String)
deriving Repr, DecidableEq

def diffToChange {δ : Type} (op : DiffOp) (row : WireRow δ) : Option (WireRowChange δ) :=
  match op with
  | .initial | .insert => some ⟨.insert, none, some row⟩
  | .update => some ⟨.update, none, some row⟩
  | .delete => some ⟨.delete, some row, none⟩
  | .unspecified => none

def diffToChanges {δ : Type} (op : DiffOp) (rows : List (WireRow δ)) : List (WireRowChange δ) :=
  rows.filterMap (diffToChange op)

section
variable {δ : Type} [DecidableEq δ] {db : TableRows spec δ}

/-- The stored rows of a table in line with its ledger are determined by the pending mutations. -/
theorem Rebased.keep (h : Rebased ledger db server) (h' : Rebased ledger' db' server)
    (hpend : ledger'.pending = ledger.pending) : Rebased ledger' db server where
  visible key := by
    rw [h.visible, TableLedger.on, TableLedger.on, hpend]
  base := h'.base
  fits := h'.fits

end

namespace PumpState

/-- The tail of a batch: the new status, and a fresh snapshot after a failure. -/
def finishBatch (p : PumpState) (lsn : Lsn) : Option String → PumpState
  | none => { p with status := .live lsn, position := lsn }
  | some err =>
    { p with
      replaceOnInitial := true
      status := .errored ("local apply failed: " ++ err)
      trusted := false }

def accept (p : PumpState) : Option String → PumpState
  | none => { p with known := true, replaceOnInitial := true, status := .snapshotting }
  | some err => { p with status := .errored ("creating local table: " ++ err) }

/-- The server forgets what it could not send, and the client asks for a snapshot. -/
def resync (p : PumpState) (requested : Bool) : PumpState :=
  let p := { p with
    replaceOnInitial := true, status := .resyncing, gap := false, resynced := true,
      trusted := false }
  if requested then p
  else { p with status := .errored "connection closed during resync", running := false }

end PumpState

namespace Pumps
variable {specs : String → TableSpec} {δ : Type} [DecidableEq δ]

def start (db : ∀ table, TableRows (specs table) δ) : Pumps specs δ :=
  ⟨.empty, db, 1, fun _ => .start⟩

def setPump (s : Pumps specs δ) (table : String) (p : PumpState) : Pumps specs δ :=
  { s with pumps := update s.pumps table p }

def applyChanges (s : Pumps specs δ) (table : String) (lsn : Lsn)
    (changes : List (WireRowChange δ)) (failure : Option String) : Pumps specs δ :=
  let p := { s.pumps table with sent := lsn }
  if p.known then
    let outcome := s.reconciler.applyServerChanges table changes (specs table).keyOf
    { s with
      reconciler := outcome.2
      db := if failure.isNone then
          update s.db table ((s.db table).applyWrites outcome.1.writes)
        else s.db
      pumps := update s.pumps table (p.finishBatch lsn failure) }
  else s.setPump table p

def applyInitial (s : Pumps specs δ) (table : String) (lsn : Lsn) (rows : List (WireRow δ))
    (failure : Option String) : Pumps specs δ :=
  let p := { s.pumps table with replaceOnInitial := false, sent := lsn, gap := false }
  if p.known then
    let visible := s.reconciler.applyInitial table rows (specs table).keyOf
    { s with
      reconciler := visible.2
      db := if failure.isNone then
          update s.db table (TableRows.replaceRows (specs table) visible.1)
        else s.db
      pumps := update s.pumps table
        ({ p with trusted := true, resynced := p.resynced && failure.isSome }.finishBatch lsn
          failure) }
  else s.setPump table p

def handle (s : Pumps specs δ) (table : String) : PumpEvent δ → Pumps specs δ
  | .accepted failure => s.setPump table ((s.pumps table).accept failure)
  | .diff lsn op rows failure =>
    if op = .initial ∧ (s.pumps table).replaceOnInitial then s.applyInitial table lsn rows failure
    else s.applyChanges table lsn (diffToChanges op rows) failure
  | .transaction lsn changes failure => s.applyChanges table lsn changes failure
  | .resync requested => s.setPump table ((s.pumps table).resync requested)
  | .error code message =>
    s.setPump table { s.pumps table with status := .errored (code ++ ": " ++ message) }
  | .failed message => s.setPump table { s.pumps table with status := .errored message }
  | .closed =>
    s.setPump table { s.pumps table with status := .errored "connection closed", running := false }
  | .shutdown => s.setPump table { s.pumps table with running := false }

/-- Stages a mutation and writes it. If the write is refused the mutation is taken back. -/
def mutate (null : δ) (s : Pumps specs δ) (mutation : Mutation δ) (failure : Option String)
    (order : List String) : Pumps specs δ :=
  if (s.pumps mutation.table).known then
    match resolveMutation (specs mutation.table) null mutation with
    | .error _ => s
    | .ok (key, kind) =>
      let staged := s.reconciler.stage mutation.table s.nextToken key kind
        ((s.db mutation.table).get key)
      if failure.isNone then
        { s with
          reconciler := staged.2
          db := update s.db mutation.table ((s.db mutation.table).applyWrites staged.1)
          nextToken := s.nextToken + 1 }
      else
        { s with
          reconciler := (staged.2.writerFinished s.nextToken false order).2
          nextToken := s.nextToken + 1 }
  else s

def writerFinished (s : Pumps specs δ) (token : MutationToken) (ok : Bool) (order : List String)
    (failure : Option String) : Pumps specs δ :=
  let apply := s.reconciler.writerFinished token ok order
  match apply.1.table with
  | none => { s with reconciler := apply.2 }
  | some table =>
    { s with
      reconciler := apply.2
      db := if (s.pumps table).known ∧ failure.isNone then
          update s.db table ((s.db table).applyWrites apply.1.writes)
        else s.db }

def step (null : δ) (s : Pumps specs δ) : PumpAction δ → Pumps specs δ
  | .event table event => if (s.pumps table).running then s.handle table event else s
  | .drop table lsn => s.setPump table { s.pumps table with sent := lsn, gap := true }
  | .mutate mutation failure order => s.mutate null mutation failure order
  | .writerFinished token ok order failure => s.writerFinished token ok order failure

def changed {spec : TableSpec} (rows : TableRows spec δ) (changes : List (WireRowChange δ)) :
    TableRows spec δ :=
  changes.foldl TableRows.applyChange rows

section
variable (view : ∀ table, Lsn → TableRows (specs table) δ)

/-- What the server may do: a snapshot shows its rows, changes lead from the LSN the stream has come
to, and after a loss they wait for the `Resync`. All tables that have pending mutations are searched
when one is taken back. -/
def Legal (s : Pumps specs δ) : PumpAction δ → Prop
  | .event table (.diff lsn op rows _) =>
    if op = .initial then TableRows.replaceRows (specs table) rows = view table lsn
    else (s.pumps table).gap = false ∧
      changed (view table (s.pumps table).sent) (diffToChanges op rows) = view table lsn
  | .event table (.transaction lsn changes _) =>
    (s.pumps table).gap = false ∧
      changed (view table (s.pumps table).sent) changes = view table lsn
  | .mutate mutation _ order => mutation.table ∈ order
  | _ => True

/-- Changes only arrive for a table that has had a snapshot and, since then, neither a `Resync` nor
a failed write; a snapshot only when one is due; and taking a mutation back never fails. -/
def Orderly (s : Pumps specs δ) : PumpAction δ → Prop
  | .event table (.diff _ op _ _) =>
    if op = .initial then (s.pumps table).replaceOnInitial = true
    else (s.pumps table).trusted = true
  | .event table (.transaction _ _ _) => (s.pumps table).trusted = true
  | .writerFinished _ ok _ failure => ok = true ∨ failure = none
  | _ => True

/-- A table that is reported live has had a snapshot since the last `Resync`, and holds the server's
rows at the reported LSN with the pending mutations on top. -/
def Truthful (s : Pumps specs δ) : Prop :=
  ∀ table lsn, (s.pumps table).status = .live lsn → (s.pumps table).resynced = false ∧
    ∀ key, (s.db table).get key =
      replayOver ((view table lsn).get key) ((s.reconciler.tables table).on key)

end

/-- What holds of one table: its pending mutations fit it and have tokens already given out, and as
long as it can be trusted it is in line with the server's rows at its position. -/
structure Sound {spec : TableSpec} (view : Lsn → TableRows spec δ) (next : MutationToken)
    (ledger : TableLedger δ) (db : TableRows spec δ) (p : PumpState) : Prop where
  fits : ∀ op ∈ ledger.pending, op.kind.Fits spec op.key
  issued : ∀ op ∈ ledger.pending, op.token < next
  known : ledger.pending ≠ [] → p.known = true
  rebased : p.trusted = true → Rebased ledger db (view p.position)
  seeded : p.trusted = true → p.known = true ∧ p.resynced = false
  level : p.trusted = true → p.gap = false → p.sent = p.position
  live : ∀ lsn, p.status = .live lsn → p.trusted = true ∧ p.position = lsn

section Table
variable {view : Lsn → TableRows spec δ} {ledger : TableLedger δ} {db : TableRows spec δ}

theorem Sound.start (view : Lsn → TableRows spec δ) (db) : Sound view high .empty db .start where
  fits _ h := absurd h not_mem_nil
  issued _ h := absurd h not_mem_nil
  known h := absurd rfl h
  rebased := nofun
  seeded := nofun
  level := nofun
  live := nofun

variable (h : Sound view high ledger db p)
include h

/-- A step that leaves the table and its position alone and does not report it live. -/
theorem Sound.report (hknown : p.known = true → p'.known = true)
    (hplace : p'.position = p.position) (htrust : p'.trusted = true → p.trusted = true)
    (hresync : p'.trusted = true → p'.resynced = p.resynced)
    (hlevel : p'.trusted = true → p'.gap = false → p.gap = false ∧ p'.sent = p.sent)
    (hlive : ∀ lsn, p'.status = .live lsn → p.status = .live lsn ∧ p'.trusted = p.trusted) :
    Sound view high ledger db p' where
  fits := h.fits
  issued := h.issued
  known hpend := hknown (h.known hpend)
  rebased ht := by
    rw [hplace]
    exact h.rebased (htrust ht)
  seeded ht := by
    obtain ⟨hk, hr⟩ := h.seeded (htrust ht)
    exact ⟨hknown hk, (hresync ht).trans hr⟩
  level ht hgap := by
    obtain ⟨hgap', hsent⟩ := hlevel ht hgap
    rw [hplace, hsent]
    exact h.level (htrust ht) hgap'
  live lsn hstat := by
    obtain ⟨hold, hsame⟩ := hlive lsn hstat
    rw [hsame, hplace]
    exact h.live lsn hold

theorem Sound.accept (failure) : Sound view high ledger db (p.accept failure) := by
  cases failure with
  | none => exact h.report (fun _ => rfl) rfl id (fun _ => rfl) (fun _ hgap => ⟨hgap, rfl⟩) nofun
  | some => exact h.report id rfl id (fun _ => rfl) (fun _ hgap => ⟨hgap, rfl⟩) nofun

theorem Sound.resync (requested : Bool) : Sound view high ledger db (p.resync requested) := by
  cases requested with
  | true | false => exact h.report id rfl nofun nofun nofun nofun

theorem Sound.drop (lsn : Lsn) : Sound view high ledger db { p with sent := lsn, gap := true } :=
  h.report id rfl id (fun _ => rfl) nofun fun _ hstat => ⟨hstat, rfl⟩

theorem Sound.restate (running : Bool) (hstat : ∀ lsn, status = .live lsn → p.status = .live lsn) :
    Sound view high ledger db { p with status := status, running := running } :=
  h.report id rfl id (fun _ => rfl) (fun _ hgap => ⟨hgap, rfl⟩) fun lsn hlsn =>
    ⟨hstat lsn hlsn, rfl⟩

/-- A trusted table takes in changes that start at the server's position. -/
theorem Sound.changes {changes : List (WireRowChange δ)} (htrust : p.trusted = true)
    (hgap : p.gap = false) (hview : changed (view p.sent) changes = view lsn) (failure)
    (hfolded : folded = (changes.flatMap (images spec.keyOf)).foldl foldChange
      (ledger, ⟨[], [], []⟩)) : Sound view high folded.1
      (if failure.isNone then db.applyWrites folded.2.writes else db)
      ({ p with sent := lsn }.finishBatch lsn failure) := by
  subst hfolded
  obtain ⟨hknown, hresync⟩ := h.seeded htrust
  obtain ⟨writes, hwrites, hnext⟩ := (h.rebased htrust).foldChanges _
    (keyed_flatMap_images spec changes) ⟨[], [], []⟩
  rw [nil_append] at hwrites
  have hserver : (changes.flatMap (images spec.keyOf)).foldl TableRows.applyImage
      (view p.position) = view lsn := by
    rw [← TableRows.foldl_applyChange, ← h.level htrust hgap]
    exact hview
  rw [hserver, ← hwrites] at hnext
  have hissued : ∀ op ∈ ((changes.flatMap (images spec.keyOf)).foldl foldChange
      (ledger, ⟨[], [], []⟩)).1.pending, op.token < high :=
    fun op hop => h.issued op ((foldChanges_kept _ ledger ⟨[], [], []⟩).1.subset hop)
  cases failure with
  | none => exact ⟨hnext.fits, hissued, fun _ => hknown, fun _ => hnext, fun _ => ⟨hknown, hresync⟩,
      fun _ _ => rfl, fun _ hlsn => ⟨htrust, by cases hlsn; rfl⟩⟩
  | some => exact ⟨hnext.fits, hissued, fun _ => hknown, nofun, nofun, nofun, nofun⟩

/-- A snapshot makes a table trustworthy, whatever it held. -/
theorem Sound.initial (hknown : p.known = true) (hview : TableRows.replaceRows spec rows = view lsn)
    (failure : Option String) (hpend : fresh.pending = ledger.pending)
    (hbase : fresh.base = fun key => if key ∈ (ledger.pending.map (·.key)).dedup then
      some (Reconciler.snapshotImage spec.keyOf rows key) else none) : Sound view high fresh
      (if failure.isNone then TableRows.replaceRows spec
        (rows.filter (fun row => spec.keyOf row ∉ (ledger.pending.map (·.key)).dedup) ++
          (ledger.pending.map (·.key)).dedup.filterMap fresh.replay) else db) ({ p with
        replaceOnInitial := false, sent := lsn, gap := false, trusted := true,
        resynced := p.resynced && failure.isSome }.finishBatch lsn failure) := by
  have hfits := hpend ▸ h.fits
  have hissued : ∀ op ∈ fresh.pending, op.token < high := hpend ▸ h.issued
  cases failure with
  | some => exact ⟨hfits, hissued, fun _ => hknown, nofun, nofun, nofun, nofun⟩
  | none =>
    refine ⟨hfits, hissued, fun _ => hknown, fun _ => ?_, fun _ => ⟨hknown, Bool.and_false _⟩,
      fun _ _ => rfl, fun _ hlsn => ⟨rfl, by cases hlsn; rfl⟩⟩
    show Rebased fresh _ (view lsn)
    rw [← hview]
    exact Rebased.initial h.fits rows hpend hbase

theorem Sound.mono (hle : high ≤ high') : Sound view high' ledger db p :=
  { h with issued := fun op hop => (h.issued op hop).trans_le hle }

/-- Local mutations and the results of their writes only touch the ledger and the rows. -/
theorem Sound.local (hfits : ∀ op ∈ ledger'.pending, op.kind.Fits spec op.key)
    (hissued : ∀ op ∈ ledger'.pending, op.token < high')
    (hknown : ledger'.pending ≠ [] → p.known = true)
    (hrebased : ∀ server, Rebased ledger db server → Rebased ledger' db' server) :
    Sound view high' ledger' db' p :=
  { h with
    fits := hfits
    issued := hissued
    known := hknown
    rebased := fun ht => hrebased _ (h.rebased ht) }

omit h

section
variable {staged : TableLedger δ}

variable (h : Sound view high ledger db p)
include h

theorem Sound.stage (hknown : p.known = true) (hfits : kind.Fits spec key)
    (hpend : staged.pending = ledger.pending ++ [⟨high, key, kind, false⟩])
    (hbase : staged.base = if ledger.hasPending key then ledger.base
      else update ledger.base key (some (db.get key))) :
    Sound view (high + 1) (staged.writeFor key).2 (db.applyWrite (staged.writeFor key).1) p := by
  refine h.local ?_ ?_ (fun _ => hknown) fun server hr => hr.stage high hfits hpend hbase
  · rw [TableLedger.writeFor_pending, hpend]
    exact forall_mem_append.mpr ⟨h.fits, forall_mem_singleton.mpr hfits⟩
  · rw [TableLedger.writeFor_pending, hpend]
    refine forall_mem_append.mpr ⟨fun op hop => ?_, ?_⟩
    · exact Nat.lt_succ_of_lt (h.issued op hop)
    · exact forall_mem_singleton.mpr (Nat.lt_succ_self high)

/-- The mutation found under the new token is the one that has just been staged. -/
theorem Sound.found (hpend : staged.pending = ledger.pending ++ [⟨high, key, kind, false⟩])
    (hget : staged.pending[index]? = some op) (htok : op.token = high) :
    op.key = key ∧ staged.pending.eraseIdx index = ledger.pending := by
  rw [hpend] at hget ⊢
  rcases lt_or_ge index ledger.pending.length with hlt | hge
  · rw [getElem?_append_left hlt] at hget
    exact absurd htok (h.issued op (mem_of_getElem? hget)).ne
  · rw [getElem?_append_right hge] at hget
    rw [eraseIdx_append_of_length_le hge]
    obtain hzero | hpos := Nat.eq_zero_or_pos (index - ledger.pending.length)
    · rw [hzero] at hget ⊢
      cases hget
      exact ⟨rfl, append_nil _⟩
    · rw [getElem?_eq_none hpos] at hget
      cases hget

theorem Sound.unstage (hknown : p.known = true) (hfits : kind.Fits spec key)
    (hpend : staged.pending = ledger.pending ++ [⟨high, key, kind, false⟩])
    (hbase : staged.base = if ledger.hasPending key then ledger.base
      else update ledger.base key (some (db.get key)))
    (hget : (staged.writeFor key).2.pending[index]? = some op) (htok : op.token = high)
    (herase : erased = { (staged.writeFor key).2 with
      pending := (staged.writeFor key).2.pending.eraseIdx index }) :
    Sound view (high + 1) (erased.writeFor op.key).2 db p := by
  have hkept : (erased.writeFor op.key).2.pending = ledger.pending := by
    rw [TableLedger.writeFor_pending, herase]
    rw [TableLedger.writeFor_pending] at hget ⊢
    exact (h.found hpend hget htok).2
  refine h.local ?_ ?_ (fun _ => hknown) fun server hr => ?_
  · rw [hkept]
    exact h.fits
  · rw [hkept]
    exact fun op hop => Nat.lt_succ_of_lt (h.issued op hop)
  · exact hr.keep ((hr.stage high hfits hpend hbase).rollBack hget herase) hkept

end

theorem Sound.acknowledge (h : Sound view high ledger db p) (index : ℕ) :
    Sound view high { ledger with
      pending := ledger.pending.modify index fun op => { op with writerDone := true } } db p := by
  refine h.local (forall_mem_modify (fun _ hop => hop) index h.fits)
    (forall_mem_modify (fun _ hop => hop) index h.issued) (fun hne => ?_)
    fun server hr => hr.acknowledge index
  refine h.known fun hnil => hne ?_
  rw [hnil]
  cases index <;> rfl

theorem Sound.rollBack (h : Sound view high ledger db p) (hget : ledger.pending[index]? = some op)
    (herase : erased = { ledger with pending := ledger.pending.eraseIdx index }) :
    Sound view high (erased.writeFor op.key).2 (db.applyWrite (erased.writeFor op.key).1) p := by
  have hkept : (erased.writeFor op.key).2.pending = ledger.pending.eraseIdx index := by
    rw [TableLedger.writeFor_pending, herase]
  refine h.local ?_ ?_ (fun hne => ?_) fun server hr => hr.rollBack hget herase
  · rw [hkept]
    exact fun op hop => h.fits op (mem_of_mem_eraseIdx hop)
  · rw [hkept]
    exact fun op hop => h.issued op (mem_of_mem_eraseIdx hop)
  · exact h.known (ne_nil_of_mem (mem_of_getElem? hget))

end Table

section Run
variable {view : ∀ table, Lsn → TableRows (specs table) δ} {s : Pumps specs δ}

def AllSound (view : ∀ table, Lsn → TableRows (specs table) δ) (s : Pumps specs δ) : Prop :=
  ∀ table, Sound (view table) s.nextToken (s.reconciler.tables table) (s.db table) (s.pumps table)

variable (h : AllSound view s)
include h

variable {table : String}

theorem AllSound.update {db : TableRows (specs table) δ} (hnext : s.nextToken ≤ s'.nextToken)
    (hled : s'.reconciler.tables = update s.reconciler.tables table ledger)
    (hdb : s'.db = update s.db table db) (hpump : s'.pumps = update s.pumps table p)
    (htab : Sound (view table) s'.nextToken ledger db p) : AllSound view s' := by
  intro other
  rw [hled, hdb, hpump]
  rcases eq_or_ne other table with rfl | hne
  · rw [update_self, update_self, update_self]
    exact htab
  · rw [update_of_ne hne, update_of_ne hne, update_of_ne hne]
    exact (h other).mono hnext

theorem AllSound.setPump
    (hp : Sound (view table) s.nextToken (s.reconciler.tables table) (s.db table) p) :
    AllSound view (s.setPump table p) :=
  h.update le_rfl (update_eq_self ..).symm (update_eq_self ..).symm rfl hp

omit h in
omit [DecidableEq δ] in
theorem update_if (db : ∀ table, TableRows (specs table) δ) (table : String) (c : Prop)
    [Decidable c] (rows : TableRows (specs table) δ) :
    (if c then update db table rows else db) = update db table (if c then rows else db table) := by
  split
  · rfl
  · exact (update_eq_self ..).symm

theorem AllSound.applyChanges (failure) (htrust : (s.pumps table).trusted = true)
    (hgap : (s.pumps table).gap = false)
    (hview : changed (view table (s.pumps table).sent) changes = view table lsn) :
    AllSound view (s.applyChanges table lsn changes failure) := by
  rw [Pumps.applyChanges, if_pos ((h table).seeded htrust).1]
  exact h.update le_rfl rfl (update_if ..) rfl
    ((h table).changes htrust hgap hview failure rfl)

theorem AllSound.applyInitial (failure)
    (hview : TableRows.replaceRows (specs table) rows = view table lsn) :
    AllSound view (s.applyInitial table lsn rows failure) := by
  simp only [Pumps.applyInitial]
  split
  next hknown =>
    exact h.update le_rfl rfl (update_if ..) rfl ((h table).initial hknown hview failure rfl rfl)
  next hunknown =>
    have huntrusted : (s.pumps table).trusted ≠ true := fun ht =>
      hunknown ((h table).seeded ht).1
    exact h.setPump ((h table).report id rfl id (fun _ => rfl) (fun ht => absurd ht huntrusted)
      fun _ hstat => ⟨hstat, rfl⟩)

theorem AllSound.handle (hlegal : s.Legal view (.event table event))
    (horderly : s.Orderly (.event table event)) : AllSound view (s.handle table event) := by
  cases event with
  | accepted failure => exact h.setPump ((h table).accept failure)
  | diff lsn op rows failure =>
    simp only [Legal, Orderly] at hlegal horderly
    simp only [Pumps.handle]
    by_cases hinit : op = .initial
    · rw [if_pos hinit] at hlegal horderly
      rw [if_pos ⟨hinit, horderly⟩]
      exact h.applyInitial failure hlegal
    · rw [if_neg hinit] at hlegal horderly
      rw [if_neg fun hboth => hinit hboth.1]
      exact h.applyChanges failure horderly hlegal.1 hlegal.2
  | transaction lsn changes failure => exact h.applyChanges failure horderly hlegal.1 hlegal.2
  | resync requested => exact h.setPump ((h table).resync requested)
  | error | failed =>
    exact h.setPump ((h table).restate (s.pumps table).running nofun)
  | closed => exact h.setPump ((h table).restate false nofun)
  | shutdown => exact h.setPump ((h table).restate false fun _ hstat => hstat)

theorem AllSound.mutate (null : δ) (failure) (hord : mutation.table ∈ order) :
    AllSound view (s.mutate null mutation failure order) := by
  unfold Pumps.mutate
  split
  next hknown =>
    split
    · exact h
    next key kind hresolved =>
      have hfits := resolveMutation_fits hresolved
      dsimp only
      split
      · exact h.update (Nat.le_succ _) rfl rfl (update_eq_self ..).symm
          ((h mutation.table).stage hknown hfits rfl rfl)
      · -- the tokens of the other tables are older, so the search ends at this mutation
        have hstaged := fun other => s.reconciler.pending_stage mutation.table other s.nextToken key
          kind ((s.db mutation.table).get key)
        rcases (s.reconciler.stage mutation.table s.nextToken key kind
            ((s.db mutation.table).get key)).2.writerFinished_cases s.nextToken false order with
          ⟨-, habs⟩ | ⟨table, -, index, op, hget, htok, ⟨hfalse, -⟩ | ⟨erased, herase, -, hdone⟩⟩
        · refine absurd rfl (habs mutation.table hord ⟨s.nextToken, key, kind, false⟩ ?_)
          rw [hstaged, if_pos rfl]
          exact mem_append_right _ (mem_singleton_self _)
        · cases hfalse
        · have htab : table = mutation.table := by
            by_contra hne
            have hmem := mem_of_getElem? hget
            rw [hstaged, if_neg hne, append_nil] at hmem
            exact absurd htok ((h table).issued op hmem).ne
          subst htab
          rw [hdone]
          have hself : (s.reconciler.stage mutation.table s.nextToken key kind
              ((s.db mutation.table).get key)).2.tables mutation.table = _ :=
            update_self ..
          rw [hself] at hget herase
          refine h.update (Nat.le_succ _) ?_ (update_eq_self ..).symm
            (update_eq_self ..).symm
            ((h mutation.table).unstage hknown hfits rfl rfl hget htok herase)
          exact update_idem ..
  next => exact h

theorem AllSound.writerFinished {failure : Option String}
    (horderly : s.Orderly (.writerFinished token ok order failure)) :
    AllSound view (s.writerFinished token ok order failure) := by
  unfold Pumps.writerFinished
  rcases s.reconciler.writerFinished_cases token ok order with ⟨hnone, -⟩ |
    ⟨table, -, index, op, hget, -, ⟨-, hdone⟩ | ⟨erased, herase, hok, hback⟩⟩
  · rw [hnone]
    exact h
  · rw [hdone]
    refine h.update le_rfl rfl ?_ (update_eq_self ..).symm ((h table).acknowledge index)
    dsimp only
    rw [update_if]
    exact congrArg _ (ite_self _)
  · rw [hback]
    subst hok
    have hwr : failure = none := horderly.resolve_left Bool.false_ne_true
    have hknown : (s.pumps table).known = true :=
      (h table).known (ne_nil_of_mem (mem_of_getElem? hget))
    refine h.update le_rfl rfl ?_ (update_eq_self ..).symm
      ((h table).rollBack hget herase)
    dsimp only
    rw [if_pos ⟨hknown, by simp [hwr]⟩]
    rfl

theorem AllSound.step (null : δ) (hlegal : s.Legal view action) (horderly : s.Orderly action) :
    AllSound view (s.step null action) := by
  cases action with
  | event =>
    simp only [Pumps.step]
    split
    · exact h.handle hlegal horderly
    · exact h
  | drop table lsn => exact h.setPump ((h table).drop lsn)
  | mutate mutation failure => exact h.mutate null failure hlegal
  | writerFinished => exact h.writerFinished horderly

theorem AllSound.truthful : s.Truthful view := by
  intro table lsn hstat
  obtain ⟨htrust, rfl⟩ := (h table).live lsn hstat
  exact ⟨((h table).seeded htrust).2, ((h table).rebased htrust).visible⟩

omit h

end Run

section

def accounts (_ : String) : TableSpec := ⟨"accounts", ⟨["id", "n"], [0]⟩⟩

def setFirst : WireRowChange ℕ := ⟨.update, some [1, 0], some [1, 1]⟩

def addSecond : WireRowChange ℕ := ⟨.insert, none, some [2, 0]⟩

/-- The server has one row, changes it at LSN 6 and gets a second one at LSN 7. -/
def serverRows (table : String) (lsn : Lsn) : TableRows (accounts table) ℕ :=
  let first := TableRows.replaceRows (accounts table) [[1, 0]]
  if lsn < 6 then first
  else if lsn = 6 then changed first [setFirst]
  else changed (changed first [setFirst]) [addSecond]

def noRows : Pumps accounts ℕ := start fun table => TableRows.replaceRows (accounts table) []

def followed : List (PumpAction ℕ) :=
  [.event "accounts" (.accepted none), .event "accounts" (.diff 5 .initial [[1, 0]] none),
    .event "accounts" (.transaction 6 [setFirst] none)]

/-- The server could not send the change at LSN 6. It refuses the snapshot asked for after that,
with an error that names no subscription, and goes on with the change at LSN 7. -/
def resumed : List (PumpAction ℕ) :=
  [.event "accounts" (.accepted none), .event "accounts" (.diff 5 .initial [[1, 0]] none),
    .drop "accounts" 6, .event "accounts" (.resync true),
    .event "accounts" (.transaction 7 [addSecond] none)]

end

end Pumps

end Palimpsest.Client
