import Palimpsest.Client.Mutation
import Mathlib.Data.List.Dedup

/-! The ledger of optimistic mutations: server images of the keys that have pending mutations, and
the mutations themselves in the order they were staged. -/
namespace Palimpsest.Client
open Function (update update_of_ne update_self)

abbrev MutationToken := ℕ

inductive DiffOp where
  | unspecified
  | initial
  | insert
  | update
  | delete
deriving Repr, DecidableEq

structure WireRowChange (δ : Type) where
  op : DiffOp
  old : Option (WireRow δ)
  new : Option (WireRow δ)
deriving Repr, DecidableEq

inductive LocalWrite (δ : Type) where
  | upsert (row : WireRow δ)
  | delete (key : PrimaryKey δ)
deriving Repr, DecidableEq

/-- The write that leaves a key with the given row, or without one. -/
def LocalWrite.ofImage {δ : Type} (key : PrimaryKey δ) : Option (WireRow δ) → LocalWrite δ
  | some row => .upsert row
  | none => .delete key

structure PendingOp (δ : Type) where
  token : MutationToken
  key : PrimaryKey δ
  kind : ResolvedKind δ
  writerDone : Bool
deriving Repr, DecidableEq

structure TableLedger (δ : Type) where
  base : PrimaryKey δ → Option (Option (WireRow δ))
  pending : List (PendingOp δ)

def TableLedger.empty {δ : Type} : TableLedger δ := ⟨fun _ => none, []⟩

section
variable {δ : Type}

def applyKind (row : Option (WireRow δ)) : ResolvedKind δ → Option (WireRow δ)
  | .insert new _ => some new
  | .update set => row.map fun r => set.foldl (fun r entry => r.set entry.1 entry.2) r
  | .delete => none

def replayOver (row : Option (WireRow δ)) (ops : List (PendingOp δ)) : Option (WireRow δ) :=
  ops.foldl (fun row op => applyKind row op.kind) row

/-- Whether a server image agrees with what a mutation wrote. -/
def confirms [DecidableEq δ] (kind : ResolvedKind δ) (new : Option (WireRow δ)) : Bool :=
  match kind, new with
  | .insert row setColumns, some new => setColumns.all fun index =>
    decide (new[index]? = row[index]?)
  | .update set, some new => set.all fun entry => decide (new[entry.1]? = some entry.2)
  | .delete, none => true
  | _, _ => false

theorem applyKind_keyed {key : PrimaryKey δ} (hfits : kind.Fits spec key)
    (hrow : ∀ r ∈ row, spec.keyOf r = key) (hnew : applyKind row kind = new) :
    ∀ r ∈ new, spec.keyOf r = key := by
  subst hnew
  cases kind with
  | insert =>
    intro r hr
    cases hr
    exact hfits
  | update set =>
    intro r hr
    obtain ⟨prev, hwas, rfl⟩ := Option.map_eq_some_iff.mp hr
    rw [← hrow prev hwas]
    clear hwas hr
    -- no entry of the set touches a key column
    induction set generalizing prev with
    | nil => rfl
    | cons first rest ih =>
      obtain ⟨hfirst, hrest⟩ := List.forall_mem_cons.mp hfits
      rw [List.foldl_cons, ih hrest, keyOf_set hfirst]
  | delete => exact fun _ hr => nomatch hr

theorem replayOver_keyed {key : PrimaryKey δ} (hops : ∀ op ∈ ops, op.kind.Fits spec key)
    (hrow : ∀ r ∈ row, spec.keyOf r = key) : ∀ r ∈ replayOver row ops, spec.keyOf r = key := by
  induction ops generalizing row with
  | nil => exact hrow
  | cons op ops ih =>
    obtain ⟨hop, hops⟩ := List.forall_mem_cons.mp hops
    exact ih hops (applyKind_keyed hop hrow rfl)

end

namespace TableLedger
variable {δ : Type} [DecidableEq δ]

variable (ledger : TableLedger δ)

def on (key : PrimaryKey δ) : List (PendingOp δ) :=
  ledger.pending.filter fun op => op.key = key

def replay (key : PrimaryKey δ) : Option (WireRow δ) :=
  replayOver (ledger.base key).join (ledger.on key)

def hasPending (key : PrimaryKey δ) : Bool :=
  ledger.pending.any fun op => op.key = key

/-- The write that makes the visible row match the ledger. The base image goes with the last pending
mutation. -/
def writeFor (key : PrimaryKey δ) : LocalWrite δ × TableLedger δ :=
  (.ofImage key (ledger.replay key),
    if ledger.hasPending key then ledger
    else { ledger with base := update ledger.base key none })

@[simp]
theorem writeFor_pending (key) : (ledger.writeFor key).2.pending = ledger.pending := by
  unfold writeFor
  split <;> rfl

end TableLedger

structure ServerApply (δ : Type) where
  writes : List (LocalWrite δ)
  settled : List MutationToken
  conflicted : List MutationToken

section
variable {δ : Type} [DecidableEq δ]

/-- Takes the mutations of a key out of the queue from its front, as long as the image confirms them
or their writer has reported success. -/
def settle (key : PrimaryKey δ) (image : Option (WireRow δ)) :
    List (PendingOp δ) → List (PendingOp δ) × List MutationToken × List MutationToken
  | [] => ([], [], [])
  | op :: ops =>
    if op.key = key then
      if confirms op.kind image then
        let rest := settle key image ops
        (rest.1, op.token :: rest.2.1, rest.2.2)
      else if op.writerDone then
        let rest := settle key image ops
        (rest.1, rest.2.1, op.token :: rest.2.2)
      else (op :: ops, [], [])
    else
      let rest := settle key image ops
      (op :: rest.1, rest.2.1, rest.2.2)

def foldChange (state : TableLedger δ × ServerApply δ)
    (change : PrimaryKey δ × Option (WireRow δ)) : TableLedger δ × ServerApply δ :=
  let (ledger, out) := state
  let (key, image) := change
  if ledger.hasPending key then
    let rest := settle key image ledger.pending
    let written := TableLedger.writeFor ⟨update ledger.base key (some image), rest.1⟩ key
    (written.2, ⟨out.writes ++ [written.1], out.settled ++ rest.2.1, out.conflicted ++ rest.2.2⟩)
  else (ledger, { out with writes := out.writes ++ [.ofImage key image] })

/-- The keys a change is about, with their images after it. An update that changes the primary key
deletes the old key and inserts the new one. -/
def images (keyOf : WireRow δ → PrimaryKey δ) (change : WireRowChange δ) :
    List (PrimaryKey δ × Option (WireRow δ)) :=
  let oldKey := change.old.map keyOf
  let newKey := change.new.map keyOf
  match oldKey, newKey with
  | some old, some new =>
    if old ≠ new then [(old, none), (new, change.new)]
    else if change.op = .delete then [(old, none)]
    else [(new, change.new)]
  | some old, none => [(old, none)]
  | none, some new => if change.op = .delete then [(new, none)] else [(new, change.new)]
  | none, none => []

end

structure Reconciler (δ : Type) where
  tables : String → TableLedger δ

structure WriterApply (δ : Type) where
  writes : List (LocalWrite δ)
  table : Option String

namespace Reconciler
variable {δ : Type} [DecidableEq δ]

def empty : Reconciler δ := ⟨fun _ => .empty⟩

variable (reconciler : Reconciler δ)

def setTable (table : String) (ledger : TableLedger δ) : Reconciler δ :=
  ⟨update reconciler.tables table ledger⟩

def stage (table : String) (token : MutationToken) (key : PrimaryKey δ)
    (kind : ResolvedKind δ) (currentLocalRow : Option (WireRow δ)) :
    List (LocalWrite δ) × Reconciler δ :=
  let ledger := reconciler.tables table
  let base := if ledger.hasPending key then ledger.base
    else update ledger.base key (some currentLocalRow)
  let written := TableLedger.writeFor ⟨base, ledger.pending ++ [⟨token, key, kind, false⟩]⟩ key
  ([written.1], reconciler.setTable table written.2)

def applyServerChanges (table : String)
    (changes : List (WireRowChange δ)) (keyOf : WireRow δ → PrimaryKey δ) :
    ServerApply δ × Reconciler δ :=
  let folded := (changes.flatMap (images keyOf)).foldl foldChange
    (reconciler.tables table, ⟨[], [], []⟩)
  (folded.2, reconciler.setTable table folded.1)

/-- The last row of a snapshot under a key. -/
def snapshotImage (keyOf : WireRow δ → PrimaryKey δ) (rows : List (WireRow δ))
    (key : PrimaryKey δ) :
    Option (WireRow δ) :=
  rows.reverse.find? fun row => keyOf row = key

/-- A fresh snapshot. The rows to install are those of the other keys, and of each key with pending
mutations the replay over its new image. -/
def applyInitial (table : String) (rows : List (WireRow δ))
    (keyOf : WireRow δ → PrimaryKey δ) : List (WireRow δ) × Reconciler δ :=
  let ledger := reconciler.tables table
  let pendingKeys := (ledger.pending.map (·.key)).dedup
  let fresh : TableLedger δ :=
    { ledger with base := fun key =>
        if key ∈ pendingKeys then some (snapshotImage keyOf rows key) else none }
  (rows.filter (fun row => keyOf row ∉ pendingKeys) ++ pendingKeys.filterMap fresh.replay,
    reconciler.setTable table fresh)

/-- The tables are searched in the given order for the mutation. -/
def writerFinished (reconciler : Reconciler δ) (token : MutationToken) (ok : Bool) :
    List String → WriterApply δ × Reconciler δ
  | [] => (⟨[], none⟩, reconciler)
  | table :: tables =>
    let ledger := reconciler.tables table
    match ledger.pending.findIdx? fun op => op.token == token with
    | none => writerFinished reconciler token ok tables
    | some index =>
      if ok then
        (⟨[], some table⟩, reconciler.setTable table
          { ledger with pending := ledger.pending.modify index fun op =>
            { op with writerDone := true } })
      else
        match ledger.pending[index]? with
        | none => (⟨[], some table⟩, reconciler)
        | some op =>
          let written := TableLedger.writeFor
            { ledger with pending := ledger.pending.eraseIdx index } op.key
          (⟨[written.1], some table⟩, reconciler.setTable table written.2)

theorem pending_stage (table other token key kind currentLocalRow) :
    ((reconciler.stage table token key kind currentLocalRow).2.tables other).pending =
      (reconciler.tables other).pending ++
        if other = table then [⟨token, key, kind, false⟩] else [] := by
  simp only [stage, setTable]
  rcases eq_or_ne other table with rfl | hne
  · rw [update_self, TableLedger.writeFor_pending, if_pos rfl]
  · rw [update_of_ne hne, if_neg hne, List.append_nil]

/-- The mutation is not found, or it is acknowledged or taken back in the first table that has
it. -/
theorem writerFinished_cases (token) (ok : Bool) (order) :
    (reconciler.writerFinished token ok order = (⟨[], none⟩, reconciler) ∧
        ∀ table ∈ order, ∀ op ∈ (reconciler.tables table).pending, op.token ≠ token) ∨
      ∃ table ∈ order, ∃ index op, (reconciler.tables table).pending[index]? = some op ∧
        op.token = token ∧ ((ok = true ∧ reconciler.writerFinished token ok order =
            (⟨[], some table⟩, reconciler.setTable table { reconciler.tables table with
              pending := (reconciler.tables table).pending.modify index fun op =>
                { op with writerDone := true } })) ∨
          ∃ erased : TableLedger δ, erased = { reconciler.tables table with
              pending := (reconciler.tables table).pending.eraseIdx index } ∧ ok = false ∧
            reconciler.writerFinished token ok order = (⟨[(erased.writeFor op.key).1], some table⟩,
                reconciler.setTable table (erased.writeFor op.key).2)) := by
  induction order with
  | nil => exact .inl ⟨rfl, fun _ h => absurd h List.not_mem_nil⟩
  | cons table order ih =>
    simp only [writerFinished]
    split
    next hnone =>
      rcases ih with ⟨hsame, habs⟩ | ⟨found, hfound, hrest⟩
      · exact .inl ⟨hsame, List.forall_mem_cons.mpr ⟨by simpa using hnone, habs⟩⟩
      · exact .inr ⟨found, List.mem_cons_of_mem _ hfound, hrest⟩
    next index hidx =>
      obtain ⟨hlt, htok, -⟩ := List.findIdx?_eq_some_iff_getElem.mp hidx
      have hget := List.getElem?_eq_getElem hlt
      refine .inr ⟨table, List.mem_cons_self, index, _, hget, by simpa using htok, ?_⟩
      cases ok with
      | true => exact .inl ⟨rfl, if_pos rfl⟩
      | false =>
        refine .inr ⟨_, rfl, rfl, ?_⟩
        rw [if_neg (by decide), hget]

end Reconciler

end Palimpsest.Client
