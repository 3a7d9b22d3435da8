import Palimpsest.Client.Connection

/-! Transaction updates as they come over the wire, and what becomes of those after a bad one. -/
namespace Palimpsest.Client
open Runs
open Dataflow (Lsn)

structure ProtoRowChange (β : Type) where
  op : DiffOp
  oldRow : Option β
  newRow : Option β

structure ProtoTransactionUpdate (β : Type) where
  commitLsn : Lsn
  schemaId : ℕ
  changes : List (ProtoRowChange β)

/-- What comes in, with the schemas that are registered then. -/
inductive Arrival (β δ : Type) where
  | update (registry : ℕ → Option Schema) (update : ProtoTransactionUpdate β)
  | initial (registry : ℕ → Option Schema) (lsn : Lsn) (schemaId : ℕ) (rows : List (WireRow δ))
  | accepted (schemaId : ℕ) (snapshotLsn : Lsn) (schema : Schema)
  | resync

/-- A subscription, and as it was at the first update that it misses. -/
structure Watched (δ : Type) where
  sub : SubState δ
  missing : Option (SubState δ)

variable {β δ : Type} [DecidableEq δ] (decodeRows : β → Except CodecError (List (WireRow δ)))
  (isCompatible : Schema → ℕ → δ → Bool)

def decodeOptionalSingleRow (schema : Schema) : Option β → Except CodecError (Option (WireRow δ))
  | none => .ok none
  | some bytes => do
    let rows ← decodeRows bytes
    rows.forM (validateRow isCompatible schema)
    match rows with
    | [row] => .ok (some row)
    | _ => .error (.rowCount 1 rows.length)

def decodeTransaction (registry : ℕ → Option Schema) (update : ProtoTransactionUpdate β) :
    Except CodecError (List (WireRowChange δ)) :=
  match registry update.schemaId with
  | none => .error (.unknownSchema update.schemaId)
  | some schema => update.changes.mapM fun change => do
    let old ← decodeOptionalSingleRow decodeRows isCompatible schema change.oldRow
    let new ← decodeOptionalSingleRow decodeRows isCompatible schema change.newRow
    return ⟨change.op, old, new⟩

namespace SubState
variable (sub : SubState δ) (registry : ℕ → Option Schema) (update : ProtoTransactionUpdate β)

def commit (commitLsn : Lsn) (changes : List (WireRowChange δ)) : SubState δ :=
  emit { sub with
    cache := sub.cache.map fun cache => cache.applyTransaction changes
    lastSeenLsn := commitLsn } (.transaction commitLsn changes)

def handleTransactionUpdate : SubState δ :=
  if sub.isReplayed update.commitLsn then sub
  else
    match decodeTransaction decodeRows isCompatible registry update with
    | .error err => sub.emit (.codec err)
    | .ok changes => sub.commit update.commitLsn changes

def misses : Bool := !sub.isReplayed update.commitLsn &&
  !(decodeTransaction decodeRows isCompatible registry update).isOk

end SubState

namespace Watched

/-- An update stays missing until the rows come anew. -/
def arrive (w : Watched δ) : Arrival β δ → Watched δ
  | .update registry update =>
    ⟨w.sub.handleTransactionUpdate decodeRows isCompatible registry update,
      if w.sub.misses decodeRows isCompatible registry update then w.missing.or (some w.sub)
      else w.missing⟩
  | .initial registry lsn schemaId rows =>
    ⟨w.sub.diff isCompatible registry lsn .initial schemaId rows,
      if w.sub.isReplayed lsn || !(decode isCompatible registry schemaId rows).isOk then w.missing
      else none⟩
  | .accepted schemaId snapshotLsn schema =>
    ⟨w.sub.accept schemaId snapshotLsn schema,
      w.missing.map fun sub => sub.accept schemaId snapshotLsn schema⟩
  | .resync => ⟨w.sub.resync, none⟩

/-- While an update is missing, those that follow are replays or fail as well. -/
def Refused (w : Watched δ) : Arrival β δ → Prop
  | .update registry update => w.missing.isSome → w.sub.isReplayed update.commitLsn ∨
    w.sub.misses decodeRows isCompatible registry update
  | _ => True

/-- Nothing has been applied since the update that is missing. -/
def Untouched (w : Watched δ) : Prop :=
  ∀ sub ∈ w.missing, w.sub.cache = sub.cache ∧ w.sub.lastSeenLsn = sub.lastSeenLsn

variable {decodeRows isCompatible}

theorem Untouched.arrive {w : Watched δ} (h : w.Untouched)
    (hmeets : w.Refused decodeRows isCompatible a) :
    (w.arrive decodeRows isCompatible a).Untouched := by
  unfold Untouched at h ⊢
  cases a with
  | update registry update =>
    cases hrep : w.sub.isReplayed update.commitLsn <;>
      cases hdec : decodeTransaction decodeRows isCompatible registry update <;>
      cases hmiss : w.missing <;>
      simp_all [Watched.arrive, Refused, SubState.misses, SubState.handleTransactionUpdate,
        SubState.emit, Except.isOk, Except.toBool]
  | initial registry lsn schemaId rows =>
    cases hrep : w.sub.isReplayed lsn <;>
      cases hdec : decode isCompatible registry schemaId rows <;>
      simp_all [Watched.arrive, SubState.diff, SubState.emit, Except.isOk, Except.toBool]
  | accepted =>
    cases hmiss : w.missing <;> simp_all [Watched.arrive, SubState.accept, SubState.emit]
  | resync => rintro _ ⟨⟩

/-- An update is applied whole or not at all, and none while one is missing. -/
theorem missing_not_overtaken {w : Watched δ} {sub : SubState δ}
    (h : Reached (arrive decodeRows isCompatible) (Refused decodeRows isCompatible) ⟨sub, none⟩ w) :
    w.Untouched ∧ ∀ registry update,
      let next := (w.arrive decodeRows isCompatible (.update registry update)).sub
      (∃ changes, decodeTransaction decodeRows isCompatible registry update = .ok changes ∧
        next = w.sub.commit update.commitLsn changes) ∨
      next.cache = w.sub.cache ∧ next.lastSeenLsn = w.sub.lastSeenLsn := by
  refine ⟨h.invariant nofun fun _ _ hs hmeets => hs.arrive hmeets, fun registry update => ?_⟩
  simp only [arrive, SubState.handleTransactionUpdate]
  split
  · exact .inr ⟨rfl, rfl⟩
  · split
    next err _ => exact .inr ⟨rfl, rfl⟩
    next changes hchanges => exact .inl ⟨changes, hchanges, rfl⟩

def readRow : Option (WireRow ℕ) → Except CodecError (List (WireRow ℕ))
  | some row => .ok [row]
  | none => .error (.decode "unexpected end of file")

def insertion (lsn : Lsn) (row : Option (WireRow ℕ)) : Arrival (Option (WireRow ℕ)) ℕ :=
  .update (fun _ => some ⟨["n"], [0]⟩) ⟨lsn, 0, [⟨.insert, none, some row⟩]⟩

def after (arrivals : List (Arrival (Option (WireRow ℕ)) ℕ)) : Watched ℕ :=
  arrivals.foldl (arrive readRow fun _ _ _ => true) ⟨.new true, none⟩

theorem two_missing : (after [insertion 1 none, insertion 2 none]).Untouched :=
  have hrun : Schedule (arrive readRow fun _ _ _ => true) (Refused readRow fun _ _ _ => true)
      ⟨.new true, none⟩ [insertion 1 none, insertion 2 none] :=
    .cons nofun (.cons (fun _ => .inr rfl) (.nil _))
  (missing_not_overtaken (hrun.reached .start)).1

/-- The update after a bad one is applied, and moves the last seen LSN. -/
theorem missing_overtaken : (after [insertion 1 none, insertion 2 (some [7])]).missing.map
      SubState.lastSeenLsn = some 0 ∧
    (after [insertion 1 none, insertion 2 (some [7])]).sub.lastSeenLsn = 2 :=
  ⟨rfl, rfl⟩

end Watched

end Palimpsest.Client
