import Palimpsest.Postgres.Replication

/-! A streaming session: the catalog its frames are decoded by, and tables whose columns change. -/
namespace Palimpsest.Postgres
open List Dataflow Function

inductive DatumType where
  | bool | i16 | i32 | i64 | f32 | f64 | numeric | text | bytea | date | time | timestamp
  | timestampTz | interval | uuid | json | jsonb
  | array (element : DatumType)
deriving Repr, DecidableEq

def stockPostgres16Type : ℕ → Option DatumType
  | 16 => some .bool
  | 17 => some .bytea
  | 18 | 19 | 25 | 1042 | 1043 => some .text
  | 20 => some .i64
  | 21 => some .i16
  | 22 | 1005 => some (.array .i16)
  | 23 => some .i32
  | 30 | 1007 => some (.array .i32)
  | 700 => some .f32
  | 701 => some .f64
  | 790 | 1700 => some .numeric
  | 2950 => some .uuid
  | 114 => some .json
  | 3802 => some .jsonb
  | 1082 => some .date
  | 1083 => some .time
  | 1114 => some .timestamp
  | 1184 => some .timestampTz
  | 1186 => some .interval
  | 1000 => some (.array .bool)
  | 1001 => some (.array .bytea)
  | 1002 | 1003 | 1014 | 1015 | 1009 => some (.array .text)
  | 1016 => some (.array .i64)
  | 1021 => some (.array .f32)
  | 1022 => some (.array .f64)
  | 791 | 1231 => some (.array .numeric)
  | 1182 => some (.array .date)
  | 1183 => some (.array .time)
  | 1115 => some (.array .timestamp)
  | 1185 => some (.array .timestampTz)
  | 1187 => some (.array .interval)
  | 2951 => some (.array .uuid)
  | 199 => some (.array .json)
  | 3807 => some (.array .jsonb)
  | 1006 => some (.array (.array .i16))
  | 1013 => some (.array (.array .i32))
  | _ => none

structure ColumnDef where
  name : String
  typeOid : ℕ
  datumType : DatumType
deriving Repr, DecidableEq

/-- Types outside the stock table are read as text. -/
def columnFromPgoutput (name : String) (typeOid : ℕ) : ColumnDef :=
  ⟨name, typeOid, (stockPostgres16Type typeOid).getD .text⟩

abbrev Catalog := TableId → Option (List ColumnDef)

/-- A table with its `relation_schema`, which has the introspected types. -/
structure StreamedTable where
  table : IntrospectedTable
  relationSchema : List ColumnDef
  names_eq : relationSchema.map (·.name) = table.columns.map (·.name)

inductive ColumnValue where
  | null
  | unchanged
  | text (bytes : List UInt8)
  | binary (bytes : List UInt8)

inductive Frame where
  | begin (xid : ℕ)
  | relation (table : TableId) (columns : List (String × ℕ))
  | row (table : TableId) (op : RowOp) (old new : Option (List ColumnValue))
  | truncate (tables : List TableId)
  | commit (commitLsn : Lsn)
  | other

structure ValueDecoder (δ : Type) where
  null : δ
  decodeText : DatumType → List UInt8 → Except String δ
  decodeBinary : DatumType → List UInt8 → Except String δ

section Session
variable {δ : Type} (D : ValueDecoder δ)

def decodeColumnValue (datumType : DatumType) : ColumnValue → Except String (TupleDatum δ)
  | .null => .ok (.value D.null)
  | .unchanged => .ok .unchanged
  | .text bytes => (D.decodeText datumType bytes).map .value
  | .binary bytes => (D.decodeBinary datumType bytes).map .value

def decodeTuple (catalog : Catalog) (table : TableId) (values : List ColumnValue) :
    Except String (Tuple δ) :=
  match catalog table with
  | none => .error ("relation TableId(" ++ toString table ++ ") is not in the WAL catalog")
  | some columns =>
    if columns.length ≠ values.length then
      .error ("tuple for relation TableId(" ++ toString table ++ ") has " ++
        toString values.length ++ " columns; expected " ++ toString columns.length)
    else (columns.zip values).mapM fun value => decodeColumnValue D value.1.datumType value.2

/-- A relation overwrites its entry of the catalog. -/
def decodePgoutputMessage (catalog : Catalog) : Frame → Except String (DecodedEvent δ × Catalog)
  | .begin xid => .ok (.begin xid, catalog)
  | .relation table columns =>
    .ok (.schema table (columns.map Prod.fst),
      update catalog table (some (columns.map fun column => columnFromPgoutput column.1 column.2)))
  | .row table op old new => do
    let old ← old.mapM (decodeTuple D catalog table)
    let new ← new.mapM (decodeTuple D catalog table)
    return (.row ⟨table, op, old, new⟩, catalog)
  | .truncate tables => .ok (.truncate tables, catalog)
  | .commit commitLsn => .ok (.commit commitLsn, catalog)
  | .other => .ok (.other, catalog)

variable (tables : TableId → Option StreamedTable)

def introspected : Catalog := fun table => (tables table).map (·.relationSchema)

/-- A relation of a streamed table that passes the drift check gets its introspected types back. -/
def reassert (catalog : Catalog) : DecodedEvent δ → Catalog
  | .schema table _ =>
    if (tables table).isSome then update catalog table (introspected tables table)
    else catalog
  | _ => catalog

variable {frame : Frame} {table : TableId}

variable {D tables} in
/-- A relation coarsens the types only of its own table, and that entry is put back. -/
theorem reassert_decoded {catalog catalog' : Catalog} {event : DecodedEvent δ}
    (h : decodePgoutputMessage D catalog frame = .ok (event, catalog'))
    (htab : (tables table).isSome) (hcat : catalog table = introspected tables table) :
    reassert tables catalog' event table = introspected tables table := by
  cases frame with
  | relation other =>
    cases h
    rcases eq_or_ne table other with rfl | hne
    · simp [reassert, htab]
    · simp only [reassert]
      split <;> simp [update_of_ne hne, hcat]
  | row =>
    obtain ⟨old', -, hrest⟩ := Fallible.bind_ok h
    obtain ⟨new', -, ⟨⟩⟩ := Fallible.bind_ok hrest
    exact hcat
  | _ =>
    cases h
    exact hcat

variable [DecidableEq δ] (fence : SnapshotFence)

/-- A session with the writer calls it has made so far. -/
structure Session (δ : Type) [DecidableEq δ] where
  catalog : Catalog
  pending : Option (PendingTransaction δ)
  calls : List (WriterCall δ)
  ended : Option FrameError

def Session.receive (s : Session δ) (frame : Frame) : Session δ :=
  if s.ended.isSome then s
  else
    match decodePgoutputMessage D s.catalog frame with
    | .error detail => { s with ended := some (.transport ("pgoutput decode: " ++ detail)) }
    | .ok (event, catalog) =>
      let outcome := applyFrame (fun table => (tables table).map (·.table)) fence s.pending event
      match outcome.result with
      | .error e => { s with catalog := catalog, ended := some e }
      | .ok _ => ⟨reassert tables catalog event, outcome.pending, s.calls ++ outcome.calls, none⟩

def stream (frames : List Frame) : Session δ :=
  frames.foldl (Session.receive D tables fence) ⟨introspected tables, none, [], none⟩

def Agrees (known : StreamedTable) (columns : List (String × ℕ)) : Prop :=
  columns.map Prod.fst = known.relationSchema.map (·.name) ∧
    columns.map Prod.snd = known.relationSchema.map (·.typeOid)

instance (known : StreamedTable) (columns : List (String × ℕ)) : Decidable (Agrees known columns) :=
  inferInstanceAs (Decidable (_ ∧ _))

/-- At each relation of a streamed table that the session reads: rows are decoded by the
introspected types from there on if the columns agree, and else drift is reported and nothing more
is applied. -/
def FollowsRelations (frames : List Frame) : Prop :=
  ∀ before table columns after known, frames = before ++ .relation table columns :: after →
    tables table = some known → (stream D tables fence before).ended = none →
    if Agrees known columns then ∀ between, between <+: after →
      let s := stream D tables fence (before ++ .relation table columns :: between)
      s.ended = none →
        ∀ values,
          decodeTuple D s.catalog table values = decodeTuple D (introspected tables) table values
    else
      (stream D tables fence (before ++ [.relation table columns])).ended =
        some (.fatal (schemaDrift known.table (columns.map Prod.fst))) ∧
      (stream D tables fence frames).calls = (stream D tables fence before).calls

/-- A column keeps its type as long as the columns keep their names. -/
def TypesKept (frames : List Frame) : Prop :=
  ∀ before table columns after known, frames = before ++ .relation table columns :: after →
    tables table = some known → (stream D tables fence before).ended = none →
    columns.map Prod.fst = known.relationSchema.map (·.name) →
    columns.map Prod.snd = known.relationSchema.map (·.typeOid)

variable {D tables fence} {s : Session δ}

theorem Session.receive_ended (h : s.ended.isSome) : s.receive D tables fence frame = s := if_pos h

theorem Session.foldl_ended (frames : List Frame) (h : s.ended.isSome) :
    frames.foldl (Session.receive D tables fence) s = s := by
  induction frames with
  | nil => rfl
  | cons frame frames ih => rw [foldl_cons, receive_ended h, ih]

variable (D fence) in
/-- The drift check looks at the names alone. -/
theorem Session.receive_relation {known : StreamedTable}
    (cols : List (String × ℕ)) (htab : tables table = some known) (hrun : s.ended = none) :
    (s.receive D tables fence (.relation table cols)).calls = s.calls ∧
    (s.receive D tables fence (.relation table cols)).ended =
      if cols.map Prod.fst = known.relationSchema.map (·.name) then none
      else some (.fatal (schemaDrift known.table (cols.map Prod.fst))) := by
  rw [known.names_eq]
  by_cases hnames : cols.map Prod.fst = known.table.columns.map (·.name)
  · simp [receive, hrun, decodePgoutputMessage, applyFrame, htab, hnames]
  · simp [receive, hrun, decodePgoutputMessage, applyFrame, htab, hnames]

theorem Session.of_receive (hrun : (s.receive D tables fence frame).ended = none) :
    s.ended = none ∧
      ∃ event catalog, decodePgoutputMessage D s.catalog frame = .ok (event, catalog) ∧
      (s.receive D tables fence frame).catalog = reassert tables catalog event := by
  unfold receive at hrun ⊢
  split at hrun
  next hended => simp [hrun] at hended
  next hended =>
    refine ⟨by simpa using hended, ?_⟩
    rw [if_neg hended]
    split at hrun
    · cases hrun
    next event catalog hev =>
      refine ⟨event, catalog, hev, ?_⟩
      dsimp only at hrun ⊢
      split at hrun
      · cases hrun
      next => rfl

theorem stream_append (prev after) : stream D tables fence (prev ++ after) =
    after.foldl (Session.receive D tables fence) (stream D tables fence prev) :=
  foldl_append

/-- While a session runs its catalog has the introspected types of every streamed table. -/
theorem stream_catalog (frames) (hrun : (stream D tables fence frames).ended = none)
    (htab : (tables table).isSome) :
    (stream D tables fence frames).catalog table = introspected tables table := by
  induction frames using reverseRecOn with
  | nil => rfl
  | append_singleton frames frame ih =>
    rw [stream_append, foldl_cons, foldl_nil] at hrun ⊢
    obtain ⟨hwas, event, catalog, hev, hcat⟩ := Session.of_receive hrun
    rw [hcat]
    exact reassert_decoded hev htab (ih hwas)

/-- Drift is met as it should be exactly while no column changes its type alone. -/
theorem followsRelations_iff (D : ValueDecoder δ) (tables : TableId → Option StreamedTable)
    (fence : SnapshotFence) (frames : List Frame) :
    FollowsRelations D tables fence frames ↔ TypesKept D tables fence frames := by
  constructor
  · intro h before table columns after known hframes htab hrun hnames
    by_contra htypes
    have hdrift := h before table columns after known hframes htab hrun
    rw [if_neg fun hagrees => htypes hagrees.2, stream_append, foldl_cons, foldl_nil,
      (Session.receive_relation D fence columns htab hrun).2, if_pos hnames] at hdrift
    cases hdrift.1
  · intro h before table columns after known hframes htab hrun
    obtain ⟨hcalls, hended⟩ := Session.receive_relation D fence columns htab hrun
    split
    next hagrees =>
      intro between _ s hstill values
      have hcat : s.catalog table = _ := stream_catalog _ hstill (by simp [htab])
      rw [decodeTuple.eq_def, decodeTuple.eq_def, hcat]
    next hdiffers =>
      rw [if_neg fun hnames => hdiffers
        ⟨hnames, h before table columns after known hframes htab hrun hnames⟩] at hended
      subst hframes
      refine ⟨by rw [stream_append, foldl_cons, foldl_nil, hended], ?_⟩
      rw [stream_append, foldl_cons, Session.foldl_ended _ (by simp [hended]), hcalls]

end Session

def unread : ValueDecoder ℕ := ⟨0, fun _ _ => .ok 0, fun _ _ => .ok 0⟩

def numbered : StreamedTable :=
  ⟨⟨1, "public", "posts", [⟨"id", .int⟩]⟩, [⟨"id", 23, .i32⟩], rfl⟩

/-- The column is now a text. -/
theorem changed_type_unnoticed : ¬ FollowsRelations unread (fun _ => some numbered) ⟨0, []⟩
    [.relation 1 [("id", 25)]] := by
  intro h
  have hdrift := h [] 1 [("id", 25)] [] numbered rfl rfl rfl
  cases hdrift.1

end Palimpsest.Postgres
