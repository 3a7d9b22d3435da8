import Palimpsest.Dataflow.Compile
import Palimpsest.Postgres.Drift

/-! The values of a typed expression, and the type that clients are told for them. -/
namespace Palimpsest.Postgres
open Sql Dataflow Fallible List

def columnTypeOf : DatumType → ColumnType
  | .bool => .bool
  | .i16 | .i32 | .i64 => .int
  | .f32 | .f64 => .float
  | .numeric => .numeric
  | .text => .text
  | .bytea => .bytea
  | .date => .date
  | .time => .time
  | .timestamp => .timestamp
  | .timestampTz => .timestampTz
  | .interval => .interval
  | .uuid => .uuid
  | .json | .jsonb => .jsonb
  | .array _ => .array

def wireDatumType : ColumnType → DatumType
  | .bool => .bool
  | .int => .i64
  | .float => .f64
  | .numeric => .numeric
  | .timestamp => .timestamp
  | .timestampTz => .timestampTz
  | .date => .date
  | .time => .time
  | .interval => .interval
  | .uuid => .uuid
  | .jsonb => .jsonb
  | .bytea => .bytea
  | .array => .array .text
  | .text | .enum | .unknown => .text

/-- The kind of a value. The elements of an array are not looked at. -/
def kindOf : Datum → Option DatumType
  | .bool _ => some .bool
  | .i16 _ => some .i16
  | .i32 _ => some .i32
  | .i64 _ => some .i64
  | .f32 _ => some .f32
  | .f64 _ => some .f64
  | .numeric _ => some .numeric
  | .text _ => some .text
  | .bytea _ => some .bytea
  | .date _ => some .date
  | .time _ => some .time
  | .timestamp _ => some .timestamp
  | .timestampTz _ => some .timestampTz
  | .interval .. => some .interval
  | .uuid _ => some .uuid
  | .json _ => some .json
  | .jsonb _ => some .jsonb
  | .array _ => some (.array .text)
  | .null | .unchanged => none

/-- The client takes a value of the declared kind and NULL. -/
def IsCompatible (datum : Datum) (declared : DatumType) : Prop :=
  datum = .null ∨ kindOf datum = some declared

/-- NULL, a value of a kind that passes the test, or anything if all kinds do. -/
def Within (test : DatumType → Bool) (datum : Datum) : Prop :=
  datum = .null ∨ (∃ kind, kindOf datum = some kind ∧ test kind = true) ∨ ∀ kind, test kind = true

def admits (ty : ColumnType) (kind : DatumType) : Bool :=
  ty = .unknown || columnTypeOf kind = ty || ty = .enum && kind = .text

section
variable (C : Compiler) (schema : NodeSchema)

def RowOf (row : Row Datum) : Prop :=
  Forall₂ (fun column datum => Within (admits column.ty) datum) schema.columns row

def ServedAsTyped (text : String) : Prop :=
  ∀ scalar ty, compileTypedScalar C schema text = .ok (scalar, ty) →
    ∀ row, RowOf schema row → IsCompatible (scalar row) (wireDatumType ty)

/-- A cast makes a value of its own kind, but for timestamps of the other kind and for dates. -/
def castKind (inner : DatumType → Bool) (ty : ColumnType) (kind : DatumType) : Bool :=
  match ty with
  | .unknown => inner kind
  | .timestamp => kind = .timestamp || kind = .timestampTz && inner .timestampTz
  | .timestampTz => kind = .timestampTz || kind = .timestamp && (inner .timestamp || inner .date)
  | ty => kind = wireDatumType ty

/-- Texts and values of unknown type are not cast at the end. -/
def servedKind (inner : DatumType → Bool) (ty : ColumnType) (kind : DatumType) : Bool :=
  match ty with
  | .text | .unknown => inner kind
  | ty => castKind inner ty kind

mutual

/-- Whether a value of the expression may be of the kind, by the types of its columns and by the
forms that make texts or pass values on; all other forms count as anything. -/
def mayBe : Expr → DatumType → Bool
  | .nested inner, kind => mayBe inner kind
  | .identifier name, kind => admits ((schema.columnType name).getD .unknown) kind
  | .compoundIdentifier parts, kind => admits (compoundType schema parts) kind
  | .value .null, _ => false
  | .value (.quoted _ _), kind => kind = .text
  | .binaryOp _ .stringConcat _, kind | .binaryOp _ .longArrow _, kind => kind = .text
  | .cast inner dataType, kind =>
    (ColumnType.fromCastTarget dataType).any fun ty => castKind (mayBe inner) ty kind
  | .case _ _ results elseResult, kind => oneMayBe results kind || optionMayBe elseResult kind
  | .coalesce args, kind => oneMayBe args kind
  | _, _ => true

def oneMayBe : List Expr → DatumType → Bool
  | [], _ => false
  | e :: rest, kind => mayBe e kind || oneMayBe rest kind

def optionMayBe : Option Expr → DatumType → Bool
  | none, _ => false
  | some e, kind => mayBe e kind

end

/-- A served value may only be of the kind that its type is announced as. -/
def KindsSettled (expr : Expr) : Prop :=
  ∀ kind, servedKind (mayBe schema expr) (inferType schema expr) kind = true →
    kind = wireDatumType (inferType schema expr)

theorem isCompatible_getD {α : Type} (declared) (value : Option α) {f : α → Datum}
    (h : ∀ a, kindOf (f a) = some declared) : IsCompatible ((value.map f).getD .null) declared := by
  cases value with
  | none => exact .inl rfl
  | some a => exact .inr (h a)

/-- A cast gives NULL, a value of its own kind, or what a reader of that kind gives. -/
theorem isCompatible_castDatum (datum) (h : ty ∉ [.timestamp, .timestampTz, .unknown]) :
    IsCompatible (castDatum P K datum ty) (wireDatumType ty) := by
  cases ty with
  | timestamp | timestampTz | unknown => simp at h
  | bool =>
    cases datum with
    | text =>
      simp only [castDatum, Datum.isNull, Bool.false_eq_true, if_false, castBool]
      split_ifs
      · exact .inr rfl
      · exact .inr rfl
      · exact .inl rfl
    | _ => first | exact .inr rfl | exact .inl rfl
  | _ =>
    cases datum with
    | null => exact .inl rfl
    | _ => first | exact .inr rfl | exact .inl rfl | exact isCompatible_getD _ _ fun _ => rfl

end

section Kinds

theorem Within.of_kind (kind) (h : kindOf datum = some kind) (htest : test kind = true) :
    Within test datum := .inr (.inl ⟨kind, h, htest⟩)

theorem Within.imp (h : Within test datum) (himp : ∀ kind, test kind = true → test' kind = true) :
    Within test' datum := by
  rcases h with hnull | ⟨kind, hkind, htest⟩ | hall
  · exact .inl hnull
  · exact .of_kind kind hkind (himp kind htest)
  · exact .inr (.inr fun kind => himp kind (hall kind))

theorem IsCompatible.within (h : IsCompatible datum declared) (htest : test declared = true) :
    Within test datum :=
  h.imp_right fun hkind => .inl ⟨declared, hkind, htest⟩

theorem isCompatible_concat (P : Primitives) (a b) : IsCompatible (concatDatums P a b) .text := by
  unfold concatDatums
  split_ifs
  · exact .inl rfl
  · split
    · exact .inr rfl
    · exact .inl rfl

theorem within_cast (P K ty) {inner} (h : Within inner datum) :
    Within (castKind inner ty) (castDatum P K datum ty) := by
  have hinner : ∀ kind, kindOf datum = some kind → inner kind = true := by
    intro kind hkind
    rcases h with rfl | ⟨other, hother, htest⟩ | hall
    · cases hkind
    · cases hkind.symm.trans hother
      exact htest
    · exact hall kind
  cases ty with
  | unknown =>
    rw [castDatum]
    split_ifs
    · exact .inl rfl
    · exact h
  | timestamp =>
    cases datum with
    | timestampTz =>
      exact .of_kind .timestampTz rfl (by simp [castKind, hinner _ rfl])
    | text => exact (isCompatible_getD .timestamp _ fun _ => rfl).within rfl
    | timestamp | date => exact .of_kind .timestamp rfl rfl
    | _ => exact .inl rfl
  | timestampTz =>
    cases datum with
    | timestamp | date =>
      exact .of_kind .timestamp rfl (by simp [castKind, hinner _ rfl])
    | text => exact (isCompatible_getD .timestampTz _ fun _ => rfl).within rfl
    | timestampTz => exact .of_kind .timestampTz rfl rfl
    | _ => exact .inl rfl
  | _ => exact (isCompatible_castDatum datum (by simp)).within rfl

theorem coalesceDatum_mem (args : List Datum) :
    coalesceDatum args = .null ∨ coalesceDatum args ∈ args := by
  rw [coalesceDatum]
  cases hfind : args.find? fun arg => !arg.isNull with
  | none => exact .inl rfl
  | some => exact .inr (mem_of_find?_eq_some hfind)

theorem caseDatum_mem (hits conditions results fallback) :
    caseDatum hits (zip conditions results) fallback = fallback ∨
      caseDatum hits (zip conditions results) fallback ∈ results := by
  induction conditions generalizing results with
  | nil => exact .inl rfl
  | cons condition conditions ih =>
    cases results with
    | nil => exact .inl rfl
    | cons result results =>
      rw [zip_cons_cons, caseDatum]
      split_ifs
      · exact .inr mem_cons_self
      · exact (ih results).imp_right (mem_cons_of_mem _)

variable {C : Compiler} {schema : NodeSchema} {row : Row Datum}

theorem within_column (hrow : RowOf schema row) (i : ℕ) :
    Within (admits ((schema.columns[i]?.map Column.ty).getD .unknown)) (row.getD i .null) := by
  rw [getD_eq_getElem?_getD]
  cases hdatum : row[i]? with
  | none => exact .inl rfl
  | some datum =>
    obtain ⟨hlt, rfl⟩ := List.getElem?_eq_some_iff.mp hdatum
    have hcolumn : i < schema.columns.length := hrow.length_eq ▸ hlt
    rw [getElem?_eq_getElem hcolumn]
    exact hrow.get hcolumn hlt

theorem within_identifier (hrow : RowOf schema row)
    (hf : identifierScalar schema.scalar name = .ok f) :
    Within (admits ((schema.columnType name).getD .unknown)) (f row) := by
  unfold identifierScalar at hf
  split at hf
  next i hindex =>
    cases hf
    rw [NodeSchema.columnType, NodeSchema.indexOf, hindex]
    exact within_column hrow i
  next => cases hf

theorem within_compound (hrow : RowOf schema row)
    (hf : compoundScalar schema.scalar parts = .ok f) :
    Within (admits (compoundType schema parts)) (f row) := by
  have hlast : ∀ {last f}, parts.getLast? = some last →
      identifierScalar schema.scalar last = .ok f →
      Within (admits ((parts.getLast?.bind schema.columnType).getD .unknown)) (f row) := by
    intro last f hlast hf
    rw [hlast]
    exact within_identifier hrow hf
  rcases parts with _ | ⟨relation, _ | ⟨column, _ | _⟩⟩
  · cases hf
  · exact hlast rfl hf
  · simp only [compoundScalar] at hf
    simp only [compoundType, NodeSchema.attributed]
    split at hf
    next i hindex =>
      cases hf
      have hcolumn := within_column hrow i
      rw [hindex, Option.bind_some]
      cases hty : schema.columns[i]?.map Column.ty with
      | some ty =>
        rw [hty] at hcolumn
        exact hcolumn
      | none =>
        -- a row is as long as its schema
        have hshort : row.length ≤ i := by
          rw [← hrow.length_eq]
          simpa using hty
        exact .inl (by simp [hshort])
    next hindex =>
      rw [hindex]
      exact hlast rfl hf
  · exact hlast rfl hf

mutual

/-- The analysis misses no kind. -/
theorem within_mayBe (hjson : ∀ a b, IsCompatible (C.base.jsonExtract a b true) .text)
    (hrow : RowOf schema row) : ∀ {e : Expr} {f : ScalarFn},
    compileInner C.primitives schema.scalar e = .ok f → Within (mayBe schema e) (f row)
  | .nested inner, f, hf => within_mayBe hjson hrow (e := inner) hf
  | .identifier name, f, hf => within_identifier hrow hf
  | .compoundIdentifier parts, f, hf => within_compound hrow hf
  | .value v, f, hf => by
    cases v with
    | null =>
      cases hf
      exact .inl rfl
    | quoted =>
      cases hf
      exact .of_kind _ rfl rfl
    | _ => exact .inr (.inr fun _ => rfl)
  | .binaryOp left op right, f, hf => by
    obtain ⟨l, -, hf⟩ := bind_ok hf
    obtain ⟨r, -, hf⟩ := bind_ok hf
    cases op with
    | stringConcat =>
      cases hf
      exact (isCompatible_concat _ _ _).within rfl
    | longArrow =>
      cases hf
      exact (hjson _ _).within rfl
    | _ => exact .inr (.inr fun _ => rfl)
  | .cast inner dataType, f, hf => by
    rw [compileInner] at hf
    cases htarget : ColumnType.fromCastTarget dataType with
    | none => simp [Compiler.primitives, htarget] at hf
    | some ty =>
      simp only [Compiler.primitives, htarget, Option.map_some] at hf
      obtain ⟨g, hg, ⟨⟩⟩ := bind_ok hf
      simpa [mayBe, htarget] using within_cast C.base C.casts ty (within_mayBe hjson hrow hg)
  | .case operand conditions results elseResult, f, hf => by
    obtain ⟨o, -, hf⟩ := bind_ok hf
    obtain ⟨cs, -, hf⟩ := bind_ok hf
    obtain ⟨rs, hrs, hf⟩ := bind_ok hf
    obtain ⟨fallback, hfallback, ⟨⟩⟩ := bind_ok hf
    beta_reduce
    rcases caseDatum_mem (caseHits C.primitives (o.map (· row))) (cs.map (· row))
      (rs.map (· row)) ((fallback.map (· row)).getD .null) with hcase | hcase
    · rw [hcase]
      exact (within_optionMayBe hjson hrow hfallback).imp fun kind hkind => by simp [mayBe, hkind]
    · obtain ⟨g, hg, hvalue⟩ := mem_map.mp hcase
      rw [← hvalue]
      exact (within_oneMayBe hjson hrow hrs g hg).imp fun kind hkind => by simp [mayBe, hkind]
  | .coalesce args, f, hf => by
    obtain ⟨fs, hfs, ⟨⟩⟩ := bind_ok hf
    rcases coalesceDatum_mem (fs.map (· row)) with hnull | hmem
    · exact .inl hnull
    · obtain ⟨g, hg, hvalue⟩ := mem_map.mp hmem
      beta_reduce
      rw [← hvalue]
      exact within_oneMayBe hjson hrow hfs g hg
  | .unaryOp .., _, _ | .isNull _, _, _ | .isNotNull _, _, _ | .isTrue _, _, _ | .isFalse _, _, _
  | .anyOp .., _, _ | .inList .., _, _ | .between .., _, _ | .like .., _, _
  | .isDistinctFrom .., _, _ | .isNotDistinctFrom .., _, _ | .array _, _, _
  | .cardinality _, _, _ | .other _, _, _ => .inr (.inr fun _ => rfl)

theorem within_oneMayBe (hjson : ∀ a b, IsCompatible (C.base.jsonExtract a b true) .text)
    (hrow : RowOf schema row) : ∀ {es : List Expr} {fs : List ScalarFn},
    compileList C.primitives schema.scalar es = .ok fs →
      ∀ f ∈ fs, Within (oneMayBe schema es) (f row)
  | [], fs, hfs => by
    cases hfs
    exact forall_mem_nil _
  | e :: rest, fs, hfs => by
    obtain ⟨f, hf, hfs⟩ := bind_ok hfs
    obtain ⟨tail, htail, ⟨⟩⟩ := bind_ok hfs
    refine forall_mem_cons.mpr ⟨?_, fun g hg => ?_⟩
    · exact (within_mayBe hjson hrow hf).imp fun kind hkind => by simp [oneMayBe, hkind]
    · exact (within_oneMayBe hjson hrow htail g hg).imp fun kind hkind => by
        simp [oneMayBe, hkind]

theorem within_optionMayBe (hjson : ∀ a b, IsCompatible (C.base.jsonExtract a b true) .text)
    (hrow : RowOf schema row) : ∀ {o : Option Expr} {g : Option ScalarFn},
    compileOption C.primitives schema.scalar o = .ok g →
      Within (optionMayBe schema o) ((g.map (· row)).getD .null)
  | none, g, hg => by
    cases hg
    exact .inl rfl
  | some e, g, hg => by
    obtain ⟨f, hf, ⟨⟩⟩ := bind_ok hg
    exact within_mayBe hjson hrow hf

end

end Kinds

theorem within_served (ty) {inner} (scalar : ScalarFn) (h : Within inner (scalar row)) :
    Within (servedKind inner ty) (coerced C ty scalar row) := by
  have hcast := within_cast C.base C.casts ty h
  cases ty with
  | text | unknown => exact h
  | _ => exact hcast

theorem Within.isCompatible (h : Within test datum)
    (hone : ∀ kind, test kind = true → kind = declared) : IsCompatible datum declared := by
  rcases h with hnull | ⟨kind, hkind, htest⟩ | hall
  · exact .inl hnull
  · exact .inr (hone kind htest ▸ hkind)
  · cases (hone .bool (hall .bool)).trans (hone .i16 (hall .i16)).symm

def reads (expr : Expr) : Compiler :=
  ⟨plainPrimitives, plainCasts, fun _ => .ok expr, Char.isAlphanum, fun _ => none⟩

def named : NodeSchema := ⟨[⟨"name", .text, none⟩]⟩

/-- `coalesce(name, CASE WHEN name IS NULL THEN 'none' END)`. -/
def nameOrNone : Expr :=
  .coalesce [.identifier "name", .case none [.isNull (.identifier "name")]
    [.value (.quoted .single "none")] none]

end Palimpsest.Postgres
