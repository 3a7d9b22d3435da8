import Palimpsest.Dataflow.RulePredicate
import Palimpsest.Permissions.Representation

/-! What the evaluator sees of a list in a rule predicate: which values are in it, and nothing of
their order and number. -/
namespace Palimpsest.Dataflow
open Permissions Fallible List

/-- The value without what stands inside an array. -/
def Datum.blank : Datum → Datum
  | .array _ => .array []
  | d => d

theorem Datum.blank_cases (d : Datum) : d.blank = d ∨ ∃ items, d = .array items := by
  cases d <;> simp [blank]

@[simp] theorem Datum.blank_blank (d : Datum) : d.blank.blank = d.blank := by
  cases d <;> rfl

@[simp] theorem Datum.isNull_blank (d : Datum) : d.blank.isNull = d.isNull := by
  cases d <;> rfl

@[simp] theorem Datum.isTrue_blank (d : Datum) : d.blank.isTrue = d.isTrue := by
  cases d <;> rfl

@[simp] theorem Datum.isFalse_blank (d : Datum) : d.blank.isFalse = d.isFalse := by
  cases d <;> rfl

/-- Casts, text rendering and json paths do not look into arrays. -/
structure Primitives.ArraysOpaque (P : Primitives) : Prop where
  cast : P.castTarget dataType = some castTo →
    ∀ d, (castTo d.blank).blank = (castTo d).blank
  display : ∀ d, P.displayText d.blank = P.displayText d
  extract : ∀ a b asText, P.jsonExtract a.blank b.blank asText = P.jsonExtract a b asText

section Operators
variable {P : Primitives}

theorem datumEq_array_left (items) (d : Datum) : datumEq P (.array items) d = false := by
  cases d <;> rfl

theorem datumOrdering_array_left (items) (d : Datum) : datumOrdering P (.array items) d = none := by
  cases d <;> rfl

theorem datumOrdering_array_right (items) (d : Datum) :
    datumOrdering P d (.array items) = none := by
  cases d <;> rfl

@[simp] theorem datumEq_blank (a b : Datum) : datumEq P a.blank b.blank = datumEq P a b := by
  rcases a.blank_cases with ha | ⟨items, rfl⟩
  · rcases b.blank_cases with hb | ⟨items, rfl⟩
    · rw [ha, hb]
    · rw [datumEq_comm, datumEq_comm P a, Datum.blank, datumEq_array_left, datumEq_array_left]
  · rw [Datum.blank, datumEq_array_left, datumEq_array_left]

@[simp] theorem datumOrdering_blank (a b : Datum) :
    datumOrdering P a.blank b.blank = datumOrdering P a b := by
  rcases a.blank_cases with ha | ⟨items, rfl⟩
  · rcases b.blank_cases with hb | ⟨items, rfl⟩
    · rw [ha, hb]
    · rw [Datum.blank, datumOrdering_array_right, datumOrdering_array_right]
  · rw [Datum.blank, datumOrdering_array_left, datumOrdering_array_left]

@[simp] theorem datumCmpBool_blank (a b : Datum) (pick) :
    datumCmpBool P a.blank b.blank pick = datumCmpBool P a b pick := by
  simp [datumCmpBool]

@[simp] theorem compareDatums_blank (op) (a b : Datum) :
    compareDatums P op a.blank b.blank = compareDatums P op a b := by
  simp [compareDatums]

@[simp] theorem asI64_blank (d : Datum) : asI64 d.blank = asI64 d := by
  cases d <;> rfl

@[simp] theorem asF64_blank (d : Datum) : asF64 P d.blank = asF64 P d := by
  cases d <;> rfl

theorem binaryDatum_blank (hP : P.ArraysOpaque) (op) (a b : Datum) :
    binaryDatum P op a.blank b.blank = binaryDatum P op a b := by
  cases op <;> simp [binaryDatum, arithmeticDatums, concatDatums, hP.display, hP.extract]

theorem unaryDatum_blank (op) (d : Datum) :
    (unaryDatum P op d.blank).blank = (unaryDatum P op d).blank := by
  cases op with
  | not | minus => cases d <;> rfl
  | plus | other => exact d.blank_blank

theorem likeDatum_blank (negated caseInsensitive escape) (a b : Datum) :
    likeDatum P negated caseInsensitive escape a.blank b.blank =
      likeDatum P negated caseInsensitive escape a b := by
  rcases a.blank_cases with ha | ⟨items, rfl⟩
  · rcases b.blank_cases with hb | ⟨items, rfl⟩
    · rw [ha, hb]
    · rw [ha]
      cases a <;> rfl
  · rfl

theorem inListDatum_blank (negated) (value : Datum) (candidates) :
    inListDatum P negated value.blank (candidates.map Datum.blank) =
      inListDatum P negated value candidates := by
  simp [inListDatum, any_map, takeWhile_map, Function.comp_def]

theorem betweenDatum_blank (negated) (value low high : Datum) :
    betweenDatum P negated value.blank low.blank high.blank =
      betweenDatum P negated value low high := by
  simp [betweenDatum]

end Operators

/-- The functions have the same values on every row, but for what is inside arrays. -/
def SameBlank (f g : ScalarFn) : Prop := ∀ row, (f row).blank = (g row).blank

def blanks (fs : List ScalarFn) (row : List Datum) : List Datum := fs.map fun f => (f row).blank

/-- The functions have the same values on every row, in whatever order and number. -/
def SameMembers (fs gs : List ScalarFn) : Prop := ∀ row, blanks fs row ⊆ blanks gs row ∧
  blanks gs row ⊆ blanks fs row

theorem blanks_eq (fs row) : blanks fs row = (fs.map (· row)).map Datum.blank := by
  rw [blanks, map_map]
  rfl

theorem blanks_of_forall₂ (h : List.Forall₂ SameBlank fs gs) (row) :
    blanks fs row = blanks gs row := by
  induction h with
  | nil => rfl
  | cons hfg _ ih => exact congrArg₂ cons (hfg row) ih

theorem anyDatum_blank (hfg : (left : Datum).blank = left'.blank) (h : SameMembers fs gs) (op row) :
    anyDatum P op left (fs.map (· row)) = anyDatum P op left' (gs.map (· row)) := by
  have hany : ∀ (left : Datum) fs,
      ((fs.map (· row)).any fun d => compareDatums P op left d = some true) =
        (blanks fs row).any fun d => compareDatums P op left.blank d = some true := by
    intro left fs
    simp [blanks, any_map, Function.comp_def]
  have hmem : ∀ d, d ∈ blanks fs row ↔ d ∈ blanks gs row := fun d => ⟨@(h row).1 d, @(h row).2 d⟩
  rw [anyDatum, anyDatum, hany, hany, hfg]
  congr 1
  rw [Bool.eq_iff_iff, any_eq_true, any_eq_true]
  simp only [hmem]

section Literals

mutual

/-- What the parser makes of a value's literal, arrays included. -/
def literalExpr : UserValue → Expr
  | .list items => .array (literalExprs items)
  | v => scalarExpr (literalTree v)

def literalExprs : List UserValue → List Expr
  | [] => []
  | item :: items => literalExpr item :: literalExprs items

end

theorem mem_literalExprs : e ∈ literalExprs items ↔ ∃ item ∈ items, literalExpr item = e := by
  induction items with
  | nil => simp [literalExprs]
  | cons item items ih => simp [literalExprs, ih, eq_comm]

def scalarTree (tag body : String) : Sql.Scalar :=
  if tag = "null" then .atom .null
  else if tag = "bool" then .atom (.boolean (body = "true"))
  else if tag = "int" ∨ tag = "float" then signedOperand body.toList
  else .atom (.string .single body)

theorem literalTree_eq_scalarTree {v : UserValue} (h : v.tag ≠ "list") :
    literalTree v = scalarTree v.tag v.body := by
  cases v with
  | list => exact absurd rfl h
  | bool b => cases b <;> rfl
  | _ => simp [literalTree, scalarTree, UserValue.tag, UserValue.body, UserValue.toSqlLiteral]

theorem literalExpr_of_tag {v : UserValue} (h : v.tag ≠ "list") :
    literalExpr v = scalarExpr (scalarTree v.tag v.body) := by
  rw [← literalTree_eq_scalarTree h]
  cases v with
  | list => exact absurd rfl h
  | _ => rfl

variable {P : Primitives} {schema : ScalarSchema}

theorem compileList_eq_mapM (es) : compileList P schema es = es.mapM (compileInner P schema) := by
  induction es with
  | nil => rfl
  | cons e es ih =>
    rw [compileList, mapM_cons, ih]
    rfl

/-- Expressions that all have a partner among those that compile do so, too, and have no values
besides theirs. -/
theorem blanks_of_partners (h : ∀ e' ∈ es', ∃ e ∈ es,
      Related SameBlank (compileInner P schema e) (compileInner P schema e'))
    (hes : compileList P schema es = .ok fs) :
    ∃ gs, compileList P schema es' = .ok gs ∧ ∀ row, blanks gs row ⊆ blanks fs row := by
  rw [compileList_eq_mapM] at hes ⊢
  have hall : ∀ e' ∈ es', ∃ g, compileInner P schema e' = .ok g := by
    intro e' he'
    obtain ⟨e, he, hrelated⟩ := h e' he'
    obtain ⟨f, hf⟩ := ok_of_mapM hes he
    rw [hf] at hrelated
    obtain ⟨g, hg, -⟩ := hrelated.of_ok
    exact ⟨g, hg⟩
  obtain ⟨gs, hgs⟩ := mapM_ok_iff.mpr hall
  refine ⟨gs, hgs, fun row d hd => ?_⟩
  obtain ⟨g, hg, rfl⟩ := mem_map.mp hd
  obtain ⟨e', he', hcompiled⟩ := (mem_mapM hgs).mp hg
  obtain ⟨e, he, hrelated⟩ := h e' he'
  obtain ⟨f, hf⟩ := ok_of_mapM hes he
  rw [hf, hcompiled] at hrelated
  exact mem_map.mpr ⟨f, (mem_mapM hes).mpr ⟨e, he, hf⟩, hrelated row⟩

theorem compileList_sameMembers (hforth : ∀ e ∈ es, ∃ e' ∈ es',
      Related SameBlank (compileInner P schema e') (compileInner P schema e))
    (hback : ∀ e' ∈ es', ∃ e ∈ es,
      Related SameBlank (compileInner P schema e) (compileInner P schema e')) :
    Related SameMembers (compileList P schema es) (compileList P schema es') := by
  cases hes : compileList P schema es with
  | ok fs =>
    obtain ⟨gs, hgs, hsub⟩ := blanks_of_partners hback hes
    obtain ⟨fs', hfs', hsub'⟩ := blanks_of_partners hforth hgs
    cases hes.symm.trans hfs'
    rw [hgs]
    exact fun row => ⟨hsub' row, hsub row⟩
  | error =>
    cases hes' : compileList P schema es' with
    | error => trivial
    | ok gs =>
      obtain ⟨fs, hfs, -⟩ := blanks_of_partners hforth hes'
      cases hes.symm.trans hfs

theorem partners (items items' : List UserValue)
    (h : UserValue.listReprs items = UserValue.listReprs items')
    (hitem : ∀ item ∈ items, ∀ item', item.canonicalRepr = item'.canonicalRepr →
      Related SameBlank (compileInner P schema (literalExpr item))
        (compileInner P schema (literalExpr item'))) :
    Related SameMembers (compileList P schema (literalExprs items))
      (compileList P schema (literalExprs items')) := by
  refine compileList_sameMembers (fun e he => ?_) fun e' he' => ?_
  · obtain ⟨item, hmem, rfl⟩ := mem_literalExprs.mp he
    obtain ⟨item', hmem', hrepr⟩ := UserValue.mem_listReprs.mp
      (h ▸ UserValue.mem_listReprs.mpr ⟨item, hmem, rfl⟩)
    exact ⟨literalExpr item', mem_literalExprs.mpr ⟨item', hmem', rfl⟩,
      (hitem item hmem item' hrepr.symm).symm fun f g hfg row => (hfg row).symm⟩
  · obtain ⟨item', hmem', rfl⟩ := mem_literalExprs.mp he'
    obtain ⟨item, hmem, hrepr⟩ := UserValue.mem_listReprs.mp
      (h ▸ UserValue.mem_listReprs.mpr ⟨item', hmem', rfl⟩)
    exact ⟨literalExpr item, mem_literalExprs.mpr ⟨item, hmem, rfl⟩, hitem item hmem item' hrepr⟩

theorem sameBlank_refl (f : ScalarFn) : SameBlank f f := fun _ => rfl

mutual

theorem literalExpr_related (v w : UserValue) (h : v.canonicalRepr = w.canonicalRepr) :
    Related SameBlank (compileInner P schema (literalExpr v))
      (compileInner P schema (literalExpr w)) := by
  obtain ⟨htag, hbody⟩ := UserValue.tag_body_of_repr h
  cases v with
  | list items =>
    cases w with
    | list items' =>
      exact (partners items items' (UserValue.listReprs_of_body hbody)
        (literalExprs_related items)).bind fun _ _ _ _ => rfl
    | _ => exact absurd htag (by simp [UserValue.tag])
  | _ =>
    have hlist : w.tag ≠ "list" := htag ▸ by simp [UserValue.tag]
    rw [literalExpr_of_tag hlist, literalExpr_of_tag (htag ▸ hlist), htag, hbody]
    exact .refl sameBlank_refl _

theorem literalExprs_related (items : List UserValue) : ∀ item ∈ items, ∀ item',
    item.canonicalRepr = item'.canonicalRepr →
      Related SameBlank (compileInner P schema (literalExpr item))
        (compileInner P schema (literalExpr item')) := by
  cases items with
  | nil => exact forall_mem_nil _
  | cons item items =>
    exact forall_mem_cons.mpr ⟨literalExpr_related item, literalExprs_related items⟩

end

theorem sameMembers_of_blanks (h : ∀ row, blanks fs row = blanks gs row) : SameMembers fs gs :=
  fun row => h row ▸ ⟨.refl _, .refl _⟩

theorem literalElements_related (v w : UserValue) (h : v.canonicalRepr = w.canonicalRepr) :
    Related SameMembers (compileElements P schema (literalExpr v))
      (compileElements P schema (literalExpr w)) := by
  obtain ⟨htag, hbody⟩ := UserValue.tag_body_of_repr h
  cases v with
  | list items =>
    cases w with
    | list items' =>
      exact partners items items' (UserValue.listReprs_of_body hbody) (literalExprs_related items)
    | _ => exact absurd htag (by simp [UserValue.tag])
  | _ =>
    have hlist : w.tag ≠ "list" := htag ▸ by simp [UserValue.tag]
    rw [literalExpr_of_tag hlist, literalExpr_of_tag (htag ▸ hlist), htag, hbody]
    exact .refl (fun _ => sameMembers_of_blanks fun _ => rfl) _

end Literals

section Templates

def sentinelField (name : String) : Option String :=
  match nameItems name with
  | [.ref field] => some (String.ofList field)
  | _ => none

def fillName (context : UserContext) (name : String) : Expr :=
  (((sentinelField name).bind context.get).map literalExpr).getD (.identifier name)

mutual

/-- The expression with literals in the place of its sentinels. None is filled in below `CASE`,
`DISTINCT`, `coalesce` and `cardinality`: the loader takes such a word for the name of a column and
refuses the rule. -/
def fillExpr (context : UserContext) : Expr → Expr
  | .identifier name => fillName context name
  | .nested inner => .nested (fillExpr context inner)
  | .binaryOp left op right => .binaryOp (fillExpr context left) op (fillExpr context right)
  | .unaryOp op inner => .unaryOp op (fillExpr context inner)
  | .isNull inner => .isNull (fillExpr context inner)
  | .isNotNull inner => .isNotNull (fillExpr context inner)
  | .isTrue inner => .isTrue (fillExpr context inner)
  | .isFalse inner => .isFalse (fillExpr context inner)
  | .anyOp left op right => .anyOp (fillExpr context left) op (fillExpr context right)
  | .cast inner dataType => .cast (fillExpr context inner) dataType
  | .inList needle list negated =>
    .inList (fillExpr context needle) (fillExprs context list) negated
  | .between needle negated low high =>
    .between (fillExpr context needle) negated (fillExpr context low) (fillExpr context high)
  | .like negated subject pattern escapeChar caseInsensitive =>
    .like negated (fillExpr context subject) (fillExpr context pattern) escapeChar caseInsensitive
  | .array elements => .array (fillExprs context elements)
  | e => e

def fillExprs (context : UserContext) : List Expr → List Expr
  | [] => []
  | e :: es => fillExpr context e :: fillExprs context es

end

variable {P : Primitives} {schema : ScalarSchema} {c c' : UserContext}

/-- A name is filled in for both users with values of one representation, or for neither. -/
theorem fillName_cases (hc : c.SameReprs c') (name : String) :
    (∃ v w, fillName c name = literalExpr v ∧ fillName c' name = literalExpr w ∧
      v.canonicalRepr = w.canonicalRepr) ∨
    fillName c name = .identifier name ∧ fillName c' name = .identifier name := by
  unfold fillName
  cases sentinelField name with
  | none => exact .inr ⟨rfl, rfl⟩
  | some field =>
    have hfield := hc field
    rw [Option.bind_some, Option.bind_some]
    cases hv : c.get field with
    | none =>
      rw [hv, Option.map_none, eq_comm, Option.map_eq_none_iff] at hfield
      exact .inr ⟨rfl, by rw [hfield]; rfl⟩
    | some v =>
      rw [hv, Option.map_some, eq_comm, Option.map_eq_some_iff] at hfield
      obtain ⟨w, hw, hrepr⟩ := hfield
      exact .inl ⟨v, w, rfl, by rw [hw]; rfl, hrepr.symm⟩

mutual

/-- Filled in for the one user or the other, the expression has the same values. -/
theorem fillExpr_related (hP : P.ArraysOpaque) (hc : c.SameReprs c') : ∀ e : Expr,
    Related SameBlank (compileInner P schema (fillExpr c e)) (compileInner P schema (fillExpr c' e))
  | .identifier name => by
    rw [fillExpr, fillExpr]
    rcases fillName_cases hc name with ⟨v, w, hv, hw, hrepr⟩ | ⟨hc, hc'⟩
    · rw [hv, hw]
      exact literalExpr_related v w hrepr
    · rw [hc, hc']
      exact .refl sameBlank_refl _
  | .nested inner => fillExpr_related hP hc inner
  | .compoundIdentifier _ | .value _ | .isDistinctFrom .. | .isNotDistinctFrom .. | .case ..
  | .coalesce _ | .cardinality _ | .other _ => .refl sameBlank_refl _
  | .binaryOp left op right => by
    refine (fillExpr_related hP hc left).bind fun f f' hf =>
      (fillExpr_related hP hc right).bind fun g g' hg => ?_
    cases op.unsupported? with
    | some => trivial
    | none =>
      intro row
      beta_reduce
      rw [← binaryDatum_blank hP, hf row, hg row, binaryDatum_blank hP]
  | .unaryOp op inner => by
    refine (fillExpr_related hP hc inner).bind fun f f' hf => ?_
    cases op.unsupported? with
    | some => trivial
    | none =>
      intro row
      beta_reduce
      rw [← unaryDatum_blank, hf row, unaryDatum_blank]
  | .isNull inner | .isNotNull inner =>
    (fillExpr_related hP hc inner).bind fun f f' hf row => by
      beta_reduce
      rw [← Datum.isNull_blank, hf row, Datum.isNull_blank]
  | .isTrue inner => (fillExpr_related hP hc inner).bind fun f f' hf row => by
    beta_reduce
    rw [← Datum.isTrue_blank, hf row, Datum.isTrue_blank]
  | .isFalse inner => (fillExpr_related hP hc inner).bind fun f f' hf row => by
    beta_reduce
    rw [← Datum.isFalse_blank, hf row, Datum.isFalse_blank]
  | .anyOp left op right => by
    refine (fillExpr_related hP hc left).bind fun f f' hf =>
      (fillElements_related hP hc right).bind fun fs fs' hfs => ?_
    split_ifs
    · exact fun row => congrArg Datum.blank (anyDatum_blank (hf row) hfs op row)
    · trivial
  | .cast inner dataType => by
    rw [fillExpr, fillExpr, compileInner, compileInner]
    cases hcast : P.castTarget dataType with
    | none => trivial
    | some castDatum =>
      refine (fillExpr_related hP hc inner).bind fun f f' hf row => ?_
      beta_reduce
      rw [← hP.cast hcast, hf row, hP.cast hcast]
  | .inList needle list negated => by
    refine (fillExpr_related hP hc needle).bind fun f f' hf =>
      (fillExprs_related hP hc list).bind fun fs fs' hfs row => ?_
    beta_reduce
    rw [← inListDatum_blank, hf row, ← blanks_eq, blanks_of_forall₂ hfs, blanks_eq,
      inListDatum_blank]
  | .between needle negated low high => by
    refine (fillExpr_related hP hc needle).bind fun f f' hf => (fillExpr_related hP hc low).bind
      fun g g' hg => (fillExpr_related hP hc high).bind fun k k' hk row => ?_
    beta_reduce
    rw [← betweenDatum_blank, hf row, hg row, hk row, betweenDatum_blank]
  | .like negated subject pattern escapeChar caseInsensitive => by
    refine (fillExpr_related hP hc subject).bind fun f f' hf =>
      (fillExpr_related hP hc pattern).bind fun g g' hg => ?_
    cases escapeOf escapeChar with
    | error => trivial
    | ok escape =>
      intro row
      beta_reduce
      rw [← likeDatum_blank, hf row, hg row, likeDatum_blank]
  | .array elements => (fillExprs_related hP hc elements).bind fun _ _ _ _ => rfl

theorem fillElements_related (hP : P.ArraysOpaque) (hc : c.SameReprs c') : ∀ e : Expr,
    Related SameMembers (compileElements P schema (fillExpr c e))
      (compileElements P schema (fillExpr c' e))
  | .identifier name => by
    rw [fillExpr, fillExpr]
    rcases fillName_cases hc name with ⟨v, w, hv, hw, hrepr⟩ | ⟨hc, hc'⟩
    · rw [hv, hw]
      exact literalElements_related v w hrepr
    · rw [hc, hc']
      trivial
  | .array elements => (fillExprs_related hP hc elements).imp fun _ _ h =>
    sameMembers_of_blanks (blanks_of_forall₂ h)
  | .value v => .refl (fun _ => sameMembers_of_blanks fun _ => rfl) _
  | .nested _ | .compoundIdentifier _ | .cardinality _ | .other _ | .binaryOp .. | .unaryOp ..
  | .isNull _ | .isNotNull _ | .isTrue _ | .isFalse _ | .anyOp .. | .cast .. | .inList ..
  | .between .. | .like .. | .isDistinctFrom .. | .isNotDistinctFrom .. | .case ..
  | .coalesce _ => trivial

theorem fillExprs_related (hP : P.ArraysOpaque) (hc : c.SameReprs c') : ∀ es : List Expr,
    Related (List.Forall₂ SameBlank) (compileList P schema (fillExprs c es))
      (compileList P schema (fillExprs c' es))
  | [] => .nil
  | e :: es => (fillExpr_related hP hc e).bind fun _ _ hf => (fillExprs_related hP hc es).bind
    fun _ _ hfs => .cons hf hfs

end

end Templates

end Palimpsest.Dataflow
