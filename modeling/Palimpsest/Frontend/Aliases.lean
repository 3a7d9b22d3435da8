import Palimpsest.Frontend.Syntax

/-! FROM aliases are replaced by the names of their tables before a query is lowered. -/
namespace Palimpsest.Frontend
open List

open Sql (Ident)

/-- Aliases of one FROM clause and the tables they stand for, the latest first. -/
abbrev Scope := List (String × String)

/-- Scopes stand innermost first. -/
def lookupAlias (scopes : List Scope) (aliasName : String) : Option String :=
  scopes.findSome? fun scope => scope.lookup aliasName

section Expressions
variable {κ : Type} (nested : List Scope → κ → κ) (scopes : List Scope)

def resolveParts : List Ident → List Ident
  | [relation, column] =>
    match lookupAlias scopes relation.value with
    | some canonical => [⟨canonical, false⟩, column]
    | none => [relation, column]
  | parts => parts

def resolveObjectName : ObjectName → ObjectName
  | [name] =>
    match lookupAlias scopes name.value with
    | some canonical => [⟨canonical, false⟩]
    | none => [name]
  | name => name

mutual

def resolveExpr : Expr κ → Expr κ
  | .compoundIdentifier parts => .compoundIdentifier (resolveParts scopes parts)
  | .nested inner => .nested (resolveExpr inner)
  | .unaryOp op inner => .unaryOp op (resolveExpr inner)
  | .isNull inner => .isNull (resolveExpr inner)
  | .isNotNull inner => .isNotNull (resolveExpr inner)
  | .isTrue inner => .isTrue (resolveExpr inner)
  | .isFalse inner => .isFalse (resolveExpr inner)
  | .cast inner dataType => .cast (resolveExpr inner) dataType
  | .binaryOp left op right => .binaryOp (resolveExpr left) op (resolveExpr right)
  | .isDistinctFrom left right => .isDistinctFrom (resolveExpr left) (resolveExpr right)
  | .isNotDistinctFrom left right => .isNotDistinctFrom (resolveExpr left) (resolveExpr right)
  | .anyOp left op right => .anyOp (resolveExpr left) op (resolveExpr right)
  | .like negated subject pattern escapeChar caseInsensitive =>
    .like negated (resolveExpr subject) (resolveExpr pattern) escapeChar caseInsensitive
  | .between needle negated low high =>
    .between (resolveExpr needle) negated (resolveExpr low) (resolveExpr high)
  | .inList needle list negated => .inList (resolveExpr needle) (resolveList list) negated
  | .inSubquery needle subquery negated =>
    .inSubquery (resolveExpr needle) (nested scopes subquery) negated
  | .exists subquery negated => .exists (nested scopes subquery) negated
  | .subquery query => .subquery (nested scopes query)
  | .case operand conditions results elseResult =>
    .case (resolveOption operand) (resolveList conditions) (resolveList results)
      (resolveOption elseResult)
  | .array elements => .array (resolveList elements)
  | .function name distinct args filter =>
    .function name distinct (resolveList args) (resolveOption filter)
  | .wildcard (some qualifier) =>
    .wildcard (some ((resolveObjectName scopes [qualifier]).headD qualifier))
  | e => e

def resolveList : List (Expr κ) → List (Expr κ)
  | [] => []
  | e :: rest => resolveExpr e :: resolveList rest

def resolveOption : Option (Expr κ) → Option (Expr κ)
  | none => none
  | some e => some (resolveExpr e)

end

def resolveConstraint : JoinConstraint κ → JoinConstraint κ
  | .on e => .on (resolveExpr nested scopes e)
  | constraint => constraint

def resolveOperator : JoinOperator κ → JoinOperator κ
  | .inner constraint => .inner (resolveConstraint nested scopes constraint)
  | .leftOuter constraint => .leftOuter (resolveConstraint nested scopes constraint)
  | .rightOuter constraint => .rightOuter (resolveConstraint nested scopes constraint)
  | .fullOuter constraint => .fullOuter (resolveConstraint nested scopes constraint)
  | operator => operator

def resolveSelectItem : SelectItem κ → SelectItem κ
  | .unnamedExpr e => .unnamedExpr (resolveExpr nested scopes e)
  | .exprWithAlias e aliasName => .exprWithAlias (resolveExpr nested scopes e) aliasName
  | .qualifiedWildcard name => .qualifiedWildcard (resolveObjectName scopes name)
  | .wildcard => .wildcard

def resolveGroupBy : GroupBy κ → GroupBy κ
  | .expressions exprs modifiers => .expressions (resolveList nested scopes exprs) modifiers
  | groupBy => groupBy

def resolveDistinct : Distinct κ → Distinct κ
  | .on exprs => .on (resolveList nested scopes exprs)
  | .distinct => .distinct

def resolveOrderBy (key : OrderByExpr κ) : OrderByExpr κ :=
  { key with expr := resolveExpr nested scopes key.expr }

end Expressions

section
variable {κ : Type} (nested : List Scope → κ → κ) (outer : List Scope)

/-- An alias of a table with a one-part name is recorded and dropped. A lateral subquery sees the
aliases recorded before it. -/
def bindTableFactor : TableFactor κ → Scope → TableFactor κ × Scope
  | .table [part] (some ⟨aliasName, []⟩), own =>
    (.table [part] none, (aliasName.value, part.value) :: own)
  | .derived true subquery tableAlias, own =>
    (.derived true (nested (own :: outer) subquery) tableAlias, own)
  | .derived false subquery tableAlias, own => (.derived false (nested [] subquery) tableAlias, own)
  | factor, own => (factor, own)

def bindJoins : List (Join κ) → Scope → List (Join κ) × Scope
  | [], own => ([], own)
  | join :: rest, own =>
    let (relation, own) := bindTableFactor nested outer join.relation own
    let (rest, own) := bindJoins rest own
    ({ join with relation := relation } :: rest, own)

def bindSources : List (TableWithJoins κ) → Scope → List (TableWithJoins κ) × Scope
  | [], own => ([], own)
  | source :: rest, own =>
    let (relation, own) := bindTableFactor nested outer source.relation own
    let (joins, own) := bindJoins nested outer source.joins own
    let (rest, own) := bindSources rest own
    (⟨relation, joins⟩ :: rest, own)

def resolveJoinConstraints (scopes : List Scope) (source : TableWithJoins κ) : TableWithJoins κ :=
  { source with
    joins := source.joins.map fun join =>
      { join with operator := resolveOperator nested scopes join.operator } }

def resolveSelect (select : Select κ) : Select κ × Scope :=
  let (sources, own) := bindSources nested outer select.sources []
  let scopes := own :: outer
  ({ distinct := select.distinct.map (resolveDistinct nested scopes)
     projection := select.projection.map (resolveSelectItem nested scopes)
     sources := sources.map (resolveJoinConstraints nested scopes)
     selection := select.selection.map (resolveExpr nested scopes)
     groupBy := resolveGroupBy nested scopes select.groupBy
     having := select.having.map (resolveExpr nested scopes)
     otherClause := select.otherClause }, own)

/-- With the scope of the FROM clause, where the body is a plain SELECT. -/
def resolveSetExpr : SetExpr κ → SetExpr κ × Option Scope
  | .select body =>
    let (body, own) := resolveSelect nested outer body
    (.select body, some own)
  | .query q => (.query (nested outer q), none)
  | .setOperation op quantifier left right =>
    (.setOperation op quantifier (resolveSetExpr left).1 (resolveSetExpr right).1, none)
  | .other feature => (.other feature, none)

def resolveCte (cte : Cte κ) : Cte κ := { cte with query := nested [] cte.query }

/-- CTE bodies see no aliases from outside. -/
def resolveQuery (query : Query κ) : Query κ :=
  let (body, own) := resolveSetExpr nested outer query.body
  let scopes := own.toList ++ outer
  { query with
    ctes := query.ctes.map fun clause => { clause with ctes := clause.ctes.map (resolveCte nested) }
    body := body
    orderBy := query.orderBy.map (map (resolveOrderBy nested scopes)) }

end

/-! Resolution touches neither the names in FROM nor the shape of a query. -/
section Unchanged
variable {κ : Type} {nested : List Scope → κ → κ} {relations : κ → List ObjectName}

variable (nested) (scopes : List Scope)

mutual

/-- Resolution acts alike on every part of an expression, and on the queries in it. -/
theorem resolveExpr_parts : ∀ e : Expr κ,
    (resolveExpr nested scopes e).subqueries = e.subqueries.map (nested scopes) ∧
      (resolveExpr nested scopes e).nodes = e.nodes.map (resolveExpr nested scopes)
  | .nested inner | .unaryOp _ inner | .isNull inner | .isNotNull inner | .isTrue inner
  | .isFalse inner | .cast inner _ | .inSubquery inner _ _ => by
    simp [resolveExpr, Expr.subqueries, Expr.nodes, resolveExpr_parts inner]
  | .binaryOp left _ right | .anyOp left _ right | .isDistinctFrom left right
  | .isNotDistinctFrom left right | .like _ left right _ _ => by
    simp [resolveExpr, Expr.subqueries, Expr.nodes, resolveExpr_parts left, resolveExpr_parts right]
  | .inList needle list _ => by
    simp [resolveExpr, Expr.subqueries, Expr.nodes, resolveExpr_parts needle,
      resolveList_parts list]
  | .between needle _ low high => by
    simp [resolveExpr, Expr.subqueries, Expr.nodes, resolveExpr_parts needle,
      resolveExpr_parts low, resolveExpr_parts high]
  | .case operand conditions results elseResult => by
    simp [resolveExpr, Expr.subqueries, Expr.nodes, resolveOption_parts operand,
      resolveList_parts conditions, resolveList_parts results, resolveOption_parts elseResult]
  | .array elems => by
    simp [resolveExpr, Expr.subqueries, Expr.nodes, resolveList_parts elems]
  | .function _ _ args filter => by
    simp [resolveExpr, Expr.subqueries, Expr.nodes, resolveList_parts args,
      resolveOption_parts filter]
  | .exists _ _ | .subquery _ => ⟨rfl, rfl⟩
  | .wildcard none | .wildcard (some _)
  | .identifier _ | .compoundIdentifier _ | .value _ | .other _ => ⟨rfl, rfl⟩

theorem resolveList_parts : ∀ es : List (Expr κ),
    subqueriesList (resolveList nested scopes es) = (subqueriesList es).map (nested scopes) ∧
      nodesList (resolveList nested scopes es) = (nodesList es).map (resolveExpr nested scopes)
  | [] => ⟨rfl, rfl⟩
  | e :: rest => by
    simp [resolveList, subqueriesList, nodesList, resolveExpr_parts e, resolveList_parts rest]

theorem resolveOption_parts : ∀ e : Option (Expr κ),
    subqueriesOption (resolveOption nested scopes e) = (subqueriesOption e).map (nested scopes) ∧
      nodesOption (resolveOption nested scopes e) = (nodesOption e).map (resolveExpr nested scopes)
  | none => ⟨rfl, rfl⟩
  | some e => resolveExpr_parts e

end

variable {nested}

theorem resolveList_eq_map (scopes es) :
    resolveList nested scopes es = es.map (resolveExpr nested scopes) := by
  induction es with
  | nil => rfl
  | cons e rest ih => rw [resolveList, ih, map_cons]

variable (hnest : ∀ scopes q, relations (nested scopes q) = relations q)
include hnest

theorem relations_map (scopes) (qs : List κ) :
    (qs.map (nested scopes)).flatMap relations = qs.flatMap relations := by
  rw [flatMap_map]
  exact flatMap_congr fun q _ => hnest scopes q

omit hnest in
theorem resolveOperator_subqueries (scopes : List Scope) (operator : JoinOperator κ) :
    (resolveOperator nested scopes operator).subqueries =
      operator.subqueries.map (nested scopes) := by
  have hcons (constraint : JoinConstraint κ) :
      (resolveConstraint nested scopes constraint).subqueries =
        constraint.subqueries.map (nested scopes) := by
    cases constraint with
    | on e => exact (resolveExpr_parts nested scopes e).1
    | «using» | natural | none => rfl
  cases operator with
  | inner constraint => exact hcons constraint
  | leftOuter constraint | rightOuter constraint | fullOuter constraint =>
    exact hcons constraint
  | crossJoin | other => rfl

variable (outer : List Scope)

theorem bindTableFactor_relations (factor : TableFactor κ) (own : Scope) :
    (bindTableFactor nested outer factor own).1.relations relations =
      factor.relations relations := by
  cases factor with
  | table =>
    unfold bindTableFactor
    split <;> simp_all [TableFactor.relations]
  | derived lateral subquery =>
    cases lateral with
    | false => exact hnest [] subquery
    | true => exact hnest (own :: outer) subquery
  | other => rfl

theorem bindJoins_relations (joins own) : ((bindJoins nested outer joins own).1.flatMap fun join =>
        join.relation.relations relations ++ join.operator.subqueries.flatMap relations) =
      joins.flatMap fun join =>
        join.relation.relations relations ++ join.operator.subqueries.flatMap relations := by
  induction joins generalizing own with
  | nil => rfl
  | cons join rest ih => simp [bindJoins, bindTableFactor_relations hnest, ih]

theorem bindSources_relations (sources own) :
    (bindSources nested outer sources own).1.flatMap (TableWithJoins.relations relations) =
      sources.flatMap (TableWithJoins.relations relations) := by
  induction sources generalizing own with
  | nil => rfl
  | cons src rest ih =>
    simp only [bindSources, flatMap_cons, TableWithJoins.relations,
      bindTableFactor_relations hnest, bindJoins_relations hnest]
    exact congrArg _ (ih _)

theorem resolveJoinConstraints_relations (scopes src) :
    (resolveJoinConstraints nested scopes src).relations relations = src.relations relations := by
  simp [TableWithJoins.relations, resolveJoinConstraints, flatMap_map, resolveOperator_subqueries,
    hnest]

theorem resolveSelect_relations (select) :
    (resolveSelect nested outer select).1.relations relations = select.relations relations := by
  generalize hown : (bindSources nested outer select.sources []).2 = own
  have hsrcs : ((bindSources nested outer select.sources []).1.map
      (resolveJoinConstraints nested (own :: outer))).flatMap (TableWithJoins.relations relations) =
      select.sources.flatMap (TableWithJoins.relations relations) := by
    rw [flatMap_map, ← bindSources_relations hnest outer select.sources []]
    exact flatMap_congr fun src _ => resolveJoinConstraints_relations hnest _ src
  have hitem (item : SelectItem κ) : (resolveSelectItem nested (own :: outer) item).subqueries =
      item.subqueries.map (nested (own :: outer)) := by
    cases item with
    | unnamedExpr e | exprWithAlias e => exact (resolveExpr_parts nested _ e).1
    | qualifiedWildcard | wildcard => rfl
  have hdist (d : Distinct κ) : (resolveDistinct nested (own :: outer) d).subqueries =
      d.subqueries.map (nested (own :: outer)) := by
    cases d with
    | distinct => rfl
    | on exprs => exact (resolveList_parts nested _ exprs).1
  have hgroup : (resolveGroupBy nested (own :: outer) select.groupBy).subqueries =
      select.groupBy.subqueries.map (nested (own :: outer)) := by
    cases select.groupBy with
    | expressions exprs => exact (resolveList_parts nested _ exprs).1
    | all => rfl
  have hopt (e : Option (Expr κ)) :
      ((e.map (resolveExpr nested (own :: outer))).toList.flatMap Expr.subqueries) =
        (e.toList.flatMap Expr.subqueries).map (nested (own :: outer)) := by
    cases e <;> simp [resolveExpr_parts]
  have hdistincts : (select.distinct.map (resolveDistinct nested (own :: outer))).toList.flatMap
      Distinct.subqueries =
        (select.distinct.toList.flatMap Distinct.subqueries).map (nested (own :: outer)) := by
    cases select.distinct <;> simp [hdist]
  have hits : (select.projection.map (resolveSelectItem nested (own :: outer))).flatMap
      SelectItem.subqueries =
        (select.projection.flatMap SelectItem.subqueries).map (nested (own :: outer)) := by
    rw [flatMap_map, map_flatMap]
    exact flatMap_congr fun item _ => hitem item
  simp only [resolveSelect, Select.relations, hown, hsrcs, hdistincts, hits, hopt, hgroup,
    ← map_append]
  rw [relations_map hnest]

theorem resolveSetExpr_relations (body) :
    (resolveSetExpr nested outer body).1.relations relations = body.relations relations := by
  induction body with
  | select body => exact resolveSelect_relations hnest outer body
  | query q => exact hnest outer q
  | setOperation op quant left right ihl ihr =>
    simp [resolveSetExpr, SetExpr.relations, ihl, ihr]
  | other => rfl

theorem resolveQuery_relations (query) :
    (resolveQuery nested outer query).relations relations = query.relations relations := by
  have hctes : (resolveQuery nested outer query).ctes.toList.flatMap With.ctes =
      (query.ctes.toList.flatMap With.ctes).map (resolveCte nested) := by
    rw [resolveQuery]
    cases query.ctes <;> simp
  have hkeys (scopes : List Scope) (keys : Option (List (OrderByExpr κ))) :
      ((keys.map (map (resolveOrderBy nested scopes))).toList.flatMap fun keys =>
        keys.flatMap fun key => key.expr.subqueries) =
      (keys.toList.flatMap fun keys => keys.flatMap fun key => key.expr.subqueries).map
        (nested scopes) := by
    cases keys <;> simp [flatMap_map, map_flatMap, resolveOrderBy, resolveExpr_parts]
  rw [Query.relations, hctes, flatMap_map, Query.relations]
  simp [resolveQuery, resolveSetExpr_relations hnest, hkeys, relations_map hnest, resolveCte,
    hnest]

end Unchanged

def resolveAt : (n : ℕ) → List Scope → Statement n → Statement n
  | 0, _, q => nomatch q
  | n + 1, outer, q => resolveQuery (resolveAt n) outer q

theorem resolveAt_relations (n : ℕ) (outer q) :
    Statement.relations n (resolveAt n outer q) = Statement.relations n q := by
  induction n generalizing outer with
  | zero => exact nomatch q
  | succ n ih => exact resolveQuery_relations ih outer q

def resolveFromAliases {n : ℕ} (q : Statement n) : Statement n := resolveAt n [] q

end Palimpsest.Frontend
