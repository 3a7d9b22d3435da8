import Palimpsest.Frontend.Syntax
import Palimpsest.Sql.Catalog

/-! The features a subscription's query may use. -/
namespace Palimpsest.Frontend

open Dataflow (SqlValue BinaryOperator UnaryOperator QuoteStyle)

inductive SqlError where
  | unsupportedFeature (feature : String)
  | unsupportedFunction (name : String)
  | invalidQuery (message : String)
deriving Repr, DecidableEq

def userPlaceholderPrefix : List Char := "__palimpsest_user_".toList

def userPlaceholderSuffix : List Char := "__".toList

def isUserPlaceholder (ident : String) : Bool :=
  decide (userPlaceholderPrefix.length + userPlaceholderSuffix.length < ident.toList.length) &&
    userPlaceholderPrefix.isPrefixOf ident.toList && userPlaceholderSuffix.isSuffixOf ident.toList

def aggregateNames : List String := ["count", "sum", "min", "max", "avg"]

def isComparison : BinaryOperator → Bool
  | .eq | .notEq | .lt | .ltEq | .gt | .gtEq => true
  | _ => false

structure Checks (κ : Type) where
  relations : κ → List ObjectName
  visit : κ → Except SqlError Unit
  validate : κ → Except SqlError Unit
  validateRecursive : String → κ → Except SqlError Unit

section Expressions
variable {κ : Type}

def isColumn : Expr κ → Bool
  | .identifier _ | .compoundIdentifier _ => true
  | _ => false

def isEquiJoinPredicate : Expr κ → Bool
  | .value (.boolean true) => true
  | .binaryOp left .eq right => isColumn left && isColumn right
  | .binaryOp left .and right => isEquiJoinPredicate left && isEquiJoinPredicate right
  | _ => false

/-- The right sides `ANY` ranges over. -/
def isArrayLike : Expr κ → Bool
  | .array _ | .value (.quoted .single _) => true
  | .identifier name => isUserPlaceholder name.value
  | _ => false

variable (checks : Checks κ)

/-- One node of an expression; its parts are visited on their own. -/
def preVisitExpr : Expr κ → Except SqlError Unit
  | .function name _ _ _ =>
    if (aggregateNames ++ ["coalesce", "cardinality"]).contains (lowercase name) then .ok ()
    else .error (.unsupportedFunction (lowercase name))
  | .exists subquery _ => do
    checks.validate subquery
    checks.visit subquery
  | .inSubquery _ _ _ | .subquery _ =>
    .error (.unsupportedFeature "scalar subqueries with unbounded result")
  | .value (.other _) => .error (.unsupportedFeature "unsupported literal form")
  | .binaryOp _ (.other _) _ => .error (.unsupportedFeature "unsupported binary operator")
  | .unaryOp (.other _) _ => .error (.unsupportedFeature "unsupported unary operator")
  | .anyOp _ op right =>
    if isComparison op && isArrayLike right then .ok ()
    else
      match right with
      | .subquery _ => .error (.unsupportedFeature "ANY over subqueries with unbounded result")
      | _ => .error (.unsupportedFeature "ANY over non-array expressions")
  | .cast _ dataType =>
    if (Sql.ColumnType.fromCastTarget dataType).isSome then .ok ()
    else .error (.unsupportedFeature "unsupported cast target")
  | .other _ => .error (.unsupportedFeature "unsupported scalar expression")
  | _ => .ok ()

def visitExpr (e : Expr κ) : Except SqlError Unit := e.nodes.forM (preVisitExpr checks)

def visitTableFactor : TableFactor κ → Except SqlError Unit
  | .derived _ subquery _ => checks.visit subquery
  | .table _ _ | .other => .ok ()

def visitJoin (join : Join κ) : Except SqlError Unit := do
  visitTableFactor checks join.relation
  match join.operator with
  | .inner (.on e) | .leftOuter (.on e) | .rightOuter (.on e) | .fullOuter (.on e) =>
    visitExpr checks e
  | _ => .ok ()

def visitTableWithJoins (source : TableWithJoins κ) : Except SqlError Unit := do
  visitTableFactor checks source.relation
  source.joins.forM (visitJoin checks)

def SelectItem.exprs : SelectItem κ → List (Expr κ)
  | .unnamedExpr e | .exprWithAlias e _ => [e]
  | .qualifiedWildcard _ | .wildcard => []

def Distinct.exprs : Distinct κ → List (Expr κ)
  | .distinct => []
  | .on exprs => exprs

def GroupBy.exprs : GroupBy κ → List (Expr κ)
  | .expressions exprs _ => exprs
  | .all _ => []

def visitSelect (select : Select κ) : Except SqlError Unit := do
  (select.distinct.toList.flatMap Distinct.exprs ++ select.projection.flatMap SelectItem.exprs).forM
    (visitExpr checks)
  select.sources.forM (visitTableWithJoins checks)
  (select.selection.toList ++ select.groupBy.exprs ++ select.having.toList).forM (visitExpr checks)

def visitSetExpr : SetExpr κ → Except SqlError Unit
  | .select body => visitSelect checks body
  | .query q => checks.visit q
  | .setOperation _ _ left right => do
    visitSetExpr left
    visitSetExpr right
  | .other _ => .ok ()

def visitQuery (query : Query κ) : Except SqlError Unit := do
  (query.ctes.toList.flatMap With.ctes).forM fun cte => checks.visit cte.query
  visitSetExpr checks query.body
  ((query.orderBy.toList.flatMap fun keys => keys.map OrderByExpr.expr) ++ query.limit.toList ++
    query.offset.toList ++ (query.fetch.bind Fetch.quantity).toList).forM (visitExpr checks)

end Expressions

section
variable {κ : Type} (checks : Checks κ)

def validateJoinConstraint : JoinConstraint κ → Except SqlError Unit
  | .on e => if isEquiJoinPredicate e then .ok () else .error (.unsupportedFeature "theta joins")
  | .using | .natural | .none => .ok ()

def validateTableFactor : TableFactor κ → Except SqlError Unit
  | .table _ _ => .ok ()
  | .derived _ subquery _ => checks.validate subquery
  | .other => .error (.unsupportedFeature "table functions or special table factors")

def validateJoin (join : Join κ) : Except SqlError Unit := do
  match join.operator with
  | .rightOuter _ => .error (.unsupportedFeature "RIGHT JOIN")
  | .fullOuter _ => .error (.unsupportedFeature "FULL JOIN")
  | .inner constraint | .leftOuter constraint => validateJoinConstraint constraint
  | .crossJoin => .ok ()
  | .other => .error (.unsupportedFeature "non-standard joins")
  validateTableFactor checks join.relation

def validateTableWithJoins (source : TableWithJoins κ) : Except SqlError Unit := do
  validateTableFactor checks source.relation
  source.joins.forM (validateJoin checks)

def validateSetExpr : SetExpr κ → Except SqlError Unit
  | .select body => body.sources.forM (validateTableWithJoins checks)
  | .query q => checks.validate q
  | .setOperation _ _ left right => do
    validateSetExpr left
    validateSetExpr right
  | .other feature => .error (.unsupportedFeature feature)

/-- Base term and recursive term, with one self-reference, in the recursive term. -/
def validateRecursiveCte (name : String) (query : Query κ) : Except SqlError Unit :=
  match query.body with
  | .setOperation .union _ left right =>
    if 0 < countNamed (left.relations checks.relations) name then
      .error (.invalidQuery ("recursive CTE " ++ name ++
        " must not reference itself in the base (non-recursive) term"))
    else
      match countNamed (right.relations checks.relations) name with
      | 1 => .ok ()
      | 0 => .error (.invalidQuery ("recursive CTE " ++ name ++
          " must reference itself in the recursive term"))
      | _ => .error (.invalidQuery ("recursive CTE " ++ name ++
          " may reference itself only once (non-linear recursion)"))
  | _ => .error (.invalidQuery ("recursive CTE " ++ name ++
      " must have the form 'base term UNION [ALL] recursive term'"))

def isSelfReferential (isRecursive : Bool) (cte : Cte κ) (relations : κ → List ObjectName) : Bool :=
  isRecursive && decide (0 < countNamed (relations cte.query) cte.tableAlias.name.value)

def validateCte (isRecursive : Bool) (cte : Cte κ) : Except SqlError Unit := do
  if isSelfReferential isRecursive cte checks.relations then
    checks.validateRecursive cte.tableAlias.name.value cte.query
  checks.validate cte.query

def validateTopQuery (query : Query κ) : Except SqlError Unit := do
  query.ctes.toList.forM fun clause => clause.ctes.forM (validateCte checks clause.isRecursive)
  visitQuery checks query
  validateSetExpr checks query.body

end

def checksAt : (n : ℕ) → Checks (Statement n)
  | 0 =>
    { relations := Empty.elim
      visit := Empty.elim
      validate := Empty.elim
      validateRecursive := fun _ => Empty.elim }
  | n + 1 =>
    { relations := fun q => Statement.relations (n + 1) q
      visit := visitQuery (checksAt n)
      validate := validateTopQuery (checksAt n)
      validateRecursive := validateRecursiveCte (checksAt n) }

def validateQuery {n : ℕ} (q : Statement n) : Except SqlError Unit := (checksAt n).validate q

end Palimpsest.Frontend
