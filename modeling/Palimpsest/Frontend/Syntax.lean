import Palimpsest.Dataflow.Evaluator
import Palimpsest.Sql.Canonical

/-! Statements as the parser returns them. Everything that may hold a nested query is parameterised
by the type of nested queries, so that a statement is a tower of bounded height. -/
namespace Palimpsest.Frontend

open Sql (Ident)
open Dataflow (SqlValue BinaryOperator UnaryOperator QuoteStyle)

abbrev ObjectName := List Ident

def ObjectName.display (name : ObjectName) : String := ".".intercalate (name.map Ident.display)

def lowercase (s : String) : String := String.ofList (s.toList.map Char.toLower)

/-- What SQL compares of an identifier: unquoted ones are folded to lower case. -/
def foldIdent (i : Ident) : String := if i.quoted then i.value else lowercase i.value

/-- Scalar expressions over nested queries of type `κ`. A `wildcard` only stands as the argument of
a function. -/
inductive Expr (κ : Type) where
  | identifier (name : Ident)
  | compoundIdentifier (parts : List Ident)
  | value (v : SqlValue)
  | nested (inner : Expr κ)
  | binaryOp (left : Expr κ) (op : BinaryOperator) (right : Expr κ)
  | unaryOp (op : UnaryOperator) (inner : Expr κ)
  | isNull (inner : Expr κ)
  | isNotNull (inner : Expr κ)
  | isTrue (inner : Expr κ)
  | isFalse (inner : Expr κ)
  | anyOp (left : Expr κ) (compareOp : BinaryOperator) (right : Expr κ)
  | cast (inner : Expr κ) (dataType : String)
  | inList (needle : Expr κ) (list : List (Expr κ)) (negated : Bool)
  | between (needle : Expr κ) (negated : Bool) (low high : Expr κ)
  | like (negated : Bool) (subject pattern : Expr κ) (escapeChar : Option String)
      (caseInsensitive : Bool)
  | isDistinctFrom (left right : Expr κ)
  | isNotDistinctFrom (left right : Expr κ)
  | case (operand : Option (Expr κ)) (conditions results : List (Expr κ))
      (elseResult : Option (Expr κ))
  | array (elements : List (Expr κ))
  | function (name : String) (distinct : Bool) (args : List (Expr κ)) (filter : Option (Expr κ))
  | wildcard (qualifier : Option Ident)
  | exists (subquery : κ) (negated : Bool)
  | inSubquery (needle : Expr κ) (subquery : κ) (negated : Bool)
  | subquery (query : κ)
  | other (text : String)

structure TableAlias where
  name : Ident
  columns : List Ident
deriving DecidableEq

inductive TableFactor (κ : Type) where
  | table (name : ObjectName) (tableAlias : Option TableAlias)
  | derived (lateral : Bool) (subquery : κ) (tableAlias : Option TableAlias)
  | other

inductive JoinConstraint (κ : Type) where
  | on (predicate : Expr κ)
  | using
  | natural
  | none

inductive JoinOperator (κ : Type) where
  | inner (constraint : JoinConstraint κ)
  | leftOuter (constraint : JoinConstraint κ)
  | rightOuter (constraint : JoinConstraint κ)
  | fullOuter (constraint : JoinConstraint κ)
  | crossJoin
  | other

structure Join (κ : Type) where
  relation : TableFactor κ
  operator : JoinOperator κ

structure TableWithJoins (κ : Type) where
  relation : TableFactor κ
  joins : List (Join κ)

inductive SelectItem (κ : Type) where
  | unnamedExpr (expr : Expr κ)
  | exprWithAlias (expr : Expr κ) (aliasName : Ident)
  | qualifiedWildcard (name : ObjectName)
  | wildcard

inductive Distinct (κ : Type) where
  | distinct
  | on (exprs : List (Expr κ))

inductive GroupBy (κ : Type) where
  | expressions (exprs : List (Expr κ)) (modifiers : Bool)
  | all (modifiers : Bool)

/-- `otherClause` names a clause that is present and has no place in the query graph. -/
structure Select (κ : Type) where
  distinct : Option (Distinct κ)
  projection : List (SelectItem κ)
  sources : List (TableWithJoins κ)
  selection : Option (Expr κ)
  groupBy : GroupBy κ
  having : Option (Expr κ)
  otherClause : Option String

inductive SetOperator where
  | union
  | except
  | intersect
deriving DecidableEq

inductive SetQuantifier where
  | all
  | distinct
  | none
  | byName
  | allByName
  | distinctByName
deriving DecidableEq

inductive SetExpr (κ : Type) where
  | select (body : Select κ)
  | query (query : κ)
  | setOperation (op : SetOperator) (quantifier : SetQuantifier) (left right : SetExpr κ)
  | other (feature : String)

structure Cte (κ : Type) where
  tableAlias : TableAlias
  query : κ

structure With (κ : Type) where
  isRecursive : Bool
  ctes : List (Cte κ)

structure OrderByExpr (κ : Type) where
  expr : Expr κ
  asc : Option Bool
  nullsFirst : Option Bool

/-- `FETCH FIRST`; without a quantity it asks for one row. -/
structure Fetch (κ : Type) where
  quantity : Option (Expr κ)
  percent : Bool
  withTies : Bool

structure Query (κ : Type) where
  ctes : Option (With κ)
  body : SetExpr κ
  orderBy : Option (List (OrderByExpr κ))
  limit : Option (Expr κ)
  offset : Option (Expr κ)
  fetch : Option (Fetch κ)

section
variable {κ : Type}

def Expr.column (name : String) : Expr κ := .identifier ⟨name, false⟩

def Expr.qualified (relation name : String) : Expr κ :=
  .compoundIdentifier [⟨relation, false⟩, ⟨name, false⟩]

def TableFactor.named (name : String) : TableFactor κ := .table [⟨name, false⟩] none

def TableFactor.aliased (name tableAlias : String) : TableFactor κ :=
  .table [⟨name, false⟩] (some ⟨⟨tableAlias, false⟩, []⟩)

def Select.plain (exprs : List (Expr κ)) (source : TableWithJoins κ) : Select κ where
  distinct := none
  projection := exprs.map .unnamedExpr
  sources := [source]
  selection := none
  groupBy := .expressions [] false
  having := none
  otherClause := none

def Query.plain (body : SetExpr κ) : Query κ := ⟨none, body, none, none, none, none⟩

def Query.ofSelect (select : Select κ) : Query κ := .plain (.select select)

end

/-- Queries nested less than `n` levels deep. -/
def Statement : ℕ → Type
  | 0 => Empty
  | n + 1 => Query (Statement n)

section Printing
variable {κ : Type}

def operatorText : BinaryOperator → String
  | .eq => "="
  | .notEq => "<>"
  | .lt => "<"
  | .ltEq => "<="
  | .gt => ">"
  | .gtEq => ">="
  | .and => "AND"
  | .or => "OR"
  | .plus => "+"
  | .minus => "-"
  | .multiply => "*"
  | .divide => "/"
  | .modulo => "%"
  | .stringConcat => "||"
  | .arrow => "->"
  | .longArrow => "->>"
  | .other debug => debug

def valueText : SqlValue → String
  | .boolean b => toString b
  | .number n => n
  | .quoted .single s => "'" ++ s.replace "'" "''" ++ "'"
  | .quoted .double s => "\"" ++ s.replace "\"" "\"\"" ++ "\""
  | .quoted .escaped s => "E'" ++ s ++ "'"
  | .quoted .unicode s => "U&'" ++ s ++ "'"
  | .quoted .national s => "N'" ++ s ++ "'"
  | .null => "NULL"
  | .other debug => debug

def notText (negated : Bool) : String := if negated then "NOT " else ""

mutual

/-- The text the parser's library prints for an expression; `query` prints a nested one. -/
def Expr.display (query : κ → String) : Expr κ → String
  | .identifier name => name.display
  | .compoundIdentifier parts => ObjectName.display parts
  | .value v => valueText v
  | .nested inner => "(" ++ inner.display query ++ ")"
  | .binaryOp left op right =>
    left.display query ++ " " ++ operatorText op ++ " " ++ right.display query
  | .unaryOp .not inner => "NOT " ++ inner.display query
  | .unaryOp .minus inner => "-" ++ inner.display query
  | .unaryOp .plus inner => "+" ++ inner.display query
  | .unaryOp (.other debug) inner => debug ++ inner.display query
  | .isNull inner => inner.display query ++ " IS NULL"
  | .isNotNull inner => inner.display query ++ " IS NOT NULL"
  | .isTrue inner => inner.display query ++ " IS TRUE"
  | .isFalse inner => inner.display query ++ " IS FALSE"
  | .anyOp left op right =>
    left.display query ++ " " ++ operatorText op ++ " ANY(" ++ right.display query ++ ")"
  | .cast inner dataType => "CAST(" ++ inner.display query ++ " AS " ++ dataType ++ ")"
  | .inList needle list negated =>
    needle.display query ++ " " ++ notText negated ++ "IN (" ++
      ", ".intercalate (displayList query list) ++ ")"
  | .between needle negated low high =>
    needle.display query ++ " " ++ notText negated ++ "BETWEEN " ++ low.display query ++ " AND " ++
      high.display query
  | .like negated subject pattern escapeChar caseInsensitive =>
    subject.display query ++ " " ++ notText negated ++
      (if caseInsensitive then "ILIKE " else "LIKE ") ++ pattern.display query ++
      match escapeChar with
      | some c => " ESCAPE '" ++ c ++ "'"
      | none => ""
  | .isDistinctFrom left right => left.display query ++ " IS DISTINCT FROM " ++ right.display query
  | .isNotDistinctFrom left right =>
    left.display query ++ " IS NOT DISTINCT FROM " ++ right.display query
  | .case operand conditions results elseResult =>
    "CASE" ++ displayOption query " " operand ++
      String.join (((displayList query conditions).zip (displayList query results)).map
        fun branch => " WHEN " ++ branch.1 ++ " THEN " ++ branch.2) ++
      displayOption query " ELSE " elseResult ++ " END"
  | .array elements => "ARRAY[" ++ ", ".intercalate (displayList query elements) ++ "]"
  | .function name distinct args filter =>
    name ++ "(" ++ (if distinct then "DISTINCT " else "") ++
      ", ".intercalate (displayList query args) ++ ")" ++
      match filter with
      | some condition => " FILTER (WHERE " ++ condition.display query ++ ")"
      | none => ""
  | .wildcard qualifier =>
    match qualifier with
    | some name => name.display ++ ".*"
    | none => "*"
  | .exists subquery negated => notText negated ++ "EXISTS (" ++ query subquery ++ ")"
  | .inSubquery needle subquery negated =>
    needle.display query ++ " " ++ notText negated ++ "IN (" ++ query subquery ++ ")"
  | .subquery nested => "(" ++ query nested ++ ")"
  | .other text => text

def displayList (query : κ → String) : List (Expr κ) → List String
  | [] => []
  | e :: rest => e.display query :: displayList query rest

def displayOption (query : κ → String) (before : String) : Option (Expr κ) → String
  | none => ""
  | some e => before ++ e.display query

end

end Printing

section Traversal
variable {κ : Type}

mutual

def Expr.subqueries : Expr κ → List κ
  | .nested inner | .unaryOp _ inner | .isNull inner | .isNotNull inner | .isTrue inner
  | .isFalse inner | .cast inner _ => inner.subqueries
  | .binaryOp left _ right | .anyOp left _ right | .isDistinctFrom left right
  | .isNotDistinctFrom left right | .like _ left right _ _ => left.subqueries ++ right.subqueries
  | .inList needle list _ => needle.subqueries ++ subqueriesList list
  | .between needle _ low high => needle.subqueries ++ low.subqueries ++ high.subqueries
  | .case operand conditions results elseResult =>
    subqueriesOption operand ++ subqueriesList conditions ++ subqueriesList results ++
      subqueriesOption elseResult
  | .array elements => subqueriesList elements
  | .function _ _ args filter => subqueriesList args ++ subqueriesOption filter
  | .exists subquery _ => [subquery]
  | .inSubquery needle subquery _ => needle.subqueries ++ [subquery]
  | .subquery query => [query]
  | .identifier _ | .compoundIdentifier _ | .value _ | .wildcard _ | .other _ => []

def subqueriesList : List (Expr κ) → List κ
  | [] => []
  | e :: rest => e.subqueries ++ subqueriesList rest

def subqueriesOption : Option (Expr κ) → List κ
  | none => []
  | some e => e.subqueries

end

mutual

def containsExists : Expr κ → Bool
  | .nested inner | .unaryOp _ inner | .isNull inner | .isNotNull inner | .isTrue inner
  | .isFalse inner | .cast inner _ => containsExists inner
  | .binaryOp left _ right | .anyOp left _ right | .isDistinctFrom left right
  | .isNotDistinctFrom left right | .like _ left right _ _ =>
    containsExists left || containsExists right
  | .inList needle list _ => containsExists needle || containsExistsList list
  | .between needle _ low high => containsExists needle || containsExists low || containsExists high
  | .case operand conditions results elseResult =>
    containsExistsOption operand || containsExistsList conditions || containsExistsList results ||
      containsExistsOption elseResult
  | .array elements => containsExistsList elements
  | .function _ _ args filter => containsExistsList args || containsExistsOption filter
  | .exists _ _ => true
  | .inSubquery needle _ _ => containsExists needle
  | .subquery _ | .identifier _ | .compoundIdentifier _ | .value _ | .wildcard _ | .other _ => false

def containsExistsList : List (Expr κ) → Bool
  | [] => false
  | e :: rest => containsExists e || containsExistsList rest

def containsExistsOption : Option (Expr κ) → Bool
  | none => false
  | some e => containsExists e

end

mutual

/-- The expression and all its parts, outermost first; nested queries are not entered. -/
def Expr.nodes : Expr κ → List (Expr κ)
  | .nested inner => .nested inner :: inner.nodes
  | .unaryOp op inner => .unaryOp op inner :: inner.nodes
  | .isNull inner => .isNull inner :: inner.nodes
  | .isNotNull inner => .isNotNull inner :: inner.nodes
  | .isTrue inner => .isTrue inner :: inner.nodes
  | .isFalse inner => .isFalse inner :: inner.nodes
  | .cast inner dataType => .cast inner dataType :: inner.nodes
  | .binaryOp left op right => .binaryOp left op right :: (left.nodes ++ right.nodes)
  | .anyOp left op right => .anyOp left op right :: (left.nodes ++ right.nodes)
  | .isDistinctFrom left right => .isDistinctFrom left right :: (left.nodes ++ right.nodes)
  | .isNotDistinctFrom left right => .isNotDistinctFrom left right :: (left.nodes ++ right.nodes)
  | .like negated left right escapeChar caseInsensitive =>
    .like negated left right escapeChar caseInsensitive :: (left.nodes ++ right.nodes)
  | .inList needle list negated => .inList needle list negated :: (needle.nodes ++ nodesList list)
  | .between needle negated low high =>
    .between needle negated low high :: (needle.nodes ++ low.nodes ++ high.nodes)
  | .case operand conditions results elseResult =>
    .case operand conditions results elseResult :: (nodesOption operand ++ nodesList conditions ++
      nodesList results ++ nodesOption elseResult)
  | .array elements => .array elements :: nodesList elements
  | .function name distinct args filter =>
    .function name distinct args filter :: (nodesList args ++ nodesOption filter)
  | .inSubquery needle subquery negated => .inSubquery needle subquery negated :: needle.nodes
  | e => [e]

def nodesList : List (Expr κ) → List (Expr κ)
  | [] => []
  | e :: rest => e.nodes ++ nodesList rest

def nodesOption : Option (Expr κ) → List (Expr κ)
  | none => []
  | some e => e.nodes

end

def JoinConstraint.subqueries : JoinConstraint κ → List κ
  | .on e => e.subqueries
  | .using | .natural | .none => []

def JoinOperator.subqueries : JoinOperator κ → List κ
  | .inner constraint | .leftOuter constraint | .rightOuter constraint | .fullOuter constraint =>
    constraint.subqueries
  | .crossJoin | .other => []

def SelectItem.subqueries : SelectItem κ → List κ
  | .unnamedExpr e | .exprWithAlias e _ => e.subqueries
  | .qualifiedWildcard _ | .wildcard => []

def Distinct.subqueries : Distinct κ → List κ
  | .distinct => []
  | .on exprs => subqueriesList exprs

def GroupBy.subqueries : GroupBy κ → List κ
  | .expressions exprs _ => subqueriesList exprs
  | .all _ => []

/-- The tables a FROM item names, where `nested` finds those of a nested query. -/
def TableFactor.relations (nested : κ → List ObjectName) : TableFactor κ → List ObjectName
  | .table name _ => [name]
  | .derived _ subquery _ => nested subquery
  | .other => []

def TableWithJoins.relations (nested : κ → List ObjectName) (t : TableWithJoins κ) :
    List ObjectName :=
  t.relation.relations nested ++ t.joins.flatMap fun join =>
    join.relation.relations nested ++ join.operator.subqueries.flatMap nested

def Select.relations (nested : κ → List ObjectName) (s : Select κ) : List ObjectName :=
  s.sources.flatMap (TableWithJoins.relations nested) ++
    ((s.distinct.toList.flatMap Distinct.subqueries ++ s.projection.flatMap SelectItem.subqueries ++
      s.selection.toList.flatMap Expr.subqueries ++ s.groupBy.subqueries ++
      s.having.toList.flatMap Expr.subqueries).flatMap nested)

def SetExpr.relations (nested : κ → List ObjectName) : SetExpr κ → List ObjectName
  | .select body => body.relations nested
  | .query q => nested q
  | .setOperation _ _ left right => left.relations nested ++ right.relations nested
  | .other _ => []

def Query.relations (nested : κ → List ObjectName) (q : Query κ) : List ObjectName :=
  ((q.ctes.toList.flatMap With.ctes).flatMap fun cte => nested cte.query) ++
    q.body.relations nested ++
    ((q.orderBy.toList.flatMap fun keys => keys.flatMap fun key => key.expr.subqueries) ++
      q.limit.toList.flatMap Expr.subqueries ++ q.offset.toList.flatMap Expr.subqueries).flatMap
        nested

end Traversal

/-- Every table name in FROM position, at any depth. -/
def Statement.relations : (n : ℕ) → Statement n → List ObjectName
  | 0, q => nomatch q
  | n + 1, q => Query.relations (Statement.relations n) q

def countNamed (names : List ObjectName) (name : String) : ℕ :=
  names.countP fun relation => relation.getLast?.any fun part => part.value == name

end Palimpsest.Frontend
