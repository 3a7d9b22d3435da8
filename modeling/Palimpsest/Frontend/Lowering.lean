import Palimpsest.Frontend.Validation
import Palimpsest.Frontend.Aliases
import Palimpsest.Sql.MirTree

/-! Lowering of a statement to its query graph. -/
namespace Palimpsest.Frontend

open Sql
open Dataflow (SqlValue BinaryOperator UnaryOperator QuoteStyle)

section
variable (isAlphanumeric : Char → Bool)

def aliasedName (entry : List Char) : Option (List Char) :=
  match TextSearch.cutLast " AS ".toList entry with
  | some (expr, name) =>
    if Text.isIdent isAlphanumeric name && Text.trim expr != [] then some name else none
  | none => none

def qualifiedName (entry : List Char) : Option (List Char) :=
  match TextSearch.cut ['.'] entry with
  | some (relation, bare) =>
    if Text.isIdent isAlphanumeric relation && Text.isIdent isAlphanumeric bare then some bare
    else none
  | none => none

/-- The output name of a projection entry, where its text alone gives it. -/
def visibleName (entry : String) : Option String :=
  match aliasedName isAlphanumeric entry.toList with
  | some name => some (String.ofList name)
  | none =>
    if Text.isIdent isAlphanumeric entry.toList then some entry
    else (qualifiedName isAlphanumeric entry.toList).map String.ofList

end

section
variable {κ : Type} (text : κ → String)

def canonicalValue : SqlValue → String
  | .number n => String.ofList (canonicalNumber n.toList)
  | .quoted .double s => valueText (.quoted .double s)
  | .quoted _ s => "'" ++ s.replace "'" "''" ++ "'"
  | v => valueText v

def unaryText : UnaryOperator → String
  | .not => "NOT"
  | .minus => "-"
  | .plus => "+"
  | .other debug => debug

/-- Parentheses are dropped, except around `IS DISTINCT FROM`. -/
def canonicalExpr : Expr κ → String
  | .value v => canonicalValue v
  | .unaryOp op inner => unaryText op ++ " " ++ canonicalExpr inner
  | .nested inner => canonicalExpr inner
  | .binaryOp left op right =>
    canonicalExpr left ++ " " ++ operatorText op ++ " " ++ canonicalExpr right
  | .isDistinctFrom left right =>
    "(" ++ canonicalExpr left ++ " IS DISTINCT FROM " ++ canonicalExpr right ++ ")"
  | .isNotDistinctFrom left right =>
    "(" ++ canonicalExpr left ++ " IS NOT DISTINCT FROM " ++ canonicalExpr right ++ ")"
  | e => e.display text

def operandSortKey : Expr κ → String
  | .identifier name => "0:" ++ (Expr.identifier name : Expr κ).display text
  | .compoundIdentifier parts => "0:" ++ (Expr.compoundIdentifier parts : Expr κ).display text
  | e => "1:" ++ canonicalExpr text e

/-- The sides of an equality stand in the order of their sort keys. -/
def canonicalConjunct : Expr κ → String
  | .binaryOp left .eq right =>
    let l := (operandSortKey text left, canonicalExpr text left)
    let r := (operandSortKey text right, canonicalExpr text right)
    if ((compare l.1 r.1).then (compare l.2 r.2)).isLE then l.2 ++ " = " ++ r.2
    else r.2 ++ " = " ++ l.2
  | e => canonicalExpr text e

def flattenAnd : Expr κ → List String
  | .binaryOp left .and right => flattenAnd left ++ flattenAnd right
  | e => [canonicalConjunct text e]

def canonicalPredicate : Expr κ → String
  | .binaryOp left .and right =>
    " AND ".intercalate ((flattenAnd text left ++ flattenAnd text right).insertionSort (· ≤ ·))
  | e => canonicalConjunct text e

end

section Columns
variable {κ : Type}

def columnRef : Expr κ → Except SqlError ColumnRef
  | .identifier name => .ok ⟨none, name.value⟩
  | .compoundIdentifier [relation, name] => .ok ⟨some relation.value, name.value⟩
  | .compoundIdentifier _ =>
    .error (.unsupportedFeature "multi-part column references beyond relation.column")
  | _ => .error (.unsupportedFeature "non-column join keys")

def columnRefExpr (column : ColumnRef) : Expr κ :=
  match column.relation with
  | none => .identifier ⟨column.name, false⟩
  | some relation => .compoundIdentifier [⟨relation, false⟩, ⟨column.name, false⟩]

def equiJoinColumns : Expr κ → Except SqlError (List (ColumnRef × ColumnRef))
  | .binaryOp left .eq right => do
    let l ← columnRef left
    let r ← columnRef right
    .ok [(l, r)]
  | .binaryOp left .and right => do
    let l ← equiJoinColumns left
    let r ← equiJoinColumns right
    .ok (l ++ r)
  | _ => .error (.unsupportedFeature "theta joins")

/-- `ON TRUE` has no keys; a lateral source brings its own. -/
def joinPredicateColumns (predicate : Expr κ) (lateral : Bool) :
    Except SqlError (List (ColumnRef × ColumnRef)) :=
  match lateral, predicate with
  | true, .value (.boolean true) => .ok []
  | _, _ => equiJoinColumns predicate

def conjoin : List (Expr κ) → Option (Expr κ)
  | [] => none
  | e :: rest => some (rest.foldl (fun left right => .binaryOp left .and right) e)

structure ExistsTerm (κ : Type) where
  subquery : κ
  negated : Bool
deriving DecidableEq

def collectExists : Expr κ → List (ExistsTerm κ) × List (Expr κ)
  | .binaryOp left .and right =>
    let l := collectExists left
    let r := collectExists right
    (l.1 ++ r.1, l.2 ++ r.2)
  | .exists subquery negated => ([⟨subquery, negated⟩], [])
  | .nested (.exists subquery negated) => ([⟨subquery, negated⟩], [])
  | .unaryOp .not (.exists subquery negated) => ([⟨subquery, !negated⟩], [])
  | .unaryOp .not (.nested (.exists subquery negated)) => ([⟨subquery, !negated⟩], [])
  | e => ([], [e])

/-- The EXISTS tests among the conjuncts of a WHERE clause, and what is left of it. -/
def splitExistsTerms (selection : Expr κ) : List (ExistsTerm κ) × Option (Expr κ) :=
  let (terms, rest) := collectExists selection
  (terms, conjoin rest)

def TableFactor.referenceName : TableFactor κ → Option String
  | .table name none => some ((name.getLast?.map Ident.value).getD (ObjectName.display name))
  | .table _ (some tableAlias) => some tableAlias.name.value
  | .derived _ _ tableAlias => tableAlias.map fun a => a.name.value
  | .other => none

def relationNames (select : Select κ) : List String :=
  select.sources.flatMap fun source =>
    source.relation.referenceName.toList ++
      source.joins.flatMap fun join => join.relation.referenceName.toList

/-- An unqualified name counts as one of the inner query. -/
def isInner (innerNames : List String) (column : ColumnRef) : Bool :=
  match column.relation with
  | none => true
  | some relation => innerNames.contains relation

/-- An equality between an outer and an inner column, in that order. -/
def correlatedPair (innerNames : List String) (left right : Expr κ) :
    Option (ColumnRef × ColumnRef) :=
  match columnRef left, columnRef right with
  | .ok l, .ok r =>
    match isInner innerNames l, isInner innerNames r with
    | false, true => some (l, r)
    | true, false => some (r, l)
    | _, _ => none
  | _, _ => none

def collectCorrelated (innerNames : List String) :
    Expr κ → List (ColumnRef × ColumnRef) × List (Expr κ)
  | .binaryOp left .and right =>
    let l := collectCorrelated innerNames left
    let r := collectCorrelated innerNames right
    (l.1 ++ r.1, l.2 ++ r.2)
  | .binaryOp left .eq right =>
    match correlatedPair innerNames left right with
    | some pair => ([pair], [])
    | none => ([], [.binaryOp left .eq right])
  | e => ([], [e])

def splitCorrelatedPredicates (selection : Option (Expr κ)) (innerNames : List String) :
    List (ColumnRef × ColumnRef) × Option (Expr κ) :=
  match selection with
  | none => ([], none)
  | some e =>
    let (pairs, rest) := collectCorrelated innerNames e
    (pairs, conjoin rest)

end Columns

section Aggregates
variable {κ : Type} (text : κ → String)

/-- The aggregate a function call is, if it is one. A `FILTER` clause is not looked at. -/
def aggregateExpr (name : String) (distinct : Bool) (args : List (Expr κ))
    (aliasName : Option String) : Option AggExpr :=
  if aggregateNames.contains (lowercase name) then
    some ⟨lowercase name, (if distinct then ["DISTINCT"] else []) ++ displayList text args,
      aliasName⟩
  else none

/-- Only a select item that is an aggregate call itself counts. -/
def aggregateExprs (projection : List (SelectItem κ)) : List AggExpr :=
  projection.filterMap fun item =>
    match item with
    | .unnamedExpr (.function name distinct args _) => aggregateExpr text name distinct args none
    | .exprWithAlias (.function name distinct args _) aliasName =>
      aggregateExpr text name distinct args (some aliasName.value)
    | _ => none

/-- The aggregates of a query with the number of those that HAVING has added. -/
structure HavingState where
  aggs : List AggExpr
  hidden : ℕ
deriving DecidableEq

/-- Replaces an aggregate by the name of its output column. -/
def rewriteAggregate (agg : AggExpr) (state : HavingState) : String × HavingState :=
  let existing := state.aggs.find? fun candidate =>
    candidate.function == agg.function && candidate.args == agg.args && candidate.aliasName.isSome
  match existing.bind AggExpr.aliasName with
  | some name => (name, state)
  | none =>
    let name := "__having_" ++ toString (state.hidden + 1)
    (name, ⟨state.aggs ++ [{ agg with aliasName := some name }], state.hidden + 1⟩)

mutual

def rewriteHaving : Expr κ → HavingState → Expr κ × HavingState
  | .function name distinct args filter, state =>
    match aggregateExpr text name distinct args none with
    | none => (.function name distinct args filter, state)
    | some agg =>
      let (column, state) := rewriteAggregate agg state
      (.identifier ⟨column, false⟩, state)
  | .binaryOp left op right, state =>
    let (l, state) := rewriteHaving left state
    let (r, state) := rewriteHaving right state
    (.binaryOp l op r, state)
  | .unaryOp op inner, state =>
    let (e, state) := rewriteHaving inner state
    (.unaryOp op e, state)
  | .nested inner, state =>
    let (e, state) := rewriteHaving inner state
    (.nested e, state)
  | .isNull inner, state =>
    let (e, state) := rewriteHaving inner state
    (.isNull e, state)
  | .isNotNull inner, state =>
    let (e, state) := rewriteHaving inner state
    (.isNotNull e, state)
  | .isTrue inner, state =>
    let (e, state) := rewriteHaving inner state
    (.isTrue e, state)
  | .isFalse inner, state =>
    let (e, state) := rewriteHaving inner state
    (.isFalse e, state)
  | .between needle negated low high, state =>
    let (e, state) := rewriteHaving needle state
    let (l, state) := rewriteHaving low state
    let (h, state) := rewriteHaving high state
    (.between e negated l h, state)
  | .inList needle list negated, state =>
    let (e, state) := rewriteHaving needle state
    let (es, state) := rewriteHavingList list state
    (.inList e es negated, state)
  | e, state => (e, state)

def rewriteHavingList : List (Expr κ) → HavingState → List (Expr κ) × HavingState
  | [], state => ([], state)
  | e :: rest, state =>
    let (e, state) := rewriteHaving e state
    let (rest, state) := rewriteHavingList rest state
    (e :: rest, state)

end

def rewriteHavingAggregates (having : Expr κ) (aggs : List AggExpr) : Expr κ × List AggExpr :=
  let (e, state) := rewriteHaving text having ⟨aggs, 0⟩
  (e, state.aggs)

def groupByColumns : GroupBy κ → Except SqlError (List ColumnRef)
  | .expressions exprs false => exprs.mapM columnRef
  | .expressions _ true => .error (.unsupportedFeature "GROUP BY modifiers")
  | .all _ => .error (.unsupportedFeature "GROUP BY ALL")

def hasGroupByModifiers : GroupBy κ → Bool
  | .expressions _ modifiers => modifiers
  | .all modifiers => modifiers

def selectItemName : SelectItem κ → String
  | .unnamedExpr e => e.display text
  | .exprWithAlias e aliasName => e.display text ++ " AS " ++ aliasName.display
  | .qualifiedWildcard name => ObjectName.display name ++ ".*"
  | .wildcard => "*"

end Aggregates

section
variable {κ : Type}

def usizeMax : ℕ := 2 ^ 64 - 1

def parseUsize (s : List Char) : Option ℕ :=
  if s = [] ∨ s.any (fun c => !c.isDigit) then none
  else
    let n := s.foldl (fun n c => 10 * n + (c.toNat - 48)) 0
    if n ≤ usizeMax then some n else none

def literalUsize : Expr κ → Except SqlError ℕ
  | .value (.number n) =>
    match parseUsize n.toList with
    | some n => .ok n
    | none => .error (.unsupportedFeature "non-integer LIMIT/OFFSET")
  | _ => .error (.unsupportedFeature "non-literal LIMIT/OFFSET")

/-- The order keys that the projection does not provide, each once. -/
def missingKeys (columns : List String) (provided : List (Option String))
    (orderBy : List OrderKey) :
    List String :=
  orderBy.foldl (fun missing key =>
    if columns.contains key.expression || provided.contains (some key.expression) ||
        missing.contains key.expression then missing
    else missing ++ [key.expression]) []

/-- Adds missing order keys to the columns of a projection. The second component are the names to
project afterwards. -/
def extendColumns (isAlphanumeric : Char → Bool) (columns : List String) (orderBy : List OrderKey) :
    Option (List String × List String) :=
  let provided := columns.map (visibleName isAlphanumeric)
  match missingKeys columns provided orderBy with
  | [] => none
  | missing => (provided.mapM id).map fun visible => (columns ++ missing, visible)

def extendProjectionWithOrderKeys (isAlphanumeric : Char → Bool) (tree : MirTree)
    (orderBy : List OrderKey) : MirTree × Option (List String) :=
  match tree with
  | .unary (.project columns) input =>
    match extendColumns isAlphanumeric columns orderBy with
    | some (columns, visible) => (.unary (.project columns) input, some visible)
    | none => (tree, none)
  | .unary (.distinctOn on keys) (.unary (.project columns) input) =>
    match extendColumns isAlphanumeric columns orderBy with
    | some (columns, visible) =>
      (.unary (.distinctOn on keys) (.unary (.project columns) input), some visible)
    | none => (tree, none)
  | _ => (tree, none)

/-- The leading order keys must be among the `DISTINCT ON` expressions; then they tell which row of
a group stays. -/
def rankDistinctOn (tree : MirTree) (orderBy : List OrderKey) : Except SqlError MirTree :=
  match tree with
  | .unary (.distinctOn on _) input =>
    if (orderBy.take on.length).all fun key => on.contains key.expression then
      .ok (.unary (.distinctOn on orderBy) input)
    else .error (.invalidQuery
      "SELECT DISTINCT ON expressions must match initial ORDER BY expressions")
  | tree => .ok tree

def orderKeys (text : κ → String) (keys : List (OrderByExpr κ)) : List OrderKey :=
  keys.map fun key => ⟨key.expr.display text, key.asc == some false⟩

/-- What a query is printed by, and what Unicode takes for letters and digits. -/
structure Printer (κ : Type) where
  text : κ → String
  isAlphanumeric : Char → Bool

/-- Without ORDER BY nothing is applied. -/
def applyOrderLimit (printer : Printer κ) (tree : MirTree) (query : Query κ) :
    Except SqlError MirTree :=
  match query.orderBy with
  | none => .ok tree
  | some keys => do
    let limit ← (query.limit.mapM literalUsize : Except SqlError (Option ℕ))
    let offset ← (query.offset.mapM literalUsize : Except SqlError (Option ℕ))
    let orderBy := orderKeys printer.text keys
    let (tree, visible) := extendProjectionWithOrderKeys printer.isAlphanumeric tree orderBy
    let ranked ← rankDistinctOn tree orderBy
    let sorted := MirTree.unary (.topK orderBy (limit.getD usizeMax) (offset.getD 0)) ranked
    match visible with
    | some columns => .ok (.unary (.project columns) sorted)
    | none => .ok sorted

end

/-- A right input of a join with the pairs of outer and inner columns it is joined on. -/
structure Correlated where
  tree : MirTree
  pairs : List (ColumnRef × ColumnRef)
deriving DecidableEq

/-- What becomes of the items of a FROM clause, and of nested queries, in a scope of type `σ`. -/
structure Nested (σ κ : Type) extends Printer κ where
  relations : κ → List ObjectName
  table : ObjectName → Option TableAlias → σ → Except SqlError MirTree
  enterRecursion : String → σ → σ
  lowerDerived : κ → Option TableAlias → σ → Except SqlError MirTree
  lowerLateral : κ → Option TableAlias → σ → Except SqlError Correlated
  lowerQuery : κ → σ → Except SqlError MirTree
  lowerExists : κ → σ → Except SqlError Correlated
  lowerRecursive : String → κ → σ → Except SqlError MirTree

section Select
variable {σ κ : Type} (nested : Nested σ κ)

variable (context : σ)

def lowerTableFactor : TableFactor κ → Except SqlError MirTree
  | .table name tableAlias => nested.table name tableAlias context
  | .derived _ subquery tableAlias => nested.lowerDerived subquery tableAlias context
  | .other => .error (.unsupportedFeature "table functions or special table factors")

def isLateral : TableFactor κ → Bool
  | .derived true _ _ => true
  | _ => false

def lowerJoinSource : TableFactor κ → Except SqlError Correlated
  | .derived true subquery tableAlias => nested.lowerLateral subquery tableAlias context
  | factor => do
    let tree ← lowerTableFactor nested context factor
    .ok ⟨tree, []⟩

def joinKeys (operator : JoinOperator κ) (lateral : Bool) (correlated : Bool) :
    Except SqlError (JoinKind × List (ColumnRef × ColumnRef)) :=
  match operator with
  | .inner (.on predicate) => do
    let on ← joinPredicateColumns predicate lateral
    .ok (.inner, on)
  | .leftOuter (.on predicate) => do
    let on ← joinPredicateColumns predicate lateral
    .ok (.left, on)
  | .inner _ | .leftOuter _ => .error (.unsupportedFeature "MIR lowering for non-ON joins")
  | .crossJoin =>
    if lateral && correlated then .ok (.inner, [])
    else .error (.unsupportedFeature "MIR lowering for cross joins")
  | _ => .error (.unsupportedFeature "non-standard joins")

def lowerJoin (tree : MirTree) (join : Join κ) : Except SqlError MirTree := do
  let source ← lowerJoinSource nested context join.relation
  let (kind, on) ← joinKeys join.operator (isLateral join.relation) (source.pairs != [])
  let on := on ++ source.pairs
  if on = [] then .error (.unsupportedFeature "LATERAL join without correlation or equi-join keys")
  else .ok (.dual (.join kind on) tree source.tree)

def lowerTableWithJoins (source : TableWithJoins κ) : Except SqlError MirTree := do
  let tree ← lowerTableFactor nested context source.relation
  source.joins.foldlM (lowerJoin nested context) tree

def lowerFrom (select : Select κ) : Except SqlError MirTree :=
  match select.sources with
  | [source] => lowerTableWithJoins nested context source
  | _ => .error (.unsupportedFeature "MIR lowering for zero or multiple FROM items")

def rejectSelectFeaturesNotLowered (select : Select κ) : Except SqlError Unit :=
  if hasGroupByModifiers select.groupBy then .error (.unsupportedFeature "GROUP BY modifiers")
  else
    match select.otherClause with
    | some clause => .error (.unsupportedFeature clause)
    | none => .ok ()

def lowerExistsTerm (tree : MirTree) (term : ExistsTerm κ) : Except SqlError MirTree := do
  let source ← nested.lowerExists term.subquery context
  .ok (.dual (.join (if term.negated then .anti else .semi) source.pairs) tree source.tree)

def lowerScalarPredicate (tree : MirTree) : Option (Expr κ) → Except SqlError MirTree
  | none => .ok tree
  | some scalar =>
    if containsExists scalar then
      .error (.unsupportedFeature "EXISTS outside top-level AND conjuncts")
    else .ok (.unary (.filter (canonicalPredicate nested.text scalar)) tree)

def lowerWhere (tree : MirTree) : Option (Expr κ) → Except SqlError MirTree
  | none => .ok tree
  | some selection => do
    let filtered ← lowerScalarPredicate nested tree (splitExistsTerms selection).2
    (splitExistsTerms selection).1.foldlM (lowerExistsTerm nested context) filtered

def lowerHaving (having : Option (Expr κ)) (aggs : List AggExpr) :
    Except SqlError (Option String × List AggExpr) :=
  match having with
  | none => .ok (none, aggs)
  | some having =>
    if containsExists having then .error (.unsupportedFeature "EXISTS inside HAVING")
    else
      let (rewritten, aggs) := rewriteHavingAggregates nested.text having aggs
      .ok (some (canonicalPredicate nested.text rewritten), aggs)

def lowerGrouping (select : Select κ) (tree : MirTree) : Except SqlError MirTree := do
  let groupBy ← groupByColumns select.groupBy
  let (predicate, aggs) ← lowerHaving nested select.having
    (aggregateExprs nested.text select.projection)
  if groupBy ≠ [] ∨ aggs ≠ [] then
    let grouped := MirTree.unary (.aggregate groupBy aggs) tree
    .ok (predicate.elim grouped fun predicate => .unary (.filter predicate) grouped)
  else if predicate.isSome then
    .error (.unsupportedFeature "HAVING without aggregates or GROUP BY")
  else .ok tree

def lowerDistinct (distinct : Option (Distinct κ)) (tree : MirTree) : MirTree :=
  match distinct with
  | none => tree
  | some .distinct => .unary .distinct tree
  | some (.on exprs) => .unary (.distinctOn (displayList nested.text exprs) []) tree

def lowerProjection (select : Select κ) (tree : MirTree) : MirTree :=
  lowerDistinct nested select.distinct
    (.unary (.project (select.projection.map (selectItemName nested.text))) tree)

def lowerSelectBody (select : Select κ) : Except SqlError MirTree := do
  rejectSelectFeaturesNotLowered select
  let source ← lowerFrom nested context select
  let filtered ← lowerWhere nested context source select.selection
  let grouped ← lowerGrouping nested select filtered
  .ok (lowerProjection nested select grouped)

def lowerSetQuantifier : SetQuantifier → Except SqlError SetQuantifierKind
  | .all => .ok .all
  | .none | .distinct => .ok .distinct
  | .byName | .allByName | .distinctByName => .error (.unsupportedFeature "set operations BY NAME")

def setOperationKind (op : SetOperator) (quantifier : SetQuantifierKind) : MirNodeKind :=
  match op with
  | .union => .union quantifier
  | .except => .except quantifier
  | .intersect => .intersect quantifier

def lowerSetExpr (context : σ) : SetExpr κ → Except SqlError MirTree
  | .select body => lowerSelectBody nested context body
  | .setOperation op quantifier left right => do
    let quantifier ← lowerSetQuantifier quantifier
    let l ← lowerSetExpr context left
    let r ← lowerSetExpr context right
    .ok (.dual (setOperationKind op quantifier) l r)
  | .query q => nested.lowerQuery q context
  | .other feature => .error (.unsupportedFeature feature)

/-- The query's own WITH clause is not looked at. -/
def lowerQueryWithContext (query : Query κ) (context : σ) : Except SqlError MirTree := do
  let tree ← lowerSetExpr nested context query.body
  applyOrderLimit nested.toPrinter tree query

/-- The first input of the fixpoint is the base term and the second the recursive one. -/
def lowerRecursiveCte (name : String) (query : Query κ) (context : σ) : Except SqlError MirTree :=
  match query.body with
  | .setOperation .union quantifier left right => do
    let quantifier ← lowerSetQuantifier quantifier
    let base ← lowerSetExpr nested context left
    let step ← lowerSetExpr nested (nested.enterRecursion name context) right
    applyOrderLimit nested.toPrinter (.dual (.fixpoint name (quantifier == .all)) base step) query
  | _ => .error (.invalidQuery ("recursive CTE " ++ name ++
      " must have the form 'base term UNION [ALL] recursive term'"))

def plainSelect (select : Select κ) : Except SqlError Unit :=
  match select.groupBy with
  | .expressions [] false =>
    if select.having.isSome then .error (.unsupportedFeature "HAVING inside EXISTS subqueries")
    else .ok ()
  | _ => .error (.unsupportedFeature "GROUP BY inside EXISTS subqueries")

/-- The select list is not looked at. -/
def lowerExistsSubquery (query : Query κ) (context : σ) : Except SqlError Correlated :=
  if query.ctes.isSome then .error (.unsupportedFeature "WITH inside EXISTS subqueries")
  else if query.limit.isSome || query.offset.isSome then
    .error (.unsupportedFeature "LIMIT/OFFSET inside EXISTS subqueries")
  else
    match query.body with
    | .select select => do
      plainSelect select
      let (pairs, remaining) := splitCorrelatedPredicates select.selection (relationNames select)
      if pairs = [] then .error (.unsupportedFeature "uncorrelated EXISTS subqueries")
      else
        let source ← lowerFrom nested context select
        match remaining with
        | none => .ok ⟨source, pairs⟩
        | some predicate =>
          if containsExists predicate then
            .error (.unsupportedFeature "EXISTS nested inside EXISTS subqueries")
          else .ok ⟨.unary (.filter (canonicalPredicate nested.text predicate)) source, pairs⟩
    | _ => .error (.unsupportedFeature "set operations inside EXISTS subqueries")

def isUnnamedColumn (column : ColumnRef) : SelectItem κ → Bool
  | .unnamedExpr e =>
    match column.relation, e with
    | none, .identifier name => name == ⟨column.name, false⟩
    | some relation, .compoundIdentifier parts => parts == [⟨relation, false⟩, ⟨column.name, false⟩]
    | _, _ => false
  | _ => false

/-- The inner columns of the pairs join the select list, unless they stand there as they are. -/
def widenProjection (pairs : List (ColumnRef × ColumnRef)) (projection : List (SelectItem κ)) :
    List (SelectItem κ) :=
  pairs.foldl (fun projection pair =>
    if projection.any (isUnnamedColumn pair.2) then projection
    else projection ++ [.unnamedExpr (columnRefExpr pair.2)]) projection

def lowerLateralSubquery (query : Query κ) (context : σ) : Except SqlError Correlated :=
  if query.ctes.isSome then .error (.unsupportedFeature "WITH inside LATERAL subqueries")
  else if query.limit.isSome || query.offset.isSome then
    .error (.unsupportedFeature "LIMIT/OFFSET inside LATERAL subqueries")
  else
    match query.body with
    | .select select => do
      let (pairs, remaining) := splitCorrelatedPredicates select.selection (relationNames select)
      let widened := { select with
        selection := remaining
        projection := widenProjection pairs select.projection }
      let tree ← lowerQueryWithContext nested { query with body := .select widened } context
      .ok ⟨tree, pairs⟩
    | _ => .error (.unsupportedFeature "set operations inside LATERAL subqueries")

end Select

/-- CTEs that have been lowered, the latest first, and those whose recursive term is being
lowered. -/
structure LowerContext where
  ctes : List (String × MirTree)
  working : List String
deriving DecidableEq

def LowerContext.empty : LowerContext := ⟨[], []⟩

/-- Only the text of the name counts. -/
def lowerTable (name : ObjectName) (context : LowerContext) : MirTree :=
  let name := ObjectName.display name
  if context.working.contains name then .leaf (.recursiveRef name)
  else
    match context.ctes.lookup name with
    | some body => .expand (.cteRef name) body
    | none => .leaf (.baseTable name [])

section
variable {κ : Type} (nested : Nested LowerContext κ)

def lowerCteBody (isRecursive : Bool) (context : LowerContext) (cte : Cte κ) :
    Except SqlError MirTree :=
  if isSelfReferential isRecursive cte nested.relations then
    nested.lowerRecursive cte.tableAlias.name.value cte.query context
  else nested.lowerQuery cte.query context

def lowerCte (isRecursive : Bool) (context : LowerContext) (cte : Cte κ) :
    Except SqlError LowerContext := do
  let tree ← lowerCteBody nested isRecursive context cte
  .ok { context with ctes := (cte.tableAlias.name.value, tree) :: context.ctes }

def lowerCtes (clause : Option (With κ)) (context : LowerContext) : Except SqlError LowerContext :=
  match clause with
  | none => .ok context
  | some clause => clause.ctes.foldlM (lowerCte nested clause.isRecursive) context

/-- The whole statement: the outermost WITH clause, then the query. -/
def lowerTopQuery (query : Query κ) : Except SqlError MirTree := do
  let context ← lowerCtes nested query.ctes .empty
  lowerQueryWithContext nested query context

end

/-- Lowering at each depth; `text` prints nested queries. Column lists of aliases are not looked
at. -/
def nestedAt (text : ∀ n, Printer (Statement n)) : (n : ℕ) → Nested LowerContext (Statement n)
  | 0 =>
    { toPrinter := text 0
      relations := Empty.elim
      table := fun name _ context => .ok (lowerTable name context)
      enterRecursion := fun name context => { context with working := name :: context.working }
      lowerDerived := Empty.elim
      lowerLateral := Empty.elim
      lowerQuery := Empty.elim
      lowerExists := Empty.elim
      lowerRecursive := fun _ => Empty.elim }
  | n + 1 =>
    let nested := nestedAt text n
    { toPrinter := text (n + 1)
      relations := fun q => Statement.relations (n + 1) q
      table := fun name _ context => .ok (lowerTable name context)
      enterRecursion := fun name context => { context with working := name :: context.working }
      lowerDerived := fun q _ => lowerQueryWithContext nested q
      lowerLateral := fun q _ => lowerLateralSubquery nested q
      lowerQuery := lowerQueryWithContext nested
      lowerExists := lowerExistsSubquery nested
      lowerRecursive := lowerRecursiveCte nested }

def noText (n : ℕ) : Printer (Statement n) := ⟨fun _ => "", Char.isAlphanum⟩

variable (text : ∀ n, Printer (Statement n))

def lowerQuery : (n : ℕ) → Statement n → Except SqlError MirTree
  | 0, q => nomatch q
  | n + 1, q => lowerTopQuery (nestedAt text n) q

def lowerSelectStatement {n : ℕ} (q : Statement n) : Except SqlError MirTree :=
  lowerQuery text n (resolveFromAliases q)

/-- A parsed statement as `parse_and_lower` takes it; limits on sizes apart. -/
def parseAndLower {n : ℕ} (q : Statement n) : Except SqlError MirTree := do
  validateQuery q
  lowerSelectStatement text q

end Palimpsest.Frontend
