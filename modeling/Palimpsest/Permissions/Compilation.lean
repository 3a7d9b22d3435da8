import Palimpsest.Dataflow.Reparse
import Palimpsest.Permissions.Depth
import Palimpsest.Permissions.Encoding

/-! Compiling a rule: its predicate is lowered as the condition of a query of its own, and the text
of that query's filter is kept. -/
namespace Palimpsest.Permissions
open Sql Template Fallible
open Frontend (Expr)
open Dataflow (binaryOperator unaryOperator StringStyle.toQuoteStyle)

section Lowering

/-- The text of an `EXISTS`, and the filters of its lowered subquery unless that is refused. -/
structure Subquery where
  text : String
  filters : Except String (List Tokens)

/-- The operands of a condition. A `form` is a node the printer copies as it is (a call, a cast, a
membership test); `NOT EXISTS` is one operand. -/
inductive Operand where
  | leaf (a : Leaf)
  | form (e : Expr Subquery)
  | existsIn (negated : Bool) (subquery : Subquery)

/-- What the printer copies is spelled by its text. -/
def Operand.spelled : Operand → Leaf
  | .leaf a => a
  | .form e => .identifier ⟨e.display Subquery.text, false⟩
  | .existsIn _ subquery => .identifier ⟨subquery.text, false⟩

abbrev Condition := Precedence.Tree Operand Symbol

abbrev ConditionTokens := List (Precedence.Token Operand Symbol)

structure ExistsTerm where
  subquery : Subquery
  negated : Bool

/-- The top-level `[NOT] EXISTS` conjuncts, and the other conjuncts. -/
def collectTerms : Condition → List ExistsTerm × List Condition
  | .binary .and left right =>
    ((collectTerms left).1 ++ (collectTerms right).1,
      (collectTerms left).2 ++ (collectTerms right).2)
  | .atom (.existsIn negated subquery) => ([⟨subquery, negated⟩], [])
  | .group (.atom (.existsIn negated subquery)) => ([⟨subquery, negated⟩], [])
  | .unary .not (.atom (.existsIn negated subquery)) => ([⟨subquery, !negated⟩], [])
  | .unary .not (.group (.atom (.existsIn negated subquery))) => ([⟨subquery, !negated⟩], [])
  | e => ([], [e])

def conjoin : List Condition → Option Condition
  | [] => none
  | first :: rest => some (rest.foldl (.binary .and) first)

def splitExistsTerms (e : Condition) : List ExistsTerm × Option Condition :=
  ((collectTerms e).1, conjoin (collectTerms e).2)

def scalarOf : Condition → Option Scalar
  | .atom (.existsIn _ _) => none
  | .atom operand => some (.atom operand.spelled)
  | .unary s e => (scalarOf e).map (.unary s)
  | .binary s left right =>
    (scalarOf left).bind fun left => (scalarOf right).map fun right => .binary s left right
  | .group e => (scalarOf e).map .group

def unsupportedFeature (feature : String) : String := "unsupported SQL feature: " ++ feature

def lowerScalar : Option Condition → Except String (List Tokens)
  | none => .ok []
  | some e =>
    match scalarOf e with
    | none => .error (unsupportedFeature "EXISTS outside top-level AND conjuncts")
    | some e => .ok [canonicalPredicate e]

/-- The filters of the query's graph in the order of its nodes: the scalar part, then what the
subqueries bring along. -/
def lowerWhere (e : Condition) : Except String (List Tokens) := do
  let (terms, scalar) := splitExistsTerms e
  let own ← lowerScalar scalar
  let inner ← terms.mapM fun term => term.subquery.filters
  return own ++ inner.flatten

/-- `SELECT 1 FROM table WHERE (predicate)`. -/
def parseAndLower (predicate : ConditionTokens) : Except String (List Tokens) :=
  match Precedence.read postgres (.opening :: predicate ++ [.closing]) with
  | none => .error "sql parser error"
  | some e => lowerWhere e

def extractFilterPredicate (filters : List Tokens) : Option Tokens := filters.head?

theorem collectTerms_group (h : scalarOf c = some e) :
    collectTerms (.group c) = ([], [.group c]) := by
  cases c with
  | atom operand =>
    cases operand with
    | leaf | form => rfl
    | existsIn => cases h
  | _ => rfl

/-- Behind the parentheses the query puts around it, a predicate without `EXISTS` is one conjunct,
and the printer drops these parentheses like any others. -/
theorem parseAndLower_scalar {predicate : ConditionTokens}
    (h : Precedence.read postgres predicate = some c) (hscalar : scalarOf c = some e) :
    parseAndLower predicate = .ok [canonicalExpr e] := by
  have hown : lowerScalar (some (.group c)) = .ok [canonicalExpr e] := by
    rw [lowerScalar, scalarOf, hscalar]
    rfl
  rw [parseAndLower, Precedence.read_group h]
  simp only [lowerWhere, splitExistsTerms, collectTerms_group hscalar, conjoin, List.foldl_nil,
    hown]
  rfl

end Lowering

section Checks

def invalidLatest (rule : PermissionRule) (reason : String) : PermissionError :=
  .invalidConfig ("rule " ++ debugString rule.name ++ " on table " ++ rule.table ++ ": latest " ++
    reason)

/-- The key columns are told apart and exist; `seen` are those already passed. -/
def validateKey (rule : PermissionRule) (table : TableSchema) :
    List String → List String → Except PermissionError Unit
  | _, [] => .ok ()
  | seen, name :: names =>
    if seen.contains name then .error (invalidLatest rule "key contains duplicate columns")
    else if (table.column name).isNone then
      .error (invalidLatest rule ("key column " ++ debugString name ++ " does not exist"))
    else validateKey rule table (name :: seen) names

def validateLatest (rule : PermissionRule) (table : TableSchema) : Except PermissionError Unit :=
  match rule.latest with
  | none => .ok ()
  | some latest => do
    if !rule.mode.affectsVisibility then
      throw (invalidLatest rule "requires a row-visibility mode")
    if latest.key.isEmpty then throw (invalidLatest rule "key must not be empty")
    validateKey rule table [] latest.key
    if latest.key.contains latest.version then
      throw (invalidLatest rule "version must not be part of the key")
    if (table.column latest.version).map ColumnSchema.ty ≠ some .int then
      throw (invalidLatest rule "version must name an integer column")

def leafNode : Leaf → Expr Subquery
  | .identifier name => .identifier name
  | .compoundIdentifier parts => .compoundIdentifier parts
  | .number n => .value (.number (String.ofList n.chars))
  | .string style s => .value (.quoted (StringStyle.toQuoteStyle style) s)
  | .boolean b => .value (.boolean b)
  | .null => .value .null

/-- The parser's expression for a condition. -/
def conditionExpr : Condition → Expr Subquery
  | .atom (.leaf a) => leafNode a
  | .atom (.form e) => e
  | .atom (.existsIn negated subquery) => .exists subquery negated
  | .unary s e => .unaryOp ((unaryOperator s).getD (.other s.display)) (conditionExpr e)
  | .group e => .nested (conditionExpr e)
  | .binary .isDistinctFrom left right => .isDistinctFrom (conditionExpr left) (conditionExpr right)
  | .binary .isNotDistinctFrom left right =>
    .isNotDistinctFrom (conditionExpr left) (conditionExpr right)
  | .binary s left right =>
    .binaryOp (conditionExpr left) ((binaryOperator s).getD (.other s.display))
      (conditionExpr right)

/-- Only the expression at the start of the text is parsed; what follows it is not looked at. -/
def parseExpr (predicate : ConditionTokens) : Except String (Expr Subquery) :=
  match Precedence.parse postgres (2 * predicate.length) 0 predicate with
  | none => .error "sql parser error"
  | some (e, _) => .ok (conditionExpr e)

def isTokenChar (c : Char) : Bool := c.isAlphanum || c == '_' || c == '.'

/-- The words of a text outside its string literals; `fuel` bounds the number of turns. -/
def identifiersFrom : ℕ → List Char → List (List Char)
  | 0, _ => []
  | _ + 1, [] => []
  | fuel + 1, c :: rest =>
    if c = quoteChar then identifiersFrom fuel (stringTail rest).2
    else if c.isAlpha || c == '_' then
      let token := (c :: rest).takeWhile isTokenChar
      let following := identifiersFrom fuel ((c :: rest).dropWhile isTokenChar)
      if token.all Char.isDigit then following else token :: following
    else identifiersFrom fuel rest

def extractIdentifiers (predicate : String) : List (List Char) :=
  identifiersFrom predicate.toList.length predicate.toList

def predicateKeywords : List String :=
  ["true", "false", "null", "and", "or", "not", "is", "in", "between", "like", "any",
    "some", "array"]

def validateColumn (rule : String) (table : TableSchema) (token : List Char) :
    Except PermissionError Unit :=
  let unknown (column : List Char) : PermissionError :=
    .unknownColumn rule table.name (String.ofList column)
  if userPlaceholderPrefix <+: token then .ok ()
  else if predicateKeywords.contains (String.ofList (token.map Char.toLower)) then .ok ()
  else if String.ofList token = table.name then .ok ()
  else
    match TextSearch.cut ['.'] token with
    | some (relation, column) =>
      if String.ofList relation ≠ table.name then .error (unknown token)
      else if (table.column (String.ofList column)).isNone then .error (unknown column)
      else .ok ()
    | none => if (table.column (String.ofList token)).isNone then .error (unknown token) else .ok ()

def validateColumns (predicate rule : String) (table : TableSchema) : Except PermissionError Unit :=
  (extractIdentifiers predicate).forM (validateColumn rule table)

end Checks

section

/-- `predicate` are the tokens of the rule's encoded predicate. -/
def compileRule (rule : PermissionRule) (predicate : ConditionTokens) (catalog : Catalog)
    (schema : UserContextSchema) : Except PermissionError CompiledRule := do
  let some table := catalog.table rule.table | throw (.unknownTable rule.name rule.table)
  validateLatest rule table
  let encoded ← encodeUserPlaceholders rule.predicate rule.name schema
  enforcePredicateDepth (parseExpr predicate) rule.name
  let filters ← (parseAndLower predicate).mapError (.ruleSql rule.name rule.table)
  let some canonical := extractFilterPredicate filters
    | throw (.invalidConfig
        ("rule " ++ debugString rule.name ++ " predicate failed to lower into a Filter node"))
  validateColumns (text canonical) rule.name table
  return ⟨rule.name, rule.table, rule.mode, ⟨text canonical, encoded.userFields⟩, rule.latest⟩

def compiledFilter (predicate : ConditionTokens) : Option Tokens :=
  match parseAndLower predicate with
  | .ok filters => extractFilterPredicate filters
  | .error _ => none

/-- A compiled rule keeps the fields of the encoded predicate and the text of the first filter. -/
theorem compileRule_ok (h : compileRule rule pred catalog schema = .ok compiled) :
    ∃ encoded canonical, encodeUserPlaceholders rule.predicate rule.name schema = .ok encoded ∧
      compiledFilter pred = some canonical ∧
      compiled.predicate = ⟨text canonical, encoded.userFields⟩ := by
  unfold compileRule at h
  cases htab : catalog.table rule.table with
  | none =>
    rw [htab] at h
    cases h
  | some =>
    rw [htab] at h
    obtain ⟨-, -, h⟩ := bind_ok h
    obtain ⟨encoded, henc, h⟩ := bind_ok h
    obtain ⟨-, -, h⟩ := bind_ok h
    obtain ⟨filters, hfilts, h⟩ := bind_ok h
    cases hcan : extractFilterPredicate filters with
    | none =>
      rw [hcan] at h
      cases h
    | some canonical =>
      rw [hcan] at h
      obtain ⟨-, -, h⟩ := bind_ok h
      cases h
      refine ⟨encoded, canonical, henc, ?_, rfl⟩
      unfold compiledFilter
      cases hlow : parseAndLower pred with
      | error =>
        rw [hlow] at hfilts
        cases hfilts
      | ok =>
        rw [hlow] at hfilts
        cases hfilts
        exact hcan

end

end Palimpsest.Permissions
