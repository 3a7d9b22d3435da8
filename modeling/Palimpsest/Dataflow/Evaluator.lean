import Palimpsest.Dataflow.Datum

/-! Expression trees and the closures the evaluator compiles them to. -/
namespace Palimpsest.Dataflow

inductive QuoteStyle where
  | single | double | escaped | unicode | national
  deriving DecidableEq

inductive SqlValue where
  | boolean (b : Bool)
  | number (n : String)
  | quoted (style : QuoteStyle) (s : String)
  | null
  | other (debug : String)
  deriving DecidableEq

/-- The parser's expression tree, as far as the evaluator tells its nodes apart. -/
inductive Expr where
  | identifier (name : String)
  | compoundIdentifier (parts : List String)
  | value (v : SqlValue)
  | nested (inner : Expr)
  | binaryOp (left : Expr) (op : BinaryOperator) (right : Expr)
  | unaryOp (op : UnaryOperator) (inner : Expr)
  | isNull (inner : Expr)
  | isNotNull (inner : Expr)
  | isTrue (inner : Expr)
  | isFalse (inner : Expr)
  | anyOp (left : Expr) (compareOp : BinaryOperator) (right : Expr)
  | cast (inner : Expr) (dataType : String)
  | inList (needle : Expr) (list : List Expr) (negated : Bool)
  | between (needle : Expr) (negated : Bool) (low high : Expr)
  | like (negated : Bool) (subject pattern : Expr) (escapeChar : Option String)
      (caseInsensitive : Bool)
  | isDistinctFrom (left right : Expr)
  | isNotDistinctFrom (left right : Expr)
  | case (operand : Option Expr) (conditions results : List Expr) (elseResult : Option Expr)
  | array (elements : List Expr)
  | coalesce (args : List Expr)
  | cardinality (args : List Expr)
  | other (debug : String)

inductive EvalError where
  | parse (message : String)
  | unsupported (message : String)
  | unknownColumn (name : String)
  deriving DecidableEq

abbrev ScalarFn := List Datum → Datum

/-- Column names in row order, with the relation each one comes from where that is known. -/
structure ScalarSchema where
  columns : List String
  provenance : List (Option String)

namespace ScalarSchema

/-- The last column of a name wins. -/
def indexOf (schema : ScalarSchema) (name : String) : Option ℕ :=
  (schema.columns.zipIdx.reverse.find? fun column => column.1 = name).map Prod.snd

def indexOfQualified (schema : ScalarSchema) (relation name : String) : Option ℕ :=
  (schema.columns.zipIdx.find? fun column =>
    column.1 = name ∧ schema.provenance[column.2]?.join = some relation).map Prod.snd

end ScalarSchema

/-! What the compiled closures do with the values of their parts. -/
section
variable (P : Primitives)

def inListDatum (negated : Bool) (value : Datum) (candidates : List Datum) : Datum :=
  if value.isNull then .bool false
  else
    let hit := candidates.any fun candidate => !candidate.isNull && datumEq P value candidate
    -- elements after the first hit are not looked at
    let sawNull := (candidates.takeWhile fun candidate =>
      candidate.isNull || !datumEq P value candidate).any Datum.isNull
    if negated then .bool (!hit && !sawNull) else .bool hit

def betweenDatum (negated : Bool) (value low high : Datum) : Datum :=
  if value.isNull || low.isNull || high.isNull then .bool false
  else
    let within := (datumCmpBool P low value Ordering.isLE).isTrue &&
      (datumCmpBool P value high Ordering.isLE).isTrue
    .bool (within != negated)

def likeDatum (negated caseInsensitive : Bool) (escape : Option Char) : Datum → Datum → Datum
  | .text subject, .text pattern =>
    let matched := if caseInsensitive
      then likeMatch (P.toLowercase subject) (P.toLowercase pattern) escape
      else likeMatch subject pattern escape
    .bool (matched != negated)
  | _, _ => .bool false

def anyDatum (op : BinaryOperator) (left : Datum) (elements : List Datum) : Datum :=
  .bool (elements.any fun element => compareDatums P op left element = some true)

def caseDatum (hits : Datum → Bool) : List (Datum × Datum) → Datum → Datum
  | [], fallback => fallback
  | (condition, result) :: rest, fallback =>
    if hits condition then result else caseDatum hits rest fallback

def caseHits (operand : Option Datum) (condition : Datum) : Bool :=
  match operand with
  | some operand => datumEq P operand condition
  | none => condition.isTrue

def coalesceDatum (args : List Datum) : Datum :=
  (args.find? fun arg => !arg.isNull).getD .null

def cardinalityDatum : Datum → Datum
  | .array items => .i64 ((checkedI64 items.length).getD Int64.maxValue)
  | _ => .null

def notDatum : Datum → Datum
  | .bool b => .bool !b
  | _ => .bool false

def binaryDatum (op : BinaryOperator) (a b : Datum) : Datum :=
  match op with
  | .eq => .bool (datumEq P a b)
  | .notEq => .bool !datumEq P a b
  | .lt => datumCmpBool P a b Ordering.isLT
  | .ltEq => datumCmpBool P a b Ordering.isLE
  | .gt => datumCmpBool P a b Ordering.isGT
  | .gtEq => datumCmpBool P a b Ordering.isGE
  | .and => if !a.isTrue then .bool false else .bool b.isTrue
  | .or => if a.isTrue then .bool true else .bool b.isTrue
  | .stringConcat => concatDatums P a b
  | .arrow => P.jsonExtract a b false
  | .longArrow => P.jsonExtract a b true
  | op => arithmeticDatums P op a b

def unaryDatum (op : UnaryOperator) (a : Datum) : Datum :=
  match op with
  | .not => notDatum a
  | .minus => negateDatum P a
  | _ => a

end

section
variable (P : Primitives)

def parseI64 (s : List Char) : Option Int64 :=
  let (negative, digits) := match s with
    | '-' :: digits => (true, digits)
    | '+' :: digits => (false, digits)
    | digits => (false, digits)
  if digits = [] ∨ digits.any (fun c => !c.isDigit) then none
  else
    let n : ℤ := digits.foldl (fun n c => 10 * n + ((c.toNat : ℤ) - 48)) 0
    checkedI64 (if negative then -n else n)

def valueScalar : SqlValue → Except EvalError ScalarFn
  | .boolean b => .ok fun _ => .bool b
  | .number n =>
    match parseI64 n.toList with
    | some v => .ok fun _ => .i64 v
    | none =>
      match P.parseFloat n.toList with
      | some bits => .ok fun _ => .f64 bits
      | none => .error (.parse ("number literal '" ++ n ++ "'"))
  | .quoted _ s => .ok fun _ => .text s
  | .null => .ok fun _ => .null
  | .other debug => .error (.unsupported ("literal " ++ debug))

/-- One unquoted or quoted element of an array literal; blank elements are skipped. -/
def flushElement (current : List Char) (quoted : Bool) (elements : List Datum) : List Datum :=
  let raw := Text.trim current
  if raw = [] ∧ quoted = false then elements
  else if quoted then elements ++ [.text (String.ofList current)]
  else if Text.eqIgnoreAsciiCase raw "null".toList then elements ++ [.null]
  else
    match parseI64 raw with
    | some v => elements ++ [.i64 v]
    | none =>
      match P.parseFloat raw with
      | some bits => elements ++ [.f64 bits]
      | none =>
        if Text.eqIgnoreAsciiCase raw "true".toList || raw = ['t'] then elements ++ [.bool true]
        else if Text.eqIgnoreAsciiCase raw "false".toList || raw = ['f'] then
          elements ++ [.bool false]
        else elements ++ [.text (String.ofList raw)]

/-- The scan over an array literal's characters; `none` if a quote stays open. -/
def arrayElements : (current : List Char) → (inQuotes quoted : Bool) → List Datum → List Char →
    Option (List Datum)
  | current, inQuotes, quoted, elements, [] =>
    if inQuotes then none else some (flushElement P current quoted elements)
  | current, inQuotes, quoted, elements, c :: rest =>
    if c = '"' then arrayElements current (!inQuotes) true elements rest
    else if c = '\\' ∧ inQuotes = true then
      match rest with
      | escaped :: rest => arrayElements (current ++ [escaped]) inQuotes quoted elements rest
      | [] => none
    else if c = ',' ∧ inQuotes = false then
      -- a blank element leaves the characters read so far in place
      if Text.trim current = [] ∧ quoted = false
      then arrayElements current inQuotes quoted elements rest
      else arrayElements [] inQuotes false (flushElement P current quoted elements) rest
    else arrayElements (current ++ [c]) inQuotes quoted elements rest

def parseArrayLiteral (text : String) : Except EvalError (List Datum) :=
  let refused := EvalError.parse ("array literal " ++ text.quote)
  match Text.trim text.toList with
  | '\x7b' :: rest =>
    if rest.getLast? = some '\x7d' then
      match arrayElements P [] false false [] rest.dropLast with
      | some elements => .ok elements
      | none => .error refused
    else .error refused
  | _ => .error refused

end

section Compile
variable (P : Primitives) (schema : ScalarSchema)

def identifierScalar (name : String) : Except EvalError ScalarFn :=
  match schema.indexOf name with
  | some idx => .ok fun row => row.getD idx .null
  | none => .error (.unknownColumn name)

def compoundScalar (parts : List String) : Except EvalError ScalarFn :=
  let byLast := match parts.getLast? with
    | some last => identifierScalar schema last
    | none => .error (.unsupported "empty compound identifier")
  match parts with
  | [relation, column] =>
    match schema.indexOfQualified relation column with
    | some idx => .ok fun row => row.getD idx .null
    | none => byLast
  | _ => byLast

/-- The escape character of a pattern; `none` switches escaping off. -/
def escapeOf : Option String → Except EvalError (Option Char)
  | none => .ok (some '\\')
  | some text =>
    match text.toList with
    | [] => .ok none
    | [c] => .ok (some c)
    | _ => .error (.unsupported ("multi-character LIKE escape " ++ text.quote))

def BinaryOperator.unsupported? : BinaryOperator → Option String
  | .other debug => some debug
  | _ => none

def UnaryOperator.unsupported? : UnaryOperator → Option String
  | .other debug => some debug
  | _ => none

def BinaryOperator.debug : BinaryOperator → String
  | .eq => "Eq"
  | .notEq => "NotEq"
  | .lt => "Lt"
  | .ltEq => "LtEq"
  | .gt => "Gt"
  | .gtEq => "GtEq"
  | .and => "And"
  | .or => "Or"
  | .plus => "Plus"
  | .minus => "Minus"
  | .multiply => "Multiply"
  | .divide => "Divide"
  | .modulo => "Modulo"
  | .stringConcat => "StringConcat"
  | .arrow => "Arrow"
  | .longArrow => "LongArrow"
  | .other debug => debug

/-- Whether `ANY` takes the operator, tried once on two NULLs. -/
def anyAccepts (op : BinaryOperator) : Bool := (compareDatums P op .null .null).isSome

mutual

def compileInner : Expr → Except EvalError ScalarFn
  | .nested inner => compileInner inner
  | .identifier name => identifierScalar schema name
  | .compoundIdentifier parts => compoundScalar schema parts
  | .value v => valueScalar P v
  | .binaryOp left op right => do
    let l ← compileInner left
    let r ← compileInner right
    match op.unsupported? with
    | some debug => .error (.unsupported ("binary op " ++ debug))
    | none => .ok fun row => binaryDatum P op (l row) (r row)
  | .unaryOp op inner => do
    let e ← compileInner inner
    match op.unsupported? with
    | some debug => .error (.unsupported ("unary op " ++ debug))
    | none => .ok fun row => unaryDatum P op (e row)
  | .isNull inner => do
    let target ← compileInner inner
    .ok fun row => .bool (target row).isNull
  | .isNotNull inner => do
    let target ← compileInner inner
    .ok fun row => .bool !(target row).isNull
  | .isTrue inner => do
    let target ← compileInner inner
    .ok fun row => .bool (target row).isTrue
  | .isFalse inner => do
    let target ← compileInner inner
    .ok fun row => .bool (target row).isFalse
  | .anyOp left compareOp right => do
    let l ← compileInner left
    let elements ← compileElements right
    if anyAccepts P compareOp then
      .ok fun row => anyDatum P compareOp (l row) (elements.map (· row))
    else .error (.unsupported ("ANY with operator " ++ compareOp.debug))
  | .cast inner dataType =>
    match P.castTarget dataType with
    | none => .error (.unsupported ("cast target type " ++ dataType))
    | some castDatum => do
      let source ← compileInner inner
      .ok fun row => castDatum (source row)
  | .inList needle list negated => do
    let value ← compileInner needle
    let elements ← compileList list
    .ok fun row => inListDatum P negated (value row) (elements.map (· row))
  | .between needle negated low high => do
    let value ← compileInner needle
    let lowValue ← compileInner low
    let highValue ← compileInner high
    .ok fun row => betweenDatum P negated (value row) (lowValue row) (highValue row)
  | .like negated subject pattern escapeChar caseInsensitive => do
    let s ← compileInner subject
    let p ← compileInner pattern
    let escape ← escapeOf escapeChar
    .ok fun row => likeDatum P negated caseInsensitive escape (s row) (p row)
  | .isDistinctFrom left right => do
    let l ← compileInner left
    let r ← compileInner right
    .ok fun row => .bool !nullSafeEq P (l row) (r row)
  | .isNotDistinctFrom left right => do
    let l ← compileInner left
    let r ← compileInner right
    .ok fun row => .bool (nullSafeEq P (l row) (r row))
  | .case operand conditions results elseResult => do
    let operand ← compileOption operand
    let conditions ← compileList conditions
    let results ← compileList results
    let elseResult ← compileOption elseResult
    .ok fun row => caseDatum (caseHits P (operand.map (· row)))
      ((conditions.map (· row)).zip (results.map (· row)))
      ((elseResult.map (· row)).getD .null)
  | .array elements => do
    let elements ← compileList elements
    .ok fun row => .array (elements.map (· row))
  | .coalesce args => do
    let args ← compileList args
    .ok fun row => coalesceDatum (args.map (· row))
  | .cardinality [arg] => do
    let arg ← compileInner arg
    .ok fun row => cardinalityDatum (arg row)
  | .cardinality args =>
    .error (.unsupported ("cardinality expects 1 argument, got " ++ toString args.length))
  | .other debug => .error (.unsupported debug)

/-- The elements `ANY` ranges over: an array's, or those of an array literal's text. -/
def compileElements : Expr → Except EvalError (List ScalarFn)
  | .array elements => compileList elements
  | .value (.quoted .single text) => do
    let datums ← parseArrayLiteral P text
    .ok (datums.map fun datum _ => datum)
  | _ => .error (.unsupported "ANY over non-array expression")

def compileList : List Expr → Except EvalError (List ScalarFn)
  | [] => .ok []
  | e :: rest => do
    let f ← compileInner e
    let fs ← compileList rest
    .ok (f :: fs)

def compileOption : Option Expr → Except EvalError (Option ScalarFn)
  | none => .ok none
  | some e => do
    let f ← compileInner e
    .ok (some f)

end

/-- A predicate's closure: any value but TRUE counts as false. -/
def compilePredicate (e : Expr) : Except EvalError (List Datum → Bool) := do
  let scalar ← compileInner P schema e
  .ok fun row => (scalar row).isTrue

end Compile
end Palimpsest.Dataflow
