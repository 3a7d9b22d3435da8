import Palimpsest.Dataflow.Plan
import Palimpsest.Dataflow.Casting
import Palimpsest.Foundation.Fallible

/-! The query compiler: for every node of a query graph the columns of its rows and the recipe that
computes them. Column references are bound by their texts. -/
namespace Palimpsest.Dataflow
open Sql Fallible

inductive CompileError where
  | unsupported (message : String)
  | expression (error : EvalError)
  | unknown (message : String)
  | cycle
  | unsupportedAggregate (function : String)
deriving DecidableEq

/-- A column of a node's rows; `source` is the relation it can still be traced to. -/
structure Column where
  name : String
  ty : ColumnType
  source : Option String
deriving Repr, DecidableEq

structure NodeSchema where
  columns : List Column
deriving Repr, DecidableEq

namespace NodeSchema

def scalar (schema : NodeSchema) : ScalarSchema :=
  ⟨schema.columns.map Column.name, schema.columns.map Column.source⟩

def indexOf (schema : NodeSchema) (name : String) : Option ℕ := schema.scalar.indexOf name

def attributed (schema : NodeSchema) (relation name : String) : Option ℕ :=
  schema.scalar.indexOfQualified relation name

def columnType (schema : NodeSchema) (name : String) : Option ColumnType :=
  (schema.indexOf name).bind fun i => schema.columns[i]?.map Column.ty

def indexIgnoringCase (schema : NodeSchema) (entry : String) : Option ℕ :=
  schema.columns.findIdx? fun column => Text.eqIgnoreAsciiCase column.name.toList entry.toList

def within (schema : NodeSchema) (relation : Option String) : NodeSchema :=
  ⟨schema.columns.map fun column => { column with source := relation }⟩

def append (left right : NodeSchema) : NodeSchema := ⟨left.columns ++ right.columns⟩

end NodeSchema

/-! Texts of projection entries and keys. -/
section

def trimmed (entry : String) : String := String.ofList (Text.trim entry.toList)

variable (isAlphanumeric : Char → Bool)

def splitQualified (entry : String) : Option (String × String) :=
  match TextSearch.cut ['.'] entry.toList with
  | some (relation, bare) =>
    if Text.isIdent isAlphanumeric relation && Text.isIdent isAlphanumeric bare
    then some (String.ofList relation, String.ofList bare) else none
  | none => none

/-- `expr AS alias`, split at the last ` AS `. -/
def splitAlias (entry : String) : Option (String × String) :=
  match TextSearch.cutLast " AS ".toList entry.toList with
  | some (expr, name) =>
    if Text.isIdent isAlphanumeric name && Text.trim expr != []
    then some (String.ofList (Text.trim expr), String.ofList name) else none
  | none => none

def starRelation (entry : String) : Option String :=
  if ".*".toList <:+ entry.toList then some (String.ofList (entry.toList.dropLast.dropLast))
  else none

end

/-! Binding of references. -/
section
variable (schema : NodeSchema)

/-- The column traced to the relation, else the last one of that name. -/
def qualifiedIndex (relation bare : String) : Option ℕ :=
  (schema.attributed relation bare).or (schema.indexOf bare)

def resolveEntryColumn (isAlphanumeric : Char → Bool) (entry : String) : Option ℕ :=
  match schema.indexOf entry with
  | some index => some index
  | none =>
    match (splitQualified isAlphanumeric entry).bind fun (relation, bare) =>
      qualifiedIndex schema relation bare with
    | some index => some index
    | none => schema.indexIgnoringCase entry

/-- A strict look-up takes a qualified reference only through its relation. -/
def resolveColumn (reference : ColumnRef) (strict : Bool) : Option ℕ :=
  match reference.relation with
  | some relation =>
    if strict then schema.attributed relation reference.name
    else qualifiedIndex schema relation reference.name
  | none => if strict then none else schema.indexOf reference.name

def keyIndex (isAlphanumeric : Char → Bool) (entry : String) : Option ℕ :=
  (schema.indexOf entry).or
    ((splitQualified isAlphanumeric entry).bind fun (relation, bare) =>
      qualifiedIndex schema relation bare)

end

/-- Both keys of a pair, in the first orientation that finds them. -/
def resolvePair (left right : NodeSchema) (pair : ColumnRef × ColumnRef) : Option (ℕ × ℕ) :=
  let orientation (a b : ColumnRef) (strict : Bool) : Option (ℕ × ℕ) :=
    (resolveColumn left a strict).bind fun l => (resolveColumn right b strict).map fun r => (l, r)
  (orientation pair.1 pair.2 true).or ((orientation pair.2 pair.1 true).or
    ((orientation pair.1 pair.2 false).or (orientation pair.2 pair.1 false)))

/-- What the compiler is given: the evaluator's primitives, the parser of expressions, Unicode's
letters and digits and the tables' columns. -/
structure Compiler where
  base : Primitives
  casts : Casts
  parse : String → Except EvalError Expr
  isAlphanumeric : Char → Bool
  lookup : String → Option (TableId × List (String × ColumnType))

/-- Casts go by the type that the target names. -/
def Compiler.primitives (C : Compiler) : Primitives :=
  { C.base with
    castTarget := fun dataType =>
      (ColumnType.fromCastTarget dataType).map fun target datum =>
        castDatum C.base C.casts datum target }

/-! Static types of expressions. -/
section Inference
variable (schema : NodeSchema)

def compoundType (parts : List String) : ColumnType :=
  let byLast := (parts.getLast?.bind schema.columnType).getD .unknown
  match parts with
  | [relation, column] =>
    match (schema.attributed relation column).bind fun i => schema.columns[i]?.map Column.ty with
    | some ty => ty
    | none => byLast
  | _ => byLast

def valueType : SqlValue → ColumnType
  | .boolean _ => .bool
  | .number n => if (parseI64 n.toList).isSome then .int else .float
  | .quoted .single _ | .quoted .double _ => .text
  | _ => .unknown

def binaryType (op : BinaryOperator) (left right : ColumnType) : ColumnType :=
  match op with
  | .eq | .notEq | .lt | .ltEq | .gt | .gtEq | .and | .or => .bool
  | .arrow => .jsonb
  | .longArrow | .stringConcat => .text
  | .plus | .minus | .multiply | .divide | .modulo =>
    if left = .int ∧ right = .int then .int
    else if left.isNumeric && right.isNumeric then .float
    else .unknown
  | .other _ => .unknown

def unaryType (op : UnaryOperator) (inner : ColumnType) : ColumnType :=
  match op with
  | .not => .bool
  | .minus | .plus => inner
  | .other _ => .unknown

mutual

def inferType : Expr → ColumnType
  | .nested inner => inferType inner
  | .identifier name => (schema.columnType name).getD .unknown
  | .compoundIdentifier parts => compoundType schema parts
  | .value v => valueType v
  | .binaryOp left op right => binaryType op (inferType left) (inferType right)
  | .unaryOp op inner => unaryType op (inferType inner)
  | .isNull _ | .isNotNull _ | .isTrue _ | .isFalse _ | .isDistinctFrom _ _
  | .isNotDistinctFrom _ _ | .anyOp _ _ _ | .inList _ _ _ | .between _ _ _ _
  | .like _ _ _ _ _ => .bool
  | .case _ _ results elseResult =>
    match inferFirst results with
    | .unknown => inferOption elseResult
    | ty => ty
  | .cast _ dataType => (ColumnType.fromCastTarget dataType).getD .unknown
  | .cardinality _ => .int
  | .coalesce args => inferFirst args
  | .array _ | .other _ => .unknown

def inferFirst : List Expr → ColumnType
  | [] => .unknown
  | e :: rest =>
    match inferType e with
    | .unknown => inferFirst rest
    | ty => ty

def inferOption : Option Expr → ColumnType
  | none => .unknown
  | some e => inferType e

end

end Inference

def castLabel : Expr → Option String
  | .nested inner => castLabel inner
  | .cast (.identifier name) _ => some name
  | .cast (.compoundIdentifier parts) _ => parts.getLast?
  | _ => none

section
variable (C : Compiler) (schema : NodeSchema)

def compileScalar (text : String) : Except EvalError ScalarFn := do
  let expr ← C.parse text
  compileInner C.primitives schema.scalar expr

/-- Values are brought to the type that is announced for them. -/
def coerced (ty : ColumnType) (scalar : ScalarFn) : ScalarFn :=
  match ty with
  | .unknown | .text => scalar
  | concrete => fun row => castDatum C.base C.casts (scalar row) concrete

def compileTypedScalar (text : String) : Except EvalError (ScalarFn × ColumnType) := do
  let expr ← C.parse text
  let scalar ← compileInner C.primitives schema.scalar expr
  let ty := inferType schema expr
  .ok (coerced C ty scalar, ty)

end

def evaluated {α : Type} : Except EvalError α → Except CompileError α
  | .ok a => .ok a
  | .error e => .error (.expression e)

inductive OutputColumn where
  | index (i : ℕ)
  | scalar (f : ScalarFn)

def OutputColumn.read (row : Row Datum) : OutputColumn → Datum
  | .index i => row.getD i .null
  | .scalar f => f row

section
variable (C : Compiler) (schema : NodeSchema)

def pushIndex (index : ℕ) (name : String) : OutputColumn × Column :=
  let input := schema.columns[index]?
  (.index index, ⟨name, (input.map Column.ty).getD .unknown, input.bind Column.source⟩)

def projectScalar (text : String) (name : String) :
    Except CompileError (OutputColumn × Column) := do
  let (scalar, ty) ← evaluated (compileTypedScalar C schema text)
  .ok (.scalar scalar, ⟨name, ty, none⟩)

def projectAliased (expr name : String) : Except CompileError (OutputColumn × Column) :=
  match resolveEntryColumn schema C.isAlphanumeric expr with
  | some index => .ok (pushIndex schema index name)
  | none =>
    -- outputs of aggregates are named by their aliases
    match schema.indexOf name with
    | some index => .ok (pushIndex schema index name)
    | none => projectScalar C schema expr name

def projectStar (keep : Column → Bool) : List (OutputColumn × Column) :=
  schema.columns.zipIdx.filterMap fun (column, index) =>
    if keep column then some (pushIndex schema index column.name) else none

def scalarName (entry : String) : String :=
  match C.parse entry with
  | .ok expr => (castLabel expr).getD entry
  | .error _ => entry

def projectPlain (entry : String) : Except CompileError (OutputColumn × Column) :=
  match schema.indexOf entry with
  | some index => .ok (pushIndex schema index entry)
  | none =>
    match splitQualified C.isAlphanumeric entry with
    | some (relation, bare) =>
      match qualifiedIndex schema relation bare with
      | some index => .ok (pushIndex schema index bare)
      | none => .error (.unknown ("project column " ++ entry))
    | none =>
      match schema.indexIgnoringCase entry with
      | some index =>
        .ok (pushIndex schema index ((schema.columns[index]?.map Column.name).getD entry))
      | none => projectScalar C schema entry (scalarName C entry)

def projectEntry (entry : String) : Except CompileError (List (OutputColumn × Column)) :=
  match splitAlias C.isAlphanumeric entry with
  | some (expr, name) => (projectAliased C schema expr name).map fun output => [output]
  | none =>
    if entry = "*" then .ok (projectStar schema fun _ => true)
    else
      match starRelation entry with
      | some relation =>
        match projectStar schema fun column => column.source = some relation with
        | [] => .error (.unknown ("project columns " ++ entry))
        | outputs => .ok outputs
      | none => (projectPlain C schema entry).map fun output => [output]

def compileProject (columns : List String) :
    Except CompileError (List (OutputColumn × Column)) := do
  let outputs ← columns.mapM fun entry => projectEntry C schema (trimmed entry)
  .ok outputs.flatten

def extractRow (outputs : List (OutputColumn × Column)) (row : Row Datum) : Row Datum :=
  outputs.map fun output => output.1.read row

end

section
variable (C : Compiler) (schema : NodeSchema)

def compileGroupColumn (reference : ColumnRef) : Except CompileError ℕ :=
  match (resolveColumn schema reference true).or (resolveColumn schema reference false) with
  | some index => .ok index
  | none => .error (.unknown ("group column " ++ reference.name))

/-- `DISTINCT` in front of the arguments marks a call over distinct values. -/
def parseAggCall (agg : AggExpr) : Bool × String :=
  let distinct := agg.args.head? == some "DISTINCT"
  (distinct, ((agg.args[if distinct then 1 else 0]?).map trimmed).getD "*")

def aggregateDisplayName (agg : AggExpr) : String :=
  let distinct := agg.args.head? == some "DISTINCT"
  let args := if distinct then agg.args.tail else agg.args
  agg.function ++ "(" ++ (if distinct then "DISTINCT " else "") ++ ", ".intercalate args ++ ")"

def compileAggArg (arg : String) : Except CompileError (ScalarFn × ColumnType) :=
  if arg = "*" then .ok (fun _ => .bool true, .bool)
  else evaluated (compileTypedScalar C schema arg)

def aggregateFunction (function : String) (distinct : Bool) (argType : ColumnType) :
    Except CompileError (DatumAggregate × ColumnType) :=
  match String.ofList (function.toList.map Char.toLower) with
  | "count" => .ok (.count distinct, .int)
  | "sum" =>
    if argType = .int then .ok (.sumInt distinct, .int) else .ok (.sumFloat distinct, .float)
  | "avg" => .ok (.avg distinct, .float)
  | "min" => .ok (.min, argType)
  | "max" => .ok (.max, argType)
  | other => .error (.unsupportedAggregate other)

def compileAgg (agg : AggExpr) : Except CompileError (ScalarFn × DatumAggregate × Column) := do
  let (distinct, arg) := parseAggCall agg
  let (extract, argType) ← compileAggArg C schema arg
  let (function, outputType) ← aggregateFunction agg.function distinct argType
  .ok (extract, function, ⟨agg.aliasName.getD (aggregateDisplayName agg), outputType, none⟩)

/-- Over no rows a count is zero and every other aggregate NULL. -/
def emptyValue : DatumAggregate → Datum
  | .count _ => .i64 0
  | _ => .null

def groupColumn (index : ℕ) : Column :=
  match schema.columns[index]? with
  | some column => { column with source := none }
  | none => ⟨"", .unknown, none⟩

def compileAggregate (groupBy : List ColumnRef) (aggs : List AggExpr) :
    Except CompileError (UnaryRecipe Datum × NodeSchema) := do
  let indices ← groupBy.mapM (compileGroupColumn schema)
  let calls ← aggs.mapM (compileAgg C schema)
  let functions := calls.map fun call => call.2.1
  let recipe := UnaryRecipe.aggregate (fun row => indices.map fun i => row.getD i .null)
    (calls.map fun call => call.1) functions
    (if groupBy = [] then some (functions.map emptyValue) else none)
  .ok (recipe, ⟨indices.map (groupColumn schema) ++ calls.map fun call => call.2.2⟩)

end

section
variable (C : Compiler) (schema : NodeSchema)

def compileKeyExtractor (expression : String) : Except CompileError ScalarFn :=
  let entry := trimmed expression
  match keyIndex schema C.isAlphanumeric entry with
  | some index => .ok fun row => row.getD index .null
  | none => evaluated (compileScalar C schema entry)

def combineKeyExtractors (extractors : List ScalarFn) (row : Row Datum) : List Datum :=
  extractors.map fun extract => extract row

def compileTopK (orderBy : List OrderKey) (limit offset : ℕ) :
    Except CompileError (UnaryRecipe Datum) := do
  let extractors ← orderBy.mapM fun key => compileKeyExtractor C schema key.expression
  .ok (.topK (combineKeyExtractors extractors) (orderBy.map OrderKey.descending) limit offset)

def compileDistinctOn (on : List String) (orderBy : List OrderKey) :
    Except CompileError (UnaryRecipe Datum) := do
  let onExtractors ← on.mapM (compileKeyExtractor C schema)
  let sortExtractors ← orderBy.mapM fun key => compileKeyExtractor C schema key.expression
  .ok (.distinctOn (combineKeyExtractors onExtractors) (combineKeyExtractors sortExtractors)
    (orderBy.map OrderKey.descending))

end

structure Compiled where
  schema : NodeSchema
  plan : Plan Datum

def ColumnRef.debug (reference : ColumnRef) : String :=
  let relation := match reference.relation with
    | some relation => "Some(" ++ relation.quote ++ ")"
    | none => "None"
  "ColumnRef \x7b relation: " ++ relation ++ ", name: " ++ reference.name.quote ++ " \x7d"

def compileJoinKey (left right : NodeSchema) (pair : ColumnRef × ColumnRef) :
    Except CompileError (ℕ × ℕ) :=
  match resolvePair left right pair with
  | some keys => .ok keys
  | none =>
    .error (.unknown ("join key " ++ ColumnRef.debug pair.1 ++ " = " ++ ColumnRef.debug pair.2))

def joinSchema (kind : JoinKind) (left right : NodeSchema) : NodeSchema :=
  match kind with
  | .inner | .left => left.append right
  | .semi | .anti => left

def compileJoin (kind : JoinKind) (on : List (ColumnRef × ColumnRef)) (left right : Compiled) :
    Except CompileError Compiled :=
  if on = [] then .error (.unsupported "join without equi-keys")
  else do
    let keys ← on.mapM (compileJoinKey left.schema right.schema)
    .ok ⟨joinSchema kind left.schema right.schema,
      .dual (.join kind (keys.map Prod.fst) (keys.map Prod.snd) right.schema.columns.length)
        left.plan right.plan⟩

/-- Branches of a set operation have as many columns; the left one names them. -/
def compileSetOp (what : String) (recipe : DualRecipe) (left right : Compiled) :
    Except CompileError Compiled :=
  let leftWidth := left.schema.columns.length
  let rightWidth := right.schema.columns.length
  if leftWidth = rightWidth then
    .ok ⟨left.schema.within none, .dual recipe left.plan right.plan⟩
  else .error (.unsupported
    (what ++ " branches with " ++ toString leftWidth ++ " vs " ++ toString rightWidth ++
      " columns"))

def compileBaseTable (C : Compiler) (table : String) (project : List ColumnRef) :
    Except CompileError Compiled :=
  match C.lookup table with
  | none => .error (.unknown ("table " ++ table))
  | some (id, columns) => do
    let full : NodeSchema := ⟨columns.map fun column => ⟨column.1, column.2, some table⟩⟩
    if project = [] then .ok ⟨full, .baseTable id⟩
    else
      let narrowed ← project.mapM fun reference =>
        match full.columnType reference.name with
        | some ty => .ok (⟨reference.name, ty, some table⟩ : Column)
        | none => .error (.unknown (table ++ "." ++ reference.name))
      .ok ⟨⟨narrowed⟩, .baseTable id⟩

def singleInput : List Compiled → Except CompileError Compiled
  | [input] => .ok input
  | [] => .error (.unknown "expected input edge")
  | _ => .error (.unsupported "multi-input node")

def pairedInputs (what : String) : List Compiled → Except CompileError (Compiled × Compiled)
  | [left, right] => .ok (left, right)
  | inputs => .error (.unsupported (what ++ " with " ++ toString inputs.length ++ " inputs"))

/-- What a node needs to know of the rest of the graph: its compiled inputs, the body of the CTE it
refers to, whether the recursion it closes is well scoped, and the columns of a recursion's base. -/
structure Surroundings where
  inputs : List Compiled
  expansion : Option Compiled
  recursion : String → Except CompileError Unit
  working : String → Except CompileError NodeSchema

section
variable (C : Compiler)

def compileFilter (predicate : String) (input : Compiled) : Except CompileError Compiled := do
  let scalar ← evaluated (compileScalar C input.schema predicate)
  .ok ⟨input.schema, .unary (.filter fun row => (scalar row).isTrue) input.plan⟩

def compileNode (kind : MirNodeKind) (around : Surroundings) : Except CompileError Compiled :=
  match kind with
  | .baseTable table project => compileBaseTable C table project
  | .filter predicate => do compileFilter C predicate (← singleInput around.inputs)
  | .project columns => do
    let input ← singleInput around.inputs
    let outputs ← compileProject C input.schema columns
    .ok ⟨⟨outputs.map Prod.snd⟩, .unary (.project (extractRow outputs)) input.plan⟩
  | .aggregate groupBy aggs => do
    let input ← singleInput around.inputs
    let (recipe, schema) ← compileAggregate C input.schema groupBy aggs
    .ok ⟨schema, .unary recipe input.plan⟩
  | .topK orderBy limit offset => do
    let input ← singleInput around.inputs
    let recipe ← compileTopK C input.schema orderBy limit offset
    .ok ⟨input.schema, .unary recipe input.plan⟩
  | .distinctOn on orderBy => do
    let input ← singleInput around.inputs
    let recipe ← compileDistinctOn C input.schema on orderBy
    .ok ⟨input.schema, .unary recipe input.plan⟩
  | .distinct => do
    let input ← singleInput around.inputs
    .ok ⟨input.schema, .unary .distinct input.plan⟩
  | .join kind on => do
    let (left, right) ← pairedInputs "join" around.inputs
    compileJoin kind on left right
  | .union quantifier => do
    let (left, right) ← pairedInputs "union" around.inputs
    compileSetOp "UNION" (.union (quantifier == .all)) left right
  | .except quantifier => do
    let (left, right) ← pairedInputs "set operation" around.inputs
    compileSetOp "set-operation" (.setOp false (quantifier == .all)) left right
  | .intersect quantifier => do
    let (left, right) ← pairedInputs "set operation" around.inputs
    compileSetOp "set-operation" (.setOp true (quantifier == .all)) left right
  | .fixpoint cte unionAll => do
    let (base, step) ← pairedInputs "fixpoint" around.inputs
    around.recursion cte
    .ok ⟨base.schema.within none, .fixpoint cte unionAll base.plan step.plan⟩
  | .recursiveRef cte => do
    let schema ← around.working cte
    .ok ⟨schema.within (some cte), .recursiveRef cte⟩
  | .cteRef cte =>
    match around.expansion with
    | some target => .ok ⟨target.schema.within (some cte), .cteRef target.plan⟩
    | none => .error (.unknown ("cte " ++ cte))
  | .leaf _ => .error (.unsupported "Leaf")

end

/-! The walk over a graph. -/
section
variable (C : Compiler) (g : MirGraph)

def isFixpoint : MirNodeKind → Bool
  | .fixpoint _ _ => true
  | _ => false

def dependencies (node : ℕ) : List ℕ := g.orderedInputs node ++ g.expansions node

/-- Nodes below `start` up to the nested fixpoints, and those fixpoints. -/
def partitionFrom (start : ℕ) : (fuel : ℕ) → (stack topLevel nested : List ℕ) → List ℕ × List ℕ
  | 0, _, topLevel, nested => (topLevel, nested)
  | _ + 1, [], topLevel, nested => (topLevel, nested)
  | fuel + 1, current :: stack, topLevel, nested =>
    if current ∈ topLevel ∨ current ∈ nested then partitionFrom start fuel stack topLevel nested
    else if current ≠ start ∧ (g.kind? current).any isFixpoint = true then
      partitionFrom start fuel stack topLevel (nested ++ [current])
    else
      partitionFrom start fuel (dependencies g current ++ stack) (topLevel ++ [current]) nested

def fixpointStepPartition (start : ℕ) : List ℕ × List ℕ :=
  partitionFrom g start (g.graph.edges.length + 1) [start] [] []

def nestedNodes : (fuel : ℕ) → List ℕ → List ℕ
  | 0, _ => []
  | fuel + 1, pending => pending.flatMap fun nested =>
    let (nodes, deeper) := fixpointStepPartition g nested
    nodes ++ nestedNodes fuel deeper

def checkTopLevel (cte : String) (node : ℕ) : Except CompileError Unit :=
  match g.kind? node with
  | some (.recursiveRef name) =>
    if name = cte then .ok ()
    else .error (.unsupported ("recursive CTE " ++ name ++ " referenced outside its fixpoint"))
  | _ => .ok ()

def checkNested (cte : String) (node : ℕ) : Except CompileError Unit :=
  match g.kind? node with
  | some (.recursiveRef name) =>
    if name = cte then
      .error (.unsupported ("nested recursive CTE references enclosing recursion " ++ cte))
    else .ok ()
  | _ => .ok ()

/-- The recursions that the step of a fixpoint refers to. -/
def checkScoped (step : Option ℕ) (cte : String) : Except CompileError Unit :=
  match step with
  | none => .ok ()
  | some step => do
    let (topLevel, nested) := fixpointStepPartition g step
    topLevel.forM (checkTopLevel g cte)
    (nestedNodes g g.nodeCount nested).forM (checkNested g cte)

/-- The base of the first fixpoint of that name. -/
def fixpointBase (cte : String) : Except CompileError ℕ :=
  match (List.range g.nodeCount).find? fun node =>
      match g.kind? node with
      | some (.fixpoint name _) => name = cte
      | _ => false with
  | none => .error (.unknown ("fixpoint for recursive CTE " ++ cte))
  | some fixpoint =>
    match g.orderedInputs fixpoint with
    | base :: _ => .ok base
    | [] => .error (.unknown ("fixpoint base for " ++ cte))

/-- A node after everything it depends on. Nothing deeper than the number of nodes is reached in a
graph without cycles. -/
def compileAt : (fuel : ℕ) → (node : ℕ) → Except CompileError Compiled
  | 0, _ => .error .cycle
  | fuel + 1, node => do
    let inputs ← (g.orderedInputs node).mapM (compileAt fuel)
    let targets ← (g.expansions node).mapM (compileAt fuel)
    match g.kind? node with
    | none => .error (.unknown "node")
    | some kind =>
      compileNode C kind
        ⟨inputs, targets.head?, checkScoped g (g.orderedInputs node)[1]?, fun cte => do
          let base ← fixpointBase g cte
          let compiled ← compileAt fuel base
          .ok compiled.schema⟩

/-- Every node is compiled; the root's plan is the query's. -/
def Compiler.compileMir : Except CompileError Compiled := do
  (List.range g.nodeCount).forM fun node => (compileAt C g (g.nodeCount + 1) node).map fun _ => ()
  compileAt C g (g.nodeCount + 1) g.root

end

/-! What a successful compilation went through. -/
section
variable {C : Compiler}

theorem pairedInputs_ok (h : pairedInputs what inputs = .ok pair) : inputs = [pair.1, pair.2] := by
  match inputs, h with
  | [_, _], h => rw [← Except.ok.inj h]

end

end Palimpsest.Dataflow
