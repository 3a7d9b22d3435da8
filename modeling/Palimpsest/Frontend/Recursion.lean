import Palimpsest.Frontend.Lowering
import Palimpsest.Dataflow.Compile
import Palimpsest.Dataflow.WorkingTable
import Palimpsest.Dataflow.DatumCode

/-! Recursive queries from their text to their rows. -/
namespace Palimpsest.Frontend
open Sql Dataflow

/-- The plan of a recursive query settles on the rows of SQL's iteration: with `UNION` if the
recursive term makes its rows out of single rows of the working table, with `UNION ALL` if and only
if it makes nothing out of nothing. -/
theorem fixpoint_settles {C : Compiler} {cte : String} {unionAll : Bool} {around : Surroundings}
    {compiled base step : Compiled} {values : Datums Datum}
    {tables : TableId → Multiset (Row Datum)} {result : Multiset (Row Datum)} {rounds : ℕ}
    (hcompiled : compileNode C (.fixpoint cte unionAll) around = .ok compiled)
    (hinputs : around.inputs = [base, step]) (hdefined : StepDefined values tables step.plan)
    (hsql : workingTable values tables rounds unionAll base.plan step.plan = some result) :
    (unionAll = false → step.plan.rowWise = true → Settles values tables compiled.plan result) ∧
      (unionAll = true → (Settles values tables compiled.plan result ↔
        NothingFromNothing values tables step.plan)) := by
  have hplan : compiled.plan = .fixpoint cte unionAll base.plan step.plan := by
    obtain ⟨pair, hpair, hrest⟩ := Fallible.bind_ok hcompiled
    have hboth := (pairedInputs_ok hpair).symm.trans hinputs
    obtain ⟨_, -, ⟨⟩⟩ := Fallible.bind_ok hrest
    simp only [List.cons.injEq, and_true] at hboth
    rw [hboth.1, hboth.2]
  rw [hplan]
  cases unionAll with
  | false => exact ⟨fun _ hrow => union_settles hdefined hrow hsql, nofun⟩
  | true => exact ⟨fun h => (by cases h), fun _ => unionAll_settles_iff hdefined hsql⟩

/-! A recursive term that looks at the smallest row of its working table. -/
section Smallest

/-- `roots(id)` and `edges(src, dst)`. -/
def rootsAndEdges (table : String) : Option (TableId × List (String × ColumnType)) :=
  if table = "roots" then some (0, [("id", .int)])
  else if table = "edges" then some (1, [("src", .int), ("dst", .int)])
  else none

def walkCompiler : Compiler :=
  ⟨plainPrimitives, plainCasts, fun text => .error (.parse text), Char.isAlphanum, rootsAndEdges⟩

/-- The root `1` and the edges `1 → 2 → 3`. -/
def walkTables : TableId → List (Row Datum)
  | 0 => [[.i64 1]]
  | 1 => [[.i64 1, .i64 2], [.i64 2, .i64 3]]
  | _ => []

def selectFrom {κ : Type} (exprs : List (Expr κ)) (source : TableWithJoins κ) : SetExpr κ :=
  .select (.plain exprs source)

/-- `JOIN edges e ON e.src = m.id`. -/
def joinEdges {κ : Type} : Join κ :=
  ⟨.aliased "edges" "e", .inner (.on (.binaryOp (.qualified "e" "src") .eq (.qualified "m" "id")))⟩

/-- `WITH RECURSIVE r AS (SELECT id FROM roots UNION SELECT e.dst FROM m JOIN edges e ON e.src =
m.id) SELECT id FROM r`, where `m` stands for a source that reads `r`. -/
def walk {n : ℕ} (m : TableFactor (Statement n)) : Statement (n + 2) :=
  { Query.plain (selectFrom [.column "id"] ⟨.named "r", []⟩) with
    ctes := some ⟨true, [⟨⟨⟨"r", false⟩, []⟩, Query.plain (.setOperation .union .none
      (selectFrom [.column "id"] ⟨.named "roots", []⟩)
      (selectFrom [.qualified "e" "dst"] ⟨m, [joinEdges]⟩))⟩]⟩ }

/-- `(SELECT id FROM r ORDER BY id LIMIT 1) m`. -/
def smallestRow : TableFactor (Statement 1) :=
  .derived false
    { Query.plain (selectFrom [.column "id"] ⟨.named "r", []⟩) with
      orderBy := some [⟨.column "id", none, none⟩]
      limit := some (.value (.number "1")) }
    (some ⟨⟨"m", false⟩, []⟩)

def recursionOf : Plan Datum → Option (Plan Datum × Plan Datum)
  | .fixpoint _ _ base step => some (base, step)
  | .unary _ input => recursionOf input
  | .cteRef target => recursionOf target
  | _ => none

def planOf (C : Compiler) {n : ℕ} (q : Statement n) : Option (Plan Datum) :=
  match parseAndLower noText q with
  | .ok tree => (C.compileMir tree.graph).toOption.map Compiled.plan
  | .error _ => none

/-- SQL's rows of the recursion in a plan, and the rows that the plan settles on. -/
def sqlAndDataflow (rounds : ℕ) (plan : Plan Datum) :
    Option (Option (List (Row Datum)) × Option (List (Row Datum))) :=
  (recursionOf plan).map fun terms =>
    ((listEval sampleDatums rounds walkTables terms.1 none).bind fun seed =>
      WorkingTable.listUnion (fun working => listEval sampleDatums rounds walkTables terms.2
        (some working)) rounds seed.dedup seed.dedup,
    listEval sampleDatums rounds walkTables plan none)

theorem sqlAndDataflow_smallestRow :
    ((planOf walkCompiler (walk smallestRow)).bind (sqlAndDataflow 5)) =
      some (some [[.i64 1], [.i64 2], [.i64 3]], some [[.i64 1], [.i64 2]]) := by
  decide +kernel

/-- SQL reaches `3` from `2`, since `2` alone is in the working table then. The dataflow looks at
the smallest of all rows found so far, which stays `1`. -/
theorem smallestRow_differs : ∃ plan base step, planOf walkCompiler (walk smallestRow) = some plan ∧
      recursionOf plan = some (base, step) ∧
      workingTable sampleDatums (fun table => ↑(walkTables table)) 5 false base step =
        some ↑[[Datum.i64 1], [.i64 2], [.i64 3]] ∧
      Settles sampleDatums (fun table => ↑(walkTables table)) plan ↑[[Datum.i64 1], [.i64 2]] := by
  obtain ⟨plan, hplan, hboth⟩ := Option.bind_eq_some_iff.mp sqlAndDataflow_smallestRow
  obtain ⟨⟨base, step⟩, hterms, hrows⟩ := Option.map_eq_some_iff.mp hboth
  obtain ⟨hsql, hdataflow⟩ := Prod.mk.inj hrows
  refine ⟨plan, base, step, hplan, hterms, ?_, settles_of_listEval hdataflow⟩
  simp [workingTable_coe, hsql]

/-- `SELECT e.dst FROM r JOIN edges e ON e.src = r.id`, compiled. -/
def walkStep : Plan Datum :=
  .unary (.project fun row => [row.getD 2 .null])
    (.dual (.join .inner [0] [0] 2) (.recursiveRef "r") (.baseTable 1))

def walkAround : Surroundings :=
  ⟨[⟨⟨[⟨"id", .int, some "roots"⟩]⟩, .baseTable 0⟩, ⟨⟨[⟨"dst", .int, some "edges"⟩]⟩, walkStep⟩],
    none, fun _ => .ok (), fun cte => .error (.unknown cte)⟩

theorem walk_settles : Settles sampleDatums (fun table => ↑(walkTables table))
      (.fixpoint "r" false (.baseTable 0) walkStep) ↑[[Datum.i64 1], [.i64 2], [.i64 3]] := by
  have hsql : workingTable sampleDatums (fun table => ↑(walkTables table)) 5 false (.baseTable 0)
      walkStep = some ↑[[Datum.i64 1], [.i64 2], [.i64 3]] := by
    decide +kernel
  have hdef : StepDefined sampleDatums (fun table => ↑(walkTables table)) walkStep := ⟨0, rfl⟩
  have hcomp : compileNode walkCompiler (.fixpoint "r" false) walkAround =
      .ok ⟨⟨[⟨"id", .int, none⟩]⟩, .fixpoint "r" false (.baseTable 0) walkStep⟩ := rfl
  exact (fixpoint_settles hcomp rfl hdef hsql).1 rfl rfl

end Smallest

end Palimpsest.Frontend
