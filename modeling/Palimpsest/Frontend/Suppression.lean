import Palimpsest.Frontend.Recursion
import Palimpsest.Dataflow.Signs

/-! Prepared queries, and the tables whose rows can only take rows out of their results. -/
namespace Palimpsest.Frontend
open Sql Dataflow IndexedDigraph Function

section
variable (g : MirGraph)

def entersAntiRight (edge : Edge MirEdgeKind) : Bool :=
  match g.kind? edge.target, edge.weight with
  | some (.join .anti _), .input 1 => true
  | _, _ => false

/-- The walk from a node to its consumers; `seen` are the nodes it came through. The fuel is larger
than the number of nodes, all of which differ on a walk. -/
def protectedFrom : ℕ → List ℕ → ℕ → Bool
  | 0, _, _ => false
  | fuel + 1, seen, node =>
    let consumers := (g.graph.edgesFrom node).map Prod.fst
    decide (node ∉ seen) && !consumers.isEmpty && consumers.all fun edge =>
      entersAntiRight g edge || protectedFrom fuel (node :: seen) edge.target

def antiJoinProtected (base : ℕ) : Bool := protectedFrom g (g.nodeCount + 1) [] base

/-- The tables that can source output rows. -/
def leakyTables : List String :=
  ((g.baseTableIndices.filterMap fun index => match g.kind? index with
    | some (.baseTable table _) => if antiJoinProtected g index then none else some table
    | _ => none).dedup).insertionSort (· ≤ ·)

end

/-- A query text with parameters: `substitute` puts arguments of type `α` in their places. -/
structure Prepared (α : Type) where
  name : String
  depth : ℕ
  substitute : α → Except SqlError (Statement depth)

structure PreparedQuery (α : Type) extends Prepared α where
  leakyTables : List String

inductive RegisterError where
  | duplicate (name : String)
  | unsupported (query : String) (source : SqlError)
  | reachabilityViolation (table query : String)
deriving DecidableEq

section
variable {α : Type} (text : ∀ n, Printer (Statement n))

def bindPrepared (prepared : Prepared α) (params : α) : Except SqlError MirTree := do
  let statement ← prepared.substitute params
  parseAndLower text statement

/-- The tables are read off the graph of one binding, of representative values. -/
def registerFull (registry : List (PreparedQuery α)) (prepared : Prepared α) (dummies : α) :
    Except RegisterError (List (PreparedQuery α)) :=
  if registry.any (·.name = prepared.name) then .error (.duplicate prepared.name)
  else match bindPrepared text prepared dummies with
    | .error source => .error (.unsupported prepared.name source)
    | .ok bound => .ok (registry ++ [⟨prepared, leakyTables bound.graph⟩])

def assertAntiJoinOnly (registry : List (PreparedQuery α)) (table : String) :
    Except RegisterError Unit :=
  match registry.find? fun query => query.leakyTables.any (· = table) with
  | some query => .error (.reachabilityViolation table query.name)
  | none => .ok ()

/-- Rows added to the table only take rows out of the result, for each query and each binding. -/
def OnlySuppresses (C : Compiler) (values : Datums Datum) (registry : List (PreparedQuery α))
    (table : String) : Prop :=
  ∀ query ∈ registry, ∀ params bound compiled,
    bindPrepared text query.toPrepared params = .ok bound →
    C.compileMir bound.graph = .ok compiled → ∀ id columns, C.lookup table = some (id, columns) →
    ∀ tables added out out', Settles values tables compiled.plan out →
      Settles values (update tables id (tables id + added)) compiled.plan out' → out' ≤ out

variable {text}

/-- It is enough that the plan of every binding follows the table downwards. -/
theorem only_suppresses_of_follows {C : Compiler} {values : Datums Datum}
    {registry : List (PreparedQuery α)} {table : String}
    (h : ∀ query ∈ registry, ∀ params bound compiled,
      bindPrepared text query.toPrepared params = .ok bound →
        C.compileMir bound.graph = .ok compiled →
      ∀ id columns, C.lookup table = some (id, columns) → compiled.plan.follows id false = true) :
    OnlySuppresses text C values registry table := by
  rintro query hquery params bound compiled hbound hcomp id columns hid tables added out out'
    ⟨enough, hout⟩ ⟨enough', hout'⟩
  have hfollows := h query hquery params bound compiled hbound hcomp id columns hid
  -- the tables before and after
  let both : Bool → TableId → Multiset (Row Datum)
    | false => tables
    | true => update tables id (tables id + added)
  have hsame : ∀ other, other ≠ id → both false other = both true other :=
    fun other hne => (update_of_ne hne _ _).symm
  have hmore : both false id ≤ both true id := by
    change tables id ≤ update tables id (tables id + added) id
    rw [update_self]
    exact Multiset.le_add_right _ _
  exact eval_follows values hsame hmore hfollows (hout' (max enough enough') (le_max_right _ _))
    (hout _ (le_max_left _ _))

end

/-! `roots` is read below two anti joins, one over the other. -/
section Nested

/-- `SELECT column FROM source WHERE NOT EXISTS (subquery)`. -/
def selectUnless {κ : Type} (column : Expr κ) (source : TableFactor κ) (subquery : κ) : Query κ :=
  .ofSelect { Select.plain [column] ⟨source, []⟩ with selection := some (.exists subquery true) }

/-- `SELECT inner FROM source WHERE inner = outer`. -/
def selectEqual {κ : Type} (inner outer : Expr κ) (source : TableFactor κ) : Query κ :=
  .ofSelect { Select.plain [inner] ⟨source, []⟩ with selection := some (.binaryOp inner .eq outer) }

/-- `SELECT f.dst FROM edges f WHERE NOT EXISTS (SELECT r.id FROM roots r WHERE r.id = f.dst)`. -/
def unrooted : Statement 2 :=
  selectUnless (.qualified "f" "dst") (.aliased "edges" "f")
    (selectEqual (.qualified "r" "id") (.qualified "f" "dst") (.aliased "roots" "r"))

/-- `SELECT e.src FROM edges e WHERE NOT EXISTS (SELECT d.dst FROM (…) d WHERE d.dst = e.dst)`, over
the destinations that are not roots. -/
def rooted : Statement 4 :=
  selectUnless (.qualified "e" "src") (.aliased "edges" "e")
    (selectEqual (.qualified "d" "dst") (.qualified "e" "dst")
      (.derived false unrooted (some ⟨⟨"d", false⟩, []⟩)))

def constantly {n : ℕ} (q : Statement n) : Prepared Unit := ⟨"edges", n, fun _ => .ok q⟩

theorem registerFull_constantly {q : Statement n} (h : parseAndLower noText q = .ok tree) :
    registerFull noText [] (constantly q) () = .ok [⟨constantly q, leakyTables tree.graph⟩] := by
  have hbind : bindPrepared noText (constantly q) () = .ok tree := h
  simp [registerFull, hbind]

theorem of_run {q : Statement n} {α : Type} {f : MirTree → Compiled → α} {a : α}
    (h : ((parseAndLower noText q).toOption.bind fun tree =>
      (walkCompiler.compileMir tree.graph).toOption.map (f tree)) = some a) :
    ∃ tree compiled, parseAndLower noText q = .ok tree ∧
      walkCompiler.compileMir tree.graph = .ok compiled ∧ f tree compiled = a := by
  cases htree : parseAndLower noText q with
  | error =>
    rw [htree] at h
    cases h
  | ok tree =>
    rw [htree] at h
    obtain ⟨compiled, hcomp, hrun⟩ := Option.map_eq_some_iff.mp h
    refine ⟨tree, compiled, rfl, ?_, hrun⟩
    cases hres : walkCompiler.compileMir tree.graph with
    | error =>
      rw [hres] at hcomp
      cases hcomp
    | ok =>
      rw [hres] at hcomp
      exact congrArg _ (Option.some.inj hcomp)

def moreTables : TableId → List (Row Datum) := Function.update walkTables 0 [[.i64 1], [.i64 2]]

/-- The check accepts the query, and a second root brings a row into its result. -/
theorem nested_anti_joins_leak :
    ∃ registry, registerFull noText [] (constantly rooted) () = .ok registry ∧
      assertAntiJoinOnly registry "roots" = .ok () ∧
      ¬ OnlySuppresses noText walkCompiler sampleDatums registry "roots" := by
  obtain ⟨tree, compiled, htree, hcomp, hrun⟩ := of_run (q := rooted)
    (f := fun tree compiled => (leakyTables tree.graph,
      listEval sampleDatums 5 walkTables compiled.plan none,
      listEval sampleDatums 5 moreTables compiled.plan none))
    (a := (["edges"], some [], some [[.i64 1]])) (by decide +kernel)
  simp only [Prod.mk.injEq] at hrun
  obtain ⟨hleaky, hwas, hnow⟩ := hrun
  refine ⟨_, registerFull_constantly htree, by rw [hleaky]; rfl, fun h => ?_⟩
  have hmore : (fun table => (moreTables table : Multiset (Row Datum))) =
      Function.update (fun table => (walkTables table : Multiset (Row Datum))) 0
        (↑(walkTables 0) + {[.i64 2]}) := by
    funext table
    rcases eq_or_ne table 0 with rfl | htab
    · rfl
    · rw [moreTables, update_of_ne htab, update_of_ne htab]
  have hle := h _ (List.mem_singleton.mpr rfl) () tree compiled htree hcomp 0 _ rfl _ _ _ _
    (settles_of_listEval hwas) (hmore ▸ settles_of_listEval hnow)
  exact absurd (Multiset.card_le_card hle) (by decide)

theorem single_anti_join_suppresses :
    ∃ registry, registerFull noText [] (constantly unrooted) () = .ok registry ∧
      OnlySuppresses noText walkCompiler sampleDatums registry "roots" := by
  obtain ⟨tree, compiled, htree, hcomp, hrun⟩ := of_run (q := unrooted)
    (f := fun _ compiled => compiled.plan.follows 0 false) (a := true) (by decide +kernel)
  refine ⟨_, registerFull_constantly htree, only_suppresses_of_follows ?_⟩
  intro query hquery params bound compiled' hbound hcomp' id columns hid
  cases List.mem_singleton.mp hquery
  cases hid
  obtain rfl : tree = bound := Except.ok.inj (htree.symm.trans hbound)
  obtain rfl : compiled = compiled' := Except.ok.inj (hcomp.symm.trans hcomp')
  exact hrun

end Nested

end Palimpsest.Frontend
