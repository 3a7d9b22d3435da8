import Palimpsest.Frontend.Validation
import Palimpsest.Permissions.Rule

/-! The depth limit of rule predicates, over the kinds of nodes the compiler accepts. -/
namespace Palimpsest.Permissions
open Frontend List

section Measure
variable {κ : Type}

def maxPredicateDepth : ℕ := 32

mutual

def exprDepth : Expr κ → ℕ
  | .nested inner | .unaryOp _ inner | .isNull inner | .isNotNull inner | .isTrue inner
  | .isFalse inner => 1 + exprDepth inner
  | .binaryOp left _ right => 1 + max (exprDepth left) (exprDepth right)
  | .between needle _ low high =>
    1 + max (max (exprDepth needle) (exprDepth low)) (exprDepth high)
  | .inList needle list _ => 1 + max (exprDepth needle) (listDepth list)
  | .like _ subject pattern _ _ => 1 + max (exprDepth subject) (exprDepth pattern)
  | _ => 1

def listDepth : List (Expr κ) → ℕ
  | [] => 0
  | e :: rest => max (exprDepth e) (listDepth rest)

end

/-- `parsed` is what the parser makes of the predicate. -/
def enforcePredicateDepth (parsed : Except String (Expr κ)) (rule : String) :
    Except PermissionError Unit :=
  match parsed with
  | .error err => .error (.invalidConfig ("rule " ++ debugString rule ++ ": " ++ err))
  | .ok expr =>
    if maxPredicateDepth < exprDepth expr then
      .error (.predicateTooDeep rule (exprDepth expr) maxPredicateDepth)
    else .ok ()

def operands : Expr κ → List (Expr κ)
  | .nested inner | .unaryOp _ inner | .isNull inner | .isNotNull inner | .isTrue inner
  | .isFalse inner | .cast inner _ | .inSubquery inner _ _ => [inner]
  | .binaryOp left _ right | .anyOp left _ right | .isDistinctFrom left right
  | .isNotDistinctFrom left right | .like _ left right _ _ => [left, right]
  | .between needle _ low high => [needle, low, high]
  | .inList needle list _ => needle :: list
  | .case operand conditions results elseResult =>
    operand.toList ++ conditions ++ results ++ elseResult.toList
  | .array elements => elements
  | .function _ _ args filter => args ++ filter.toList
  -- validation refuses the kinds that are `other`
  | .identifier _ | .compoundIdentifier _ | .value _ | .wildcard _ | .exists _ _ | .subquery _
  | .other _ => []

def nestedQueries : Expr κ → List κ
  | .exists subquery _ | .inSubquery _ subquery _ | .subquery subquery => [subquery]
  | _ => []

/-- The kinds whose operands `exprDepth` looks at. -/
def descended : Expr κ → Bool
  | .nested _ | .unaryOp _ _ | .isNull _ | .isNotNull _ | .isTrue _ | .isFalse _ | .binaryOp _ _ _
  | .between _ _ _ _ | .inList _ _ _ | .like _ _ _ _ _ => true
  | _ => false

theorem lt_listDepth {list : List (Expr κ)} : n < listDepth list ↔ ∃ e ∈ list, n < exprDepth e := by
  induction list with
  | nil => simp [listDepth]
  | cons e list ih => simp [listDepth, ih]

theorem exprDepth_eq (e : Expr κ) :
    exprDepth e = 1 + if descended e then listDepth (operands e) else 0 := by
  cases e <;> simp [exprDepth, operands, descended, listDepth, max_assoc]

end Measure

/-! The expressions a nested query holds. -/
section Queries
variable {κ ν : Type} (node : Expr κ → ν) (nested : κ → List ν)

def factorNodes : TableFactor κ → List ν
  | .derived _ subquery _ => nested subquery
  | .table _ _ | .other => []

def joinNodes (join : Join κ) : List ν :=
  factorNodes nested join.relation ++
    match join.operator with
    | .inner (.on e) | .leftOuter (.on e) | .rightOuter (.on e) | .fullOuter (.on e) => [node e]
    | _ => []

def selectNodes (select : Select κ) : List ν :=
  (select.distinct.toList.flatMap Distinct.exprs ++ select.projection.flatMap SelectItem.exprs ++
    select.selection.toList ++ select.groupBy.exprs ++ select.having.toList).map node ++
  select.sources.flatMap fun source =>
    factorNodes nested source.relation ++ source.joins.flatMap (joinNodes node nested)

def setExprNodes : SetExpr κ → List ν
  | .select body => selectNodes node nested body
  | .query query => nested query
  | .setOperation _ _ left right => setExprNodes left ++ setExprNodes right
  | .other _ => []

def queryNodes (query : Query κ) : List ν :=
  ((query.ctes.toList.flatMap With.ctes).flatMap fun cte => nested cte.query) ++
    setExprNodes node nested query.body ++
    ((query.orderBy.toList.flatMap fun keys => keys.map OrderByExpr.expr) ++ query.limit.toList ++
      query.offset.toList ++ (query.fetch.bind Fetch.quantity).toList).map node

end Queries

/-- An expression inside `n` or fewer levels of queries. -/
abbrev ExprNode := Σ n, Expr (Statement n)

def statementNodes : (n : ℕ) → Statement n → List ExprNode
  | 0, query => nomatch query
  | n + 1, query => queryNodes (fun e => ⟨n, e⟩) (statementNodes n) query

def below (e : ExprNode) : List ExprNode :=
  (operands e.2).map (fun inner => ⟨e.1, inner⟩) ++ (nestedQueries e.2).flatMap (statementNodes e.1)

/-- There are `n` levels below the expression, each under a node that is counted. -/
def Nests (counted : ExprNode → Bool) : ℕ → ExprNode → Prop
  | 0, _ => True
  | n + 1, e => counted e = true ∧ ∃ inner ∈ below e, Nests counted n inner

theorem below_of_descended {e : Expr (Statement n)} (h : descended e = true) :
    below ⟨n, e⟩ = (operands e).map fun inner => ⟨n, inner⟩ := by
  have hnone : nestedQueries e = [] := by
    cases e <;> first | rfl | cases h
  simp [below, hnone]

theorem nests_descended_iff {e : Expr (Statement m)} :
    Nests (fun node => descended node.2) n ⟨m, e⟩ ↔ n < exprDepth e := by
  induction n generalizing e with
  | zero => simp [Nests, exprDepth_eq e]
  | succ n ih =>
    rw [Nests, exprDepth_eq e]
    by_cases hcounted : descended e = true
    · rw [if_pos hcounted, below_of_descended hcounted, Nat.add_comm 1, Nat.add_lt_add_iff_right,
        lt_listDepth]
      simp [hcounted, ih]
    · simp [hcounted]

/-- The measure is the nesting depth, and what is deeper than the limit is refused, for just the
predicates in which every level is also reached under nodes of the kinds that are looked into. -/
theorem depth_covered_iff {m : ℕ} (e : Expr (Statement m)) (rule : String) :
    (∀ n, Nests (fun _ => true) n ⟨m, e⟩ → n < exprDepth e ∧ (maxPredicateDepth ≤ n →
        enforcePredicateDepth (.ok e) rule =
          .error (.predicateTooDeep rule (exprDepth e) maxPredicateDepth))) ↔
      ∀ n, Nests (fun _ => true) n ⟨m, e⟩ → Nests (fun node => descended node.2) n ⟨m, e⟩ := by
  refine forall₂_congr fun n _ => ?_
  rw [nests_descended_iff]
  constructor
  · exact And.left
  · intro hdepth
    refine ⟨hdepth, fun hdeep => ?_⟩
    have hlimit : maxPredicateDepth < exprDepth e := hdeep.trans_lt hdepth
    simp [enforcePredicateDepth, hlimit]

section

/-- `id + id + … + id`. -/
def sumOfIds (n : ℕ) : Expr (Statement 0) :=
  (fun e => .binaryOp e .plus (.column "id"))^[n] (.column "id")

theorem nests_sumOfIds (n : ℕ) : Nests (fun _ => true) n ⟨0, sumOfIds n⟩ := by
  induction n with
  | zero => trivial
  | succ n ih =>
    rw [sumOfIds, Function.iterate_succ_apply']
    exact ⟨rfl, _, mem_cons_self, ih⟩

/-- `id = ANY(ARRAY[id + id + … + id])` with forty additions. -/
def deepAny : Expr (Statement 0) := .anyOp (.column "id") .eq (.array [sumOfIds 40])

theorem deepAny_passes : Nests (fun _ => true) 42 ⟨0, deepAny⟩ ∧ exprDepth deepAny = 1 ∧
    visitExpr (checksAt 0) deepAny = .ok () ∧ enforcePredicateDepth (.ok deepAny) "" = .ok () := by
  refine ⟨⟨rfl, _, mem_cons_of_mem _ mem_cons_self, rfl, _, mem_cons_self, ?_⟩, rfl, ?_, rfl⟩
  · exact nests_sumOfIds 40
  · decide +kernel

end

end Palimpsest.Permissions
