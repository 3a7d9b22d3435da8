import Palimpsest.Foundation.FirstPerKey
import Palimpsest.Sql.Mir
import Mathlib.Data.List.Lex
import Mathlib.Data.Prod.Lex

/-! The bag of rows a query graph denotes over a database. -/
namespace Palimpsest.Sql
open List
open Function (update update_of_ne)

structure Relation (δ : Type*) where
  columns : List ColumnRef
  rows : Multiset (List δ)

/-- What the texts and the other operators of a query mean. Predicate and scalar texts read a row
through its columns; `operator` covers the nodes whose meaning the permission layer never looks
into, and `fixpoint` receives the base term and the step term as a function of the working table. -/
structure Semantics (δ : Type*) where
  null : δ
  holds : String → List ColumnRef → List δ → Bool
  value : String → List ColumnRef → List δ → δ
  compareSort : δ → δ → Ordering
  operator : MirNodeKind → List (Relation δ) → Option (Relation δ)
  cteRef : String → Relation δ → Relation δ
  fixpoint : Bool → Relation δ → (Relation δ → Option (Relation δ)) → Option (Relation δ)

abbrev Database (δ : Type*) := String → Option (Relation δ)

abbrev RecursiveEnv (δ : Type*) := String → Option (Relation δ)

open MirGraph

namespace Semantics
variable {δ : Type*} [LinearOrder δ] (S : Semantics δ)

def filter (predicate : String) (r : Relation δ) : Relation δ :=
  { r with rows := r.rows.filter fun row => S.holds predicate r.columns row }

/-- Compares sort keys one by one with their directions, and breaks ties by the row itself. -/
def sortKeyComparator (descending : List Bool) (a b : List δ ×ₗ List δ) : Ordering :=
  let keys := descending.zipIdx.map fun d =>
    let ordering := S.compareSort ((ofLex a).1.getD d.2 S.null) ((ofLex b).1.getD d.2 S.null)
    if d.1 then ordering.swap else ordering
  keys.foldr Ordering.then (compare (ofLex a).2 (ofLex b).2)

/-- Keeps the first row of each group under the sort keys. -/
def distinctOn (on : List String) (orderBy : List OrderKey) (r : Relation δ) : Relation δ :=
  let key (d : List δ ×ₗ List δ) := on.map fun e => S.value e r.columns (ofLex d).2
  let sorted := r.rows.map fun row =>
    toLex (orderBy.map fun k => S.value k.expression r.columns row, row)
  let picked := FirstPerKey.firstPerKey key
    (S.sortKeyComparator (orderBy.map OrderKey.descending)) sorted
  { r with rows := picked.map fun d => (ofLex d).2 }

/-- The value of node `i` once the values of its operands are known. -/
def nodeValue (g : MirGraph) (db : Database δ)
    (operand : RecursiveEnv δ → ℕ → Option (Relation δ)) (env : RecursiveEnv δ) (i : ℕ) :
    Option (Relation δ) :=
  match g.kind? i with
  | none => none
  | some (.baseTable table _) => db table
  | some (.filter predicate) =>
    match g.orderedInputs i with
    | [j] => (operand env j).map (S.filter predicate)
    | _ => none
  | some (.distinctOn on orderBy) =>
    match g.orderedInputs i with
    | [j] => (operand env j).map (S.distinctOn on orderBy)
    | _ => none
  | some (.cteRef cte) =>
    match g.expansions i with
    | [j] => (operand env j).map (S.cteRef cte)
    | _ => none
  | some (.fixpoint cte unionAll) =>
    match g.orderedInputs i with
    | [base, step] => (operand env base).bind fun b =>
        S.fixpoint unionAll b fun working =>
          operand (update env cte (some working)) step
    | _ => none
  | some (.recursiveRef cte) => env cte
  | some (.leaf _) => none
  | some kind => ((g.orderedInputs i).mapM (operand env)).bind (S.operator kind)

def evalNode (g : MirGraph) (db : Database δ) : ℕ → RecursiveEnv δ → ℕ → Option (Relation δ)
  | 0, _, _ => none
  | fuel + 1, env, i => S.nodeValue g db (evalNode g db fuel) env i

/-- The value of the root; no path of an acyclic graph is longer than its node count. -/
def evaluate (g : MirGraph) (db : Database δ) : Option (Relation δ) :=
  S.evalNode g db g.nodeCount (fun _ => none) g.root

theorem nodeValue_map (hkind : g'.kind? i = g.kind? i)
    (hins : g'.orderedInputs i = (g.orderedInputs i).map m)
    (hexpansions : g'.expansions i = (g.expansions i).map m)
    (hoperand : ∀ env j, j ∈ g.orderedInputs i ∨ j ∈ g.expansions i →
      operand' env (m j) = operand env j) (env) :
    S.nodeValue g' db operand' env i = S.nodeValue g db operand env i := by
  unfold nodeValue
  rw [hkind]
  cases g.kind? i with
  | none => rfl
  | some kind =>
    -- every operator reads its operands only through `orderedInputs` or `expansions`
    have hall : ((g'.orderedInputs i).mapM (operand' env)) =
        (g.orderedInputs i).mapM (operand env) := by
      rw [hins]
      have hin : ∀ j ∈ g.orderedInputs i, operand' env (m j) = operand env j :=
        fun j hj => hoperand env j (Or.inl hj)
      revert hin
      generalize g.orderedInputs i = js
      intro hin
      induction js with
      | nil => rfl
      | cons j js ih =>
        have hj := hin j mem_cons_self
        have hjs := ih fun k hk => hin k (mem_cons_of_mem _ hk)
        simp [hj, hjs]
    cases kind with
    | baseTable | recursiveRef | leaf => rfl
    | project | join | aggregate | distinct | union | except | intersect | topK => simp [hall]
    | filter | distinctOn =>
      simp only [hins]
      match hin : g.orderedInputs i with
      | [] => rfl
      | [j] => simp [hoperand env j (.inl (by simp [hin]))]
      | _ :: _ :: _ => rfl
    | cteRef =>
      simp only [hexpansions]
      match hex : g.expansions i with
      | [] => rfl
      | [j] => simp [hoperand env j (.inr (by simp [hex]))]
      | _ :: _ :: _ => rfl
    | fixpoint =>
      simp only [hins]
      match hin : g.orderedInputs i with
      | [] | [_] => rfl
      | [base, step] =>
        have hbase := hoperand env base (Or.inl (by simp [hin]))
        have hstep : ∀ e, operand' e (m step) = operand e step :=
          fun e => hoperand e step (Or.inl (by simp [hin]))
        simp [hbase, hstep]
      | _ :: _ :: _ :: _ => rfl

/-- Evaluation in which the readers of node `i` see its value through `hook i`. -/
def evalThrough (g : MirGraph) (db : Database δ) (hook : ℕ → Relation δ → Option (Relation δ)) :
    ℕ → RecursiveEnv δ → ℕ → Option (Relation δ)
  | 0, _, _ => none
  | fuel + 1, env, i => (S.nodeValue g db (evalThrough g db hook fuel) env i).bind (hook i)

def evaluateThrough (g : MirGraph) (db : Database δ)
    (hook : ℕ → Relation δ → Option (Relation δ)) : Option (Relation δ) :=
  S.evalThrough g db hook g.nodeCount (fun _ => none) g.root

theorem evaluateThrough_some (g db) : S.evaluateThrough g db (fun _ => some) = S.evaluate g db := by
  have heval : ∀ fuel, S.evalThrough g db (fun _ => some) fuel = S.evalNode g db fuel := by
    intro fuel
    induction fuel with
    | zero => rfl
    | succ fuel ih => simp [evalThrough, evalNode, ih]
  rw [evaluateThrough, heval, evaluate]

theorem evaluateThrough_congr (hwf : g.WellFormed) (h : ∀ i, i < g.nodeCount → hook i = hook' i) :
    S.evaluateThrough g db hook = S.evaluateThrough g db hook' := by
  have heval : ∀ fuel env i, i < g.nodeCount →
      S.evalThrough g db hook fuel env i = S.evalThrough g db hook' fuel env i := by
    intro fuel
    induction fuel with
    | zero => intros; rfl
    | succ fuel ih =>
      intro env i hi
      have hvalue : S.nodeValue g db (S.evalThrough g db hook fuel) env i =
          S.nodeValue g db (S.evalThrough g db hook' fuel) env i :=
        S.nodeValue_map (m := id) rfl (map_id _).symm (map_id _).symm
          (fun env j hj => ih env j (hwf.operand_lt hj)) env
      simp [evalThrough, hvalue, h i hi]
  exact heval _ _ _ hwf.root_lt

section
variable {g : MirGraph} {F : Relation δ → Relation δ} (db : Database δ)
  (hook : ℕ → Relation δ → Option (Relation δ))

/-- Readers of `t` in the old graph look through `F` and the hook of the new node `n`, which is
what they read in the new graph. -/
def hookAt (t n : ℕ) (F : Relation δ → Relation δ) : ℕ → Relation δ → Option (Relation δ) :=
  update hook t fun r => ((hook t r).map F).bind (hook n)

variable (hwf : g.WellFormed)
include hwf

theorem evalThrough_spliceAbove (hrank : g.Topological rank) (ht : t < g.nodeCount)
    (hnew : ∀ operand env, S.nodeValue (g.spliceAbove t k).1 db operand env g.nodeCount =
      (operand env t).map F) (fuel : ℕ) : ∀ fuel' env i, i < g.nodeCount → rank i < fuel →
      spliceRank rank t g.nodeCount (movedTo t g.nodeCount i) < fuel' →
      S.evalThrough (g.spliceAbove t k).1 db hook fuel' env (movedTo t g.nodeCount i) =
        S.evalThrough g db (hookAt hook t g.nodeCount F) fuel env i := by
  have hrank' := hrank.spliceAbove hwf ht k
  induction fuel with
  | zero => intro _ _ i _ hi; omega
  | succ fuel ih =>
    intro fuel' env i hi hlt hlt'
    -- an old node computes the same value from operands evaluated with any sufficient fuel
    have hvalue : ∀ f, spliceRank rank t g.nodeCount i ≤ f → ∀ env,
        S.nodeValue (g.spliceAbove t k).1 db (S.evalThrough (g.spliceAbove t k).1 db hook f) env i =
          S.nodeValue g db (S.evalThrough g db (hookAt hook t g.nodeCount F) fuel) env i := by
      intro f hf env
      have hins := spliceAbove_orderedInputs_old (k := k) hwf ht hi.ne
      have hexpansions := spliceAbove_expansions (k := k) hwf ht i
      apply S.nodeValue_map (spliceAbove_kind_old hi) hins hexpansions
      intro env j hj
      have hmoved : movedTo t g.nodeCount j ∈ (g.spliceAbove t k).1.orderedInputs i ∨
          movedTo t g.nodeCount j ∈ (g.spliceAbove t k).1.expansions i := by
        rw [hins, hexpansions]
        exact hj.imp mem_map_of_mem mem_map_of_mem
      have hjnew := hrank'.operand_lt hmoved
      have hjold := hrank.operand_lt hj
      exact ih f env j (hwf.operand_lt hj) (by omega) (by omega)
    obtain ⟨f, rfl⟩ : ∃ f, fuel' = f + 1 := ⟨fuel' - 1, by omega⟩
    rcases eq_or_ne i t with rfl | hit
    · have hsame : spliceRank rank i g.nodeCount i = rank i := by simp [spliceRank, hi.ne]
      have hrn : spliceRank rank i g.nodeCount g.nodeCount = rank i + 1 := by simp [spliceRank]
      simp only [movedTo, ↓reduceIte] at hlt' ⊢
      obtain ⟨f', rfl⟩ : ∃ f', f = f' + 1 := ⟨f - 1, by omega⟩
      simp only [evalThrough, hnew, hvalue f' (by omega)]
      cases hval :
          S.nodeValue g db (S.evalThrough g db (hookAt hook i g.nodeCount F) fuel) env i with
      | none => rfl
      | some r => simp [hookAt]
    · simp only [movedTo, hit, ↓reduceIte] at hlt' ⊢
      simp [evalThrough, hvalue f (by omega), hookAt, update_of_ne hit]

theorem evaluateThrough_spliceAbove (hacyc : g.Acyclic) (ht : t < g.nodeCount)
    (hnew : ∀ operand env, S.nodeValue (g.spliceAbove t k).1 db operand env g.nodeCount =
      (operand env t).map F) : S.evaluateThrough (g.spliceAbove t k).1 db hook =
      S.evaluateThrough g db (hookAt hook t g.nodeCount F) := by
  obtain ⟨rank, hrank⟩ := hacyc
  have hroot := (hwf.spliceAbove (k := k) ht).root_lt
  apply S.evalThrough_spliceAbove db hook hwf hrank ht hnew _ _ _ _ hwf.root_lt
  · exact hrank.lt_count _ hwf.root_lt
  · exact (hrank.spliceAbove hwf ht k).lt_count _ hroot

theorem nodeValue_filter_new (ht : t < g.nodeCount) (pred operand env) :
    S.nodeValue (g.spliceAbove t (.filter pred)).1 db operand env g.nodeCount =
      (operand env t).map (S.filter pred) := by
  simp [nodeValue, spliceAbove_kind_new, spliceAbove_orderedInputs_new hwf ht]

theorem nodeValue_distinctOn_new (ht : t < g.nodeCount) (on orderBy operand env) :
    S.nodeValue (g.spliceAbove t (.distinctOn on orderBy)).1 db operand env g.nodeCount =
      (operand env t).map (S.distinctOn on orderBy) := by
  simp [nodeValue, spliceAbove_kind_new, spliceAbove_orderedInputs_new hwf ht]

end

/-- Looking at scans through a hook is evaluating over a changed database. -/
theorem evaluateThrough_scans
    (hscan : ∀ i table project, g.kind? i = some (.baseTable table project) →
      (db table).bind (hook i) = db' table)
    (hother : ∀ i, (g.kind? i).any MirNodeKind.isBaseTable = false → hook i = some) :
    S.evaluateThrough g db hook = S.evaluate g db' := by
  have heval : ∀ fuel, S.evalThrough g db hook fuel = S.evalNode g db' fuel := by
    intro fuel
    induction fuel with
    | zero => rfl
    | succ fuel ih =>
      funext env i
      simp only [evalThrough, evalNode, ih]
      cases hkind : g.kind? i with
      | none => simp [nodeValue, hkind]
      | some kind =>
        cases kind with
        | baseTable table project => simp [nodeValue, hkind, hscan i table project hkind]
        | _ =>
          have hid : hook i = some := hother i (by simp [hkind, MirNodeKind.isBaseTable])
          simp [nodeValue, hkind, hid]
  rw [evaluateThrough, heval, evaluate]

end Semantics

end Palimpsest.Sql
