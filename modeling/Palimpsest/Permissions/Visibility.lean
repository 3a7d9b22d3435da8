import Palimpsest.Permissions.Rewriter
import Palimpsest.Sql.Evaluation
import Mathlib.Data.Multiset.Bind

/-! What permission rules are for: a query answers as if every ruled table held its visible part.
The rewritten graph is shown to denote exactly that. -/
namespace Palimpsest.Permissions
open Sql Function List

/-- Compiled rules; rules on one table select the newest rows in the same way. -/
structure RuleSet where
  rules : List CompiledRule
  latest_agree : ∀ rule ∈ rules, ∀ other ∈ rules, rule.table = other.table →
    rule.latest = other.latest

section
variable {δ : Type*} [LinearOrder δ] (S : Semantics δ)

def column (name : String) (columns : List ColumnRef) (row : List δ) : δ :=
  match columns.findIdx? fun c => c.name == name with
  | some i => row.getD i S.null
  | none => S.null

/-- The texts the rewriter writes mean what they say. -/
structure Lawful : Prop where
  holds_tautology : ∀ (p : CompiledPredicate) columns row, p.isTautology →
    S.holds p.canonical columns row
  holds_disjunction : ∀ (clauses : List String) columns row, 2 ≤ clauses.length →
    S.holds (disjunction clauses) columns row = clauses.any fun c => S.holds c columns row
  value_quoteIdent : ∀ name columns row,
    S.value (quoteIdent name) columns row = column S name columns row

/-- A rule admits a row when its predicate, with the context's values in place, holds of it. -/
def admits (context : UserContext) (rule : CompiledRule) (columns : List ColumnRef)
    (row : List δ) : Bool :=
  match rule.predicate.materialize context with
  | .ok text => S.holds text columns row
  | .error _ => false

/-- For each value of the key columns, the first row in descending order of version. -/
def newestPerKey (latest : LatestBy) (r : Relation δ) : Relation δ :=
  let key (d : List δ ×ₗ List δ) := latest.key.map fun c => column S c r.columns (ofLex d).2
  let versions := r.rows.map fun row => toLex ([column S latest.version r.columns row], row)
  { r with
    rows := (FirstPerKey.firstPerKey key (S.sortKeyComparator [true]) versions).map
      fun d => (ofLex d).2 }

theorem sortKeyComparator_newest [Std.TransCmp S.compareSort] :
    Std.TransCmp (S.sortKeyComparator [true]) := by
  have hversion : Std.TransCmp fun a b : List δ ×ₗ List δ =>
      (S.compareSort ((ofLex a).1.getD 0 S.null) ((ofLex b).1.getD 0 S.null)).swap := by
    refine { eq_swap := ?_, isLE_trans := ?_ }
    · intro a b
      rw [Ordering.swap_swap]
      exact Std.OrientedCmp.eq_swap.symm
    · intro a b c hab hbc
      simp only [Ordering.isLE_swap] at hab hbc ⊢
      exact Std.TransCmp.isGE_trans hab hbc
  have hrow : Std.TransCmp fun a b : List δ ×ₗ List δ => compare (ofLex a).2 (ofLex b).2 :=
    { eq_swap := Std.OrientedCmp.eq_swap, isLE_trans := Std.TransCmp.isLE_trans }
  exact inferInstanceAs (Std.TransCmp (compareLex
    (fun a b : List δ ×ₗ List δ =>
      (S.compareSort ((ofLex a).1.getD 0 S.null) ((ofLex b).1.getD 0 S.null)).swap)
    fun a b => compare (ofLex a).2 (ofLex b).2))

/-- Where versions are ordered, no row of the same key is newer than the one kept. -/
theorem newestPerKey_newest [Std.TransCmp S.compareSort]
    (h : row ∈ (newestPerKey S latest r).rows) : row ∈ r.rows ∧ ∀ other ∈ r.rows,
      latest.key.map (column S · r.columns other) = latest.key.map (column S · r.columns row) →
      (S.compareSort (column S latest.version r.columns other)
        (column S latest.version r.columns row)).isLE = true := by
  have htrans := sortKeyComparator_newest S
  obtain ⟨picked, hpicked, rfl⟩ := Multiset.mem_map.mp h
  obtain ⟨hmem, hleast⟩ := FirstPerKey.firstPerKey_least hpicked
  obtain ⟨row, hrow, rfl⟩ := Multiset.mem_map.mp hmem
  refine ⟨hrow, fun other hother hkey => ?_⟩
  have hle := Ordering.isLE_left_of_isLE_then
    (hleast _ (Multiset.mem_map_of_mem _ hother) hkey)
  rw [@Std.OrientedCmp.eq_swap _ S.compareSort]
  exact hle

def visiblePart (rules : RuleSet) (context : UserContext) (table : String) (r : Relation δ) :
    Relation δ :=
  match rulesFor rules.rules table with
  | [] => r
  | own =>
    let current := match own.findSome? CompiledRule.latest with
      | some latest => newestPerKey S latest r
      | none => r
    { current with
      rows := current.rows.filter fun row =>
        own.any fun rule => admits S context rule current.columns row }

def visibleDatabase (rules : RuleSet) (context : UserContext) (db : Database δ) : Database δ :=
  fun table => (db table).map (visiblePart S rules context table)

variable {S}

def currentRows (S : Semantics δ) (latest : Option LatestBy) (r : Relation δ) : Relation δ :=
  match latest with
  | some latest => newestPerKey S latest r
  | none => r

variable (rules : RuleSet)

theorem RuleSet.findSome_latest (h : rulesFor rules.rules table = first :: rest) :
    (first :: rest).findSome? CompiledRule.latest = first.latest := by
  cases hlatest : first.latest with
  | some => simp [hlatest]
  | none =>
    rw [findSome?_eq_none_iff]
    intro rule hrule
    have hfirst := rulesFor_subset (h ▸ mem_cons_self : first ∈ rulesFor rules.rules table)
    have hother := rulesFor_subset (h ▸ hrule : rule ∈ rulesFor rules.rules table)
    rw [← hlatest]
    exact rules.latest_agree rule hother.1 first hfirst.1 (hother.2.2.trans hfirst.2.2.symm)

variable (context : UserContext)

theorem visiblePart_of_cons (h : rulesFor rules.rules table = first :: rest) (r) :
    visiblePart S rules context table r = { currentRows S first.latest r with
        rows := (currentRows S first.latest r).rows.filter fun row =>
          (first :: rest).any fun rule =>
            admits S context rule (currentRows S first.latest r).columns row } := by
  unfold visiblePart
  rw [h]
  simp only [rules.findSome_latest h]
  rfl

omit [LinearOrder δ] in
/-- The materialized clauses, as a disjunction, hold where some rule admits the row. -/
theorem holds_disjunction_eq (hS : Lawful S) {context : UserContext} {own : List CompiledRule}
    {clauses : List String} (hown : own ≠ [])
    (h : own.mapM (fun rule => rule.predicate.materialize context) = .ok clauses)
    (cols : List ColumnRef) (row : List δ) : S.holds (disjunction clauses) cols row =
      own.any fun rule => admits S context rule cols row := by
  have hany : own.any (fun rule => admits S context rule cols row) =
      clauses.any fun c => S.holds c cols row := by
    clear hown
    induction own generalizing clauses with
    | nil =>
      cases h
      rfl
    | cons rule own ih =>
      obtain ⟨text, texts, hrule, hrest, rfl⟩ := Fallible.mapM_cons_ok.mp h
      have hhead : admits S context rule cols row = S.holds text cols row := by
        simp [admits, hrule]
      rw [any_cons, any_cons, hhead, ih hrest]
  rw [hany]
  match clauses, Fallible.mapM_length h with
  | [], hlen => exact absurd (length_eq_zero_iff.mp hlen.symm) hown
  | [c], _ => simp [disjunction]
  | c :: c' :: cs, _ => exact hS.holds_disjunction _ cols row (by simp)

variable (db : Database δ)

def thenAt (hook : ℕ → Relation δ → Option (Relation δ)) (i : ℕ) (F : Relation δ → Relation δ) :
    ℕ → Relation δ → Option (Relation δ) :=
  update hook i fun r => (hook i r).map F

theorem evaluateThrough_spliceLatest (hS : Lawful S) (hwf : g.WellFormed) (hacyc : g.Acyclic)
    (ht : t < g.nodeCount) (latest) (hid : ∀ j, g.nodeCount ≤ j → hook j = some) (F) :
    S.evaluateThrough (spliceLatest g t latest).1 db (thenAt hook (spliceLatest g t latest).2 F) =
      S.evaluateThrough g db (thenAt hook t fun r => F (currentRows S latest r)) := by
  cases latest with
  | none => rfl
  | some latest =>
    have hsplice := S.evaluateThrough_spliceAbove db (thenAt hook g.nodeCount F) hwf hacyc ht
      (S.nodeValue_distinctOn_new db hwf ht (latest.key.map quoteIdent)
        [⟨quoteIdent latest.version, true⟩])
    refine hsplice.trans (S.evaluateThrough_congr hwf ?_)
    intro i hi
    rcases eq_or_ne i t with rfl | hit
    · funext r
      simp only [Semantics.hookAt, thenAt, update_self, update_of_ne hi.ne,
        hid _ le_rfl, currentRows]
      cases hook i r <;> simp [Semantics.distinctOn, newestPerKey, comp_def, hS.value_quoteIdent]
    · simp [Semantics.hookAt, thenAt, update_of_ne hit, update_of_ne hi.ne]

theorem evaluateThrough_scanStep (hS : Lawful S) {rules : RuleSet} {context : UserContext}
    (hwf : g.WellFormed) (hacyc : g.Acyclic) (hi : i < g.nodeCount)
    (h : ScanStep rules.rules context g i table g') (hid : ∀ j, g.nodeCount ≤ j → hook j = some) :
    S.evaluateThrough g' db hook =
      S.evaluateThrough g db (thenAt hook i (visiblePart S rules context table)) := by
  cases h with
  | unruled hrules =>
    have hvis : visiblePart S rules context table = id := by
      funext r
      simp [visiblePart, hrules]
    rw [hvis]
    simp [thenAt]
  | @admitAll first rest hrules htaut =>
    have hvis : visiblePart S rules context table = currentRows S first.latest := by
      funext r
      rw [visiblePart_of_cons rules context hrules]
      obtain ⟨rule, hmem, hrule⟩ := htaut
      have hadmits : ∀ row, (first :: rest).any (fun rule =>
          admits S context rule (currentRows S first.latest r).columns row) = true := by
        intro row
        rw [any_eq_true]
        refine ⟨rule, hmem, ?_⟩
        simp only [admits, CompiledPredicate.materialize_of_isTautology hrule]
        exact hS.holds_tautology _ _ _ hrule
      simp [hadmits]
    have hlatest := evaluateThrough_spliceLatest db hS hwf hacyc hi first.latest
      hid id
    rw [hvis]
    refine Eq.trans ?_ hlatest
    simp [thenAt]
  | @guarded first rest clauses hrules _ hclauses =>
    obtain ⟨hext, hlt⟩ := spliceLatest_extends hwf hacyc hi first.latest
    have hvis : visiblePart S rules context table =
        fun r => S.filter (disjunction clauses) (currentRows S first.latest r) := by
      funext r
      rw [visiblePart_of_cons rules context hrules]
      simp [Semantics.filter, holds_disjunction_eq hS (cons_ne_nil first rest) hclauses]
    have hfilt := S.evaluateThrough_spliceAbove db hook hext.wellFormed
      hext.acyclic hlt (S.nodeValue_filter_new db hext.wellFormed hlt (disjunction clauses))
    have hlatest := evaluateThrough_spliceLatest db hS hwf hacyc hi first.latest
      hid (S.filter (disjunction clauses))
    rw [hvis, ← hlatest, hfilt]
    simp [Semantics.hookAt, thenAt, hid _ hext.count]

/-- Every listed scan is seen through the visible part of its table. -/
def visibleHook (S : Semantics δ) (rules : RuleSet) (context : UserContext) (tableOf : ℕ → String) :
    List ℕ → ℕ → Relation δ → Option (Relation δ)
  | [] => fun _ => some
  | i :: is => thenAt (visibleHook S rules context tableOf is) i
      (visiblePart S rules context (tableOf i))

theorem visibleHook_of_not_mem (tableOf) (hj : j ∉ is) :
    visibleHook S rules context tableOf is j = some := by
  induction is with
  | nil => rfl
  | cons i is ih =>
    rw [mem_cons, not_or] at hj
    rw [visibleHook, thenAt, update_of_ne hj.1]
    exact ih hj.2

theorem visibleHook_of_mem (tableOf) (hnd : is.Nodup) (hj : j ∈ is) :
    visibleHook S rules context tableOf is j =
      fun r => some (visiblePart S rules context (tableOf j) r) := by
  induction is with
  | nil => simp at hj
  | cons i is ih =>
    rw [nodup_cons] at hnd
    rcases mem_cons.mp hj with rfl | hmem
    · simp [visibleHook, thenAt, visibleHook_of_not_mem rules context tableOf hnd.1]
    · have hne : j ≠ i := by
        rintro rfl
        exact hnd.1 hmem
      rw [visibleHook, thenAt, update_of_ne hne]
      exact ih hnd.2 hmem

/-- The loop leaves a graph that reads every visited scan through its table's visible part. -/
theorem evaluateThrough_scanRun (hS : Lawful S) {rules : RuleSet} {context : UserContext} (tableOf)
    (hwf : g.WellFormed) (hacyc : g.Acyclic) (h : ScanRun rules.rules context g is g')
    (htabs : Scans tableOf g is) :
    S.evaluate g' db = S.evaluateThrough g db (visibleHook S rules context tableOf is) := by
  induction h with
  | done g => exact (S.evaluateThrough_some g db).symm
  | @turn g g₁ g₂ i is table project hkind hstep hrun ih =>
    have hext := hstep.extends hwf hacyc (kind_lt hkind)
    have hid : ∀ j, g.nodeCount ≤ j → visibleHook S rules context tableOf is j = some := by
      intro j hj
      apply visibleHook_of_not_mem
      intro hmem
      obtain ⟨project', hkind'⟩ := htabs j (mem_cons_of_mem _ hmem)
      exact absurd (kind_lt hkind') (not_lt.mpr hj)
    rw [ih hext.wellFormed hext.acyclic (htabs.tail hstep), visibleHook, htabs.head hkind]
    exact evaluateThrough_scanStep db hS hwf hacyc (kind_lt hkind) hstep hid

/-- Evaluating the rewritten graph over a database is evaluating the query over the part of the
database that the rules leave visible. -/
theorem rewrite_evaluates_visibleDatabase (hS : Lawful S) {g : MirGraph} (hwf : g.WellFormed)
    (hacyclic : g.Acyclic) (rules : RuleSet) (context : UserContext) {out : RewriteOutcome}
    (h : rewrite g rules.rules context = .ok out) :
    S.evaluate out.graph db = S.evaluate g (visibleDatabase S rules context db) := by
  rw [evaluateThrough_scanRun db hS (scanTable g) hwf hacyclic (rewrite_run h) (scans_baseTables g)]
  apply S.evaluateThrough_scans
  · intro i table project hkind
    have hmem : i ∈ g.baseTableIndices := mem_baseTableIndices.mpr ⟨table, project, hkind⟩
    rw [visibleHook_of_mem rules context _ (baseTableIndices_nodup g) hmem]
    simp only [scanTable_eq hkind, visibleDatabase]
    cases db table <;> rfl
  · intro i hkind
    apply visibleHook_of_not_mem
    intro hmem
    obtain ⟨table, project, hbase⟩ := mem_baseTableIndices.mp hmem
    simp [hbase, MirNodeKind.isBaseTable] at hkind

end

/-- A small semantics: a predicate holds of the rows whose values it mentions as digits, and the
text `true` holds of every row. -/
def mentionSemantics : Semantics ℕ where
  null := 0
  holds text _ row := text.toList.any fun c =>
    c.toLower == 't' || (c.isDigit && row.contains (c.toNat - 48))
  value text columns row :=
    match columns.findIdx? fun c => quoteIdent c.name == text with
    | some i => row.getD i 0
    | none => 0
  compareSort := compare
  operator _ inputs :=
    match inputs with
    | [left, right] => some ⟨left.columns ++ right.columns,
        (Multiset.product left.rows right.rows).map fun p => p.1 ++ p.2⟩
    | _ => none
  cteRef _ r := r
  fixpoint _ base _ := some base

theorem mentionSemantics_lawful : Lawful mentionSemantics := by
  constructor
  · intro p columns row h
    have hmap := eq_of_beq h
    have ht : 't' ∈ (Text.trim p.canonical.toList).map Char.toLower := by
      rw [hmap]
      decide
    obtain ⟨c, hc, hlower⟩ := mem_map.mp ht
    apply any_eq_true.mpr
    exact ⟨c, Text.mem_of_mem_trim hc, by simp [hlower]⟩
  · intro clauses columns row hlen
    have hparen : ∀ clauses : List String, mentionSemantics.holds (String.intercalate " OR "
        (clauses.map fun clause => "(" ++ clause ++ ")")) columns row =
          clauses.any fun c => mentionSemantics.holds c columns row := by
      intro clauses
      induction clauses with
      | nil => rfl
      | cons c cs ih =>
        cases cs with
        | nil => simp [mentionSemantics]
        | cons =>
          rw [any_cons, ← ih]
          simp [mentionSemantics]
    match clauses, hlen with
    | c :: d :: cs, _ => exact hparen (c :: d :: cs)
  · intro name columns row
    have hname : (fun c : ColumnRef => quoteIdent c.name == quoteIdent name) =
        fun c => c.name == name := by
      funext c
      exact Bool.eq_iff_iff.mpr (by simp [quoteIdent_injective.eq_iff])
    simp [mentionSemantics, hname, column]

/-- `posts` joined with itself through one shared scan. -/
def sharedScan : MirGraph :=
  ((((MirGraph.new (.baseTable "posts" [])).addNode (.join .inner [])).addInput 0 1).addInput
    0 1).setRoot 1

def newestOwnPosts : RuleSet where
  rules := [⟨"own", "posts", .both, ⟨"author_id = __palimpsest_user_id__", ["id"]⟩,
    some ⟨["id"], "version"⟩⟩]
  latest_agree := by simp

/-- Two versions of post 1, the newer one by another author, and a post by author 7. -/
def threePosts : Database ℕ := fun table =>
  if table = "posts" then
    some ⟨[⟨some "posts", "id"⟩, ⟨some "posts", "author_id"⟩, ⟨some "posts", "version"⟩],
      {[1, 7, 3], [1, 8, 4], [2, 7, 5]}⟩
  else none

theorem sharedScan_wellFormed : sharedScan.WellFormed := by
  have hjoin := (MirGraph.WellFormed.new (.baseTable "posts" [])).addNode (.join .inner [])
  have hleft := hjoin.addInput (s := 0) (t := 1) (by decide) (by decide) (by decide)
  have hright := hleft.addInput (s := 0) (t := 1) (by decide) (by decide) (by decide)
  exact hright.setRoot (by decide)

theorem sharedScan_acyclic : sharedScan.Acyclic := by
  refine ⟨id, ?_, ?_⟩
  · intro i hi
    exact hi
  · decide

theorem sharedScan_evaluates_visibleDatabase :
    ∃ out, rewrite sharedScan newestOwnPosts.rules userSeven = .ok out ∧
      mentionSemantics.evaluate out.graph threePosts = mentionSemantics.evaluate sharedScan
          (visibleDatabase mentionSemantics newestOwnPosts userSeven threePosts) :=
  ⟨_, rfl, rewrite_evaluates_visibleDatabase threePosts mentionSemantics_lawful
    sharedScan_wellFormed sharedScan_acyclic newestOwnPosts userSeven rfl⟩

end Palimpsest.Permissions
