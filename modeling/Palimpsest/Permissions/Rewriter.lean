import Palimpsest.Foundation.Fallible
import Palimpsest.Permissions.Placeholder
import Palimpsest.Sql.Mir

/-! Splicing permission filters into a query graph. -/
namespace Palimpsest.Permissions
open List hiding getElem?_eq_some_iff
open Sql
variable {rules : List CompiledRule} {g : MirGraph} {context : UserContext}

structure RewriteStats where
  baseTablesVisited : ℕ
  filtersInserted : ℕ
  rulesElided : ℕ
deriving Repr, DecidableEq

structure RewriteOutcome where
  graph : MirGraph
  stats : RewriteStats
deriving Repr, DecidableEq

/-- The row-visibility rules written under exactly this table name, in rule order. -/
def rulesFor (rules : List CompiledRule) (table : String) : List CompiledRule :=
  rules.filter fun rule => rule.mode.affectsVisibility && rule.table == table

theorem rulesFor_subset (h : rule ∈ rulesFor rules table) :
    rule ∈ rules ∧ rule.mode.affectsVisibility = true ∧ rule.table = table := by
  simpa [rulesFor] using h

def quoteIdent (name : String) : String :=
  doubleQuoted (TextSearch.double (Char.ofNat 34) name.toList)

theorem quoteIdent_injective : Function.Injective quoteIdent := by
  intro a b h
  have hchars := String.ofList_injective h
  simp only [cons_append, cons.injEq, append_cancel_right_eq, true_and] at hchars
  exact String.toList_inj.mp (TextSearch.double_injective _ hchars)

/-- One clause stands alone; several are parenthesised and joined. -/
def disjunction (clauses : List String) : String :=
  match clauses with
  | [clause] => clause
  | clauses => String.intercalate " OR " (clauses.map fun clause => "(" ++ clause ++ ")")

def latestKind (latest : LatestBy) : MirNodeKind :=
  .distinctOn (latest.key.map quoteIdent) [⟨quoteIdent latest.version, true⟩]

/-- The newest-row selection sits below the filter, directly above the scan. -/
def spliceLatest (g : MirGraph) (index : ℕ) : Option LatestBy → MirGraph × ℕ
  | some latest => g.spliceAbove index (latestKind latest)
  | none => (g, index)

def visitScan (rules : List CompiledRule) (context : UserContext) (state : RewriteOutcome)
    (index : ℕ) : Except PermissionError RewriteOutcome :=
  let stats := { state.stats with baseTablesVisited := state.stats.baseTablesVisited + 1 }
  match state.graph.kind? index with
  | some (.baseTable table _) =>
    match rulesFor rules table with
    | [] => .ok ⟨state.graph, stats⟩
    | first :: rest =>
      let spliced := spliceLatest state.graph index first.latest
      -- one tautological rule admits every row, so no filter is needed
      if (first :: rest).any fun rule => rule.predicate.isTautology then
        .ok ⟨spliced.1, stats⟩
      else
        match (first :: rest).mapM fun rule => rule.predicate.materialize context with
        | .error e => .error e
        | .ok clauses =>
          .ok ⟨(spliced.1.spliceAbove spliced.2 (.filter (disjunction clauses))).1,
            { stats with filtersInserted := stats.filtersInserted + 1 }⟩
  | _ => .ok ⟨state.graph, stats⟩

def rulesInPlay (rules : List CompiledRule) : ℕ :=
  (rules.filter fun rule => rule.mode.affectsVisibility && !rule.predicate.isTautology).length

def rewrite (graph : MirGraph) (rules : List CompiledRule) (context : UserContext) :
    Except PermissionError RewriteOutcome :=
  match graph.baseTableIndices.foldlM (visitScan rules context) ⟨graph, ⟨0, 0, 0⟩⟩ with
  | .error e => .error e
  | .ok out =>
    .ok { out with stats := { out.stats with rulesElided := rules.length - rulesInPlay rules } }

/-- Everything one turn of the loop can do to the graph at a scan of `table`. -/
inductive ScanStep (rules : List CompiledRule) (context : UserContext) (g : MirGraph)
    (index : ℕ) (table : String) : MirGraph → Prop
  | unruled : rulesFor rules table = [] → ScanStep rules context g index table g
  | admitAll {first : CompiledRule} {rest : List CompiledRule} :
      rulesFor rules table = first :: rest →
      (∃ rule ∈ first :: rest, rule.predicate.isTautology) →
      ScanStep rules context g index table (spliceLatest g index first.latest).1
  | guarded {first : CompiledRule} {rest : List CompiledRule} {clauses : List String} :
      rulesFor rules table = first :: rest →
      (∀ rule ∈ first :: rest, rule.predicate.isTautology = false) →
      (first :: rest).mapM (fun rule => rule.predicate.materialize context) = .ok clauses →
      ScanStep rules context g index table
        ((spliceLatest g index first.latest).1.spliceAbove (spliceLatest g index first.latest).2
          (.filter (disjunction clauses))).1

/-- A graph the loop may work on, together with what a turn never disturbs. -/
structure Extends (g g' : MirGraph) : Prop where
  wellFormed : g'.WellFormed
  acyclic : g'.Acyclic
  count : g.nodeCount ≤ g'.nodeCount
  kinds : ∀ i, i < g.nodeCount → g'.kind? i = g.kind? i

theorem Extends.refl (hwf : g.WellFormed) (hacyc : g.Acyclic) : Extends g g :=
  ⟨hwf, hacyc, le_rfl, fun _ _ => rfl⟩

theorem Extends.trans (h : Extends g₁ g₂) (h' : Extends g₂ g₃) : Extends g₁ g₃ := by
  constructor
  · exact h'.wellFormed
  · exact h'.acyclic
  · exact h.count.trans h'.count
  · intro i hi
    exact (h'.kinds i (hi.trans_le h.count)).trans (h.kinds i hi)

theorem Extends.spliceAbove (hwf : g.WellFormed) (hacyc : g.Acyclic) (ht : t < g.nodeCount) (k) :
    Extends g (g.spliceAbove t k).1 := by
  constructor
  · exact hwf.spliceAbove ht
  · exact hacyc.spliceAbove hwf ht k
  · simp
  · intro i hi
    exact MirGraph.spliceAbove_kind_old hi

theorem spliceLatest_extends (hwf : g.WellFormed) (hacyc : g.Acyclic) (ht : t < g.nodeCount)
    (latest) : Extends g (spliceLatest g t latest).1 ∧
      (spliceLatest g t latest).2 < (spliceLatest g t latest).1.nodeCount := by
  cases latest with
  | none => exact ⟨Extends.refl hwf hacyc, ht⟩
  | some => exact ⟨Extends.spliceAbove hwf hacyc ht _, by simp [spliceLatest]⟩

theorem ScanStep.extends (hwf : g.WellFormed) (hacyc : g.Acyclic) (hidx : index < g.nodeCount)
    (h : ScanStep rules context g index table g') : Extends g g' := by
  cases h with
  | unruled => exact Extends.refl hwf hacyc
  | @admitAll first rest _ _ => exact (spliceLatest_extends hwf hacyc hidx first.latest).1
  | @guarded first rest clauses _ _ _ =>
    obtain ⟨hlatest, hlt⟩ := spliceLatest_extends hwf hacyc hidx first.latest
    exact hlatest.trans (Extends.spliceAbove hlatest.wellFormed hlatest.acyclic hlt _)

inductive ScanRun (rules : List CompiledRule) (context : UserContext) :
    MirGraph → List ℕ → MirGraph → Prop
  | done (g : MirGraph) : ScanRun rules context g [] g
  | turn {g g' g'' : MirGraph} {i : ℕ} {is : List ℕ} {table : String}
      {project : List ColumnRef} :
      g.kind? i = some (.baseTable table project) →
      ScanStep rules context g i table g' →
      ScanRun rules context g' is g'' →
      ScanRun rules context g (i :: is) g''

theorem kind_lt (h : g.kind? i = some k) : i < g.nodeCount :=
  (List.getElem?_eq_some_iff.mp h).1

theorem mem_baseTableIndices :
    i ∈ g.baseTableIndices ↔ ∃ table project, g.kind? i = some (.baseTable table project) := by
  simp only [MirGraph.baseTableIndices, mem_filter, mem_range]
  constructor
  · rintro ⟨-, h⟩
    cases hkind : g.kind? i with
    | none => simp [hkind] at h
    | some k =>
      cases k with
      | baseTable table project => exact ⟨table, project, rfl⟩
      | _ => simp [hkind, MirNodeKind.isBaseTable] at h
  · rintro ⟨table, project, h⟩
    exact ⟨kind_lt h, by simp [h, MirNodeKind.isBaseTable]⟩

def scanTable (g : MirGraph) (i : ℕ) : String :=
  match g.kind? i with
  | some (.baseTable table _) => table
  | _ => ""

theorem scanTable_eq (h : g.kind? i = some (.baseTable table project)) : scanTable g i = table := by
  simp [scanTable, h]

theorem kind_scanTable (h : i ∈ g.baseTableIndices) :
    ∃ project, g.kind? i = some (.baseTable (scanTable g i) project) := by
  obtain ⟨table, project, hkind⟩ := mem_baseTableIndices.mp h
  exact ⟨project, by rw [scanTable_eq hkind, hkind]⟩

theorem baseTableIndices_nodup (g : MirGraph) : g.baseTableIndices.Nodup :=
  nodup_range.filter _

section Success

def Reads (g : MirGraph) (table : String) : Prop :=
  ∃ i project, g.kind? i = some (.baseTable table project)

/-- Scans of this table get a filter. -/
def Guarded (rules : List CompiledRule) (table : String) : Prop :=
  rulesFor rules table ≠ [] ∧ ∀ rule ∈ rulesFor rules table, rule.predicate.isTautology = false

/-- Scans of this table should get a filter, but the context does not bind what it refers to. -/
def Unbound (rules : List CompiledRule) (context : UserContext) (table : String) : Prop :=
  Guarded rules table ∧
    ∃ rule ∈ rulesFor rules table, ∃ e, rule.predicate.materialize context = .error e

variable (rules : List CompiledRule) (context : UserContext)

theorem spliceLatest_kinds (g) (t : ℕ) (latest) :
    g.nodeCount ≤ (spliceLatest g t latest).1.nodeCount ∧
      ∀ i < g.nodeCount, (spliceLatest g t latest).1.kind? i = g.kind? i := by
  cases latest with
  | none => exact ⟨le_rfl, fun _ _ => rfl⟩
  | some =>
    refine ⟨?_, fun i hi => MirGraph.spliceAbove_kind_old hi⟩
    rw [spliceLatest, MirGraph.spliceAbove_nodeCount]
    exact Nat.le_succ _

def Scans (tableOf : ℕ → String) (g : MirGraph) (is : List ℕ) : Prop :=
  ∀ i ∈ is, ∃ project, g.kind? i = some (.baseTable (tableOf i) project)

variable {rules context} {g : MirGraph}

theorem Scans.head (h : Scans tableOf g (i :: is))
    (hkind : g.kind? i = some (.baseTable table project)) : tableOf i = table := by
  obtain ⟨project', hkind'⟩ := h i mem_cons_self
  rw [hkind] at hkind'
  cases hkind'
  rfl

theorem Scans.tail (h : Scans tableOf g (i :: is))
    (hstep : ScanStep rules context g i table g') : Scans tableOf g' is := by
  intro j hj
  obtain ⟨project, hkind⟩ := h j (mem_cons_of_mem _ hj)
  refine ⟨project, Eq.trans ?_ hkind⟩
  cases hstep with
  | unruled => rfl
  | @admitAll first => exact (spliceLatest_kinds g i first.latest).2 j (kind_lt hkind)
  | @guarded first =>
    have hlatest := spliceLatest_kinds g i first.latest
    rw [MirGraph.spliceAbove_kind_old ((kind_lt hkind).trans_le hlatest.1),
      hlatest.2 j (kind_lt hkind)]

variable (rules context)

/-- A turn fails at an unbound table and adds a filter at a guarded one. -/
theorem visitScan_cases (hkind : state.graph.kind? index = some (.baseTable table project)) :
    (Unbound rules context table ∧ ∃ e, visitScan rules context state index = .error e) ∨
    (¬ Unbound rules context table ∧ ∃ out, visitScan rules context state index = .ok out ∧
      ScanStep rules context state.graph index table out.graph ∧
      state.stats.filtersInserted ≤ out.stats.filtersInserted ∧
      (state.stats.filtersInserted < out.stats.filtersInserted ↔ Guarded rules table)) := by
  simp only [visitScan, hkind]
  cases hrules : rulesFor rules table with
  | nil =>
    have hfree : ¬ Guarded rules table := fun h => h.1 hrules
    exact .inr ⟨fun h => hfree h.1, _, rfl, .unruled hrules, le_rfl, by simp [hfree]⟩
  | cons first rest =>
    by_cases htaut : (first :: rest).any fun rule => rule.predicate.isTautology
    · have hfree : ¬ Guarded rules table := by
        rintro ⟨-, hnone⟩
        obtain ⟨rule, hrule, htrue⟩ := any_eq_true.mp htaut
        simp [hnone rule (hrules ▸ hrule)] at htrue
      refine .inr ⟨fun h => hfree h.1, ?_⟩
      simp only [htaut]
      exact ⟨_, rfl, .admitAll hrules (by simpa using htaut), le_rfl, by simp [hfree]⟩
    · have hnone : ∀ rule ∈ first :: rest, rule.predicate.isTautology = false := by
        simpa using htaut
      have hguard : Guarded rules table := ⟨by simp [hrules], hrules ▸ hnone⟩
      simp only [htaut]
      cases hclauses : (first :: rest).mapM fun rule => rule.predicate.materialize context with
      | error e =>
        refine .inl ⟨⟨hguard, ?_⟩, e, rfl⟩
        by_contra hall
        have hbound : ∃ clauses, (first :: rest).mapM
            (fun rule => rule.predicate.materialize context) = .ok clauses := by
          apply Fallible.mapM_ok_iff.mpr
          intro rule hrule
          cases htext : rule.predicate.materialize context with
          | ok text => exact ⟨text, rfl⟩
          | error e => exact absurd ⟨rule, hrules ▸ hrule, e, htext⟩ hall
        obtain ⟨clauses, hok⟩ := hbound
        simp [hclauses] at hok
      | ok =>
        refine .inr ⟨?_, _, rfl, .guarded hrules hnone hclauses, Nat.le_succ _, by simp [hguard]⟩
        rintro ⟨-, rule, hrule, e, he⟩
        obtain ⟨text, htext⟩ := Fallible.ok_of_mapM hclauses (hrules ▸ hrule)
        simp [he] at htext

theorem foldlM_visitScan_cases (is state) (hscans : Scans tableOf state.graph is) :
    ((∃ i ∈ is, Unbound rules context (tableOf i)) ∧
      ∃ e, is.foldlM (visitScan rules context) state = .error e) ∨
    ((∀ i ∈ is, ¬ Unbound rules context (tableOf i)) ∧
      ∃ out, is.foldlM (visitScan rules context) state = .ok out ∧
        ScanRun rules context state.graph is out.graph ∧
        state.stats.filtersInserted ≤ out.stats.filtersInserted ∧
        (state.stats.filtersInserted < out.stats.filtersInserted ↔
          ∃ i ∈ is, Guarded rules (tableOf i))) := by
  induction is generalizing state with
  | nil =>
    refine .inr ⟨?_, state, rfl, .done _, le_rfl, by simp⟩
    intro i hi
    cases hi
  | cons i is ih =>
    obtain ⟨project, hkind⟩ := hscans i mem_cons_self
    rcases visitScan_cases rules context hkind with
      ⟨hunbound, e, he⟩ | ⟨hbound, next, hnext, hstep, hle, hlt⟩
    · exact .inl ⟨⟨i, mem_cons_self, hunbound⟩, e, by rw [foldlM_cons, he]; rfl⟩
    · have hfold : (i :: is).foldlM (visitScan rules context) state =
          is.foldlM (visitScan rules context) next := by
        rw [foldlM_cons, hnext]
        rfl
      rw [hfold]
      rcases ih next (hscans.tail hstep) with
        ⟨⟨j, hj, hunbound⟩, hfails⟩ | ⟨hall, out, hout, hrun, hle', hlt'⟩
      · exact .inl ⟨⟨j, mem_cons_of_mem _ hj, hunbound⟩, hfails⟩
      · refine .inr ⟨forall_mem_cons.mpr ⟨hbound, hall⟩, out, hout, .turn hkind hstep hrun,
          hle.trans hle', ?_⟩
        rw [exists_mem_cons_iff, ← hlt, ← hlt']
        omega

theorem scans_baseTables (g) : Scans (scanTable g) g g.baseTableIndices :=
  fun _ hi => kind_scanTable hi

variable {rules context} in
theorem rewrite_run {out : RewriteOutcome} (h : rewrite g rules context = .ok out) :
    ScanRun rules context g g.baseTableIndices out.graph := by
  unfold rewrite at h
  rcases foldlM_visitScan_cases rules context _ ⟨g, ⟨0, 0, 0⟩⟩ (scans_baseTables g) with
    ⟨-, e, he⟩ | ⟨-, state, hst, hrun, -⟩
  · rw [he] at h
    cases h
  · rw [hst] at h
    cases h
    exact hrun

/-- The rewrite fails exactly when some table of the query is unbound, and it inserts filters
exactly when some table is guarded. -/
theorem rewrite_cases (g) : ((∃ table, Reads g table ∧ Unbound rules context table) ∧
      ∃ e, rewrite g rules context = .error e) ∨
    ((∀ table, Reads g table → ¬ Unbound rules context table) ∧
      ∃ out, rewrite g rules context = .ok out ∧
        (0 < out.stats.filtersInserted ↔ ∃ table, Reads g table ∧ Guarded rules table)) := by
  have hmem : ∀ {P : String → Prop}, (∃ i ∈ g.baseTableIndices, P (scanTable g i)) ↔
      ∃ table, Reads g table ∧ P table := by
    intro P
    constructor
    · rintro ⟨i, hi, hP⟩
      obtain ⟨project, hkind⟩ := kind_scanTable hi
      exact ⟨scanTable g i, ⟨i, project, hkind⟩, hP⟩
    · rintro ⟨table, ⟨i, project, hkind⟩, hP⟩
      refine ⟨i, mem_baseTableIndices.mpr ⟨table, project, hkind⟩, ?_⟩
      rw [scanTable_eq hkind]
      exact hP
  unfold rewrite
  rcases foldlM_visitScan_cases rules context _ ⟨g, ⟨0, 0, 0⟩⟩ (scans_baseTables g) with
    ⟨hunbound, e, he⟩ | ⟨hall, out, hout, -, -, hlt⟩
  · rw [he]
    exact .inl ⟨hmem.mp hunbound, e, rfl⟩
  · rw [hout]
    refine .inr ⟨?_, _, rfl, hlt.trans hmem⟩
    intro table hreads hunbound
    obtain ⟨i, hi, hP⟩ := hmem.mpr ⟨table, hreads, hunbound⟩
    exact hall i hi hP

theorem rewrite_ok_iff : (∃ out, rewrite g rules context = .ok out) ↔
    ∀ table, Reads g table → ¬ Unbound rules context table := by
  rcases rewrite_cases rules context g with ⟨⟨table, hreads, hunbound⟩, e, he⟩ |
    ⟨hbound, out, hout, -⟩
  · simp only [he]
    exact iff_of_false nofun fun hbound => hbound table hreads hunbound
  · exact iff_of_true ⟨out, hout⟩ hbound

end Success

end Palimpsest.Permissions
