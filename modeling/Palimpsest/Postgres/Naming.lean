import Palimpsest.Permissions.Substitution

/-! The names a streamed table answers to, and what they mean for the rules written on it. -/
namespace Palimpsest.Postgres
open Sql Permissions Function List

structure IntrospectedTable where
  id : ℕ
  namespaceName : String
  name : String
  columns : List ColumnSchema
deriving Repr, DecidableEq

def IntrospectedTable.qualifiedName (t : IntrospectedTable) : String :=
  t.namespaceName ++ "." ++ t.name

/-- The qualified name replaces an earlier entry; the bare name yields to one. -/
def register (names : String → Option IntrospectedTable) (t : IntrospectedTable) :
    String → Option IntrospectedTable :=
  let qualified := update names t.qualifiedName (some t)
  if (qualified t.name).isSome then qualified else update qualified t.name (some t)

/-- The tables of a runtime by every name a query may use for them. -/
def tablesByName (tables : List IntrospectedTable) : String → Option IntrospectedTable :=
  tables.foldl register fun _ => none

/-- The row-visibility rules on a physical table, under whichever name they are written. -/
def rulesOn (tables : List IntrospectedTable) (rules : List CompiledRule)
    (t : IntrospectedTable) : List CompiledRule :=
  rules.filter fun rule => rule.mode.affectsVisibility && tablesByName tables rule.table == some t

/-- What should stand above a scan of `t`: the selection of the newest rows that the rules on `t`
agree on, and over it nothing when some rule on `t` admits every row, else one filter, the
disjunction of all rules on `t`. -/
def FilteredByRulesOn (tables : List IntrospectedTable) (rules : List CompiledRule)
    (context : UserContext) (t : IntrospectedTable) (guards : List MirNodeKind) : Prop :=
  ∃ latest, (∀ rule ∈ rulesOn tables rules t, rule.latest = latest) ∧
    if ∃ rule ∈ rulesOn tables rules t, rule.predicate.isTautology then
      guards = (latest.map latestKind).toList
    else ∃ clauses,
      (rulesOn tables rules t).mapM (fun rule => rule.predicate.materialize context) = .ok clauses ∧
        guards = (latest.map latestKind).toList ++ [.filter (disjunction clauses)]

/-- Every scan of a ruled table is restricted by the rules on that table, and every reader in the
query sits above the restriction. -/
def ScansFiltered (tables : List IntrospectedTable) (rules : List CompiledRule)
    (context : UserContext) (g out : MirGraph) : Prop :=
  ReadOnTop g.nodeCount out ∧
  ∀ i table project t, g.kind? i = some (.baseTable table project) →
    tablesByName tables table = some t → rulesOn tables rules t ≠ [] →
    ∃ top guards, Capped g.nodeCount out i top guards ∧
      FilteredByRulesOn tables rules context t guards

/-- The spelling `table` of a ruled table `t` is the one its rules use, as far as it matters: all
rules on `t` are written under that very name; or `t` has a tautological rule and so have the rules
under that name, or there are none and no newest row is to be selected. -/
def Spelled (tables : List IntrospectedTable) (rules : List CompiledRule) (t : IntrospectedTable)
    (table : String) : Prop :=
  (∃ latest, ∀ rule ∈ rulesOn tables rules t, rule.latest = latest) ∧
    if ∃ rule ∈ rulesOn tables rules t, rule.predicate.isTautology then
      (∃ rule ∈ rulesFor rules table, rule.predicate.isTautology) ∨
        rulesFor rules table = [] ∧ ∀ rule ∈ rulesOn tables rules t, rule.latest = none
    else ∀ rule ∈ rulesOn tables rules t, rule.table = table

/-- The rules on a table agree on its newest rows, and a query that reads it spells it as they
do. -/
def SpelledAlike (tables : List IntrospectedTable) (rules : List CompiledRule) (g : MirGraph) :
    Prop :=
  ∀ i table project t, g.kind? i = some (.baseTable table project) →
    tablesByName tables table = some t → rulesOn tables rules t ≠ [] →
    Spelled tables rules t table

section

theorem rulesFor_sublist_rulesOn (h : tablesByName tables table = some t) :
    (rulesFor rules table).Sublist (rulesOn tables rules t) := by
  apply monotone_filter_right
  intro rule hrule
  simp only [Bool.and_eq_true, beq_iff_eq] at hrule ⊢
  exact ⟨hrule.1, hrule.2 ▸ h⟩

theorem rulesFor_eq_rulesOn_iff (h : tablesByName tables table = some t) :
    rulesFor rules table = rulesOn tables rules t ↔
      ∀ rule ∈ rulesOn tables rules t, rule.table = table := by
  constructor
  · intro heq rule hrule
    rw [← heq] at hrule
    exact (rulesFor_subset hrule).2.2
  · intro hall
    apply filter_congr
    intro rule hrule
    by_cases hmode : rule.mode.affectsVisibility
    · have hiff : rule.table = table ↔ tablesByName tables rule.table = some t := by
        constructor
        · rintro rfl
          exact h
        · intro hres
          apply hall
          simp [rulesOn, hrule, hmode, hres]
      rw [hmode, Bool.true_and, Bool.true_and, Bool.eq_iff_iff, beq_iff_eq, beq_iff_eq]
      exact hiff
    · simp [hmode]

/-- Width of a clause list: each clause with its parentheses and one separator. -/
def clauseWidth (clauses : List String) : ℕ := (clauses.map fun c => c.length + 6).sum

theorem length_intercalate_clauses (c clauses) :
    (String.intercalate " OR " ((c :: clauses).map fun clause => "(" ++ clause ++ ")")).length + 4 =
      clauseWidth (c :: clauses) := by
  have hsep : " OR ".length = 4 := by decide
  have hparen : "(".length = 1 ∧ ")".length = 1 := by decide
  have hne : ((c :: clauses).map fun clause => "(" ++ clause ++ ")") ≠ [] := by simp
  rw [← hsep, Text.length_intercalate " OR " hne, map_map]
  congr 2
  funext clause
  simp only [comp_apply, String.length_append]
  omega

theorem length_disjunction_le (h : clauses ≠ []) :
    (disjunction clauses).length + 4 ≤ clauseWidth clauses := by
  match clauses, h with
  | [c], _ =>
    simp only [disjunction, clauseWidth, map_cons, sum_cons]
    omega
  | c :: d :: cs, _ => exact (length_intercalate_clauses c (d :: cs)).le

theorem length_disjunction_lt (h : few.Sublist many) (hne : few ≠ [])
    (hlt : few.length < many.length) : (disjunction few).length < (disjunction many).length := by
  have hfew := length_disjunction_le hne
  have hwidth : clauseWidth few + 6 ≤ clauseWidth many := by
    clear hfew hne
    induction h with
    | slnil => simp at hlt
    | @cons few many c hsub ih =>
      rcases hsub.length_le.lt_or_eq with hlt' | heq
      · have := ih hlt'
        simp only [clauseWidth, map_cons, sum_cons] at this ⊢
        omega
      · rw [hsub.eq_of_length heq]
        simp only [clauseWidth, map_cons, sum_cons]
        omega
    | @cons_cons few many c hsub ih =>
      have := ih (by simpa using hlt)
      simp only [clauseWidth, map_cons, sum_cons] at this ⊢
      omega
  match many, hlt with
  | [d], hlt => exact absurd (length_eq_zero_iff.mp (by simpa using hlt)) hne
  | d :: e :: ds, _ =>
    have hmany := length_intercalate_clauses d (e :: ds)
    change _ < (String.intercalate " OR " _).length
    omega

theorem filterFor_eq_nil_iff (h : (∀ rule ∈ own, rule.predicate.isTautology = false) →
      ∃ clauses, own.mapM (fun rule => rule.predicate.materialize ctx) = .ok clauses) :
    filterFor ctx own = [] ↔ ∃ rule ∈ own, rule.predicate.isTautology := by
  by_cases hopen : ∃ rule ∈ own, rule.predicate.isTautology
  · simp [filterFor, hopen]
  · have hnone : ∀ rule ∈ own, rule.predicate.isTautology = false := by simpa using hopen
    obtain ⟨clauses, hclauses⟩ := h hnone
    simp [filterFor_eq_disjunction hnone hclauses, hopen]

/-- Fewer rules make a shorter filter. -/
theorem eq_of_filterFor_eq (hsub : few.Sublist many) (hne : few ≠ [])
    (hnone : ∀ rule ∈ many, rule.predicate.isTautology = false)
    (hfew : few.mapM (fun rule => rule.predicate.materialize ctx) = .ok fewClauses)
    (hmany : many.mapM (fun rule => rule.predicate.materialize ctx) = .ok clauses)
    (h : filterFor ctx few = [.filter (disjunction clauses)]) : few = many := by
  rw [filterFor_eq_disjunction (fun rule hrule => hnone rule (hsub.subset hrule)) hfew] at h
  have hsame : disjunction fewClauses = disjunction clauses := by simpa using h
  obtain ⟨fewClauses', hfew', hclauses⟩ := Fallible.mapM_sublist hsub hmany
  obtain rfl : fewClauses = fewClauses' := Except.ok.inj (hfew.symm.trans hfew')
  have hlenfew := Fallible.mapM_length hfew
  have hlenmany := Fallible.mapM_length hmany
  have hclausesNe : fewClauses ≠ [] := by
    rintro rfl
    exact hne (length_eq_zero_iff.mp hlenfew.symm)
  apply hsub.eq_of_length
  by_contra hlen
  have hle := hsub.length_le
  have hlt := length_disjunction_lt hclauses hclausesNe (by omega)
  rw [hsame] at hlt
  exact lt_irrefl _ hlt

/-- One scan: its guard is the one the table's rules call for exactly when the spelling fits. -/
theorem filteredByRulesOn_iff (hres : tablesByName tables table = some t)
    (hmat : (∀ rule ∈ rulesFor rules table, rule.predicate.isTautology = false) →
      ∃ clauses, (rulesFor rules table).mapM (fun rule => rule.predicate.materialize ctx) =
        .ok clauses) (hruled : rulesOn tables rules t ≠ []) :
    FilteredByRulesOn tables rules ctx t (guardFor ctx (rulesFor rules table)) ↔
      Spelled tables rules t table := by
  have hsub : (rulesFor rules table).Sublist (rulesOn tables rules t) :=
    rulesFor_sublist_rulesOn hres
  -- once the rules agree on the newest rows, those under one name select them too
  have hguard : ∀ latest, (∀ rule ∈ rulesOn tables rules t, rule.latest = latest) →
      rulesFor rules table ≠ [] → guardFor ctx (rulesFor rules table) =
        (latest.map latestKind).toList ++ filterFor ctx (rulesFor rules table) := by
    intro latest hlatest hne
    match hown : rulesFor rules table with
    | [] => exact absurd hown hne
    | first :: rest =>
      rw [guardFor, hlatest first (hsub.subset (hown ▸ mem_cons_self))]
  by_cases htaut : ∃ rule ∈ rulesOn tables rules t, rule.predicate.isTautology
  · simp only [FilteredByRulesOn, Spelled, if_pos htaut]
    constructor
    · rintro ⟨latest, hlatest, hguards⟩
      refine ⟨⟨latest, hlatest⟩, ?_⟩
      by_cases hown : rulesFor rules table = []
      · rw [hown, guardFor] at hguards
        refine .inr ⟨hown, fun rule hrule => ?_⟩
        rw [hlatest rule hrule]
        simpa using hguards.symm
      · rw [hguard latest hlatest hown] at hguards
        exact .inl ((filterFor_eq_nil_iff hmat).mp (by simpa using hguards))
    · rintro ⟨⟨latest, hlatest⟩, hopen | ⟨hown, hnone⟩⟩
      · refine ⟨latest, hlatest, ?_⟩
        obtain ⟨rule, hrule, -⟩ := id hopen
        rw [hguard latest hlatest (ne_nil_of_mem hrule), (filterFor_eq_nil_iff hmat).mpr hopen,
          append_nil]
      · exact ⟨none, hnone, by rw [hown]; rfl⟩
  · simp only [FilteredByRulesOn, Spelled, if_neg htaut]
    have hnone : ∀ rule ∈ rulesOn tables rules t, rule.predicate.isTautology = false := by
      simpa using htaut
    obtain ⟨few, hfew⟩ := hmat fun rule hrule => hnone rule (hsub.subset hrule)
    rw [← rulesFor_eq_rulesOn_iff hres]
    constructor
    · rintro ⟨latest, hlatest, many, hmany, hguards⟩
      refine ⟨⟨latest, hlatest⟩, ?_⟩
      by_cases hown : rulesFor rules table = []
      · simp [hown, guardFor] at hguards
      · rw [hguard latest hlatest hown, append_cancel_left_eq] at hguards
        exact eq_of_filterFor_eq hsub hown hnone hfew hmany hguards
    · rintro ⟨⟨latest, hlatest⟩, hsame⟩
      refine ⟨latest, hlatest, few, hsame ▸ hfew, ?_⟩
      rw [hguard latest hlatest (hsame ▸ hruled), filterFor_eq_disjunction (hsame ▸ hnone) hfew]

end

/-- The rewriter compares table names as texts, so a query is restricted by the rules on the tables
it reads exactly when it spells the ruled tables the way their rules do. -/
theorem scansFiltered_iff_spelledAlike (tables : List IntrospectedTable)
    (rules : List CompiledRule) (context : UserContext) {g : MirGraph} (hwf : g.WellFormed)
    (hacyclic : g.Acyclic) {out : RewriteOutcome} (h : rewrite g rules context = .ok out) :
    ScansFiltered tables rules context g out.graph ↔ SpelledAlike tables rules g := by
  obtain ⟨hread, hguards⟩ := rewrite_guards hwf hacyclic h
  have hscan : ∀ i table project t, g.kind? i = some (.baseTable table project) →
      tablesByName tables table = some t → rulesOn tables rules t ≠ [] →
      ((∃ top guards, Capped g.nodeCount out.graph i top guards ∧
        FilteredByRulesOn tables rules context t guards) ↔ Spelled tables rules t table) := by
    intro i table project t hkind hres hruled
    have hmem : i ∈ g.baseTableIndices := mem_baseTableIndices.mpr ⟨table, project, hkind⟩
    have hmat := (rewrite_run h).materialized hwf hacyclic hmem hkind
    rw [← filteredByRulesOn_iff hres hmat hruled]
    obtain ⟨top, hcap⟩ := hguards i table project hkind
    constructor
    · rintro ⟨top', guards, hcap', hfiltered⟩
      rw [← (hcap.only top' guards hcap'.top hcap'.above).2]
      exact hfiltered
    · exact fun hfiltered => ⟨top, _, hcap, hfiltered⟩
  constructor
  · rintro ⟨-, hfiltered⟩ i table project t hkind hres hruled
    exact (hscan i table project t hkind hres hruled).mp
      (hfiltered i table project t hkind hres hruled)
  · intro hspelled
    refine ⟨hread, fun i table project t hkind hres hruled => ?_⟩
    exact (hscan i table project t hkind hres hruled).mpr
      (hspelled i table project t hkind hres hruled)

def publicPosts : IntrospectedTable :=
  ⟨1, "public", "posts", [⟨"id", .int⟩, ⟨"author_id", .int⟩]⟩

theorem readAll_posts_spelledAlike : SpelledAlike [publicPosts] ownPosts (readAll "posts") := by
  intro i table project t hkind hres hruled
  obtain rfl := readAll_kind hkind
  have ht : t = publicPosts := Option.some.inj (hres.symm.trans (by decide))
  subst ht
  exact ⟨⟨none, by decide⟩, by decide⟩

theorem bare_scan_filtered : ∃ out, rewrite (readAll "posts") ownPosts userSeven = .ok out ∧
      ScansFiltered [publicPosts] ownPosts userSeven (readAll "posts") out.graph := by
  obtain ⟨out, hout⟩ : ∃ out, rewrite (readAll "posts") ownPosts userSeven = .ok out := ⟨_, rfl⟩
  exact ⟨out, hout, (scansFiltered_iff_spelledAlike [publicPosts] ownPosts userSeven
    (MirGraph.WellFormed.new _) (readAll_acyclic "posts") hout).mpr readAll_posts_spelledAlike⟩

/-- Written with its namespace, the table is read without the rule's filter. -/
theorem qualified_scan_unfiltered :
    tablesByName [publicPosts] "public.posts" = tablesByName [publicPosts] "posts" ∧
    ∃ out, rewrite (readAll "public.posts") ownPosts userSeven = .ok out ∧
      ¬ ScansFiltered [publicPosts] ownPosts userSeven (readAll "public.posts") out.graph := by
  refine ⟨by decide, _, rfl, ?_⟩
  rintro ⟨-, hscans⟩
  obtain ⟨top, guards, hcap, latest, -, hfiltered⟩ :=
    hscans 0 "public.posts" [] publicPosts rfl (by decide) (by decide)
  -- nothing is spliced above the scan
  obtain ⟨t, hbare⟩ := (layered_start (g := readAll "public.posts") (.new _)).capped 0
    (by decide)
  obtain rfl := (hbare.only top guards hcap.top hcap.above).2
  obtain ⟨clauses, -, hguards⟩ := hfiltered
  simp at hguards

end Palimpsest.Postgres
