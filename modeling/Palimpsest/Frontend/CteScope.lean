import Palimpsest.Frontend.Lowering
import Palimpsest.Foundation.Fallible

/-! CTE references under SQL scoping, and the queries for which lowering finds the same ones. -/
namespace Palimpsest.Frontend

open Sql Fallible List
open Statement (relations)

/-! Lowering depends on scopes only through what becomes of the items of FROM clauses. -/
section Congruence
variable {σ σ' κ : Type} {here : Nested σ κ} {there : Nested σ' κ} {s : σ} {s' : σ'}

variable (here there s s') in
def TableFactor.Agrees : TableFactor κ → Prop
  | .table name tableAlias => here.table name tableAlias s = there.table name tableAlias s'
  | .derived _ subquery tableAlias =>
    here.lowerDerived subquery tableAlias s = there.lowerDerived subquery tableAlias s' ∧
      here.lowerLateral subquery tableAlias s = there.lowerLateral subquery tableAlias s'
  | .other => True

variable (here there s s') in
/-- FROM items and subqueries of the WHERE clause are lowered to the same trees. -/
structure Select.Agrees (select : Select κ) : Prop where
  relation : ∀ source ∈ select.sources, source.relation.Agrees here there s s'
  joined : ∀ source ∈ select.sources, ∀ join ∈ source.joins, join.relation.Agrees here there s s'
  exists_ : ∀ q ∈ select.selection.toList.flatMap Expr.subqueries,
    here.lowerExists q s = there.lowerExists q s'

variable (here there s s') in
def SetExpr.Agrees : SetExpr κ → Prop
  | .select body => body.Agrees here there s s'
  | .query q => here.lowerQuery q s = there.lowerQuery q s'
  | .setOperation _ _ left right => left.Agrees ∧ right.Agrees
  | .other _ => True

theorem TableFactor.Agrees.lowerTableFactor_eq (h : factor.Agrees here there s s') :
    lowerTableFactor here s factor = lowerTableFactor there s' factor := by
  cases factor with
  | table => exact h
  | derived => exact h.1
  | other => rfl

theorem TableFactor.Agrees.lowerJoinSource_eq (h : factor.Agrees here there s s') :
    lowerJoinSource here s factor = lowerJoinSource there s' factor := by
  cases factor with
  | table => simp [lowerJoinSource, h.lowerTableFactor_eq]
  | derived lateral =>
    cases lateral with
    | false => simp [lowerJoinSource, h.lowerTableFactor_eq]
    | true => exact h.2
  | other => rfl

theorem foldlM_congr {ε α β : Type} {f g : β → α → Except ε β} {as : List α}
    (h : ∀ a ∈ as, ∀ b, f b a = g b a) (b : β) : as.foldlM f b = as.foldlM g b := by
  induction as generalizing b with
  | nil => rfl
  | cons a as ih =>
    rw [foldlM_cons, h a mem_cons_self b]
    exact bind_congr fun b' => ih (fun a ha => h a (mem_cons_of_mem _ ha)) b'

theorem Select.Agrees.lowerFrom_eq (h : select.Agrees here there s s') :
    lowerFrom here s select = lowerFrom there s' select := by
  obtain ⟨hrel, hjoined, -⟩ := h
  unfold lowerFrom
  split
  next src hsrcs =>
    rw [hsrcs] at hrel hjoined
    have hsrc := mem_singleton_self src
    rw [lowerTableWithJoins, (hrel src hsrc).lowerTableFactor_eq]
    refine bind_congr fun tree => foldlM_congr (fun join hjoin tree => ?_) tree
    rw [lowerJoin, lowerJoin, (hjoined src hsrc join hjoin).lowerJoinSource_eq]
  next => rfl

theorem mem_collectExists {e : Expr κ} (h : term ∈ (collectExists e).1) :
    term.subquery ∈ e.subqueries := by
  fun_induction collectExists e with
  | case1 left right l r ihl ihr =>
    rcases mem_append.mp h with h | h
    · exact mem_append_left _ (ihl h)
    · exact mem_append_right _ (ihr h)
  | case2 | case3 | case4 | case5 =>
    rw [mem_singleton.mp h]
    exact mem_singleton_self _
  | case6 => cases h

variable (htext : here.toPrinter = there.toPrinter)
include htext

theorem lowerWhere_eq (h : ∀ q ∈ selection.toList.flatMap Expr.subqueries,
      here.lowerExists q s = there.lowerExists q s') (tree) :
    lowerWhere here s tree selection = lowerWhere there s' tree selection := by
  cases selection with
  | none => rfl
  | some e =>
    have hscalar (e : Option (Expr κ)) :
        lowerScalarPredicate here tree e = lowerScalarPredicate there tree e := by
      unfold lowerScalarPredicate
      rw [htext]
    rw [lowerWhere, hscalar]
    refine bind_congr fun filtered => foldlM_congr (fun term hterm tree => ?_) filtered
    have hmem : term.subquery ∈ (some e).toList.flatMap Expr.subqueries := by
      simpa using mem_collectExists hterm
    rw [lowerExistsTerm, lowerExistsTerm, h _ hmem]

theorem Select.Agrees.lowerSelectBody_eq (h : select.Agrees here there s s') :
    lowerSelectBody here s select = lowerSelectBody there s' select := by
  have hgrouping : lowerGrouping here select = lowerGrouping there select := by
    unfold lowerGrouping lowerHaving
    rw [htext]
  have hprojection : lowerProjection here select = lowerProjection there select := by
    unfold lowerProjection lowerDistinct
    rw [htext]
  unfold lowerSelectBody
  rw [h.lowerFrom_eq, hgrouping, hprojection]
  simp [lowerWhere_eq htext h.exists_]

theorem SetExpr.Agrees.lowerSetExpr_eq (h : body.Agrees here there s s') :
    lowerSetExpr here s body = lowerSetExpr there s' body := by
  induction body with
  | select => exact Select.Agrees.lowerSelectBody_eq htext h
  | query => exact h
  | setOperation op quant left right ihl ihr => simp [lowerSetExpr, ihl h.1, ihr h.2]
  | other => rfl

theorem SetExpr.Agrees.lowerQueryWithContext_eq {query : Query κ}
    (h : query.body.Agrees here there s s') :
    lowerQueryWithContext here query s = lowerQueryWithContext there query s' := by
  rw [lowerQueryWithContext, lowerQueryWithContext, h.lowerSetExpr_eq htext, htext]

theorem SetExpr.Agrees.lowerExistsSubquery_eq {query : Query κ}
    (h : query.body.Agrees here there s s') :
    lowerExistsSubquery here query s = lowerExistsSubquery there query s' := by
  obtain ⟨ctes, body, orderBy, limit, offset, fetch⟩ := query
  cases body with
  | select select =>
    have hselect : select.Agrees here there s s' := h
    simp [lowerExistsSubquery, hselect.lowerFrom_eq, htext]
  | query | setOperation | other => rfl

omit htext

theorem foldl_and_subqueries (rest : List (Expr κ)) (e) :
    (rest.foldl (fun left right => Expr.binaryOp left .and right) e).subqueries =
      e.subqueries ++ rest.flatMap Expr.subqueries := by
  induction rest generalizing e with
  | nil => simp
  | cons r rest ih => simp [ih, Expr.subqueries]

theorem conjoin_subqueries (es : List (Expr κ)) :
    (conjoin es).toList.flatMap Expr.subqueries = es.flatMap Expr.subqueries := by
  cases es <;> simp [conjoin, foldl_and_subqueries]

/-- What is left of a predicate has no nested query that it had not. -/
theorem collectCorrelated_subqueries (innerNames) (e : Expr κ) :
    ((collectCorrelated innerNames e).2.flatMap Expr.subqueries) ⊆ e.subqueries := by
  fun_induction collectCorrelated innerNames e with
  | case1 left right l r ihl =>
    rename_i ihr
    rw [flatMap_append]
    exact append_subset.mpr
      ⟨subset_append_of_subset_left _ ihl, subset_append_of_subset_right _ ihr⟩
  | case2 => exact nil_subset _
  | case3 | case4 => simp

theorem SetExpr.Agrees.lowerLateralSubquery_eq (htext : here.toPrinter = there.toPrinter)
    {query : Query κ}
    (h : query.body.Agrees here there s s') :
    lowerLateralSubquery here query s = lowerLateralSubquery there query s' := by
  obtain ⟨ctes, body, orderBy, limit, offset, fetch⟩ := query
  cases body with
  | select select =>
    obtain ⟨hrel, hjoined, hexists⟩ : select.Agrees here there s s' := h
    have hwidened (remaining : Option (Expr κ)) (projection : List (SelectItem κ))
        (hsub : remaining.toList.flatMap Expr.subqueries ⊆
          select.selection.toList.flatMap Expr.subqueries) :
        (SetExpr.select { select with selection := remaining, projection := projection }).Agrees
          here there s s' :=
      ⟨hrel, hjoined, fun q hq => hexists q (hsub hq)⟩
    have hremaining : (splitCorrelatedPredicates select.selection
        (relationNames select)).2.toList.flatMap Expr.subqueries ⊆
          select.selection.toList.flatMap Expr.subqueries := by
      cases select.selection with
      | none => exact nil_subset _
      | some e =>
        simp only [splitCorrelatedPredicates, conjoin_subqueries, Option.toList_some,
          flatMap_cons, flatMap_nil, append_nil]
        exact collectCorrelated_subqueries _ e
    simp only [lowerLateralSubquery]
    rw [Agrees.lowerQueryWithContext_eq htext (hwidened _ _ hremaining)]
  | query | setOperation | other => rfl

end Congruence

/-! SQL scoping. `rename` stands for whatever gives a relation the names of a column list. -/
section SqlScoping
variable (rename : List Ident → MirTree → MirTree)

/-- Only a name of one part can refer to a CTE. -/
def namesCte (name : ObjectName) (cte : Ident) : Bool := name.map foldIdent == [foldIdent cte]

/-- What lowering makes of a CTE counts only where the CTE is referred to. -/
inductive CteBody where
  | lowered (tree : Except SqlError MirTree)
  | working
  | pending
deriving DecidableEq

structure CteEntry where
  name : Ident
  columns : List Ident
  body : CteBody

abbrev SqlScope := List CteEntry

/-- A CTE that stands later in the list has no graph yet. -/
def CteEntry.reference (entry : CteEntry) : Except SqlError MirTree :=
  match entry.body with
  | .lowered tree => tree.map (.expand (.cteRef entry.name.value))
  | .working => .ok (.leaf (.recursiveRef entry.name.value))
  | .pending => .error (.unsupportedFeature "references to a later CTE")

def aliasColumns (tableAlias : Option TableAlias) : List Ident :=
  (tableAlias.map TableAlias.columns).getD []

def sqlTable (name : ObjectName) (tableAlias : Option TableAlias) (scope : SqlScope) :
    Except SqlError MirTree :=
  match scope.find? fun entry => namesCte name entry.name with
  | some entry => do
    let tree ← entry.reference
    .ok (rename (aliasColumns tableAlias) (rename entry.columns tree))
  | none => .ok (rename (aliasColumns tableAlias) (.leaf (.baseTable (ObjectName.display name) [])))

def sqlEnterRecursion (name : String) (scope : SqlScope) : SqlScope :=
  scope.map fun entry =>
    if entry.name.value = name ∧ entry.body = .pending then { entry with body := .working }
    else entry

section
variable {κ : Type} (nested : Nested SqlScope κ)

def pendingEntries (ctes : List (Cte κ)) : SqlScope :=
  ctes.map fun cte => ⟨cte.tableAlias.name, cte.tableAlias.columns, .pending⟩

/-- In a recursive list a CTE sees itself and the later ones too. -/
def sqlCteBody (isRecursive : Bool) (scope : SqlScope) (cte : Cte κ) (later : List (Cte κ)) :
    Except SqlError MirTree :=
  let visible := if isRecursive then pendingEntries (cte :: later) ++ scope else scope
  if isRecursive && (nested.relations cte.query).any (namesCte · cte.tableAlias.name) then
    nested.lowerRecursive cte.tableAlias.name.value cte.query visible
  else nested.lowerQuery cte.query visible

def sqlCtes (isRecursive : Bool) : List (Cte κ) → SqlScope → SqlScope
  | [], scope => scope
  | cte :: later, scope =>
    sqlCtes isRecursive later (⟨cte.tableAlias.name, cte.tableAlias.columns,
      .lowered (sqlCteBody nested isRecursive scope cte later)⟩ :: scope)

def sqlWith (clause : Option (With κ)) (scope : SqlScope) : SqlScope :=
  match clause with
  | none => scope
  | some clause => sqlCtes nested clause.isRecursive clause.ctes scope

/-- A WITH clause adds to the scope of its own query, at any depth. -/
def sqlQuery (query : Query κ) (scope : SqlScope) : Except SqlError MirTree :=
  lowerQueryWithContext nested query (sqlWith nested query.ctes scope)

def sqlRecursiveCte (name : String) (query : Query κ) (scope : SqlScope) :
    Except SqlError MirTree :=
  lowerRecursiveCte nested name query (sqlWith nested query.ctes scope)

end

def sqlNestedAt (text : ∀ n, Printer (Statement n)) : (n : ℕ) → Nested SqlScope (Statement n)
  | 0 =>
    { toPrinter := text 0
      relations := Empty.elim
      table := sqlTable rename
      enterRecursion := sqlEnterRecursion
      lowerDerived := Empty.elim
      lowerLateral := Empty.elim
      lowerQuery := Empty.elim
      lowerExists := Empty.elim
      lowerRecursive := fun _ => Empty.elim }
  | n + 1 =>
    let nested := sqlNestedAt text n
    { toPrinter := text (n + 1)
      relations := fun q => relations (n + 1) q
      table := sqlTable rename
      enterRecursion := sqlEnterRecursion
      lowerDerived := fun q tableAlias scope =>
        (sqlQuery nested q scope).map (rename (aliasColumns tableAlias))
      lowerLateral := fun q tableAlias scope =>
        (lowerLateralSubquery nested q scope).map fun source =>
          { source with tree := rename (aliasColumns tableAlias) source.tree }
      lowerQuery := sqlQuery nested
      lowerExists := lowerExistsSubquery nested
      lowerRecursive := sqlRecursiveCte nested }

/-- Lowering in which every FROM reference is the one that SQL scoping gives. -/
def sqlLowerQuery (text : ∀ n, Printer (Statement n)) (n : ℕ) (q : Statement n) :
    Except SqlError MirTree :=
  (sqlNestedAt rename text n).lowerQuery q []

end SqlScoping

def Query.cteList {κ : Type} (query : Query κ) : List (Cte κ) := query.ctes.toList.flatMap With.ctes

/-! Statements without column lists of aliases in which no WITH clause below the outermost query is
used. -/
section
variable {κ : Type} (relations : κ → List ObjectName) (nested : κ → Prop)

def TableFactor.Plain : TableFactor κ → Prop
  | .table _ tableAlias => aliasColumns tableAlias = []
  | .derived _ subquery tableAlias => aliasColumns tableAlias = [] ∧ nested subquery
  | .other => True

structure Select.Plain (select : Select κ) : Prop where
  relation : ∀ source ∈ select.sources, source.relation.Plain nested
  joined : ∀ source ∈ select.sources, ∀ join ∈ source.joins, join.relation.Plain nested
  exists_ : ∀ q ∈ select.selection.toList.flatMap Expr.subqueries, nested q

def SetExpr.Plain : SetExpr κ → Prop
  | .select body => body.Plain nested
  | .query q => nested q
  | .setOperation _ _ left right => left.Plain ∧ right.Plain
  | .other _ => True

structure Query.Plain (query : Query κ) : Prop where
  unused : ∀ cte ∈ query.cteList, ∀ name ∈ query.body.relations relations,
    namesCte name cte.tableAlias.name = false
  body : query.body.Plain nested

end

def Statement.Plain : (n : ℕ) → Statement n → Prop
  | 0, q => nomatch q
  | n + 1, q => Query.Plain (Statement.relations n) (Statement.Plain n) q

/-- Comparing a name in FROM with a CTE's as a text is comparing them as SQL does. -/
def SameText (name : ObjectName) (cte : Ident) : Prop :=
  ObjectName.display name = cte.value ↔ namesCte name cte = true

/-- So is comparing the last part of the name. -/
def SameLast (name : ObjectName) (cte : Ident) : Prop :=
  (name.getLast?.any fun part => part.value == cte.value) = true ↔ namesCte name cte = true

/-- Some name in FROM position refers to the CTE. -/
def Query.Uses {n : ℕ} (query : Query (Statement n)) (cte : Cte (Statement n)) : Prop :=
  ∃ name ∈ query.relations (Statement.relations n), namesCte name cte.tableAlias.name = true

/-- WITH clauses below the outermost query are not used. CTEs that are used have no column list.
Names compare as texts as they do in SQL with the CTEs in scope where they stand; in a recursive
list no CTE refers to a later one, and names compare by last parts with the CTE they stand in. -/
structure Query.PlainlyScoped {n : ℕ} (query : Query (Statement n)) : Prop where
  body : query.body.Plain (Statement.Plain n)
  names : ∀ cte ∈ query.cteList, ∀ name ∈ query.body.relations (Statement.relations n),
    SameText name cte.tableAlias.name
  plain : ∀ cte ∈ query.cteList, query.Uses cte → Statement.Plain n cte.query
  columns : ∀ cte ∈ query.cteList, query.Uses cte → cte.tableAlias.columns = []
  earlier : query.cteList.Pairwise fun earlier later => query.Uses later →
    ∀ name ∈ Statement.relations n later.query, SameText name earlier.tableAlias.name
  own : query.ctes.any With.isRecursive = true → ∀ cte ∈ query.cteList, query.Uses cte →
    ∀ name ∈ Statement.relations n cte.query,
      SameText name cte.tableAlias.name ∧ SameLast name cte.tableAlias.name
  order : query.ctes.any With.isRecursive = true → query.cteList.Pairwise fun earlier later =>
    query.Uses earlier →
      ∀ name ∈ Statement.relations n earlier.query, namesCte name later.tableAlias.name = false

def Statement.PlainlyScoped : (n : ℕ) → Statement n → Prop
  | 0, q => nomatch q
  | _ + 1, q => Query.PlainlyScoped q

/-! Resolving aliases keeps a statement plain. -/
section
variable {κ : Type} {nested : κ → Prop} {within : List Scope → κ → κ}
  (hres : ∀ scopes q, nested q → nested (within scopes q))
include hres

theorem TableFactor.Plain.bind (h : factor.Plain nested) (outer own) :
    (bindTableFactor within outer factor own).1.Plain nested := by
  cases factor with
  | table =>
    unfold bindTableFactor
    split
    · rfl
    · simp_all
    · simp_all
    · exact h
  | derived lateral =>
    cases lateral with
    | false | true => exact ⟨h.1, hres _ _ h.2⟩
  | other => trivial

theorem bindJoins_plain (h : ∀ join ∈ joins, join.relation.Plain nested) (outer own) :
    ∀ join ∈ (bindJoins within outer joins own).1, join.relation.Plain nested := by
  induction joins generalizing own with
  | nil => exact fun _ hjoin => nomatch hjoin
  | cons join rest ih =>
    rw [forall_mem_cons] at h
    rw [bindJoins, forall_mem_cons]
    exact ⟨h.1.bind hres outer own, ih h.2 _⟩

theorem bindSources_plain (h : ∀ src ∈ sources, src.relation.Plain nested ∧
      ∀ join ∈ src.joins, join.relation.Plain nested) (outer own) :
    ∀ src ∈ (bindSources within outer sources own).1, src.relation.Plain nested ∧
      ∀ join ∈ src.joins, join.relation.Plain nested := by
  induction sources generalizing own with
  | nil => exact fun _ hsrc => nomatch hsrc
  | cons src rest ih =>
    rw [forall_mem_cons] at h
    rw [bindSources, forall_mem_cons]
    exact ⟨⟨h.1.1.bind hres outer own, bindJoins_plain hres h.1.2 outer _⟩, ih h.2 _⟩

theorem Select.Plain.resolve (h : select.Plain nested) (outer) :
    (resolveSelect within outer select).1.Plain nested := by
  have hsrcs := bindSources_plain hres
    (fun src hsrc => ⟨h.relation src hsrc, h.joined src hsrc⟩) outer []
  refine ⟨fun src hsrc => ?_, fun src hsrc join hjoin => ?_, fun q hq => ?_⟩
  · obtain ⟨src, hmem, rfl⟩ := mem_map.mp hsrc
    exact (hsrcs src hmem).1
  · obtain ⟨src, hmem, rfl⟩ := mem_map.mp hsrc
    obtain ⟨join, hinner, rfl⟩ := mem_map.mp hjoin
    exact (hsrcs src hmem).2 join hinner
  · simp only [resolveSelect] at hq
    cases hselection : select.selection with
    | none => simp [hselection] at hq
    | some =>
      simp only [hselection, Option.map_some, Option.toList_some, flatMap_cons, flatMap_nil,
        append_nil, resolveExpr_parts, mem_map] at hq
      obtain ⟨q, hq, rfl⟩ := hq
      exact hres _ _ (h.exists_ q (by simpa [hselection] using hq))

theorem SetExpr.Plain.resolve (h : body.Plain nested) (outer) :
    (resolveSetExpr within outer body).1.Plain nested := by
  induction body with
  | select => exact Select.Plain.resolve hres h outer
  | query => exact hres _ _ h
  | setOperation op quant left right ihl ihr => exact ⟨ihl h.1, ihr h.2⟩
  | other => trivial

omit hres in
theorem resolveQuery_cteList (within : List Scope → κ → κ) (outer query) :
    (resolveQuery within outer query).cteList = query.cteList.map (resolveCte within) := by
  rw [Query.cteList, Query.cteList, resolveQuery]
  cases query.ctes <;> simp

theorem Query.Plain.resolve {relations : κ → List ObjectName}
    (hrelations : ∀ scopes q, relations (within scopes q) = relations q)
    (h : query.Plain relations nested) (outer) :
    (resolveQuery within outer query).Plain relations nested := by
  refine ⟨fun cte hcte name hname => ?_, h.body.resolve hres outer⟩
  rw [resolveQuery_cteList] at hcte
  obtain ⟨original, horiginal, rfl⟩ := mem_map.mp hcte
  have hbody : (resolveQuery within outer query).body.relations relations =
      query.body.relations relations := resolveSetExpr_relations hrelations outer query.body
  exact h.unused original horiginal name (hbody ▸ hname)

end

theorem Statement.Plain.resolve (h : Statement.Plain n q) (outer) :
    Statement.Plain n (resolveAt n outer q) := by
  induction n generalizing outer with
  | zero => exact nomatch q
  | succ n ih =>
    exact Query.Plain.resolve (fun scopes q hq => ih hq scopes) (resolveAt_relations n) h outer

def Statement.baseRelations : (n : ℕ) → Statement n → List ObjectName
  | 0, q => nomatch q
  | n + 1, q =>
    match Query.body q with
    | .setOperation .union _ left _ => left.relations (Statement.relations n)
    | _ => []

theorem resolveAt_baseRelations (n : ℕ) (outer q) :
    Statement.baseRelations n (resolveAt n outer q) = Statement.baseRelations n q := by
  cases n with
  | zero => exact nomatch q
  | succ n =>
    obtain ⟨ctes, body, orderBy, limit, offset, fetch⟩ := q
    cases body with
    | setOperation op quant left =>
      cases op with
      | union => exact resolveSetExpr_relations (resolveAt_relations n) outer left
      | except | intersect => rfl
    | select | query | other => rfl

theorem Query.PlainlyScoped.resolve (h : query.PlainlyScoped) (outer) :
    Query.PlainlyScoped (n := n) (resolveQuery (resolveAt n) outer query) := by
  have hcte : ∀ cte ∈ (resolveQuery (resolveAt n) outer query).cteList,
      ∃ original ∈ query.cteList, resolveCte (resolveAt n) original = cte := by
    intro cte hcte
    rw [resolveQuery_cteList] at hcte
    exact mem_map.mp hcte
  have hrecursive : (resolveQuery (resolveAt n) outer query).ctes.any With.isRecursive =
      query.ctes.any With.isRecursive := by
    rw [resolveQuery]
    cases query.ctes with
    | none | some => rfl
  have huses : ∀ cte, Query.Uses (resolveQuery (resolveAt n) outer query)
      (resolveCte (resolveAt n) cte) → query.Uses cte := by
    rintro cte ⟨name, hname, hnames⟩
    rw [resolveQuery_relations (resolveAt_relations n)] at hname
    exact ⟨name, hname, hnames⟩
  have hrelations : ∀ cte : Cte (Statement n), Statement.relations n
      (resolveCte (resolveAt n) cte).query = Statement.relations n cte.query :=
    fun cte => resolveAt_relations n [] cte.query
  refine ⟨h.body.resolve (fun scopes q hq => hq.resolve scopes) outer, ?_, ?_, ?_, ?_, ?_, ?_⟩
  · intro cte hmem name hname
    obtain ⟨original, horiginal, rfl⟩ := hcte cte hmem
    have hbody : (resolveQuery (resolveAt n) outer query).body.relations (Statement.relations n) =
        query.body.relations (Statement.relations n) :=
      resolveSetExpr_relations (resolveAt_relations n) outer query.body
    exact h.names original horiginal name (hbody ▸ hname)
  · intro cte hmem hused
    obtain ⟨original, horiginal, rfl⟩ := hcte cte hmem
    exact (h.plain original horiginal (huses original hused)).resolve []
  · intro cte hmem hused
    obtain ⟨original, horiginal, rfl⟩ := hcte cte hmem
    exact h.columns original horiginal (huses original hused)
  · rw [resolveQuery_cteList, pairwise_map]
    refine h.earlier.imp fun hpair hused name hname => hpair (huses _ hused) name ?_
    rwa [hrelations] at hname
  · intro htrue cte hmem hused name hname
    rw [hrecursive] at htrue
    obtain ⟨original, horiginal, rfl⟩ := hcte cte hmem
    rw [hrelations] at hname
    exact h.own htrue original horiginal (huses original hused) name hname
  · intro htrue
    rw [hrecursive] at htrue
    rw [resolveQuery_cteList, pairwise_map]
    refine (h.order htrue).imp fun hpair hused name hname => hpair (huses _ hused) name ?_
    rwa [hrelations] at hname

section Agreement
variable {text : ∀ n, Printer (Statement n)} {rename : List Ident → MirTree → MirTree}
  {context : LowerContext} {scope : SqlScope}

variable (rename context scope) in
def SameTables (names : List ObjectName) : Prop :=
  ∀ name ∈ names, ∀ tableAlias, aliasColumns tableAlias = [] →
    sqlTable rename name tableAlias scope = .ok (lowerTable name context)

theorem sqlTable_append (h : ∀ entry ∈ front, namesCte name entry.name = false) (als) :
    sqlTable rename name als (front ++ scope) = sqlTable rename name als scope := by
  have hnone := find?_eq_none.mpr fun entry hentry => Bool.eq_false_iff.mp (h entry hentry)
  rw [sqlTable, find?_append, hnone, Option.none_or, sqlTable]

theorem sqlCtes_append (nested : Nested SqlScope κ) (isRecursive : Bool) (ctes scope) :
    ∃ front, sqlCtes nested isRecursive ctes scope = front ++ scope ∧
      ∀ entry ∈ front, ∃ cte ∈ ctes, cte.tableAlias.name = entry.name := by
  induction ctes generalizing scope with
  | nil => exact ⟨[], rfl, forall_mem_nil _⟩
  | cons cte later ih =>
    obtain ⟨front, hfront, hnames⟩ := ih (⟨cte.tableAlias.name, cte.tableAlias.columns,
      .lowered (sqlCteBody nested isRecursive scope cte later)⟩ :: scope)
    refine ⟨front ++ [_], hfront.trans (append_cons ..), forall_mem_append.mpr ⟨?_, ?_⟩⟩
    · intro entry hentry
      obtain ⟨other, hother, hname⟩ := hnames entry hentry
      exact ⟨other, mem_cons_of_mem _ hother, hname⟩
    · exact forall_mem_singleton.mpr ⟨cte, mem_cons_self, rfl⟩

theorem sqlWith_append (nested : Nested SqlScope κ) (clause scope) :
    ∃ front, sqlWith nested clause scope = front ++ scope ∧
      ∀ entry ∈ front, ∃ cte ∈ clause.toList.flatMap With.ctes,
        cte.tableAlias.name = entry.name := by
  cases clause with
  | none => exact ⟨[], rfl, forall_mem_nil _⟩
  | some clause => simpa [sqlWith] using sqlCtes_append nested clause.isRecursive clause.ctes scope

/-- A WITH clause that no name refers to changes nothing. -/
theorem SameTables.within {query : Query κ} (h : SameTables rename context scope names)
    (hunused : ∀ cte ∈ query.cteList, ∀ name ∈ names, namesCte name cte.tableAlias.name = false)
    (nested : Nested SqlScope κ) :
    SameTables rename context (sqlWith nested query.ctes scope) names := by
  obtain ⟨front, hfront, hnames⟩ := sqlWith_append nested query.ctes scope
  intro name hname als hcolumns
  rw [hfront, sqlTable_append]
  · exact h name hname als hcolumns
  · intro entry hentry
    obtain ⟨cte, hcte, hsame⟩ := hnames entry hentry
    exact hsame ▸ hunused cte hcte name hname

theorem SameTables.enter {query : Query κ} (nested : Nested SqlScope κ)
    (h : SameTables rename context (sqlEnterRecursion own scope) names)
    (hunused : ∀ cte ∈ query.cteList, ∀ name ∈ names, namesCte name cte.tableAlias.name = false) :
    SameTables rename context (sqlEnterRecursion own (sqlWith nested query.ctes scope)) names := by
  obtain ⟨front, hfront, hnames⟩ := sqlWith_append nested query.ctes scope
  intro name hname als hcolumns
  rw [hfront, sqlEnterRecursion, map_append, ← sqlEnterRecursion, ← sqlEnterRecursion,
    sqlTable_append]
  · exact h name hname als hcolumns
  · refine forall_mem_map.mpr fun entry hentry => ?_
    obtain ⟨cte, hcte, hsame⟩ := hnames entry hentry
    have hfalse := hunused cte hcte name hname
    split
    · exact hsame ▸ hfalse
    · exact hsame ▸ hfalse

theorem SameTables.subset (h : SameTables rename context scope names) (hsub : names' ⊆ names) :
    SameTables rename context scope names' :=
  fun name hname => h name (hsub hname)

structure QueryAgrees {κ : Type} (here : Nested LowerContext κ) (there : Nested SqlScope κ)
    (context : LowerContext) (scope : SqlScope) (q : κ) : Prop where
  query : here.lowerQuery q context = there.lowerQuery q scope
  derived : ∀ tableAlias, aliasColumns tableAlias = [] →
    here.lowerDerived q tableAlias context = there.lowerDerived q tableAlias scope
  lateral : ∀ tableAlias, aliasColumns tableAlias = [] →
    here.lowerLateral q tableAlias context = there.lowerLateral q tableAlias scope
  exists_ : here.lowerExists q context = there.lowerExists q scope

theorem text_eq (n : ℕ) : (nestedAt text n).toPrinter = (sqlNestedAt rename text n).toPrinter := by
  cases n <;> rfl

section
variable
  (hnest : ∀ q, Statement.Plain n q → SameTables rename context scope (Statement.relations n q) →
    QueryAgrees (nestedAt text n) (sqlNestedAt rename text n) context scope q)
include hnest

theorem TableFactor.Plain.agrees {factor : TableFactor (Statement n)}
    (h : factor.Plain (Statement.Plain n))
    (hsame : SameTables rename context scope (factor.relations (Statement.relations n))) :
    factor.Agrees (nestedAt text n) (sqlNestedAt rename text n) context scope := by
  cases factor with
  | table name als =>
    cases n <;> exact (hsame name (mem_singleton_self name) als h).symm
  | derived lateral subquery als =>
    have hquery := hnest subquery h.2 hsame
    exact ⟨hquery.derived als h.1, hquery.lateral als h.1⟩
  | other => trivial

theorem SetExpr.Plain.agrees {body : SetExpr (Statement n)} (h : body.Plain (Statement.Plain n))
    (hsame : SameTables rename context scope (body.relations (Statement.relations n))) :
    body.Agrees (nestedAt text n) (sqlNestedAt rename text n) context scope := by
  induction body with
  | select =>
    obtain ⟨hrel, hjoined, hexists⟩ := h
    have hsrcs := hsame.subset (subset_append_left _ _)
    refine ⟨fun src hsrc => (hrel src hsrc).agrees hnest (hsrcs.subset ?_),
      fun src hsrc join hjoin =>
        (hjoined src hsrc join hjoin).agrees hnest (hsrcs.subset ?_),
      fun q hq => (hnest q (hexists q hq) (hsame.subset ?_)).exists_⟩
    · intro name hname
      exact mem_flatMap.mpr ⟨src, hsrc, mem_append_left _ hname⟩
    · intro name hname
      refine mem_flatMap.mpr ⟨src, hsrc, mem_append_right _ ?_⟩
      exact mem_flatMap.mpr ⟨join, hjoin, mem_append_left _ hname⟩
    · intro name hname
      refine mem_append_right _ (mem_flatMap.mpr ⟨q, ?_, hname⟩)
      simp only [mem_append]
      exact .inl (.inl (.inr hq))
  | query q => exact (hnest q h hsame).query
  | setOperation op quant left right ihl ihr =>
    exact ⟨ihl h.1 (hsame.subset (subset_append_left _ _)),
      ihr h.2 (hsame.subset (subset_append_right _ _))⟩
  | other => trivial

end

variable (hren : ∀ tree, rename [] tree = tree)
include hren

theorem Statement.Plain.agrees (n : ℕ) (q) (h : Statement.Plain n q)
    (hsame : SameTables rename context scope (Statement.relations n q)) :
    QueryAgrees (nestedAt text n) (sqlNestedAt rename text n) context scope q := by
  induction n generalizing scope with
  | zero => exact nomatch q
  | succ n ih =>
    have hbody : (Query.body q).Agrees (nestedAt text n) (sqlNestedAt rename text n) context
        (sqlWith (sqlNestedAt rename text n) (Query.ctes q) scope) := by
      refine SetExpr.Plain.agrees ih h.body (SameTables.within (hsame.subset ?_) h.unused _)
      exact Subset.trans (subset_append_right _ _) (subset_append_left _ _)
    have hquery : lowerQueryWithContext (nestedAt text n) q context =
        sqlQuery (sqlNestedAt rename text n) q scope := hbody.lowerQueryWithContext_eq (text_eq n)
    refine ⟨hquery, fun als hcolumns => ?_, fun als hcolumns => ?_, ?_⟩
    · simp only [nestedAt, sqlNestedAt, hcolumns]
      rw [hquery]
      cases sqlQuery (sqlNestedAt rename text n) q scope <;> simp [Except.map, hren]
    · have hlateral : lowerLateralSubquery (nestedAt text n) q context =
          lowerLateralSubquery (sqlNestedAt rename text n) q scope := by
        cases hctes : Query.ctes q with
        | none =>
          rw [hctes] at hbody
          exact hbody.lowerLateralSubquery_eq (text_eq n)
        | some => simp [lowerLateralSubquery, hctes]
      simp only [nestedAt, sqlNestedAt, hcolumns]
      rw [hlateral]
      cases lowerLateralSubquery (sqlNestedAt rename text n) q scope <;> simp [Except.map, hren]
    · show lowerExistsSubquery (nestedAt text n) q context =
        lowerExistsSubquery (sqlNestedAt rename text n) q scope
      cases hctes : Query.ctes q with
      | none =>
        rw [hctes] at hbody
        exact hbody.lowerExistsSubquery_eq (text_eq n)
      | some => simp [lowerExistsSubquery, hctes]

end Agreement

/-! The scopes after each CTE of the outermost WITH clause. -/
section Mirror
variable {text : ∀ n, Printer (Statement n)} {rename : List Ident → MirTree → MirTree}
variable {name : ObjectName}
  {context : LowerContext} {scope : SqlScope} {names : List ObjectName}

/-- The scope has the CTEs of the context, and those that are used lowered in the same way. -/
structure Mirrors (context : LowerContext) (scope : SqlScope) (names : List ObjectName) : Prop where
  ctes : List.Forall₂ (fun lowered entry => entry.name.value = lowered.1 ∧
    ∃ body, entry.body = .lowered body ∧ ((∃ name ∈ names, namesCte name entry.name = true) →
      entry.columns = [] ∧ body = .ok lowered.2)) context.ctes scope
  working : context.working = []

theorem Mirrors.find_eq (h : Mirrors context scope names) (hname : name ∈ names)
    (hsame : ∀ entry ∈ scope, SameText name entry.name) :
    scope.find? (fun entry => namesCte name entry.name) = none ∧
        context.ctes.lookup (ObjectName.display name) = none ∨
      ∃ entry tree, scope.find? (fun entry => namesCte name entry.name) = some entry ∧
        context.ctes.lookup (ObjectName.display name) = some tree ∧
        entry.name.value = ObjectName.display name ∧ entry.columns = [] ∧
        entry.body = .lowered (.ok tree) := by
  obtain ⟨hctes, -⟩ := h
  generalize context.ctes = lowereds at hctes ⊢
  induction hctes with
  | nil => exact .inl ⟨rfl, rfl⟩
  | @cons lowered entry lowereds entries hhead _ ih =>
    obtain ⟨key, tree⟩ := lowered
    obtain ⟨hvalue, body, hbody, hused⟩ := hhead
    obtain ⟨hiff, hrest⟩ := forall_mem_cons.mp hsame
    rw [SameText, hvalue] at hiff
    by_cases hnames : namesCte name entry.name = true
    · obtain ⟨hcolumns, rfl⟩ := hused ⟨name, hname, hnames⟩
      refine .inr ⟨entry, tree, find?_cons_of_pos hnames, ?_, ?_, hcolumns, hbody⟩
      · rw [hiff.mpr hnames, lookup_cons_self]
      · rw [hvalue, hiff.mpr hnames]
    · have hne : (ObjectName.display name == key) = false :=
        beq_false_of_ne fun heq => hnames (hiff.mp heq)
      rw [find?_cons_of_neg (p := fun entry : CteEntry => namesCte name entry.name) hnames,
        lookup_cons, hne]
      exact ih hrest

theorem Mirrors.enterRecursion (h : Mirrors context scope names) (cte) :
    sqlEnterRecursion cte scope = scope := by
  refine (map_congr_left fun entry hentry => ?_).trans (map_id scope)
  obtain ⟨i, hi, rfl⟩ := getElem_of_mem hentry
  have hi' : i < context.ctes.length := by rwa [h.ctes.length_eq]
  obtain ⟨-, body, hbody, -⟩ := h.ctes.get hi' hi
  rw [get_eq_getElem] at hbody
  simp [hbody]

theorem namesCte_pending {ctes : List (Cte κ)}
    (h : ∀ cte ∈ ctes, namesCte name cte.tableAlias.name = false) (cte) :
    ∀ entry ∈ sqlEnterRecursion cte (pendingEntries ctes), namesCte name entry.name = false := by
  refine forall_mem_map.mpr fun prev hwas => ?_
  obtain ⟨cte, hcte, rfl⟩ := mem_map.mp hwas
  split
  · exact h cte hcte
  · exact h cte hcte

theorem countNamed_pos_iff (h : ∀ name ∈ names, SameLast name cte) :
    0 < countNamed names cte.value ↔ ∃ name ∈ names, namesCte name cte = true := by
  rw [countNamed, countP_pos_iff]
  exact exists_congr fun name => and_congr_right (h name)

variable (hren : ∀ tree, rename [] tree = tree)
include hren

theorem Mirrors.sameTables (h : Mirrors context scope names) {some : List ObjectName}
    (hsub : some ⊆ names) (hsame : ∀ name ∈ some, ∀ entry ∈ scope, SameText name entry.name) :
    SameTables rename context scope some := by
  intro name hname als hcolumns
  rw [sqlTable, lowerTable, h.working]
  rcases h.find_eq (hsub hname) (hsame name hname) with
    ⟨hfind, hlookup⟩ | ⟨entry, tree, hfind, hlookup, hvalue, hnone, hbody⟩
  · simp [hfind, hlookup, hcolumns, hren]
  · rw [hfind]
    simp [CteEntry.reference, hbody, Except.map, hlookup, hvalue, hnone, hcolumns, hren]
    rfl

structure CteScoped {n : ℕ} (names : List ObjectName) (isRecursive : Bool) (front : List Ident)
    (cte : Cte (Statement n)) (later : List (Cte (Statement n))) : Prop where
  plain : Statement.Plain n cte.query
  columns : cte.tableAlias.columns = []
  within : relations n cte.query ⊆ names
  earlier : ∀ name ∈ relations n cte.query, ∀ other ∈ front, SameText name other
  own : isRecursive = true → ∀ name ∈ relations n cte.query,
    SameText name cte.tableAlias.name ∧ SameLast name cte.tableAlias.name
  order : isRecursive = true → ∀ other ∈ later, ∀ name ∈ relations n cte.query,
    namesCte name other.tableAlias.name = false
  base : isSelfReferential isRecursive cte (relations n) = true →
    ∀ name ∈ Statement.baseRelations n cte.query, namesCte name cte.tableAlias.name = false

variable {n : ℕ} {isRecursive : Bool} {cte : Cte (Statement n)} {later : List (Cte (Statement n))}

variable {front : List Ident} (hmirrors : Mirrors context scope names)
  (hfront : ∀ entry ∈ scope, entry.name ∈ front)
include hmirrors hfront

theorem CteScoped.sameTables_scope (h : CteScoped names isRecursive front cte later)
    {some : List ObjectName} (hsome : some ⊆ relations n cte.query) :
    SameTables rename context scope some :=
  hmirrors.sameTables hren (Subset.trans hsome h.within) fun name hname entry hentry =>
    h.earlier name (hsome hname) entry.name (hfront entry hentry)

omit hmirrors hfront

variable (h : CteScoped names true front cte later)
include h

omit hren in
theorem CteScoped.pending {name : ObjectName} (hname : name ∈ relations n cte.query)
    (hself : namesCte name cte.tableAlias.name = false) :
    ∀ other ∈ cte :: later, namesCte name other.tableAlias.name = false :=
  forall_mem_cons.mpr ⟨hself, fun other hother => h.order rfl other hother name hname⟩

include hmirrors hfront

/-- Names other than the CTE's own mean the same while its body is lowered. -/
theorem CteScoped.sameTables {some : List ObjectName} (hsome : some ⊆ relations n cte.query)
    (hself : ∀ name ∈ some, namesCte name cte.tableAlias.name = false) :
    SameTables rename context (pendingEntries (cte :: later) ++ scope) some := by
  intro name hname als hcolumns
  rw [sqlTable_append]
  · exact h.sameTables_scope hren hmirrors hfront hsome name hname als hcolumns
  · refine forall_mem_map.mpr fun other hother => ?_
    exact h.pending (hsome hname) (hself name hname) other hother

/-- In the recursive term the CTE's name is the working table. -/
theorem CteScoped.sameTables_step {some : List ObjectName} (hsome : some ⊆ relations n cte.query) :
    SameTables rename { context with working := cte.tableAlias.name.value :: context.working }
      (sqlEnterRecursion cte.tableAlias.name.value (pendingEntries (cte :: later) ++ scope))
      some := by
  intro name hname als hcolumns
  have htext := (h.own rfl name (hsome hname)).1
  rw [sqlEnterRecursion, map_append, ← sqlEnterRecursion, ← sqlEnterRecursion,
    hmirrors.enterRecursion]
  by_cases hself : namesCte name cte.tableAlias.name = true
  · have hdisplay := htext.mpr hself
    have hfind : (sqlEnterRecursion cte.tableAlias.name.value (pendingEntries (cte :: later)) ++
        scope).find? (fun entry => namesCte name entry.name) =
        Option.some ⟨cte.tableAlias.name, cte.tableAlias.columns, .working⟩ := by
      simp [sqlEnterRecursion, pendingEntries, hself]
    simp [sqlTable, hfind, lowerTable, hdisplay, h.columns, hcolumns, hren]
    rfl
  · have hdisplay : ObjectName.display name ≠ cte.tableAlias.name.value := fun heq =>
      hself (htext.mp heq)
    have hsame := h.sameTables_scope hren hmirrors hfront hsome name hname als hcolumns
    simp [sqlTable_append (namesCte_pending
      (h.pending (hsome hname) (Bool.eq_false_iff.mpr hself)) _), hsame, lowerTable, hdisplay]

omit h hmirrors hfront

omit hren in
theorem nestedAt_enterRecursion (m : ℕ) (name : String) :
    (nestedAt text m).enterRecursion name context =
      { context with working := name :: context.working } := by
  cases m <;> rfl

omit hren in
theorem sqlNestedAt_enterRecursion (m : ℕ) :
    (sqlNestedAt rename text m).enterRecursion = sqlEnterRecursion := by
  cases m <;> rfl

theorem CteScoped.lowerRecursive_eq (h : CteScoped names true front cte later)
    (hmirrors : Mirrors context scope names) (hfront : ∀ entry ∈ scope, entry.name ∈ front)
    (hself : isSelfReferential true cte (relations n) = true) :
    (nestedAt text n).lowerRecursive cte.tableAlias.name.value cte.query context =
      (sqlNestedAt rename text n).lowerRecursive cte.tableAlias.name.value cte.query
        (pendingEntries (cte :: later) ++ scope) := by
  cases n with
  | zero => exact nomatch cte.query
  | succ m =>
    have hplain : Query.Plain (relations m) (Statement.Plain m) cte.query := h.plain
    have hbase := h.base hself
    have hrelations : (Query.body cte.query).relations (relations m) ⊆
        relations (m + 1) cte.query :=
      Subset.trans (subset_append_right _ _) (subset_append_left _ _)
    change lowerRecursiveCte (nestedAt text m) _ cte.query context =
      lowerRecursiveCte (sqlNestedAt rename text m) _ cte.query (sqlWith _ (Query.ctes cte.query) _)
    unfold lowerRecursiveCte
    have hbody := hplain.body
    have hunused := hplain.unused
    simp only [Statement.baseRelations] at hbase
    split
    next quant left right heq =>
      rw [heq] at hbody hrelations hbase hunused
      have hleft : left.Agrees (nestedAt text m) (sqlNestedAt rename text m) _ _ :=
        hbody.1.agrees (Statement.Plain.agrees hren m) (SameTables.within
          (h.sameTables hren hmirrors hfront (List.Subset.trans (subset_append_left _ _) hrelations)
            hbase)
          (fun other hother name hname => hunused other hother name (mem_append_left _ hname))
          (sqlNestedAt rename text m))
      have hright : right.Agrees (nestedAt text m) (sqlNestedAt rename text m) _ _ :=
        hbody.2.agrees (Statement.Plain.agrees hren m) (SameTables.enter (sqlNestedAt rename text m)
          (h.sameTables_step hren hmirrors hfront
            (List.Subset.trans (subset_append_right _ _) hrelations))
          fun other hother name hname => hunused other hother name (mem_append_right _ hname))
      rw [hleft.lowerSetExpr_eq (text_eq m), nestedAt_enterRecursion,
        sqlNestedAt_enterRecursion, hright.lowerSetExpr_eq (text_eq m), text_eq m]
    next => rfl

omit hren in
theorem nestedAt_relations (n : ℕ) : (nestedAt text n).relations = relations n := by
  cases n with
  | zero => exact funext fun q => nomatch q
  | succ => rfl

omit hren in
theorem sqlNestedAt_relations (n : ℕ) : (sqlNestedAt rename text n).relations = relations n := by
  cases n with
  | zero => exact funext fun q => nomatch q
  | succ => rfl

theorem CteScoped.lowerCteBody_eq (h : CteScoped names isRecursive front cte later)
    (hmirrors : Mirrors context scope names) (hfront : ∀ entry ∈ scope, entry.name ∈ front) :
    lowerCteBody (nestedAt text n) isRecursive context cte =
      sqlCteBody (sqlNestedAt rename text n) isRecursive scope cte later := by
  have hplain {scope} (hsame : SameTables rename context scope (relations n cte.query)) :
      (nestedAt text n).lowerQuery cte.query context =
        (sqlNestedAt rename text n).lowerQuery cte.query scope :=
    (Statement.Plain.agrees hren n cte.query h.plain hsame).query
  rw [lowerCteBody, sqlCteBody, nestedAt_relations, sqlNestedAt_relations]
  cases isRecursive with
  | false => exact hplain (h.sameTables_scope hren hmirrors hfront (.refl _))
  | true =>
    have hcount := countNamed_pos_iff fun name hname => (h.own rfl name hname).2
    have hany : (relations n cte.query).any (namesCte · cte.tableAlias.name) =
        isSelfReferential true cte (relations n) := by
      rw [isSelfReferential, Bool.true_and, Bool.eq_iff_iff, any_eq_true, decide_eq_true_iff]
      exact hcount.symm
    simp only [Bool.true_and, hany]
    split
    next hself => exact h.lowerRecursive_eq hren hmirrors hfront hself
    next hself =>
      rw [← hany, any_eq_true] at hself
      exact hplain (h.sameTables hren hmirrors hfront (.refl _) fun name hname =>
        Bool.eq_false_iff.mpr fun hnames => hself ⟨name, hname, hnames⟩)

variable (names isRecursive) in
/-- The CTEs that are used, each after those that stand before it. -/
def CtesScoped {n : ℕ} : List Ident → List (Cte (Statement n)) → Prop
  | _, [] => True
  | front, cte :: later =>
    ((∃ name ∈ names, namesCte name cte.tableAlias.name = true) →
      CteScoped names isRecursive front cte later) ∧ CtesScoped (cte.tableAlias.name :: front) later

theorem CtesScoped.lowerCtes (h : CtesScoped names isRecursive front ctes)
    (hmirrors : Mirrors context scope names) (hfront : ∀ entry ∈ scope, entry.name ∈ front)
    {after : LowerContext}
    (hafter : ctes.foldlM (lowerCte (nestedAt text n) isRecursive) context = .ok after) :
    Mirrors after (sqlCtes (sqlNestedAt rename text n) isRecursive ctes scope) names := by
  induction ctes generalizing context scope front with
  | nil =>
    cases hafter
    exact hmirrors
  | cons cte later ih =>
    obtain ⟨next, hcte, hrest⟩ := bind_ok hafter
    obtain ⟨tree, htree, ⟨⟩⟩ := bind_ok hcte
    refine ih h.2 ?_ ?_ hrest
    · refine ⟨.cons ⟨rfl, _, rfl, fun hused => ?_⟩ hmirrors.ctes, hmirrors.working⟩
      have hscoped := h.1 hused
      exact ⟨hscoped.columns, (hscoped.lowerCteBody_eq hren hmirrors hfront).symm.trans htree⟩
    · exact forall_mem_cons.mpr ⟨mem_cons_self, fun entry hentry =>
        mem_cons_of_mem _ (hfront entry hentry)⟩

end Mirror

section

theorem checksAt_relations (n : ℕ) : (checksAt n).relations = relations n := by
  cases n with
  | zero => exact funext fun q => nomatch q
  | succ => rfl

theorem validateRecursive_base (h : (checksAt n).validateRecursive name q = .ok ()) :
    countNamed (Statement.baseRelations n q) name = 0 := by
  cases n with
  | zero => exact nomatch q
  | succ m =>
    change validateRecursiveCte (checksAt m) name q = .ok () at h
    rw [Statement.baseRelations]
    unfold validateRecursiveCte at h
    split at h
    next quant left right hbody =>
      rw [hbody, ← checksAt_relations m]
      split at h
      next => cases h
      next hcount => exact Nat.eq_zero_of_not_pos hcount
    next => cases h

theorem validateQuery_base {query : Query (Statement n)}
    (h : validateQuery (n := n + 1) query = .ok ()) (hcl : query.ctes = some clause)
    (hcte : cte ∈ clause.ctes)
    (hself : isSelfReferential clause.isRecursive cte (relations n) = true) :
    countNamed (Statement.baseRelations n cte.query) cte.tableAlias.name.value = 0 := by
  obtain ⟨_, hctes, -⟩ := bind_ok h
  rw [hcl, forM_ok_iff] at hctes
  have hvalid := forM_ok_iff.mp (hctes clause (mem_singleton_self clause)) cte hcte
  rw [validateCte, checksAt_relations, if_pos hself] at hvalid
  obtain ⟨_, hrecursive, -⟩ := bind_ok hvalid
  exact validateRecursive_base hrecursive

end
variable {query : Query (Statement n)}

theorem ctesScoped_of_pairwise {ctes : List (Cte (Statement n))} (front : List Ident)
    (hcte : ∀ cte ∈ ctes, (∃ name ∈ names, namesCte name cte.tableAlias.name = true) →
      CteScoped names isRecursive front cte []) (hpair : ctes.Pairwise fun earlier later =>
      ((∃ name ∈ names, namesCte name later.tableAlias.name = true) →
        ∀ name ∈ relations n later.query, SameText name earlier.tableAlias.name) ∧
      (isRecursive = true → (∃ name ∈ names, namesCte name earlier.tableAlias.name = true) →
        ∀ name ∈ relations n earlier.query, namesCte name later.tableAlias.name = false)) :
    CtesScoped names isRecursive front ctes := by
  induction ctes generalizing front with
  | nil => trivial
  | cons cte later ih =>
    obtain ⟨hfirst, hrest⟩ := pairwise_cons.mp hpair
    refine ⟨fun hused => { hcte cte mem_cons_self hused with
      order := fun htrue other hother => (hfirst other hother).2 htrue hused }, ih _ ?_ hrest⟩
    intro other hother hused
    have hscoped := hcte other (mem_cons_of_mem _ hother) hused
    refine { hscoped with earlier := fun name hname => forall_mem_cons.mpr ⟨?_, ?_⟩ }
    · exact (hfirst other hother).1 hused name hname
    · exact hscoped.earlier name hname

theorem baseRelations_subset (n : ℕ) (q) : Statement.baseRelations n q ⊆ relations n q := by
  cases n with
  | zero => exact nomatch q
  | succ m =>
    have hbody : (Query.body q).relations (relations m) ⊆ relations (m + 1) q :=
      Subset.trans (subset_append_right _ _) (subset_append_left _ _)
    rw [Statement.baseRelations]
    split
    next quant left right heq =>
      rw [heq] at hbody
      exact Subset.trans (subset_append_left _ _) hbody
    next => exact nil_subset _

theorem cteRelations_subset (hcte : cte ∈ query.cteList) :
    relations n cte.query ⊆ query.relations (relations n) := by
  intro name hname
  refine mem_append_left _ (mem_append_left _ ?_)
  exact mem_flatMap.mpr ⟨cte, hcte, hname⟩

theorem Query.PlainlyScoped.ctesScoped (h : query.PlainlyScoped) (hcl : query.ctes = some clause)
    (hbase : ∀ cte ∈ clause.ctes, isSelfReferential clause.isRecursive cte (Statement.relations n)
      = true → countNamed (Statement.baseRelations n cte.query) cte.tableAlias.name.value = 0) :
    CtesScoped (query.relations (Statement.relations n)) clause.isRecursive [] clause.ctes := by
  have hlist : query.cteList = clause.ctes := by simp [Query.cteList, hcl]
  have hrecursive : clause.isRecursive = true → query.ctes.any With.isRecursive = true := by
    simp [hcl]
  refine ctesScoped_of_pairwise [] (fun cte hcte hused => ?_) ?_
  · have hmem : cte ∈ query.cteList := hlist ▸ hcte
    refine ⟨h.plain cte hmem hused, h.columns cte hmem hused, cteRelations_subset hmem,
      fun _ _ => forall_mem_nil _, fun htrue => h.own (hrecursive htrue) cte hmem hused,
      fun _ => forall_mem_nil _, fun hself name hname => ?_⟩
    have htrue : clause.isRecursive = true := (Bool.and_eq_true_iff.mp hself).1
    have hlast := (h.own (hrecursive htrue) cte hmem hused name
      (baseRelations_subset n cte.query hname)).2
    have hnone := countP_eq_zero.mp (hbase cte hcte hself) name hname
    exact Bool.eq_false_iff.mpr fun hnames => hnone (hlast.mpr hnames)
  · have hearlier := h.earlier
    rw [hlist] at hearlier
    cases hrec : clause.isRecursive with
    | false => exact hearlier.imp fun hpair => ⟨hpair, fun hfalse => nomatch hfalse⟩
    | true =>
      have horder := h.order (hrecursive hrec)
      rw [hlist] at horder
      exact hearlier.imp₂ (fun _ _ hpair hlater => ⟨hpair, fun _ => hlater⟩) horder

/-- Base terms are free of self-references after the aliases are resolved, too. -/
theorem resolved_base (hvalid : validateQuery (n := n + 1) query = .ok ())
    (hcl : (resolveQuery (resolveAt n) [] query).ctes = some clause) :
    ∀ cte ∈ clause.ctes, isSelfReferential clause.isRecursive cte (relations n) = true →
      countNamed (Statement.baseRelations n cte.query) cte.tableAlias.name.value = 0 := by
  intro cte hcte hself
  obtain ⟨prev, hwas, rfl⟩ := Option.map_eq_some_iff.mp hcl
  obtain ⟨original, horiginal, rfl⟩ := mem_map.mp hcte
  have hrels := resolveAt_relations n [] original.query
  simp only [isSelfReferential, resolveCte, hrels] at hself
  simp only [resolveCte, resolveAt_baseRelations]
  exact validateQuery_base hvalid hwas horiginal hself

/-- The graph of a plainly scoped query has the FROM references that SQL scoping gives it. -/
theorem lowered_references_scoped (text : ∀ n, Printer (Statement n))
    (rename : List Ident → MirTree → MirTree) (hrename : ∀ tree, rename [] tree = tree) {n : ℕ}
    {q : Statement n} (hscoped : Statement.PlainlyScoped n q) {tree : MirTree}
    (haccepted : parseAndLower text q = .ok tree) :
    sqlLowerQuery rename text n (resolveFromAliases q) = .ok tree := by
  cases n with
  | zero => exact nomatch q
  | succ n =>
    obtain ⟨⟨⟩, hvalid, hlow⟩ := bind_ok haccepted
    have hresolved := Query.PlainlyScoped.resolve hscoped []
    obtain ⟨context, hctx, htree⟩ := bind_ok hlow
    generalize hquery : resolveQuery (resolveAt n) [] q = query at hresolved
    change lowerCtes (nestedAt text n) (resolveQuery (resolveAt n) [] q).ctes .empty = .ok context
      at hctx
    change lowerQueryWithContext (nestedAt text n) (resolveQuery (resolveAt n) [] q) context =
      .ok tree at htree
    change sqlQuery (sqlNestedAt rename text n) (resolveQuery (resolveAt n) [] q) [] = .ok tree
    have hempty : Mirrors .empty [] (query.relations (relations n)) := ⟨.nil, rfl⟩
    rw [hquery] at hctx htree ⊢
    -- the WITH clause leaves matching scopes behind
    have hmirrors : Mirrors context (sqlWith (sqlNestedAt rename text n) query.ctes [])
        (query.relations (relations n)) := by
      cases hcl : query.ctes with
      | none =>
        rw [hcl] at hctx
        cases hctx
        exact hempty
      | some =>
        rw [hcl] at hctx
        have hctes := hresolved.ctesScoped hcl (resolved_base hvalid (hquery ▸ hcl))
        exact hctes.lowerCtes hrename hempty (forall_mem_nil _) hctx
    have hnames : ∀ entry ∈ sqlWith (sqlNestedAt rename text n) query.ctes [],
        ∃ cte ∈ query.cteList, cte.tableAlias.name = entry.name := by
      obtain ⟨front, hfront, hnames⟩ := sqlWith_append (sqlNestedAt rename text n) query.ctes []
      rwa [hfront, append_nil]
    have hbody : query.body.Agrees (nestedAt text n) (sqlNestedAt rename text n) context
        (sqlWith (sqlNestedAt rename text n) query.ctes []) := by
      refine hresolved.body.agrees (Statement.Plain.agrees hrename n)
        (hmirrors.sameTables hrename ?_ fun name hname entry hentry => ?_)
      · exact Subset.trans (subset_append_right _ _) (subset_append_left _ _)
      · obtain ⟨cte, hcte, hsame⟩ := hnames entry hentry
        exact hsame ▸ hresolved.names cte hcte name hname
    exact (hbody.lowerQueryWithContext_eq (text_eq n)).symm.trans htree

section
variable {κ : Type}

/-- `SELECT id FROM table`. -/
def selectId (table : ObjectName) : Query κ :=
  .ofSelect (.plain [.column "id"] ⟨.table table none, []⟩)

/-- `WITH name AS (body) query`. -/
def withCte (name : Ident) (body : κ) (query : Query κ) : Query κ :=
  { query with ctes := some ⟨false, [⟨⟨name, []⟩, body⟩]⟩ }

end

/-- `WITH r AS (WITH unread AS (SELECT id FROM a) SELECT id FROM public.r) SELECT id FROM r`. -/
def readThroughCte : Statement 3 :=
  withCte (κ := Statement 2) ⟨"r", false⟩
    (withCte (κ := Statement 1) ⟨"unread", false⟩ (selectId (κ := Statement 0) [⟨"a", false⟩])
      (selectId [⟨"public", false⟩, ⟨"r", false⟩]))
    (selectId [⟨"r", false⟩])

theorem selectId_plain (n : ℕ) (table) : (selectId (κ := Statement n) table).body.Plain
    (Statement.Plain n) := by
  refine ⟨fun src hsrc => ?_, fun src hsrc join hjoin => ?_, fun q hq => ?_⟩
  · rw [mem_singleton.mp hsrc]
    rfl
  · simp [mem_singleton.mp hsrc] at hjoin
  · cases hq

theorem readThroughCte_plainlyScoped : Statement.PlainlyScoped 3 readThroughCte := by
  refine ⟨selectId_plain 2 _, ?_, ?_, ?_, pairwise_singleton _ _, fun hfalse => ?_,
    fun _ => pairwise_singleton _ _⟩
  · intro cte hcte name hname
    rw [mem_singleton.mp hcte, mem_singleton.mp hname, SameText]
    decide +kernel
  · intro cte hcte _
    rw [mem_singleton.mp hcte]
    refine ⟨fun inner hinner name hname => ?_, selectId_plain 1 _⟩
    rw [mem_singleton.mp hinner, mem_singleton.mp hname]
    decide +kernel
  · intro cte hcte _
    rw [mem_singleton.mp hcte]
  · cases hfalse

theorem readThroughCte_scoped :
    sqlLowerQuery (fun _ tree => tree) noText 3 (resolveFromAliases readThroughCte) =
      .ok (.unary (.project ["id"]) (.expand (.cteRef "r")
        (.unary (.project ["id"]) (.leaf (.baseTable "public.r" []))))) :=
  lowered_references_scoped noText (fun _ tree => tree) (fun _ => rfl)
    readThroughCte_plainlyScoped (by decide +kernel)

/-- `WITH r AS (SELECT id FROM a)
SELECT id FROM (WITH r AS (SELECT id FROM b) SELECT id FROM r) d`. -/
def shadowedCte : Statement 3 :=
  withCte (κ := Statement 2) ⟨"r", false⟩ (selectId (κ := Statement 1) [⟨"a", false⟩])
    (.ofSelect (.plain [.column "id"] ⟨.derived false
      (withCte (κ := Statement 1) ⟨"r", false⟩ (selectId (κ := Statement 0) [⟨"b", false⟩])
        (selectId [⟨"r", false⟩]))
      (some ⟨⟨"d", false⟩, []⟩), []⟩))

/-- The inner reference reads `a`, where SQL reads `b`. -/
theorem shadowedCte_misread : parseAndLower noText shadowedCte =
        .ok (.unary (.project ["id"]) (.unary (.project ["id"]) (.expand (.cteRef "r")
          (.unary (.project ["id"]) (.leaf (.baseTable "a" [])))))) ∧
      sqlLowerQuery (fun _ tree => tree) noText 3 (resolveFromAliases shadowedCte) =
        .ok (.unary (.project ["id"]) (.unary (.project ["id"]) (.expand (.cteRef "r")
          (.unary (.project ["id"]) (.leaf (.baseTable "b" [])))))) :=
  ⟨by decide +kernel, by decide +kernel⟩

end Palimpsest.Frontend
