import Palimpsest.Frontend.Lowering

/-! The range variable that a qualified reference denotes, before and after aliases are resolved. -/
namespace Palimpsest.Frontend
open List hiding getElem?_eq_some_iff map_map
open Option
open Function (comp_def)

open Sql (Ident)

/-- An item of a FROM clause: the name it goes by, and the one that is left of it when aliases are
resolved. -/
structure RangeVariable where
  name : Option Ident
  canonical : Option Ident
deriving DecidableEq

def RangeVariable.resolved (v : RangeVariable) : RangeVariable := ⟨v.canonical, v.canonical⟩

abbrev Frame := List RangeVariable

section

def RangeVariable.IsNamed (v : RangeVariable) (qualifier : Ident) : Prop :=
  v.name.map foldIdent = some (foldIdent qualifier)

instance (v : RangeVariable) (qualifier : Ident) : Decidable (v.IsNamed qualifier) :=
  inferInstanceAs (Decidable (_ = _))

def positions (qualifier : Ident) (frame : Frame) : List ℕ :=
  (frame.zipIdx.filter fun v => v.1.IsNamed qualifier).map Prod.snd

/-- SQL scoping, over the enclosing FROM clauses from the innermost outwards: the depth of the first
one that has the name, and the position of the only item that has it there. -/
def denotes (qualifier : Ident) : List Frame → Option (ℕ × ℕ)
  | [] => none
  | frame :: outer =>
    match positions qualifier frame with
    | [] => (denotes qualifier outer).map fun v => (v.1 + 1, v.2)
    | [i] => some (0, i)
    | _ => none

theorem mem_positions :
    i ∈ positions qualifier frame ↔ ∃ v, frame[i]? = some v ∧ v.IsNamed qualifier := by
  simp [positions, mem_zipIdx_iff_getElem?]

theorem positions_nodup (qualifier frame) : (positions qualifier frame).Nodup := by
  refine List.Nodup.sublist (List.Sublist.map Prod.snd filter_sublist) ?_
  rw [zipIdx_map_snd]
  exact nodup_range'

theorem positions_eq_singleton : positions qualifier frame = [i] ↔ i ∈ positions qualifier frame ∧
      ∀ j ∈ positions qualifier frame, j = i := by
  have hnd := positions_nodup qualifier frame
  generalize positions qualifier frame = found at hnd ⊢
  match found with
  | [] => simp
  | [j] => grind
  | j :: k :: rest =>
    simp only [nodup_cons, mem_cons, cons.injEq, reduceCtorEq] at hnd ⊢
    grind

theorem denotes_eq_some : denotes qualifier frames = some (d, i) ↔
      (∃ frame, frames[d]? = some frame ∧ positions qualifier frame = [i]) ∧
        ∀ inner ∈ frames.take d, positions qualifier inner = [] := by
  induction frames generalizing d with
  | nil => simp [denotes]
  | cons frame outer ih =>
    rw [denotes]
    split
    next hnone =>
      cases d with
      | zero => simp [hnone]
      | succ d =>
        have hsucc : (denotes qualifier outer).map (fun v => (v.1 + 1, v.2)) = some (d + 1, i) ↔
            denotes qualifier outer = some (d, i) := by
          simp
        simp [hsucc, ih, hnone]
    next j hone =>
      cases d <;> simp [hone]
    next hnil hmany =>
      cases d with
      | zero => simpa using hmany i
      | succ =>
        have hne : positions qualifier frame ≠ [] := hnil
        simp [hne]

end

/-- A qualified reference with the FROM clauses around it and the aliases recorded there. -/
structure Reference where
  frames : List Frame
  scopes : List Scope
  qualifier : Ident

def rewriteQualifier (scopes : List Scope) (qualifier : Ident) : Ident :=
  match lookupAlias scopes qualifier.value with
  | some canonical => ⟨canonical, false⟩
  | none => qualifier

namespace Reference

def denotes (r : Reference) : Option (ℕ × ℕ) := Frontend.denotes r.qualifier r.frames

/-- The reference as resolution leaves it. No alias is left that could be recorded. -/
def resolved (r : Reference) : Reference :=
  ⟨r.frames.map (map RangeVariable.resolved), r.scopes.map fun _ => [],
    rewriteQualifier r.scopes r.qualifier⟩

end Reference
open Reference

/-! The references of a query. Names of three or more parts are left alone by resolution. -/
section References
variable {κ : Type} (nested : List Frame → List Scope → κ → List Reference)

def Expr.qualifier? : Expr κ → Option Ident
  | .compoundIdentifier [relation, _] => some relation
  | .wildcard (some qualifier) => some qualifier
  | _ => none

def Expr.references (frames : List Frame) (scopes : List Scope) (e : Expr κ) : List Reference :=
  (e.nodes.filterMap Expr.qualifier?).map (⟨frames, scopes, ·⟩) ++
    e.subqueries.flatMap (nested frames scopes)

def referencesList (frames : List Frame) (scopes : List Scope) (es : List (Expr κ)) :
    List Reference :=
  es.flatMap (Expr.references nested frames scopes)

def SelectItem.references (frames : List Frame) (scopes : List Scope) :
    SelectItem κ → List Reference
  | .unnamedExpr e | .exprWithAlias e _ => e.references nested frames scopes
  | .qualifiedWildcard [qualifier] => [⟨frames, scopes, qualifier⟩]
  | .qualifiedWildcard _ | .wildcard => []

def JoinConstraint.references (frames : List Frame) (scopes : List Scope) :
    JoinConstraint κ → List Reference
  | .on e => e.references nested frames scopes
  | .using | .natural | .none => []

def JoinOperator.references (frames : List Frame) (scopes : List Scope) :
    JoinOperator κ → List Reference
  | .inner constraint | .leftOuter constraint | .rightOuter constraint | .fullOuter constraint =>
    constraint.references nested frames scopes
  | .crossJoin | .other => []

def TableFactor.variable : TableFactor κ → RangeVariable
  | .table [part] (some ⟨aliasName, []⟩) => ⟨some aliasName, some part⟩
  | .table _ (some tableAlias) => ⟨some tableAlias.name, some tableAlias.name⟩
  | .table name none => ⟨name.getLast?, name.getLast?⟩
  | .derived _ _ tableAlias => ⟨tableAlias.map TableAlias.name, tableAlias.map TableAlias.name⟩
  | .other => ⟨none, none⟩

def TableFactor.entry : TableFactor κ → Scope
  | .table [part] (some ⟨aliasName, []⟩) => [(aliasName.value, part.value)]
  | _ => []

variable (outer : List Frame) (scopes : List Scope)

/-- A lateral subquery sees the items before it; a plain one sees the enclosing queries only, and
resolution lets it see nothing. -/
def TableFactor.references (before : Frame) (own : Scope) : TableFactor κ → List Reference
  | .derived true subquery _ => nested (before :: outer) (own :: scopes) subquery
  | .derived false subquery _ => nested outer [] subquery
  | .table _ _ | .other => []

/-- A join's constraint sees the items joined so far, `joined`; resolution uses the aliases of the
`whole` clause. -/
def joinReferences (whole : Scope) :
    List (Join κ) → (before joined : Frame) → (own : Scope) → List Reference
  | [], _, _, _ => []
  | join :: rest, before, joined, own =>
    let item := join.relation.variable
    join.relation.references nested outer scopes before own ++
      join.operator.references nested ((joined ++ [item]) :: outer) (whole :: scopes) ++
      joinReferences whole rest (before ++ [item]) (joined ++ [item]) (join.relation.entry ++ own)

def TableWithJoins.variables (source : TableWithJoins κ) : Frame :=
  source.relation.variable :: source.joins.map fun join => join.relation.variable

def joinEntries (joins : List (Join κ)) (own : Scope) : Scope :=
  joins.foldl (fun own join => join.relation.entry ++ own) own

def TableWithJoins.entries (source : TableWithJoins κ) (own : Scope) : Scope :=
  joinEntries source.joins (source.relation.entry ++ own)

def sourceReferences (whole : Scope) :
    List (TableWithJoins κ) → (before : Frame) → (own : Scope) → List Reference
  | [], _, _ => []
  | source :: rest, before, own =>
    let item := source.relation.variable
    source.relation.references nested outer scopes before own ++
      joinReferences nested outer scopes whole source.joins (before ++ [item]) [item]
        (source.relation.entry ++ own) ++
      sourceReferences whole rest (before ++ source.variables) (source.entries own)

def Select.variables (select : Select κ) : Frame := select.sources.flatMap TableWithJoins.variables

def Select.entries (select : Select κ) : Scope :=
  select.sources.foldl (fun own source => source.entries own) []

def Select.references (select : Select κ) : List Reference :=
  let frames := select.variables :: outer
  let inner := select.entries :: scopes
  sourceReferences nested outer scopes select.entries select.sources [] [] ++
    select.projection.flatMap (SelectItem.references nested frames inner) ++
    referencesList nested frames inner (select.distinct.toList.flatMap Distinct.exprs ++
      select.selection.toList ++ select.groupBy.exprs ++ select.having.toList)

def SetExpr.references : SetExpr κ → List Reference
  | .select body => body.references nested outer scopes
  | .query q => nested outer scopes q
  | .setOperation _ _ left right => left.references ++ right.references
  | .other _ => []

/-- The order keys of a plain SELECT see its FROM items; those of a set operation see no table. -/
def SetExpr.orderFrames : SetExpr κ → List Frame
  | .select body => body.variables :: outer
  | _ => []

def SetExpr.orderScopes : SetExpr κ → List Scope
  | .select body => body.entries :: scopes
  | _ => scopes

def Query.references (query : Query κ) : List Reference :=
  ((query.ctes.toList.flatMap With.ctes).flatMap fun cte => nested outer [] cte.query) ++
    query.body.references nested outer scopes ++
    (query.orderBy.toList.flatMap fun keys =>
      referencesList nested (query.body.orderFrames outer) (query.body.orderScopes scopes)
        (keys.map OrderByExpr.expr))

end References

def Statement.references : (n : ℕ) → List Frame → List Scope → Statement n → List Reference
  | 0, _, _, q => nomatch q
  | n + 1, outer, scopes, q => Query.references (Statement.references n) outer scopes q

/-! The references of a resolved query are those of the query, resolved one by one. -/
section Resolved
variable {κ : Type} {nested : List Frame → List Scope → κ → List Reference}
  {resolve : List Scope → κ → κ}

abbrev settled (frames : List Frame) : List Frame := frames.map (map RangeVariable.resolved)

abbrev blank (scopes : List Scope) : List Scope := scopes.map fun _ => []

theorem qualifier?_resolveExpr (scopes e) :
    (resolveExpr resolve scopes e).qualifier? = e.qualifier?.map (rewriteQualifier scopes) := by
  cases e with
  | compoundIdentifier parts =>
    match parts with
    | [] | [_] | _ :: _ :: _ :: _ => rfl
    | [rel, col] =>
      simp only [resolveExpr, resolveParts, Expr.qualifier?, rewriteQualifier, map_some]
      cases lookupAlias scopes rel.value <;> rfl
  | wildcard qualifier =>
    cases qualifier with
    | none => rfl
    | some qualifier =>
      simp only [resolveExpr, resolveObjectName, Expr.qualifier?, rewriteQualifier, map_some]
      cases lookupAlias scopes qualifier.value <;> rfl
  | _ => rfl

section
variable (resolve : List Scope → κ → κ) (outer : List Scope)

/-- A bound FROM item goes by its canonical name, and its alias is recorded. -/
theorem bindTableFactor_item (factor own) :
    (bindTableFactor resolve outer factor own).1.variable = factor.variable.resolved ∧
      (bindTableFactor resolve outer factor own).1.entry = [] ∧
      (bindTableFactor resolve outer factor own).2 = factor.entry ++ own := by
  cases factor with
  | table name als =>
    match name, als with
    | [_], some ⟨_, []⟩ | [_], some ⟨_, _ :: _⟩ | [_], none | [], none | [], some _
    | _ :: _ :: _, none | _ :: _ :: _, some _ => exact ⟨rfl, rfl, rfl⟩
  | derived lateral => cases lateral <;> exact ⟨rfl, rfl, rfl⟩
  | other => exact ⟨rfl, rfl, rfl⟩

theorem bindJoins_items (joins own) :
    ((bindJoins resolve outer joins own).1.map fun join => join.relation.variable) =
        (joins.map fun join => join.relation.variable).map RangeVariable.resolved ∧
      (∀ join ∈ (bindJoins resolve outer joins own).1, join.relation.entry = []) ∧
      (bindJoins resolve outer joins own).2 = joinEntries joins own := by
  induction joins generalizing own with
  | nil => exact ⟨rfl, nofun, rfl⟩
  | cons join rest ih =>
    obtain ⟨hvar, hentry, hown⟩ := bindTableFactor_item resolve outer join.relation own
    obtain ⟨hvars, hentries, howns⟩ := ih (join.relation.entry ++ own)
    refine ⟨?_, ?_, ?_⟩
    · simp [bindJoins, hvar, hown, hvars]
    · simp only [bindJoins, forall_mem_cons, hown]
      exact ⟨hentry, hentries⟩
    · simp only [bindJoins, hown, howns]
      rfl

theorem joinEntries_nil {joins : List (Join κ)} (h : ∀ join ∈ joins, join.relation.entry = []) :
    joinEntries joins [] = [] := by
  induction joins with
  | nil => rfl
  | cons join rest ih =>
    rw [forall_mem_cons] at h
    rw [joinEntries, foldl_cons, h.1]
    exact ih h.2

theorem bindSources_items (sources own) :
    (bindSources resolve outer sources own).1.flatMap TableWithJoins.variables =
        (sources.flatMap TableWithJoins.variables).map RangeVariable.resolved ∧
      (bindSources resolve outer sources own).1.foldl (fun own src => src.entries own) [] = [] ∧
      (bindSources resolve outer sources own).2 =
        sources.foldl (fun own src => src.entries own) own := by
  induction sources generalizing own with
  | nil => exact ⟨rfl, rfl, rfl⟩
  | cons src rest ih =>
    obtain ⟨hvar, hentry, hown⟩ :=
      bindTableFactor_item resolve outer src.relation own
    obtain ⟨hjoined, hjoinEntries, hjoinOwn⟩ :=
      bindJoins_items resolve outer src.joins (src.relation.entry ++ own)
    obtain ⟨hvars, hentries, howns⟩ := ih (src.entries own)
    have hnext : (bindJoins resolve outer src.joins (src.relation.entry ++ own)).2 =
        src.entries own := hjoinOwn
    refine ⟨?_, ?_, ?_⟩
    · simp [bindSources, TableWithJoins.variables, hvar, hown, hnext, hjoined, hvars]
    · simp only [bindSources, foldl_cons, hown, hnext]
      rw [TableWithJoins.entries, hentry, nil_append, joinEntries_nil hjoinEntries]
      exact hentries
    · simp [bindSources, hown, hnext, howns]

end

variable (hnest : ∀ outer scopes q, nested (settled outer) (blank scopes) (resolve scopes q) =
  (nested outer scopes q).map resolved)
include hnest

variable (frames : List Frame)

theorem references_resolveExpr (scopes e) :
    (resolveExpr resolve scopes e).references nested (settled frames) (blank scopes) =
      (e.references nested frames scopes).map resolved := by
  simp only [Expr.references, resolveExpr_parts, filterMap_map,
    comp_def, qualifier?_resolveExpr, flatMap_map, hnest, map_append,
    map_flatMap, List.map_map]
  rw [← map_filterMap, List.map_map]
  rfl

theorem referencesList_map (scopes es) :
    referencesList nested (settled frames) (blank scopes) (es.map (resolveExpr resolve scopes)) =
      (referencesList nested frames scopes es).map resolved := by
  rw [referencesList, referencesList, flatMap_map, map_flatMap]
  exact flatMap_congr fun e _ => references_resolveExpr hnest frames scopes e

theorem references_resolveSelectItem (scopes item) :
    (resolveSelectItem resolve scopes item).references nested (settled frames) (blank scopes) =
      (item.references nested frames scopes).map resolved := by
  cases item with
  | unnamedExpr e | exprWithAlias e =>
    exact references_resolveExpr hnest frames scopes e
  | qualifiedWildcard name =>
    match name with
    | [] | _ :: _ :: _ => rfl
    | [qualifier] =>
      simp only [resolveSelectItem, resolveObjectName, SelectItem.references, map_cons,
        resolved, rewriteQualifier]
      cases lookupAlias scopes qualifier.value <;> rfl
  | wildcard => rfl

theorem references_resolveOperator (scopes operator) :
    (resolveOperator resolve scopes operator).references nested (settled frames) (blank scopes) =
      (operator.references nested frames scopes).map resolved := by
  have hcons (constraint : JoinConstraint κ) :
      (resolveConstraint resolve scopes constraint).references nested (settled frames)
        (blank scopes) = (constraint.references nested frames scopes).map resolved := by
    cases constraint with
    | on e => exact references_resolveExpr hnest frames scopes e
    | «using» | natural | none => rfl
  cases operator with
  | inner constraint | leftOuter constraint | rightOuter constraint | fullOuter constraint =>
    exact hcons constraint
  | crossJoin | other => rfl

variable (outer : List Frame) (scopes : List Scope)

theorem references_bindTableFactor (prev own factor) :
    (bindTableFactor resolve scopes factor own).1.references nested (settled outer) (blank scopes)
        (prev.map RangeVariable.resolved) [] =
      (factor.references nested outer scopes prev own).map resolved := by
  cases factor with
  | table name als =>
    match name, als with
    | [_], some ⟨_, []⟩ | [_], some ⟨_, _ :: _⟩ | [_], none | [], none | [], some _
    | _ :: _ :: _, none | _ :: _ :: _, some _ => rfl
  | derived lateral subquery =>
    cases lateral with
    | false => exact hnest outer [] subquery
    | true => exact hnest (prev :: outer) (own :: scopes) subquery
  | other => rfl

theorem references_bindJoins (whole joins prev joined own) :
    joinReferences nested (settled outer) (blank scopes) []
        ((bindJoins resolve scopes joins own).1.map fun join =>
          { join with operator := resolveOperator resolve (whole :: scopes) join.operator })
        (prev.map RangeVariable.resolved) (joined.map RangeVariable.resolved) [] =
      (joinReferences nested outer scopes whole joins prev joined own).map resolved := by
  induction joins generalizing prev joined own with
  | nil => rfl
  | cons join rest ih =>
    obtain ⟨hvar, hentry, hown⟩ :=
      bindTableFactor_item resolve scopes join.relation own
    have hoperator := references_resolveOperator hnest
      ((joined ++ [join.relation.variable]) :: outer) (whole :: scopes) join.operator
    have hrest := ih (prev ++ [join.relation.variable]) (joined ++ [join.relation.variable])
      (join.relation.entry ++ own)
    simp only [map_append, map_cons, map_nil] at hoperator hrest
    simp only [bindJoins, map_cons, joinReferences, map_append, hvar, hentry, hown,
      append_nil, references_bindTableFactor hnest, hoperator, hrest]

theorem references_bindSources (whole sources prev own) :
    sourceReferences nested (settled outer) (blank scopes) []
        ((bindSources resolve scopes sources own).1.map
          (resolveJoinConstraints resolve (whole :: scopes))) (prev.map RangeVariable.resolved) [] =
      (sourceReferences nested outer scopes whole sources prev own).map resolved := by
  induction sources generalizing prev own with
  | nil => rfl
  | cons src rest ih =>
    obtain ⟨hvar, hentry, hown⟩ :=
      bindTableFactor_item resolve scopes src.relation own
    obtain ⟨hjoined, hjoinEntries, hjoinOwn⟩ :=
      bindJoins_items resolve scopes src.joins (src.relation.entry ++ own)
    have hjoins := references_bindJoins hnest outer scopes whole src.joins
      (prev ++ [src.relation.variable]) [src.relation.variable]
      (src.relation.entry ++ own)
    have hrest := ih (prev ++ src.variables) (src.entries own)
    have hblank : joinEntries ((bindJoins resolve scopes src.joins
        (src.relation.entry ++ own)).1.map fun join =>
          { join with operator := resolveOperator resolve (whole :: scopes) join.operator }) [] =
        [] := by
      refine joinEntries_nil fun join hjoin => ?_
      obtain ⟨join, hmem, rfl⟩ := mem_map.mp hjoin
      exact hjoinEntries join hmem
    have hnext : (bindJoins resolve scopes src.joins (src.relation.entry ++ own)).2 =
        src.entries own := hjoinOwn
    have hvars : (resolveJoinConstraints resolve (whole :: scopes)
        ⟨(bindTableFactor resolve scopes src.relation own).1,
          (bindJoins resolve scopes src.joins (src.relation.entry ++ own)).1⟩).variables =
        src.variables.map RangeVariable.resolved := by
      simpa [TableWithJoins.variables, resolveJoinConstraints, hvar, comp_def]
        using hjoined
    simp only [map_append, map_cons, map_nil] at hjoins hrest
    simp only [bindSources, map_cons, sourceReferences, hown, hnext, hvars]
    simp only [resolveJoinConstraints, hvar, hentry, append_nil, TableWithJoins.entries,
      references_bindTableFactor hnest, hjoins, map_append, hblank]
    exact congrArg _ hrest

def Select.exprs (select : Select κ) : List (Expr κ) :=
  select.distinct.toList.flatMap Distinct.exprs ++ select.selection.toList ++
    select.groupBy.exprs ++ select.having.toList

omit hnest in
theorem resolveSelect_eq (select : Select κ) : resolveSelect resolve scopes select =
      ({ distinct := select.distinct.map (resolveDistinct resolve (select.entries :: scopes))
         projection := select.projection.map (resolveSelectItem resolve (select.entries :: scopes))
         sources := (bindSources resolve scopes select.sources []).1.map
           (resolveJoinConstraints resolve (select.entries :: scopes))
         selection := select.selection.map (resolveExpr resolve (select.entries :: scopes))
         groupBy := resolveGroupBy resolve (select.entries :: scopes) select.groupBy
         having := select.having.map (resolveExpr resolve (select.entries :: scopes))
         otherClause := select.otherClause }, select.entries) := by
  have hown : (bindSources resolve scopes select.sources []).2 = select.entries :=
    (bindSources_items resolve scopes select.sources []).2.2
  rw [← hown]
  rfl

omit hnest in
theorem resolveSelect_items (resolve : List Scope → κ → κ) (select : Select κ) :
    (resolveSelect resolve scopes select).1.variables =
        select.variables.map RangeVariable.resolved ∧
      (resolveSelect resolve scopes select).1.entries = [] := by
  obtain ⟨hvars, hentries, -⟩ := bindSources_items resolve scopes select.sources []
  have hkeep (src : TableWithJoins κ) :
      (resolveJoinConstraints resolve (select.entries :: scopes) src).variables =
          src.variables ∧
        ∀ own, (resolveJoinConstraints resolve (select.entries :: scopes) src).entries own =
          src.entries own := by
    simp [TableWithJoins.variables, TableWithJoins.entries, joinEntries, resolveJoinConstraints,
      foldl_map, comp_def]
  rw [resolveSelect_eq]
  constructor
  · simp only [Select.variables, flatMap_map, hkeep]
    exact hvars
  · rw [Select.entries, foldl_map]
    simp only [hkeep]
    exact hentries

omit hnest in
theorem resolveSelect_exprs (select : Select κ) : (resolveSelect resolve scopes select).1.exprs =
      select.exprs.map (resolveExpr resolve (select.entries :: scopes)) := by
  rw [resolveSelect_eq]
  generalize select.entries :: scopes = inner
  have hdist : (select.distinct.map (resolveDistinct resolve inner)).toList.flatMap
      Distinct.exprs =
        (select.distinct.toList.flatMap Distinct.exprs).map (resolveExpr resolve inner) := by
    match select.distinct with
    | none | some .distinct => rfl
    | some (.on exprs) => simp [resolveDistinct, Distinct.exprs, resolveList_eq_map]
  have hgroup : (resolveGroupBy resolve inner select.groupBy).exprs =
      select.groupBy.exprs.map (resolveExpr resolve inner) := by
    cases select.groupBy with
    | expressions exprs => exact resolveList_eq_map _ exprs
    | all => rfl
  have hopt (e : Option (Expr κ)) :
      (e.map (resolveExpr resolve inner)).toList = e.toList.map (resolveExpr resolve inner) := by
    cases e <;> rfl
  simp [Select.exprs, hdist, hgroup, hopt]

theorem references_resolveSelect (select) :
    (resolveSelect resolve scopes select).1.references nested (settled outer) (blank scopes) =
      (select.references nested outer scopes).map resolved := by
  obtain ⟨hvars, hentries⟩ := resolveSelect_items scopes resolve select
  have hexprs : (resolveSelect resolve scopes select).1.exprs = _ :=
    resolveSelect_exprs scopes select
  rw [Select.references, Select.references, map_append, map_append, hvars, hentries]
  refine congrArg₂ (· ++ ·) (congrArg₂ (· ++ ·) ?_ ?_) ?_
  · simp [← references_bindSources hnest, resolveSelect_eq]
  · rw [resolveSelect_eq, flatMap_map, map_flatMap]
    exact flatMap_congr fun item _ =>
      references_resolveSelectItem hnest (select.variables :: outer) (select.entries :: scopes) item
  · refine (congrArg _ hexprs).trans ?_
    exact referencesList_map hnest (select.variables :: outer) (select.entries :: scopes) _

theorem references_resolveSetExpr (body) :
    (resolveSetExpr resolve scopes body).1.references nested (settled outer) (blank scopes) =
      (body.references nested outer scopes).map resolved := by
  induction body with
  | select body => exact references_resolveSelect hnest outer scopes body
  | query q => exact hnest outer scopes q
  | setOperation op quant left right ihl ihr =>
    simp only [resolveSetExpr, SetExpr.references, ihl, ihr, map_append]
  | other => rfl

omit hnest in
/-- The order keys are resolved in the scopes they are read in. -/
theorem resolveSetExpr_order (resolve : List Scope → κ → κ) (body : SetExpr κ) :
    (resolveSetExpr resolve scopes body).2.toList ++ scopes = body.orderScopes scopes ∧
      (resolveSetExpr resolve scopes body).1.orderFrames (settled outer) =
        settled (body.orderFrames outer) ∧
      (resolveSetExpr resolve scopes body).1.orderScopes (blank scopes) =
        blank (body.orderScopes scopes) := by
  cases body with
  | select body =>
    obtain ⟨hvars, hentries⟩ := resolveSelect_items scopes resolve body
    refine ⟨?_, ?_, ?_⟩
    · simp only [resolveSetExpr, resolveSelect_eq]
      rfl
    · exact congrArg (· :: settled outer) hvars
    · exact congrArg (· :: blank scopes) hentries
  | query | setOperation | other => exact ⟨rfl, rfl, rfl⟩

theorem references_resolveQuery (query) :
    (resolveQuery resolve scopes query).references nested (settled outer) (blank scopes) =
      (query.references nested outer scopes).map resolved := by
  obtain ⟨hscopes, hframes, hblank⟩ := resolveSetExpr_order outer scopes resolve query.body
  rw [Query.references, Query.references, map_append, map_append]
  refine congrArg₂ (· ++ ·) (congrArg₂ (· ++ ·) ?_ ?_) ?_
  · cases hcl : query.ctes with
    | none => simp [resolveQuery, hcl]
    | some =>
      simp only [resolveQuery, hcl, map_some, toList_some, flatMap_cons,
        flatMap_nil, append_nil, flatMap_map, map_flatMap]
      exact flatMap_congr fun cte _ => hnest outer [] cte.query
  · exact references_resolveSetExpr hnest outer scopes query.body
  · have hbody : (resolveQuery resolve scopes query).body =
        (resolveSetExpr resolve scopes query.body).1 := rfl
    rw [hbody, hframes, hblank]
    cases hkeys : query.orderBy with
    | none => simp [resolveQuery, hkeys]
    | some keys =>
      have hmap : (keys.map (resolveOrderBy resolve (query.body.orderScopes scopes))).map
          OrderByExpr.expr =
          (keys.map OrderByExpr.expr).map
            (resolveExpr resolve (query.body.orderScopes scopes)) := by
        simp [resolveOrderBy]
      simp only [resolveQuery, hkeys, hscopes, map_some, toList_some,
        flatMap_cons, flatMap_nil, append_nil, hmap,
        referencesList_map hnest]

end Resolved

theorem Statement.references_resolveAt (n : ℕ) (outer scopes q) :
    Statement.references n (settled outer) (blank scopes) (resolveAt n scopes q) =
      (Statement.references n outer scopes q).map resolved := by
  induction n generalizing outer scopes with
  | zero => exact nomatch q
  | succ n ih => exact references_resolveQuery ih outer scopes q

/-- After resolution every reference that denotes a range variable denotes the same one. -/
def SameDenotations {n : ℕ} (q : Statement n) : Prop :=
  List.Forall₂ (fun before after => before = none ∨ after = before)
    ((Statement.references n [] [] q).map Reference.denotes)
    ((Statement.references n [] [] (resolveFromAliases q)).map Reference.denotes)

/-- The qualifier's alias, as recorded, is that of the range variable at position `i` of the FROM
clause `d` levels out, or there is none and the item keeps its name; and no other item there or
further in is left with the same name. -/
structure Reference.Traceable (r : Reference) (d i : ℕ) : Prop where
  item : ∃ frame v, r.frames[d]? = some frame ∧ frame[i]? = some v ∧
    v.canonical.map foldIdent = some (foldIdent (rewriteQualifier r.scopes r.qualifier)) ∧
    ∀ j w, frame[j]? = some w → w.canonical.map foldIdent = v.canonical.map foldIdent → j = i
  inner : ∀ frame ∈ r.frames.take d, ∀ w ∈ frame,
    w.canonical.map foldIdent ≠ some (foldIdent (rewriteQualifier r.scopes r.qualifier))

theorem positions_settled (qualifier) (frame : Frame) (i : ℕ) :
    i ∈ positions qualifier (frame.map RangeVariable.resolved) ↔
      ∃ v, frame[i]? = some v ∧ v.canonical.map foldIdent = some (foldIdent qualifier) := by
  simp [mem_positions, RangeVariable.resolved, RangeVariable.IsNamed]

theorem Reference.resolved_denotes {r : Reference} :
    r.resolved.denotes = some (d, i) ↔ r.Traceable d i := by
  rw [denotes, resolved, denotes_eq_some]
  generalize hq : rewriteQualifier r.scopes r.qualifier = qualifier
  have hinner (frame : Frame) : positions qualifier (frame.map RangeVariable.resolved) = [] ↔
      ∀ w ∈ frame, w.canonical.map foldIdent ≠ some (foldIdent qualifier) := by
    simp only [eq_nil_iff_forall_not_mem, positions_settled]
    grind [mem_iff_getElem?]
  constructor
  · rintro ⟨⟨frame, hframe, hpos⟩, hwas⟩
    rw [getElem?_map, map_eq_some_iff] at hframe
    obtain ⟨frame, hframe, rfl⟩ := hframe
    obtain ⟨hmem, halone⟩ := positions_eq_singleton.mp hpos
    obtain ⟨v, hv, hnamed⟩ := (positions_settled qualifier frame i).mp hmem
    refine ⟨⟨frame, v, hframe, hv, hq ▸ hnamed, fun j w hw heq => ?_⟩, fun inner hin => ?_⟩
    · exact halone j ((positions_settled qualifier frame j).mpr ⟨w, hw, heq.trans hnamed⟩)
    · rw [hq]
      refine (hinner inner).mp (hwas _ ?_)
      rw [← map_take]
      exact mem_map_of_mem hin
  · rintro ⟨⟨frame, v, hframe, hv, hnamed, halone⟩, hwas⟩
    rw [hq] at hnamed hwas
    refine ⟨⟨frame.map RangeVariable.resolved, by simp [hframe], ?_⟩, fun inner hin => ?_⟩
    · refine positions_eq_singleton.mpr ⟨(positions_settled qualifier frame i).mpr ⟨v, hv, hnamed⟩,
        fun j hj => ?_⟩
      obtain ⟨w, hw, hw'⟩ := (positions_settled qualifier frame j).mp hj
      exact halone j w hw (hw'.trans hnamed.symm)
    · rw [← map_take] at hin
      obtain ⟨inner, hmem, rfl⟩ := mem_map.mp hin
      exact (hinner inner).mpr (hwas inner hmem)

/-- Resolution keeps what references denote exactly when each one can be traced. -/
theorem sameDenotations_iff {n : ℕ} (q : Statement n) :
    SameDenotations q ↔ ∀ r ∈ Statement.references n [] [] q, ∀ d i,
      r.denotes = some (d, i) → r.Traceable d i := by
  have hreferences := Statement.references_resolveAt n [] [] q
  rw [SameDenotations, resolveFromAliases]
  simp only [map_nil] at hreferences
  rw [hreferences, List.map_map, forall₂_map_left_iff, forall₂_map_right_iff, forall₂_same]
  refine forall₂_congr fun r _ => ?_
  rcases hdenotes : r.denotes with _ | ⟨d, i⟩ <;> simp [resolved_denotes]

/-- `SELECT child.id, parent.id FROM nodes child JOIN nodes parent ON child.up = parent.id`. -/
def selfJoin : Statement 1 :=
  Query.ofSelect (κ := Statement 0) (.plain [.qualified "child" "id", .qualified "parent" "id"]
    ⟨.aliased "nodes" "child", [⟨.aliased "nodes" "parent",
      .inner (.on (.binaryOp (.qualified "child" "up") .eq (.qualified "parent" "id")))⟩]⟩)

/-- The query is accepted, and after resolution no reference can tell the two occurrences apart. -/
theorem selfJoin_ambiguous : (parseAndLower noText selfJoin).isOk = true ∧
      (Statement.references 1 [] [] selfJoin).map Reference.denotes =
        [some (0, 0), some (0, 1), some (0, 0), some (0, 1)] ∧
      (Statement.references 1 [] [] (resolveFromAliases selfJoin)).map Reference.denotes =
        [none, none, none, none] ∧ ¬ SameDenotations selfJoin := by
  have hwas : (Statement.references 1 [] [] selfJoin).map Reference.denotes =
      [some (0, 0), some (0, 1), some (0, 0), some (0, 1)] := by decide +kernel
  have hnow : (Statement.references 1 [] [] (resolveFromAliases selfJoin)).map Reference.denotes =
      [none, none, none, none] := by decide +kernel
  refine ⟨by decide +kernel, hwas, hnow, fun hsame => ?_⟩
  rw [SameDenotations, hwas, hnow] at hsame
  simp at hsame

end Palimpsest.Frontend
