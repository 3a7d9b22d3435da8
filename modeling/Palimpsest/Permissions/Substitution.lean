import Palimpsest.Permissions.ScanGuard

/-! How the filters of a rewritten query depend on the user context. -/
namespace Palimpsest.Permissions
open Sql Fallible List

section

theorem length_disjunction_mono
    (h : List.Forall₂ (fun c c' => c.length ≤ c'.length) clauses clauses') :
    (disjunction clauses).length ≤ (disjunction clauses').length ∧
      ((clauses.map String.length).sum < (clauses'.map String.length).sum →
        (disjunction clauses).length < (disjunction clauses').length) := by
  cases h with
  | nil => exact ⟨le_rfl, fun hlt => absurd hlt (lt_irrefl _)⟩
  | @cons c c' cs cs' hc hcs =>
    cases hcs with
    | nil =>
      refine ⟨hc, fun hlt => ?_⟩
      show c.length < c'.length
      simpa using hlt
    | @cons d d' ds ds' hd hds =>
      have hparens : List.Forall₂ (fun part part' => part.length ≤ part'.length)
          ((c :: d :: ds).map fun clause => "(" ++ clause ++ ")")
          ((c' :: d' :: ds').map fun clause => "(" ++ clause ++ ")") := by
        rw [forall₂_map_left_iff, forall₂_map_right_iff]
        have hall : List.Forall₂ (fun c c' : String => c.length ≤ c'.length) (c :: d :: ds)
          (c' :: d' :: ds') := .cons hc (.cons hd hds)
        refine hall.imp ?_
        intro part part' hle
        simp only [String.length_append]
        omega
      obtain ⟨hle, hlt⟩ := Text.length_intercalate_mono " OR " hparens
      refine ⟨hle, fun hsum => hlt ?_⟩
      have hwidth : ∀ parts : List String,
          ((parts.map fun part => "(" ++ part ++ ")").map String.length).sum =
            (parts.map String.length).sum + 2 * parts.length := by
        intro parts
        induction parts with
        | nil => rfl
        | cons =>
          simp only [map_cons, sum_cons, String.length_append, length_cons]
          have hparen : "(".length = 1 ∧ ")".length = 1 := by decide
          omega
      have hlen : ds.length = ds'.length := hds.length_eq
      rw [hwidth, hwidth]
      simp only [length_cons] at hsum ⊢
      omega

theorem mapM_materialize_longer {own : List CompiledRule}
    (h : ∀ rule ∈ own, ∀ text, rule.predicate.materialize ctx = .ok text →
      ∃ text', rule.predicate.materialize context' = .ok text' ∧ text.length ≤ text'.length)
    (hclauses : own.mapM (fun rule => rule.predicate.materialize ctx) = .ok clauses) :
    ∃ clauses', own.mapM (fun rule => rule.predicate.materialize context') = .ok clauses' ∧
      List.Forall₂ (fun c c' => c.length ≤ c'.length) clauses clauses' ∧
      ((∃ rule ∈ own, ∃ text text', rule.predicate.materialize ctx = .ok text ∧
          rule.predicate.materialize context' = .ok text' ∧ text.length < text'.length) →
        (clauses.map String.length).sum < (clauses'.map String.length).sum) := by
  induction own generalizing clauses with
  | nil =>
    cases hclauses
    exact ⟨[], rfl, .nil, by rintro ⟨_, hmem, _⟩; cases hmem⟩
  | cons rule own ih =>
    obtain ⟨c, cs, hc, hcs, rfl⟩ := mapM_cons_ok.mp hclauses
    rw [forall_mem_cons] at h
    obtain ⟨c', hc', hle⟩ := h.1 c hc
    obtain ⟨cs', hcs', hrest, hstr⟩ := ih h.2 hcs
    refine ⟨c' :: cs', mapM_cons_ok.mpr ⟨c', cs', hc', hcs', rfl⟩, .cons hle hrest, ?_⟩
    rintro ⟨longer, hmem, text, text', htext, htext', hlt⟩
    simp only [map_cons, sum_cons]
    rcases mem_cons.mp hmem with rfl | hmem'
    · obtain rfl : c = text := Except.ok.inj (hc.symm.trans htext)
      obtain rfl : c' = text' := Except.ok.inj (hc'.symm.trans htext')
      have hsums := Text.sum_length_le hrest
      omega
    · have hsums := hstr ⟨longer, hmem', text, text', htext, htext', hlt⟩
      omega

end

section

def filterText : MirNodeKind → Option String
  | .filter predicate => some predicate
  | _ => none

def filterWidth (nodes : List MirNodeKind) : ℕ :=
  ((nodes.filterMap filterText).map String.length).sum

def guardWidth (rules : List CompiledRule) (context : UserContext) (table : String) : ℕ :=
  filterWidth (guardFor context (rulesFor rules table))

@[simp]
theorem filterWidth_append (nodes nodes') :
    filterWidth (nodes ++ nodes') = filterWidth nodes + filterWidth nodes' := by
  simp [filterWidth]

@[simp]
theorem spliceAbove_nodes (g : MirGraph) (t : ℕ) (k) :
    (g.spliceAbove t k).1.graph.nodes = g.graph.nodes ++ [k] := by
  simp [MirGraph.spliceAbove]

theorem filterWidth_latest (latest : Option LatestBy) :
    filterWidth (latest.map latestKind).toList = 0 := by
  cases latest <;> rfl

theorem guardWidth_guarded (hguard : Guarded rules table)
    (h : (rulesFor rules table).mapM (fun rule => rule.predicate.materialize ctx) = .ok clauses) :
    guardWidth rules ctx table = (disjunction clauses).length := by
  obtain ⟨hne, hnone⟩ := hguard
  obtain ⟨first, rest, hown⟩ := exists_cons_of_ne_nil hne
  rw [hown] at h hnone
  rw [guardWidth, hown, guardFor, filterWidth_append, filterWidth_latest, Nat.zero_add,
    filterFor_eq_disjunction hnone h]
  rfl

theorem guardWidth_of_not_guarded (hopen : ¬ Guarded rules table) (ctx) :
    guardWidth rules ctx table = 0 := by
  unfold guardWidth
  match hown : rulesFor rules table with
  | [] => rfl
  | first :: rest =>
    have htaut : ∃ rule ∈ first :: rest, rule.predicate.isTautology = true := by
      by_contra hnone
      refine hopen ⟨by simp [hown], ?_⟩
      rw [hown]
      simpa using hnone
    rw [guardFor, filterWidth_append, filterWidth_latest, filterFor, if_pos htaut]
    rfl

theorem spliceLatest_width (g) (t : ℕ) (latest) :
    filterWidth (spliceLatest g t latest).1.graph.nodes = filterWidth g.graph.nodes := by
  cases latest with
  | none => rfl
  | some =>
    rw [spliceLatest, spliceAbove_nodes, filterWidth_append]
    rfl

theorem ScanStep.width (h : ScanStep rules ctx g i table g') :
    filterWidth g'.graph.nodes = filterWidth g.graph.nodes + guardWidth rules ctx table := by
  cases h with
  | unruled hrules =>
    rw [guardWidth_of_not_guarded fun hguard => hguard.1 hrules]
    rfl
  | admitAll hrules htaut =>
    obtain ⟨rule, hrule, htrue⟩ := htaut
    rw [spliceLatest_width, guardWidth_of_not_guarded]
    · rfl
    · exact fun hguard => by simp [hguard.2 rule (hrules ▸ hrule)] at htrue
  | @guarded first rest clauses hrules hnone hclauses =>
    rw [← hrules] at hnone hclauses
    rw [guardWidth_guarded ⟨by simp [hrules], hnone⟩ hclauses, spliceAbove_nodes,
      filterWidth_append,
      spliceLatest_width]
    rfl

theorem ScanRun.width (h : ScanRun rules ctx g is g') (hscans : Scans tableOf g is) :
    filterWidth g'.graph.nodes = filterWidth g.graph.nodes +
      (is.map fun i => guardWidth rules ctx (tableOf i)).sum := by
  induction h with
  | done => rfl
  | turn hkind hstep _ ih =>
    rw [ih (hscans.tail hstep), hstep.width, map_cons, sum_cons, hscans.head hkind]
    omega

end

section

def SameClauses (rules : List CompiledRule) (context context' : UserContext) (table : String) :
    Prop :=
  Guarded rules table → ∀ rule ∈ rulesFor rules table,
    rule.predicate.materialize context = rule.predicate.materialize context'

theorem visitScan_congr (hkind : state.graph.kind? index = some (.baseTable table project))
    (h : SameClauses rules ctx context' table) :
    visitScan rules ctx state index = visitScan rules context' state index := by
  simp only [visitScan, hkind]
  cases hrules : rulesFor rules table with
  | nil => rfl
  | cons first rest =>
    by_cases htaut : (first :: rest).any fun rule => rule.predicate.isTautology
    · simp [htaut]
    · have hguard : Guarded rules table :=
        ⟨by simp [hrules], by rw [hrules]; simpa using htaut⟩
      have hsame := h hguard
      rw [hrules] at hsame
      simp only
      rw [mapM_congr hsame]

theorem rewrite_congr (h : ∀ table, Reads g table → SameClauses rules ctx context' table) :
    rewrite g rules ctx = rewrite g rules context' := by
  have hfold : ∀ (is : List ℕ) (state : RewriteOutcome), Scans (scanTable g) state.graph is →
      (∀ i ∈ is, SameClauses rules ctx context' (scanTable g i)) →
      is.foldlM (visitScan rules ctx) state = is.foldlM (visitScan rules context') state := by
    intro is
    induction is with
    | nil =>
      intro state _ _
      rw [foldlM_nil, foldlM_nil]
    | cons i is ih =>
      intro state hscans hsame
      obtain ⟨project, hkind⟩ := hscans i mem_cons_self
      rw [foldlM_cons, foldlM_cons, ← visitScan_congr hkind (hsame i mem_cons_self)]
      rcases visitScan_cases rules ctx hkind with ⟨-, e, he⟩ | ⟨-, next, hnext, hstep, -⟩
      · simp [he, bind, Except.bind]
      · rw [hnext]
        exact ih next (hscans.tail hstep) fun j hj => hsame j (mem_cons_of_mem _ hj)
  unfold rewrite
  rw [hfold _ _ (scans_baseTables g)]
  intro i hi
  obtain ⟨project, hkind⟩ := kind_scanTable hi
  exact h _ ⟨i, project, hkind⟩

theorem materialize_of_bound (hguard : Guarded rules table) (hbound : ¬ Unbound rules ctx table) :
    ∀ rule ∈ rulesFor rules table, ∃ text, rule.predicate.materialize ctx = .ok text := by
  intro rule hrule
  cases htext : rule.predicate.materialize ctx with
  | ok text => exact ⟨text, rfl⟩
  | error e => exact absurd ⟨hguard, rule, hrule, e, htext⟩ hbound

/-- Every clause of the table stays or gets longer, and so does the filter. -/
theorem guardWidth_mono (hbound : ¬ Unbound rules ctx table)
    (h : Guarded rules table → ∀ rule ∈ rulesFor rules table, ∀ text,
      rule.predicate.materialize ctx = .ok text →
      ∃ text', rule.predicate.materialize context' = .ok text' ∧ text.length ≤ text'.length) :
    guardWidth rules ctx table ≤ guardWidth rules context' table ∧
      (Guarded rules table → (∃ rule ∈ rulesFor rules table, ∃ text text',
          rule.predicate.materialize ctx = .ok text ∧
          rule.predicate.materialize context' = .ok text' ∧ text.length < text'.length) →
        guardWidth rules ctx table < guardWidth rules context' table) := by
  by_cases hguard : Guarded rules table
  · obtain ⟨clauses, hclauses⟩ :=
      mapM_ok_iff.mpr (materialize_of_bound hguard hbound)
    obtain ⟨clauses', hclauses', hpointwise, hstr⟩ :=
      mapM_materialize_longer (h hguard) hclauses
    obtain ⟨hle, hlt⟩ := length_disjunction_mono hpointwise
    rw [guardWidth_guarded hguard hclauses, guardWidth_guarded hguard hclauses']
    exact ⟨hle, fun _ hlonger => hlt (hstr hlonger)⟩
  · rw [guardWidth_of_not_guarded hguard, guardWidth_of_not_guarded hguard]
    exact ⟨le_rfl, fun h' => absurd h' hguard⟩

end

end Palimpsest.Permissions
