import Palimpsest.Permissions.Rewriter

/-! The selections and filters that a rewritten graph carries above the scans of the query. -/
namespace Palimpsest.Permissions
open Sql List Function

/-- Node `j` is node `i` of the query with the given nodes spliced above it, from the lowest to the
highest; nodes from `n` on are the spliced ones. -/
inductive Over (n : ℕ) (out : MirGraph) (i : ℕ) : ℕ → List MirNodeKind → Prop
  | base : i < n → Over n out i i []
  | spliced {f j : ℕ} {kind : MirNodeKind} {kinds : List MirNodeKind} : n ≤ f →
      out.kind? f = some kind → out.orderedInputs f = [j] → Over n out i j kinds →
      Over n out i f (kinds ++ [kind])

/-- No spliced node reads `j`, so a reader of `j` is above everything spliced below it. -/
def Topmost (n : ℕ) (out : MirGraph) (j : ℕ) : Prop :=
  ∀ f, n ≤ f → j ∉ out.orderedInputs f

/-- Node `t` alone is on top of node `i`, with the given nodes between. -/
structure Capped (n : ℕ) (out : MirGraph) (i t : ℕ) (kinds : List MirNodeKind) : Prop where
  above : Over n out i t kinds
  top : Topmost n out t
  only : ∀ j kinds', Topmost n out j → Over n out i j kinds' → j = t ∧ kinds' = kinds

/-- The nodes of the query and the result read only what is on top. -/
structure ReadOnTop (n : ℕ) (out : MirGraph) : Prop where
  readers : ∀ v, v < n → ∀ j, j ∈ out.orderedInputs v ∨ j ∈ out.expansions v → Topmost n out j
  root : Topmost n out out.root

/-- Every node of the query has its guards above it, and all readers read it through them. -/
structure Layered (n : ℕ) (out : MirGraph) (guards : ℕ → List MirNodeKind) : Prop
    extends ReadOnTop n out where
  capped : ∀ i, i < n → ∃ t, Capped n out i t (guards i)

section Over
variable {g : MirGraph}

theorem Over.lt (h : Over n g i j kinds) (hn : n ≤ g.nodeCount) : j < g.nodeCount := by
  cases h with
  | base hi => omega
  | spliced _ hkind => exact kind_lt hkind

theorem Over.eq_base (h : Over n g i j []) : j = i := by
  generalize hnil : ([] : List MirNodeKind) = kinds at h
  cases h with
  | base => rfl
  | spliced => simp at hnil

theorem Over.base_unique (h : Over n g i j kinds) (h' : Over n g i' j kinds') : i = i' := by
  induction h generalizing kinds' with
  | base hi =>
    cases h' with
    | base => rfl
    | spliced hge => omega
  | spliced hge _ hinputs _ ih =>
    cases h' with
    | base => omega
    | spliced _ _ hinputs' hrest =>
      obtain rfl : _ = _ := by simpa using hinputs.symm.trans hinputs'
      exact ih hrest

end Over

section Splice
variable {g : MirGraph}

variable (hwf : g.WellFormed)
include hwf

variable (ht : t < g.nodeCount)
include ht

variable (htop : Topmost n g t)
include htop

/-- Splicing above a topmost node leaves the other spliced nodes alone. -/
theorem orderedInputs_spliced (hf : n ≤ f) (hne : f ≠ g.nodeCount) :
    (g.spliceAbove t k).1.orderedInputs f = g.orderedInputs f := by
  rw [MirGraph.spliceAbove_orderedInputs_old hwf ht hne]
  have hmoved : ∀ j ∈ g.orderedInputs f, movedTo t g.nodeCount j = j := by
    intro j hj
    have hjt : j ≠ t := by
      rintro rfl
      exact htop f hf hj
    simp [movedTo, hjt]
  exact (map_congr_left hmoved).trans (map_id _)

theorem topmost_new : Topmost n (g.spliceAbove t k).1 g.nodeCount := by
  intro f hf
  by_cases hne : f = g.nodeCount
  · rw [hne, MirGraph.spliceAbove_orderedInputs_new hwf ht, mem_singleton]
    exact ht.ne'
  · rw [orderedInputs_spliced hwf ht htop hf hne]
    intro hmem
    exact absurd (hwf.operand_lt (.inl hmem)) (lt_irrefl _)

theorem topmost_spliced_iff (hn : n ≤ g.nodeCount) :
    Topmost n (g.spliceAbove t k).1 j ↔ j ≠ t ∧ Topmost n g j := by
  constructor
  · intro h
    refine ⟨?_, fun f hf => ?_⟩
    · rintro rfl
      refine h g.nodeCount hn ?_
      rw [MirGraph.spliceAbove_orderedInputs_new hwf ht]
      exact mem_singleton_self _
    · by_cases hne : f = g.nodeCount
      · intro hmem
        obtain ⟨w, harc⟩ := MirGraph.exists_arc_of_operand (.inl hmem)
        exact absurd (hwf.endpoints _ harc).2 (not_lt.mpr hne.ge)
      · rw [← orderedInputs_spliced hwf ht htop hf hne]
        exact h f hf
  · rintro ⟨hjt, h⟩ f hf
    by_cases hne : f = g.nodeCount
    · rw [hne, MirGraph.spliceAbove_orderedInputs_new hwf ht, mem_singleton]
      exact hjt
    · rw [orderedInputs_spliced hwf ht htop hf hne]
      exact h f hf

theorem topmost_movedTo (hn : n ≤ g.nodeCount) (hj : Topmost n g j) :
    Topmost n (g.spliceAbove t k).1 (movedTo t g.nodeCount j) := by
  unfold movedTo
  split
  · exact topmost_new hwf ht htop
  next hjt => exact (topmost_spliced_iff hwf ht htop hn).mpr ⟨hjt, hj⟩

theorem Over.spliceAbove (h : Over n g i j kinds) : Over n (g.spliceAbove t k).1 i j kinds := by
  induction h with
  | base hi => exact .base hi
  | spliced hge hkind hinputs _ ih =>
    have hlt := kind_lt hkind
    refine .spliced hge ?_ ?_ ih
    · rw [MirGraph.spliceAbove_kind_old hlt, hkind]
    · rw [orderedInputs_spliced hwf ht htop hge hlt.ne, hinputs]

theorem over_spliceAbove (hn : n ≤ g.nodeCount) (h : Over n (g.spliceAbove t k).1 i j kinds) :
    j ≠ g.nodeCount ∧ Over n g i j kinds ∨
      j = g.nodeCount ∧ ∃ below, kinds = below ++ [k] ∧ Over n g i t below := by
  induction h with
  | base hi => exact .inl ⟨by omega, .base hi⟩
  | @spliced f j kind kinds hge hkind hinputs hrest ih =>
    by_cases hne : f = g.nodeCount
    · subst hne
      rw [MirGraph.spliceAbove_kind_new] at hkind
      rw [MirGraph.spliceAbove_orderedInputs_new hwf ht] at hinputs
      cases hkind
      obtain rfl : t = j := by simpa using hinputs
      rcases ih with ⟨-, hover⟩ | ⟨rfl, -⟩
      · exact .inr ⟨rfl, kinds, rfl, hover⟩
      · exact absurd ht (lt_irrefl _)
    · have hlt : f < g.nodeCount := by
        have hlt := kind_lt hkind
        rw [MirGraph.spliceAbove_nodeCount] at hlt
        omega
      rw [MirGraph.spliceAbove_kind_old hlt] at hkind
      rw [orderedInputs_spliced hwf ht htop hge hne] at hinputs
      have hj : j < g.nodeCount := hwf.operand_lt (v := f) (.inl (by simp [hinputs]))
      rcases ih with ⟨-, hover⟩ | ⟨rfl, -⟩
      · exact .inl ⟨hne, .spliced hge hkind hinputs hover⟩
      · exact absurd hj (lt_irrefl _)

omit ht htop in
/-- A node spliced on top of a node of the query is its new top. -/
theorem Capped.spliceAbove (h : Capped n g i t kinds) (hn : n ≤ g.nodeCount) (k) :
    Capped n (g.spliceAbove t k).1 i g.nodeCount (kinds ++ [k]) := by
  have ht := h.above.lt hn
  refine ⟨.spliced hn MirGraph.spliceAbove_kind_new
    (MirGraph.spliceAbove_orderedInputs_new hwf ht) (h.above.spliceAbove hwf ht h.top),
    topmost_new hwf ht h.top, fun j kinds' hj hover => ?_⟩
  rcases over_spliceAbove hwf ht h.top hn hover with ⟨-, hold⟩ | ⟨rfl, below, rfl, hbelow⟩
  · obtain ⟨hjt, hjtop⟩ := (topmost_spliced_iff hwf ht h.top hn).mp hj
    exact absurd (h.only j kinds' hjtop hold).1 hjt
  · exact ⟨rfl, by rw [(h.only t below h.top hbelow).2]⟩

omit ht htop in
theorem Capped.spliceAbove_of_ne (h : Capped n g i t kinds) (h' : Capped n g i' t' kinds')
    (hne : i' ≠ i) (hn : n ≤ g.nodeCount) (k) : Capped n (g.spliceAbove t k).1 i' t' kinds' := by
  have ht := h.above.lt hn
  have htt : t' ≠ t := by
    rintro rfl
    exact hne (h'.above.base_unique h.above)
  refine ⟨h'.above.spliceAbove hwf ht h.top,
    (topmost_spliced_iff hwf ht h.top hn).mpr ⟨htt, h'.top⟩,
    fun j kinds hj hover => ?_⟩
  rcases over_spliceAbove hwf ht h.top hn hover with ⟨-, hover⟩ | ⟨-, below, -, hbelow⟩
  · exact h'.only j kinds ((topmost_spliced_iff hwf ht h.top hn).mp hj).2 hover
  · exact absurd (hbelow.base_unique h.above) hne

omit ht htop in
theorem Layered.spliceAbove (h : Layered n g guards) (hcap : Capped n g i t kinds)
    (hn : n ≤ g.nodeCount) (k) :
    Layered n (g.spliceAbove t k).1 (update guards i (kinds ++ [k])) := by
  have ht := hcap.above.lt hn
  refine ⟨⟨?_, ?_⟩, ?_⟩
  · intro v hv j hj
    rw [MirGraph.spliceAbove_orderedInputs_old hwf ht (by omega),
      MirGraph.spliceAbove_expansions hwf ht] at hj
    rcases hj with hj | hj
    · obtain ⟨j, hmem, rfl⟩ := mem_map.mp hj
      exact topmost_movedTo hwf ht hcap.top hn (h.readers v hv j (.inl hmem))
    · obtain ⟨j, hmem, rfl⟩ := mem_map.mp hj
      exact topmost_movedTo hwf ht hcap.top hn (h.readers v hv j (.inr hmem))
  · exact topmost_movedTo hwf ht hcap.top hn h.root
  · intro other hother
    by_cases hne : other = i
    · subst hne
      rw [update_self]
      exact ⟨_, hcap.spliceAbove hwf hn k⟩
    · obtain ⟨t', hcap'⟩ := h.capped other hother
      rw [update_of_ne hne]
      exact ⟨t', hcap.spliceAbove_of_ne hwf hcap' hne hn k⟩

end Splice

/-- The filter that a list of rules puts above a scan: none when they admit every row. -/
def filterFor (context : UserContext) (own : List CompiledRule) : List MirNodeKind :=
  if ∃ rule ∈ own, rule.predicate.isTautology then []
  else match own.mapM fun rule => rule.predicate.materialize context with
    | .ok clauses => [.filter (disjunction clauses)]
    | .error _ => []

/-- The nodes that rules on one name put above a scan: the selection of the newest rows, if their
table is versioned, and the filter over it. -/
def guardFor (context : UserContext) : List CompiledRule → List MirNodeKind
  | [] => []
  | first :: rest => (first.latest.map latestKind).toList ++ filterFor context (first :: rest)

/-- Rules none of which is a tautology put the disjunction of their clauses above the scan. -/
theorem filterFor_eq_disjunction (hnone : ∀ rule ∈ own, rule.predicate.isTautology = false)
    (h : own.mapM (fun rule => rule.predicate.materialize ctx) = .ok clauses) :
    filterFor ctx own = [.filter (disjunction clauses)] := by
  have hopen : ¬ ∃ rule ∈ own, rule.predicate.isTautology = true := by simpa using hnone
  rw [filterFor, if_neg hopen, h]

section Run

theorem spliceLatest_layered (hwf : g.WellFormed) (hn : n ≤ g.nodeCount) (h : Layered n g guards)
    (hi : i < n) (hbare : guards i = []) (latest) :
    Layered n (spliceLatest g i latest).1 (update guards i (latest.map latestKind).toList) ∧
      Capped n (spliceLatest g i latest).1 i (spliceLatest g i latest).2
        (latest.map latestKind).toList := by
  obtain ⟨t, hcap⟩ := h.capped i hi
  rw [hbare] at hcap
  obtain rfl := hcap.above.eq_base
  cases latest with
  | none => exact ⟨by rwa [Option.map_none, Option.toList_none, ← hbare, update_eq_self], hcap⟩
  | some latest =>
    exact ⟨h.spliceAbove hwf hcap hn (latestKind latest),
      hcap.spliceAbove hwf hn (latestKind latest)⟩

theorem ScanStep.layered (hwf : g.WellFormed) (hacyc : g.Acyclic) (hn : n ≤ g.nodeCount)
    (h : Layered n g guards) (hi : i < n) (hbare : guards i = [])
    (hstep : ScanStep rules ctx g i table g') :
    Layered n g' (update guards i (guardFor ctx (rulesFor rules table))) := by
  cases hstep with
  | unruled hrules => rwa [hrules, guardFor, ← hbare, update_eq_self]
  | @admitAll first rest hrules htaut =>
    have hlayer := (spliceLatest_layered hwf hn h hi hbare first.latest).1
    rwa [hrules, guardFor, filterFor, if_pos htaut, append_nil]
  | @guarded first rest clauses hrules hnone hclauses =>
    obtain ⟨hlayer, hcap⟩ := spliceLatest_layered hwf hn h hi hbare first.latest
    obtain ⟨hext, -⟩ := spliceLatest_extends hwf hacyc (hi.trans_le hn) first.latest
    have hnext := hlayer.spliceAbove hext.wellFormed hcap (hn.trans hext.count)
      (.filter (disjunction clauses))
    rw [update_idem, ← filterFor_eq_disjunction hnone hclauses] at hnext
    rw [hrules]
    exact hnext

/-- The whole loop guards every listed scan by the rules under its name. -/
theorem ScanRun.layered (tableOf) (hwf : g.WellFormed) (hacyc : g.Acyclic) (hn : n ≤ g.nodeCount)
    (h : Layered n g guards) (hrun : ScanRun rules ctx g is g') (hlt : ∀ j ∈ is, j < n)
    (hnodup : is.Nodup) (hbare : ∀ j ∈ is, guards j = []) (htables : Scans tableOf g is) :
    Layered n g' fun j =>
      if j ∈ is then guardFor ctx (rulesFor rules (tableOf j)) else guards j := by
  induction hrun generalizing guards with
  | done => simpa using h
  | @turn g g₁ g₂ i is table project hkind hstep hrun ih =>
    have hext := hstep.extends hwf hacyc (kind_lt hkind)
    obtain ⟨hnew, hnodup⟩ := nodup_cons.mp hnodup
    have hlayer := hstep.layered hwf hacyc hn h (hlt i mem_cons_self) (hbare i mem_cons_self)
    have hothers : ∀ j ∈ is, j ≠ i := by
      rintro j hj rfl
      exact hnew hj
    have hlast := ih hext.wellFormed hext.acyclic (hn.trans hext.count) hlayer
      (fun j hj => hlt j (mem_cons_of_mem _ hj)) hnodup
      (fun j hj => by rw [update_of_ne (hothers j hj), hbare j (mem_cons_of_mem _ hj)])
      (htables.tail hstep)
    convert hlast using 2 with j
    by_cases hji : j = i
    · subst hji
      rw [if_pos mem_cons_self, if_neg hnew, update_self, htables.head hkind]
    · rw [update_of_ne hji]
      simp [hji]

/-- A turn that succeeds has put the context's values into every rule it needs. -/
theorem ScanStep.materialized (hstep : ScanStep rules ctx g i table g')
    (hnone : ∀ rule ∈ rulesFor rules table, rule.predicate.isTautology = false) :
    ∃ clauses, (rulesFor rules table).mapM (fun rule => rule.predicate.materialize ctx) =
      .ok clauses := by
  cases hstep with
  | unruled hrules => exact ⟨[], by rw [hrules]; rfl⟩
  | admitAll hrules htaut =>
    obtain ⟨rule, hmem, htrue⟩ := htaut
    rw [← hrules] at hmem
    simp [hnone rule hmem] at htrue
  | guarded hrules _ hclauses => exact ⟨_, hrules ▸ hclauses⟩

theorem ScanRun.materialized (hwf : g.WellFormed) (hacyc : g.Acyclic)
    (hrun : ScanRun rules ctx g is g') (hj : j ∈ is)
    (hkind : g.kind? j = some (.baseTable table project))
    (hnone : ∀ rule ∈ rulesFor rules table, rule.predicate.isTautology = false) :
    ∃ clauses, (rulesFor rules table).mapM (fun rule => rule.predicate.materialize ctx) =
      .ok clauses := by
  induction hrun with
  | done => cases hj
  | @turn g g₁ g₂ i is table' project' hkind' hstep _ ih =>
    have hext := hstep.extends hwf hacyc (kind_lt hkind')
    rcases mem_cons.mp hj with rfl | hmem
    · rw [hkind'] at hkind
      cases hkind
      exact hstep.materialized hnone
    · exact ih hext.wellFormed hext.acyclic hmem ((hext.kinds j (kind_lt hkind)).trans hkind)

end Run

theorem layered_start (hwf : g.WellFormed) : Layered g.nodeCount g fun _ => [] := by
  have htop : ∀ j, Topmost g.nodeCount g j := by
    intro j f hf hj
    obtain ⟨w, harc⟩ := MirGraph.exists_arc_of_operand (.inl hj)
    exact absurd (hwf.endpoints _ harc).2 (not_lt.mpr hf)
  refine ⟨⟨fun _ _ j _ => htop j, htop _⟩, fun i hi => ⟨i, .base hi, htop i, ?_⟩⟩
  intro j kinds _ hover
  cases hover with
  | base => exact ⟨rfl, rfl⟩
  | spliced hge hkind => exact absurd (kind_lt hkind) (not_lt.mpr hge)

/-- Every scan of a rewritten query is guarded by the rules under its name, and every reader in
the query is above that guard. -/
theorem rewrite_guards (hwf : g.WellFormed) (hacyc : g.Acyclic)
    (h : rewrite g rules ctx = .ok out) : ReadOnTop g.nodeCount out.graph ∧
      ∀ i table project, g.kind? i = some (.baseTable table project) →
        ∃ t, Capped g.nodeCount out.graph i t (guardFor ctx (rulesFor rules table)) := by
  have hlayer := (rewrite_run h).layered (scanTable g) hwf hacyc
    le_rfl (layered_start hwf) (fun j hj => kind_lt (kind_scanTable hj).choose_spec)
    (baseTableIndices_nodup g) (fun _ _ => rfl) (scans_baseTables g)
  refine ⟨hlayer.toReadOnTop, fun i table project hkind => ?_⟩
  obtain ⟨t, hcap⟩ := hlayer.capped i (kind_lt hkind)
  rw [if_pos (mem_baseTableIndices.mpr ⟨table, project, hkind⟩), scanTable_eq hkind] at hcap
  exact ⟨t, hcap⟩

end Palimpsest.Permissions
