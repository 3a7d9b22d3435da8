import Palimpsest.Foundation.IndexedDigraph

/-! The query graph: relational operators joined by positioned input edges. -/
namespace Palimpsest.Sql
open IndexedDigraph List

inductive JoinKind where
  | inner
  | left
  | semi
  | anti
deriving Repr, DecidableEq

inductive SetQuantifierKind where
  | distinct
  | all
deriving Repr, DecidableEq

structure ColumnRef where
  relation : Option String
  name : String
deriving Repr, DecidableEq

structure OrderKey where
  expression : String
  descending : Bool
deriving Repr, DecidableEq

structure AggExpr where
  function : String
  args : List String
  aliasName : Option String
deriving Repr, DecidableEq

inductive MirNodeKind where
  | baseTable (table : String) (project : List ColumnRef)
  | filter (predicate : String)
  | project (columns : List String)
  | join (kind : JoinKind) (on : List (ColumnRef × ColumnRef))
  | aggregate (groupBy : List ColumnRef) (aggs : List AggExpr)
  | distinct
  | distinctOn (on : List String) (orderBy : List OrderKey)
  | union (quantifier : SetQuantifierKind)
  | except (quantifier : SetQuantifierKind)
  | intersect (quantifier : SetQuantifierKind)
  | topK (orderBy : List OrderKey) (limit offset : ℕ)
  | cteRef (cte : String)
  | fixpoint (cte : String) (unionAll : Bool)
  | recursiveRef (cte : String)
  | leaf (name : String)
deriving Repr, DecidableEq

def MirNodeKind.isBaseTable : MirNodeKind → Bool
  | .baseTable _ _ => true
  | _ => false

/-- `input k` feeds the consumer's operand number `k`, a byte in the source. -/
inductive MirEdgeKind where
  | input (position : ℕ)
  | cteExpansion
deriving Repr, DecidableEq

structure MirGraph where
  graph : Digraph MirNodeKind MirEdgeKind
  root : ℕ
deriving Repr, DecidableEq

/-- The numbered operands that a list of arcs supplies to `v`. -/
def inputsInto (v : ℕ) (as : List (Arc MirEdgeKind)) : List (ℕ × ℕ) :=
  as.filterMap fun a => match a with
    | (s, t, .input k) => if t = v then some (k, s) else none
    | (_, _, .cteExpansion) => none

def expansionsInto (v : ℕ) (as : List (Arc MirEdgeKind)) : List ℕ :=
  as.filterMap fun a => match a with
    | (s, t, .cteExpansion) => if t = v then some s else none
    | (_, _, .input _) => none

@[simp] theorem inputsInto_append (v : ℕ) (as bs) :
    inputsInto v (as ++ bs) = inputsInto v as ++ inputsInto v bs :=
  filterMap_append

@[simp] theorem expansionsInto_append (v : ℕ) (as bs) :
    expansionsInto v (as ++ bs) = expansionsInto v as ++ expansionsInto v bs :=
  filterMap_append

theorem into_filter (v : ℕ) (as) : inputsInto v (as.filter fun a => a.2.1 = v) = inputsInto v as ∧
      expansionsInto v (as.filter fun a => a.2.1 = v) = expansionsInto v as := by
  induction as with
  | nil => exact ⟨rfl, rfl⟩
  | cons a =>
    obtain ⟨s, t, w⟩ := a
    by_cases ht : t = v <;> cases w <;> simp_all [inputsInto, expansionsInto]

/-- Where a reader of `j` finds its operand once readers of `t` are sent to `v`. -/
def movedTo (t v j : ℕ) : ℕ := if j = t then v else j

theorem into_redirect (t n v : ℕ) (as) : inputsInto v (as.map (Digraph.redirect t n)) =
      (inputsInto v as).map (fun p => (p.1, movedTo t n p.2)) ∧
    expansionsInto v (as.map (Digraph.redirect t n)) = (expansionsInto v as).map (movedTo t n) := by
  induction as with
  | nil => exact ⟨rfl, rfl⟩
  | cons a =>
    obtain ⟨s, u, w⟩ := a
    by_cases hs : s = t <;> by_cases hu : u = v <;> cases w <;>
      simp_all [inputsInto, expansionsInto, Digraph.redirect, movedTo]

theorem into_eq_nil (h : ∀ a ∈ l, a.2.1 ≠ v) : inputsInto v l = [] ∧ expansionsInto v l = [] := by
  rw [← (into_filter v l).1, ← (into_filter v l).2, filter_eq_nil_iff.mpr]
  · exact ⟨rfl, rfl⟩
  · intro a ha
    simpa using h a ha

def sortInputs (inputs : List (ℕ × ℕ)) : List ℕ :=
  (inputs.insertionSort fun p q => p.1 ≤ q.1).map Prod.snd

theorem sortInputs_perm (h : xs.Perm ys) (hnd : (xs.map Prod.fst).Nodup) :
    sortInputs xs = sortInputs ys := by
  let r : ℕ × ℕ → ℕ × ℕ → Prop := fun p q => p.1 ≤ q.1
  have hx := perm_insertionSort r xs
  have hy := perm_insertionSort r ys
  have hperm := hx.trans (h.trans hy.symm)
  have hinj : ∀ p q, p ∈ xs.insertionSort r → q ∈ ys.insertionSort r → r p q → r q p → p = q := by
    intro p q hp hq hpq hqp
    exact inj_on_of_nodup_map hnd (hx.subset hp)
      (h.symm.subset (hy.subset hq)) (le_antisymm hpq hqp)
  have heq := List.Perm.eq_of_pairwise hinj (pairwise_insertionSort r xs)
    (pairwise_insertionSort r ys) hperm
  exact congrArg (map Prod.snd) heq

def numbered (inputs : List ℕ) : List (ℕ × ℕ) := (range inputs.length).zip inputs

theorem numbered_fst (inputs) : (numbered inputs).map Prod.fst = range inputs.length :=
  map_fst_zip (by simp)

theorem numbered_append (inputs) (s : ℕ) :
    numbered (inputs ++ [s]) = numbered inputs ++ [(inputs.length, s)] := by
  simp [numbered, range_succ, zip_append]

theorem numbered_map (f inputs) :
    numbered (inputs.map f) = (numbered inputs).map fun p => (p.1, f p.2) := by
  simp [numbered, zip_map_right]

theorem sortInputs_numbered (inputs) : sortInputs (numbered inputs) = inputs := by
  have hsorted : (numbered inputs).Pairwise fun p q => p.1 ≤ q.1 := by
    rw [← pairwise_map (f := Prod.fst), numbered_fst]
    exact pairwise_le_range
  rw [sortInputs, hsorted.insertionSort_eq]
  exact map_snd_zip (by simp)

theorem numbered_sortInputs (h : (xs.map Prod.fst).Perm (range xs.length)) :
    numbered (sortInputs xs) = xs.insertionSort fun p q => p.1 ≤ q.1 := by
  have hperm := (perm_insertionSort (fun p q : ℕ × ℕ => p.1 ≤ q.1) xs).map Prod.fst
  have hsorted := pairwise_map.mpr (pairwise_insertionSort (fun p q : ℕ × ℕ => p.1 ≤ q.1) xs)
  have hrange := (hperm.trans h).eq_of_pairwise (fun _ _ _ _ => le_antisymm) hsorted
    pairwise_le_range
  rw [numbered, sortInputs, length_map, length_insertionSort, ← hrange, ← unzip_fst, ← unzip_snd]
  exact zip_unzip _

namespace MirGraph
variable {g : MirGraph}

def nodeCount (g : MirGraph) : ℕ := g.graph.nodes.length

def kind? (g : MirGraph) (i : ℕ) : Option MirNodeKind := g.graph.nodes[i]?

def new (root : MirNodeKind) : MirGraph := ⟨⟨[root], [], 0⟩, 0⟩

def setRoot (g : MirGraph) (root : ℕ) : MirGraph := { g with root := root }

def addNode (g : MirGraph) (node : MirNodeKind) : MirGraph :=
  { g with graph := g.graph.addNode node }

/-- The new operand takes the next position; the count saturates at the largest byte. -/
def addInput (g : MirGraph) (source target : ℕ) : MirGraph :=
  let ordinal := (inputsInto target ((g.graph.edgesInto target).map Edge.arc)).length
  { g with graph := g.graph.addEdge source target (.input (min ordinal 255)) }

def addCteExpansion (g : MirGraph) (source target : ℕ) : MirGraph :=
  { g with graph := g.graph.addEdge source target .cteExpansion }

/-- Copies `other` into `g`; the copy's root is the second component. -/
def appendGraph (g other : MirGraph) : MirGraph × ℕ :=
  let n := g.nodeCount
  let nodes := other.graph.nodes.foldl Digraph.addNode g.graph
  let copied := other.graph.edges.foldl
    (fun acc e => acc.addEdge (n + e.source) (n + e.target) e.weight) nodes
  ({ g with graph := copied }, n + other.root)

/-- Inserts `kind` immediately above `target` and returns the index of the new node. -/
def spliceAbove (g : MirGraph) (target : ℕ) (kind : MirNodeKind) : MirGraph × ℕ :=
  let inserted := g.nodeCount
  ({ graph := g.graph.insertAbove target kind (.input 0)
     root := if g.root = target then inserted else g.root }, inserted)

def orderedInputs (g : MirGraph) (node : ℕ) : List ℕ :=
  sortInputs (inputsInto node ((g.graph.edgesInto node).map Edge.arc))

/-- Sources of the expansion edges of `node`, newest first. -/
def expansions (g : MirGraph) (node : ℕ) : List ℕ :=
  expansionsInto node ((g.graph.edgesInto node).map Edge.arc)

def baseTableIndices (g : MirGraph) : List ℕ :=
  (range g.nodeCount).filter fun i => (g.kind? i).any MirNodeKind.isBaseTable

/-- What the graph builders keep: edges stay inside the graph, operand positions number a node's
inputs from `0`, and a CTE reference has one expansion. -/
structure WellFormed (g : MirGraph) : Prop where
  root_lt : g.root < g.nodeCount
  endpoints : ∀ a ∈ g.graph.arcs, a.1 < g.nodeCount ∧ a.2.1 < g.nodeCount
  stamped : g.graph.Stamped
  positions : ∀ v, ((inputsInto v g.graph.arcs).map Prod.fst).Perm
    (range (inputsInto v g.graph.arcs).length)
  expansion : ∀ v, (expansionsInto v g.graph.arcs).length ≤ 1

/-- What every edit keeps, whatever edges it adds: the positions number the inputs of `v` in the
order `added v`. -/
structure Listed (g : MirGraph) (added : ℕ → List ℕ) : Prop where
  endpoints : ∀ a ∈ g.graph.arcs, a.1 < g.nodeCount ∧ a.2.1 < g.nodeCount
  stamped : g.graph.Stamped
  inputs : ∀ v, (inputsInto v g.graph.arcs).Perm (numbered (added v))

/-- A graph with the inputs of each node in the order in which they were added, a spliced node
standing for its target in the lists of the target's readers. -/
inductive Edited : MirGraph → (ℕ → List ℕ) → Prop
  | new (k : MirNodeKind) : Edited (.new k) fun _ => []
  | addNode {g : MirGraph} {added} (k : MirNodeKind) : Edited g added → Edited (g.addNode k) added
  | addInput {g : MirGraph} {added s t} : Edited g added → s < g.nodeCount → t < g.nodeCount →
      (added t).length < 256 →
      Edited (g.addInput s t) (Function.update added t (added t ++ [s]))
  | addCteExpansion {g : MirGraph} {added s t} : Edited g added → s < g.nodeCount →
      t < g.nodeCount →
      Edited (g.addCteExpansion s t) added
  | appendGraph {g other : MirGraph} {added copied} : Edited g added → Edited other copied →
      Edited (g.appendGraph other).1 fun v =>
        if v < g.nodeCount then added v else (copied (v - g.nodeCount)).map (g.nodeCount + ·)
  | spliceAbove {g : MirGraph} {added t} (k : MirNodeKind) : Edited g added → t < g.nodeCount →
      Edited (g.spliceAbove t k).1 fun v =>
        if v = g.nodeCount then [t] else (added v).map (movedTo t g.nodeCount)

theorem inputsInto_edgesInto (g : MirGraph) (v : ℕ) :
    (inputsInto v ((g.graph.edgesInto v).map Edge.arc)).Perm (inputsInto v g.graph.arcs) := by
  rw [← (into_filter v g.graph.arcs).1]
  exact (g.graph.edgesInto_arcs v).filterMap _

theorem expansions_perm (g : MirGraph) (v : ℕ) :
    (g.expansions v).Perm (expansionsInto v g.graph.arcs) := by
  rw [← (into_filter v g.graph.arcs).2]
  exact (g.graph.edgesInto_arcs v).filterMap _

theorem Listed.orderedInputs (h : g.Listed added) (v : ℕ) : g.orderedInputs v = added v := by
  have hperm := (inputsInto_edgesInto g v).trans (h.inputs v)
  have hnd := (hperm.map Prod.fst).nodup_iff.mpr (numbered_fst (added v) ▸ nodup_range)
  exact (sortInputs_perm hperm hnd).trans (sortInputs_numbered _)

theorem Listed.length_inputs (h : g.Listed added) (v : ℕ) :
    (inputsInto v g.graph.arcs).length = (added v).length := by
  rw [(h.inputs v).length_eq, ← length_map (f := Prod.fst), numbered_fst, length_range]

theorem Listed.wellFormed (h : g.Listed added) (hroot : g.root < g.nodeCount)
    (hexpansion : ∀ v, (expansionsInto v g.graph.arcs).length ≤ 1) : g.WellFormed := by
  refine ⟨hroot, h.endpoints, h.stamped, fun v => ?_, hexpansion⟩
  rw [h.length_inputs, ← numbered_fst]
  exact (h.inputs v).map Prod.fst

/-- Operand order is a function of the arcs alone, whatever their age. -/
theorem WellFormed.orderedInputs_eq (h : g.WellFormed) (v : ℕ) :
    g.orderedInputs v = sortInputs (inputsInto v g.graph.arcs) := by
  have hnd := (h.positions v).nodup_iff.mpr nodup_range
  exact (sortInputs_perm (inputsInto_edgesInto g v).symm hnd).symm

theorem WellFormed.listed (h : g.WellFormed) : g.Listed g.orderedInputs := by
  refine ⟨h.endpoints, h.stamped, fun v => ?_⟩
  rw [h.orderedInputs_eq, numbered_sortInputs (h.positions v)]
  exact (perm_insertionSort ..).symm

theorem eq_of_perm_short {xs : List ℕ} (h : xs.Perm ys) (hshort : ys.length ≤ 1) : xs = ys := by
  match ys with
  | [] => exact h.eq_nil
  | [y] => exact perm_singleton.mp h
  | _ :: _ :: _ => simp at hshort

theorem WellFormed.expansions_eq (h : g.WellFormed) (v : ℕ) :
    g.expansions v = expansionsInto v g.graph.arcs :=
  eq_of_perm_short (expansions_perm g v) (h.expansion v)

@[simp] theorem spliceAbove_snd (g : MirGraph) (t : ℕ) (k) :
    (g.spliceAbove t k).2 = g.nodeCount := rfl

@[simp] theorem spliceAbove_nodeCount (g : MirGraph) (t : ℕ) (k) :
    (g.spliceAbove t k).1.nodeCount = g.nodeCount + 1 := by
  simp [spliceAbove, nodeCount]

theorem spliceAbove_kind_old (hi : i < g.nodeCount) :
    (g.spliceAbove t k).1.kind? i = g.kind? i := by
  simp only [kind?, spliceAbove, Digraph.insertAbove_nodes]
  exact getElem?_append_left hi

theorem spliceAbove_kind_new : (g.spliceAbove t k).1.kind? g.nodeCount = some k := by
  simp [kind?, spliceAbove, nodeCount]

@[simp] theorem spliceAbove_root (g : MirGraph) (t : ℕ) (k) :
    (g.spliceAbove t k).1.root = movedTo t g.nodeCount g.root := rfl

theorem spliceAbove_arcs (h : g.graph.Stamped) : (g.spliceAbove t k).1.graph.arcs.Perm
      (g.graph.arcs.map (Digraph.redirect t g.nodeCount) ++ [(t, g.nodeCount, .input 0)]) :=
  Digraph.insertAbove_arcs h t k (.input 0)

theorem Listed.spliceAbove_inputsInto (h : g.Listed added) (v : ℕ) :
    (inputsInto v (g.spliceAbove t k).1.graph.arcs).Perm (if v = g.nodeCount then [(0, t)]
        else (inputsInto v g.graph.arcs).map fun p => (p.1, movedTo t g.nodeCount p.2)) := by
  refine ((spliceAbove_arcs h.stamped).filterMap _).trans (.of_eq ?_)
  change inputsInto v (_ ++ _) = _
  rw [inputsInto_append, (into_redirect ..).1]
  by_cases hv : v = g.nodeCount
  · rw [(into_eq_nil fun a ha => hv ▸ (h.endpoints a ha).2.ne).1]
    simp [inputsInto, hv]
  · rw [(into_eq_nil (l := [_]) (by simpa using Ne.symm hv)).1, append_nil, if_neg hv]

theorem Listed.spliceAbove (h : g.Listed added) (ht : t < g.nodeCount) (k) :
    (g.spliceAbove t k).1.Listed fun v =>
      if v = g.nodeCount then [t] else (added v).map (movedTo t g.nodeCount) := by
  refine ⟨?_, h.stamped.insertAbove t k _, fun v => ?_⟩
  · intro a ha
    have ha' := (spliceAbove_arcs h.stamped).subset ha
    rw [spliceAbove_nodeCount]
    rcases mem_append.mp ha' with ha' | ha'
    · obtain ⟨b, hb, rfl⟩ := mem_map.mp ha'
      have := h.endpoints b hb
      by_cases hs : b.1 = t
      · simp only [Digraph.redirect, hs, ↓reduceIte]
        omega
      · simp only [Digraph.redirect, hs, ↓reduceIte]
        omega
    · simp only [mem_singleton] at ha'
      subst ha'
      simp only
      omega
  · refine (h.spliceAbove_inputsInto v).trans ?_
    split
    · exact .refl _
    · rw [numbered_map]
      exact (h.inputs v).map _

section
variable (h : g.WellFormed)
include h

theorem spliceAbove_expansionsInto (v : ℕ) :
    (expansionsInto v (g.spliceAbove t k).1.graph.arcs).Perm
      ((expansionsInto v g.graph.arcs).map (movedTo t g.nodeCount)) := by
  refine ((spliceAbove_arcs h.stamped).filterMap _).trans (.of_eq ?_)
  change expansionsInto v (_ ++ _) = _
  rw [expansionsInto_append, (into_redirect ..).2]
  simp [expansionsInto]

variable (ht : t < g.nodeCount)
include ht

theorem WellFormed.spliceAbove : (g.spliceAbove t k).1.WellFormed := by
  refine (h.listed.spliceAbove ht k).wellFormed ?_ fun v => ?_
  · have := h.root_lt
    simp only [spliceAbove_root, spliceAbove_nodeCount, movedTo]
    split <;> omega
  · rw [(spliceAbove_expansionsInto h v).length_eq, length_map]
    exact h.expansion v

/-- Every reader keeps its operands in order, with the new node in place of `t`. -/
theorem spliceAbove_orderedInputs_old (hv : v ≠ g.nodeCount) :
    (g.spliceAbove t k).1.orderedInputs v = (g.orderedInputs v).map (movedTo t g.nodeCount) :=
  ((h.listed.spliceAbove ht k).orderedInputs v).trans (if_neg hv)

theorem spliceAbove_orderedInputs_new : (g.spliceAbove t k).1.orderedInputs g.nodeCount = [t] :=
  ((h.listed.spliceAbove ht k).orderedInputs _).trans (if_pos rfl)

theorem spliceAbove_expansions (v : ℕ) :
    (g.spliceAbove t k).1.expansions v = (g.expansions v).map (movedTo t g.nodeCount) := by
  rw [(h.spliceAbove ht).expansions_eq, h.expansions_eq]
  refine eq_of_perm_short (spliceAbove_expansionsInto h v) ?_
  rw [length_map]
  exact h.expansion v

end

theorem WellFormed.new (k) : (MirGraph.new k).WellFormed := by
  refine ⟨?_, ?_, ⟨?_, ?_, ?_⟩, ?_, ?_⟩ <;>
    simp [MirGraph.new, nodeCount, Digraph.arcs, inputsInto, expansionsInto]

theorem WellFormed.setRoot (h : g.WellFormed) (hr : r < g.nodeCount) : (g.setRoot r).WellFormed :=
  ⟨hr, h.endpoints, h.stamped, h.positions, h.expansion⟩

theorem addNode_nodeCount (g : MirGraph) (k) : (g.addNode k).nodeCount = g.nodeCount + 1 := by
  simp [addNode, nodeCount, Digraph.addNode]

theorem Listed.addNode (h : g.Listed added) (k) : (g.addNode k).Listed added := by
  refine ⟨fun a ha => ?_, h.stamped.addNode k, h.inputs⟩
  have := h.endpoints a ha
  rw [addNode_nodeCount]
  omega

theorem WellFormed.addNode (h : g.WellFormed) (k) : (g.addNode k).WellFormed := by
  refine (h.listed.addNode k).wellFormed ?_ h.expansion
  rw [addNode_nodeCount]
  exact h.root_lt.trans (Nat.lt_succ_self _)

theorem Listed.addEdge (h : g.Listed added) (hs : s < g.nodeCount) (ht : t < g.nodeCount)
    (hins : ∀ v, (inputsInto v (g.graph.arcs ++ [(s, t, w)])).Perm (numbered (copied v))) :
    Listed { g with graph := g.graph.addEdge s t w } copied := by
  refine ⟨fun a ha => ?_, h.stamped.addEdge s t w, fun v => ?_⟩
  · rw [Digraph.addEdge_arcs, mem_append, mem_singleton] at ha
    rcases ha with ha | rfl
    · exact h.endpoints a ha
    · exact ⟨hs, ht⟩
  · rw [Digraph.addEdge_arcs]
    exact hins v

theorem Listed.addInput (h : g.Listed added) (hs : s < g.nodeCount) (ht : t < g.nodeCount)
    (hroom : (added t).length < 256) :
    (g.addInput s t).Listed (Function.update added t (added t ++ [s])) := by
  refine h.addEdge hs ht fun v => ?_
  rw [(inputsInto_edgesInto g t).length_eq, h.length_inputs, min_eq_left (by omega)]
  by_cases hv : t = v
  · subst hv
    simpa [inputsInto, numbered_append] using (h.inputs t).append_right _
  · simpa [inputsInto, hv, Function.update_of_ne (Ne.symm hv)] using h.inputs v

/-- Positions stay a numbering while a node has at most 255 inputs already. -/
theorem WellFormed.addInput (h : g.WellFormed) (hs : s < g.nodeCount) (ht : t < g.nodeCount)
    (hroom : (g.orderedInputs t).length < 256) : (g.addInput s t).WellFormed := by
  refine (h.listed.addInput hs ht hroom).wellFormed h.root_lt fun v => ?_
  simpa [MirGraph.addInput, expansionsInto] using h.expansion v

theorem Listed.addCteExpansion (h : g.Listed added) (hs : s < g.nodeCount)
    (ht : t < g.nodeCount) : (g.addCteExpansion s t).Listed added := by
  refine h.addEdge hs ht fun v => ?_
  simpa [inputsInto] using h.inputs v

def shift (n : ℕ) (a : Arc MirEdgeKind) : Arc MirEdgeKind := (n + a.1, n + a.2.1, a.2.2)

theorem into_shift (n v : ℕ) (as) :
    inputsInto (n + v) (as.map (shift n)) = (inputsInto v as).map (fun p => (p.1, n + p.2)) ∧
      expansionsInto (n + v) (as.map (shift n)) = (expansionsInto v as).map (n + ·) := by
  induction as with
  | nil => exact ⟨rfl, rfl⟩
  | cons a =>
    obtain ⟨s, t, w⟩ := a
    by_cases ht : t = v <;> cases w <;> simp_all [inputsInto, expansionsInto, shift]

theorem foldl_addNode (d : Digraph MirNodeKind MirEdgeKind) (ks) :
    (ks.foldl Digraph.addNode d).nodes = d.nodes ++ ks ∧
      (ks.foldl Digraph.addNode d).arcs = d.arcs ∧
      (d.Stamped → (ks.foldl Digraph.addNode d).Stamped) := by
  induction ks generalizing d with
  | nil => simp
  | cons k ks ih =>
    obtain ⟨hnodes, harcs, hstamp⟩ := ih (d.addNode k)
    refine ⟨?_, harcs, fun h => hstamp (h.addNode k)⟩
    simpa [Digraph.addNode] using hnodes

theorem foldl_addEdge (n : ℕ) (es : List (Edge MirEdgeKind)) (d : Digraph MirNodeKind MirEdgeKind) :
    let d' := es.foldl
      (fun acc e => acc.addEdge (n + e.source) (n + e.target) e.weight) d
    d'.nodes = d.nodes ∧ d'.arcs = d.arcs ++ (es.map Edge.arc).map (shift n) ∧
      (d.Stamped → d'.Stamped) := by
  induction es generalizing d with
  | nil => simp
  | cons e es ih =>
    obtain ⟨hnodes, harcs, hstamp⟩ := ih (d.addEdge (n + e.source) (n + e.target) e.weight)
    refine ⟨hnodes, ?_, fun h => hstamp (h.addEdge _ _ _)⟩
    simpa [shift, Edge.arc] using harcs

theorem appendGraph_nodes (g other : MirGraph) :
    (g.appendGraph other).1.graph.nodes = g.graph.nodes ++ other.graph.nodes := by
  have hedges := foldl_addEdge g.nodeCount other.graph.edges
    (other.graph.nodes.foldl Digraph.addNode g.graph)
  exact hedges.1.trans (foldl_addNode g.graph other.graph.nodes).1

theorem appendGraph_arcs (g other : MirGraph) : (g.appendGraph other).1.graph.arcs =
      g.graph.arcs ++ other.graph.arcs.map (shift g.nodeCount) := by
  have hedges := foldl_addEdge g.nodeCount other.graph.edges
    (other.graph.nodes.foldl Digraph.addNode g.graph)
  exact hedges.2.1.trans (by rw [(foldl_addNode g.graph other.graph.nodes).2.1]; rfl)

theorem appendGraph_nodeCount (g other : MirGraph) :
    (g.appendGraph other).1.nodeCount = g.nodeCount + other.nodeCount := by
  simp [nodeCount, appendGraph_nodes]

theorem Listed.into_appendGraph (h : g.Listed added) (other) (v : ℕ) :
    let as := (g.appendGraph other).1.graph.arcs
    if v < g.nodeCount then inputsInto v as = inputsInto v g.graph.arcs ∧
      expansionsInto v as = expansionsInto v g.graph.arcs
    else inputsInto v as = (inputsInto (v - g.nodeCount) other.graph.arcs).map
        (fun p => (p.1, g.nodeCount + p.2)) ∧
      expansionsInto v as = (expansionsInto (v - g.nodeCount) other.graph.arcs).map
        (g.nodeCount + ·) := by
  simp only [appendGraph_arcs]
  split
  case isTrue hv =>
    have hnone : ∀ a ∈ other.graph.arcs.map (shift g.nodeCount), a.2.1 ≠ v := by
      refine forall_mem_map.mpr fun b _ => ?_
      simp only [shift]
      omega
    simp [into_eq_nil hnone]
  case isFalse hv =>
    have hnone : ∀ a ∈ g.graph.arcs, a.2.1 ≠ v := by
      intro a ha
      have := (h.endpoints a ha).2
      omega
    obtain ⟨u, rfl⟩ := Nat.exists_eq_add_of_le (not_lt.mp hv)
    simp [into_eq_nil hnone, into_shift]

theorem Listed.appendGraph (h : g.Listed added) (ho : other.Listed copied) :
    (g.appendGraph other).1.Listed fun v =>
      if v < g.nodeCount then added v else (copied (v - g.nodeCount)).map (g.nodeCount + ·) := by
  refine ⟨?_, (foldl_addEdge g.nodeCount other.graph.edges
    (other.graph.nodes.foldl Digraph.addNode g.graph)).2.2
    ((foldl_addNode g.graph other.graph.nodes).2.2 h.stamped), fun v => ?_⟩
  · intro a ha
    rw [appendGraph_nodeCount]
    rw [appendGraph_arcs, mem_append] at ha
    rcases ha with ha | ha
    · have := h.endpoints a ha
      omega
    · obtain ⟨b, hb, rfl⟩ := mem_map.mp ha
      have := ho.endpoints b hb
      simp only [shift]
      omega
  · have hinto := h.into_appendGraph other v
    split at hinto
    · simpa [*] using h.inputs v
    · simpa [*, numbered_map] using (ho.inputs _).map _

theorem Edited.listed (h : Edited g added) : g.Listed added := by
  induction h with
  | new k => exact (WellFormed.new k).listed
  | addNode k _ ih => exact ih.addNode k
  | addInput _ hs ht hroom ih => exact ih.addInput hs ht hroom
  | addCteExpansion _ hs ht ih => exact ih.addCteExpansion hs ht
  | appendGraph _ _ ih iho => exact ih.appendGraph iho
  | spliceAbove k _ ht ih => exact ih.spliceAbove ht k

/-- After any edits, a splice moves exactly the edges that leave `t`, each to the new node with its
reader and position kept, and adds the one edge from `t`; inputs stay in the order of addition. -/
theorem Edited.splice_moves_readers (h : Edited g added) (ht : t < g.nodeCount) (k : MirNodeKind) :
    (∀ v, g.orderedInputs v = added v) ∧ (g.spliceAbove t k).1.graph.arcs.Perm
        (g.graph.arcs.map (Digraph.redirect t g.nodeCount) ++ [(t, g.nodeCount, .input 0)]) ∧
      (∀ a ∈ (g.spliceAbove t k).1.graph.arcs, a.1 = t → a = (t, g.nodeCount, .input 0)) ∧
      ∀ v, (g.spliceAbove t k).1.orderedInputs v =
        if v = g.nodeCount then [t] else (added v).map (movedTo t g.nodeCount) := by
  have harcs := spliceAbove_arcs (t := t) (k := k) h.listed.stamped
  refine ⟨h.listed.orderedInputs, harcs, ?_, (h.listed.spliceAbove ht k).orderedInputs⟩
  intro a ha hat
  rcases mem_append.mp (harcs.subset ha) with ha | ha
  · -- a redirected arc leaves the new node or a node other than `t`
    obtain ⟨b, -, rfl⟩ := mem_map.mp ha
    by_cases hb : b.1 = t
    · simp only [Digraph.redirect, hb, ↓reduceIte] at hat
      omega
    · simp [Digraph.redirect, hb] at hat
  · exact mem_singleton.mp ha

theorem splice_twice_read :
    let g := ((MirGraph.new (.baseTable "t" [])).addNode .distinct).addInput 0 1 |>.addInput 0 1
    (g.spliceAbove 0 (.filter "a")).1.orderedInputs 1 = [2, 2] := by
  have hedits := (((Edited.new (.baseTable "t" [])).addNode .distinct).addInput (s := 0) (t := 1)
    (by decide) (by decide) (by decide)).addInput (s := 0) (t := 1) (by decide) (by decide)
    (by decide)
  exact (hedits.splice_moves_readers (t := 0) (by decide) (.filter "a")).2.2.2 1

/-- A topological numbering of the nodes: every edge climbs. -/
structure Topological (g : MirGraph) (rank : ℕ → ℕ) : Prop where
  lt_count : ∀ i, i < g.nodeCount → rank i < g.nodeCount
  climbs : ∀ a ∈ g.graph.arcs, rank a.1 < rank a.2.1

def Acyclic (g : MirGraph) : Prop := ∃ rank, g.Topological rank

theorem exists_arc_of_operand (hj : j ∈ g.orderedInputs v ∨ j ∈ g.expansions v) :
    ∃ w, (j, v, w) ∈ g.graph.arcs := by
  rcases hj with hj | hj
  · obtain ⟨⟨k, s⟩, hmem, rfl⟩ := mem_map.mp hj
    rw [mem_insertionSort] at hmem
    obtain ⟨⟨s', t, w⟩, ha, heq⟩ := mem_filterMap.mp ((inputsInto_edgesInto g v).subset hmem)
    cases w with
    | input =>
      simp only [Option.ite_none_right_eq_some] at heq
      obtain ⟨rfl, rfl, rfl⟩ := heq
      exact ⟨_, ha⟩
    | cteExpansion => simp at heq
  · obtain ⟨⟨s', t, w⟩, ha, heq⟩ := mem_filterMap.mp ((expansions_perm g v).subset hj)
    cases w with
    | input => simp at heq
    | cteExpansion =>
      simp only [Option.ite_none_right_eq_some, Option.some.injEq] at heq
      obtain ⟨rfl, rfl⟩ := heq
      exact ⟨_, ha⟩

theorem WellFormed.operand_lt (h : g.WellFormed) (hj : j ∈ g.orderedInputs v ∨ j ∈ g.expansions v) :
    j < g.nodeCount := by
  obtain ⟨w, ha⟩ := exists_arc_of_operand hj
  exact (h.endpoints _ ha).1

theorem Topological.operand_lt (h : g.Topological rank)
    (hj : j ∈ g.orderedInputs v ∨ j ∈ g.expansions v) : rank j < rank v := by
  obtain ⟨w, ha⟩ := exists_arc_of_operand hj
  exact h.climbs _ ha

/-- The new node takes the number after `t`; later nodes move up by one. -/
def spliceRank (rank : ℕ → ℕ) (t n i : ℕ) : ℕ :=
  if i = n then rank t + 1 else if rank i ≤ rank t then rank i else rank i + 1

theorem Topological.spliceAbove (h : g.Topological rank) (hwf : g.WellFormed) (ht : t < g.nodeCount)
    (k) : (g.spliceAbove t k).1.Topological (spliceRank rank t g.nodeCount) := by
  refine ⟨?_, ?_⟩
  · intro i hi
    have hbelow := h.lt_count t ht
    rw [spliceAbove_nodeCount] at hi ⊢
    unfold spliceRank
    split
    · omega
    · have := h.lt_count i (by omega)
      split <;> omega
  · intro a ha
    rcases mem_append.mp ((spliceAbove_arcs hwf.stamped).subset ha) with ha' | ha'
    · obtain ⟨b, hb, rfl⟩ := mem_map.mp ha'
      have hends := hwf.endpoints b hb
      have hlt := h.climbs b hb
      by_cases hs : b.1 = t
      · rw [hs] at hlt
        simp only [Digraph.redirect, hs, ↓reduceIte, spliceRank, hends.2.ne]
        split <;> omega
      · simp only [Digraph.redirect, hs, ↓reduceIte, spliceRank, hends.1.ne, hends.2.ne]
        split <;> split <;> omega
    · simp only [mem_singleton] at ha'
      subst ha'
      simp [spliceRank, ht.ne]

theorem Acyclic.spliceAbove (h : g.Acyclic) (hwf : g.WellFormed) (ht : t < g.nodeCount) (k) :
    (g.spliceAbove t k).1.Acyclic := by
  obtain ⟨rank, hrank⟩ := h
  exact ⟨_, hrank.spliceAbove hwf ht k⟩

end MirGraph

def readAll (table : String) : MirGraph := MirGraph.new (.baseTable table [])

theorem readAll_acyclic (table) : (readAll table).Acyclic := by
  refine ⟨id, ?_, ?_⟩
  · intro i hi
    exact hi
  · intro arc harc
    cases harc

theorem readAll_kind (h : (readAll table).kind? i = some (.baseTable table' project)) :
    table' = table := by
  cases i with
  | zero =>
    cases h
    rfl
  | succ => cases h

end Palimpsest.Sql
