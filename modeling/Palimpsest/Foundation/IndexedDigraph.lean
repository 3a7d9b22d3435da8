import Mathlib.Data.List.Sort
import Mathlib.Data.List.Perm.Lattice

/-! Directed multigraphs over compact arrays: removing an edge moves the last edge into the freed
slot, and the edges at a vertex are listed newest first. -/
namespace IndexedDigraph
open List hiding getElem?_eq_some_iff

section
variable {γ : Type*}

/-- Removal from a compact array: the last entry takes the freed index. -/
def swapRemove (xs : List γ) (i : ℕ) : List γ :=
  match xs.getLast? with
  | none => []
  | some x => (xs.set i x).dropLast

theorem swapRemove_concat (ys : List γ) (x : γ) (hi : i < ys.length) :
    swapRemove (ys ++ [x]) i = ys.set i x := by
  simp [swapRemove, set_append_left i x hi]

theorem swapRemove_concat_last (ys : List γ) (x : γ) : swapRemove (ys ++ [x]) ys.length = ys := by
  simp [swapRemove]

theorem swapRemove_perm {xs : List γ} (h : xs[i]? = some y) : (y :: swapRemove xs i).Perm xs := by
  obtain ⟨hlt, hget⟩ := getElem?_eq_some_iff.mp h
  rcases eq_nil_or_concat' xs with rfl | ⟨ys, x, rfl⟩
  · simp at hlt
  · by_cases hi : i < ys.length
    · rw [swapRemove_concat ys x hi]
      obtain ⟨l₁, l₂, hys, -, hset⟩ : ∃ l₁ l₂, ys = l₁ ++ ys[i] :: l₂ ∧ l₁.length = i ∧
          ys.set i x = l₁ ++ x :: l₂ := exists_of_set hi
      have hy : ys[i] = y := by rw [← hget, getElem_append_left hi]
      have hswap : (y :: (l₁ ++ x :: l₂)).Perm (x :: (l₁ ++ y :: l₂)) :=
        ((perm_middle.cons y).trans (List.Perm.swap x y _)).trans
          (perm_middle.symm.cons x)
      rw [hset]
      refine hswap.trans ?_
      rw [← hy, ← hys]
      exact (perm_append_singleton x ys).symm
    · have hi' : i = ys.length := by
        simp only [length_append, length_singleton] at hlt
        omega
      subst hi'
      rw [swapRemove_concat_last]
      have hy : x = y := by simpa using hget
      subst hy
      exact (perm_append_singleton x ys).symm

theorem swapRemove_length (xs : List γ) (i : ℕ) : (swapRemove xs i).length = xs.length - 1 := by
  rcases eq_nil_or_concat' xs with rfl | ⟨ys, x, rfl⟩ <;> simp [swapRemove]

theorem swapRemove_getElem? {xs : List γ} (hij : j ≠ i) (hj : j + 1 ≠ xs.length) :
    (swapRemove xs i)[j]? = xs[j]? := by
  rcases eq_nil_or_concat' xs with rfl | ⟨ys, x, rfl⟩
  · rfl
  · simp only [length_append, length_singleton] at hj
    by_cases hlt : j < ys.length
    · simp [swapRemove, hij.symm, hlt, getElem?_append_left hlt]
    · have hge : ys.length + 1 ≤ j := by omega
      rw [getElem?_eq_none]
      · simpa using hge
      · simp [swapRemove_length]
        omega

end

/-- The stamp records when the edge was added; it orders adjacency lists. -/
structure Edge (β : Type*) where
  source : ℕ
  target : ℕ
  weight : β
  stamp : ℕ
deriving Repr, DecidableEq

abbrev Arc (β : Type*) := ℕ × ℕ × β

variable {α β : Type*}

def Edge.arc (e : Edge β) : Arc β := (e.source, e.target, e.weight)

structure Digraph (α β : Type*) where
  nodes : List α
  edges : List (Edge β)
  clock : ℕ
deriving Repr, DecidableEq

namespace Digraph
variable {g : Digraph α β}

def arcs (g : Digraph α β) : List (Arc β) := g.edges.map Edge.arc

def addNode (g : Digraph α β) (a : α) : Digraph α β :=
  { g with nodes := g.nodes ++ [a] }

def addEdge (g : Digraph α β) (s t : ℕ) (w : β) : Digraph α β :=
  { g with edges := g.edges ++ [⟨s, t, w, g.clock⟩], clock := g.clock + 1 }

def removeEdge (g : Digraph α β) (i : ℕ) : Digraph α β :=
  { g with edges := swapRemove g.edges i }

/-- Edges leaving `v` with their current indices, newest first. -/
def edgesFrom (g : Digraph α β) (v : ℕ) : List (Edge β × ℕ) :=
  (g.edges.zipIdx.filter fun p => p.1.source = v).insertionSort
    fun p q => q.1.stamp ≤ p.1.stamp

def edgesInto (g : Digraph α β) (v : ℕ) : List (Edge β) :=
  (g.edges.filter fun e => e.target = v).insertionSort fun e f => f.stamp ≤ e.stamp

/-- Give the listed edges the source `v`: each is removed by its recorded index and added anew. -/
def reroute (g : Digraph α β) (v : ℕ) : List (Edge β × ℕ) → Digraph α β
  | [] => g
  | (e, i) :: rest => reroute ((g.removeEdge i).addEdge v e.target e.weight) v rest

@[simp] theorem addNode_arcs (g : Digraph α β) (a : α) : (g.addNode a).arcs = g.arcs := rfl

@[simp] theorem addEdge_arcs (g : Digraph α β) (s t : ℕ) (w : β) :
    (g.addEdge s t w).arcs = g.arcs ++ [(s, t, w)] := by
  simp [arcs, addEdge, Edge.arc]

@[simp] theorem addEdge_nodes (g : Digraph α β) (s t : ℕ) (w : β) :
    (g.addEdge s t w).nodes = g.nodes := rfl

@[simp] theorem reroute_nodes (g : Digraph α β) (v : ℕ) (pending) :
    (g.reroute v pending).nodes = g.nodes := by
  induction pending generalizing g with
  | nil => rfl
  | cons p rest ih => exact ih _

theorem mem_edgesFrom : p ∈ g.edgesFrom v ↔ g.edges[p.2]? = some p.1 ∧ p.1.source = v := by
  simp [edgesFrom, mem_zipIdx_iff_getElem?]

theorem edgesFrom_nodup (g : Digraph α β) (v : ℕ) : ((g.edgesFrom v).map Prod.snd).Nodup := by
  have hperm := perm_insertionSort (fun p q : Edge β × ℕ => q.1.stamp ≤ p.1.stamp)
    (g.edges.zipIdx.filter fun p => p.1.source = v)
  refine (hperm.map Prod.snd).nodup_iff.mpr ?_
  refine List.Nodup.sublist (List.Sublist.map Prod.snd filter_sublist) ?_
  rw [zipIdx_map_snd]
  exact nodup_range'

theorem edgesFrom_arcs (g : Digraph α β) (v : ℕ) :
    ((g.edgesFrom v).map fun p => p.1.arc).Perm (g.arcs.filter fun a => a.1 = v) := by
  have hperm := perm_insertionSort (fun p q : Edge β × ℕ => q.1.stamp ≤ p.1.stamp)
    (g.edges.zipIdx.filter fun p => p.1.source = v)
  refine (hperm.map _).trans (.of_eq ?_)
  have hfirst : g.edges = g.edges.zipIdx.map Prod.fst := by simp
  rw [arcs, filter_map]
  nth_rewrite 2 [hfirst]
  rw [filter_map, map_map]
  rfl

theorem edgesInto_arcs (g : Digraph α β) (v : ℕ) :
    ((g.edgesInto v).map Edge.arc).Perm (g.arcs.filter fun a => a.2.1 = v) := by
  have hperm := perm_insertionSort (fun e f : Edge β => f.stamp ≤ e.stamp)
    (g.edges.filter fun e => e.target = v)
  refine (hperm.map _).trans (.of_eq ?_)
  rw [arcs, filter_map]
  rfl

/-- What the loop of `reroute` relies on: the recorded indices still point at the recorded edges,
and none but the first of them is the last slot, which the next removal empties. -/
structure Pending (g : Digraph α β) (pending : List (Edge β × ℕ)) : Prop where
  recorded : ∀ p ∈ pending, g.edges[p.2]? = some p.1
  nodup : (pending.map Prod.snd).Nodup
  last : ∀ p ∈ pending.tail, p.2 + 1 ≠ g.edges.length

theorem Pending.step (h : Pending g ((e, i) :: rest)) :
    Pending ((g.removeEdge i).addEdge v e.target e.weight) rest := by
  have hpos : 0 < g.edges.length := by
    have hi := h.recorded (e, i) mem_cons_self
    have := (List.getElem?_eq_some_iff.mp hi).1
    omega
  have hlen : (swapRemove g.edges i).length + 1 = g.edges.length := by
    rw [swapRemove_length]
    omega
  have hslot : ∀ p ∈ rest, p.2 < (swapRemove g.edges i).length := by
    intro p hp
    have hlt := (List.getElem?_eq_some_iff.mp (h.recorded p (mem_cons_of_mem _ hp))).1
    have hne := h.last p (by simpa using hp)
    omega
  refine ⟨?_, (nodup_cons.mp h.nodup).2, ?_⟩
  · intro p hp
    have hpi : p.2 ≠ i := by
      have hmem : p.2 ∈ rest.map Prod.snd := mem_map_of_mem hp
      intro heq
      exact (nodup_cons.mp h.nodup).1 (heq ▸ hmem)
    simp only [addEdge, removeEdge]
    rw [getElem?_append_left (hslot p hp), swapRemove_getElem? hpi (h.last p (by simpa using hp))]
    exact h.recorded p (mem_cons_of_mem _ hp)
  · intro p hp
    have := hslot p (mem_of_mem_tail hp)
    simp only [addEdge, removeEdge, length_append, length_singleton]
    omega

/-- The whole loop trades each listed arc for one with source `v`. -/
theorem reroute_arcs (h : Pending g pending) :
    ((g.reroute v pending).arcs ++ pending.map fun p => p.1.arc).Perm
      (g.arcs ++ pending.map fun p => (v, p.1.target, p.1.weight)) := by
  induction pending generalizing g with
  | nil => exact .refl _
  | cons p rest ih =>
    obtain ⟨e, i⟩ := p
    have hrest := ih (h.step (v := v))
    have hremove := (swapRemove_perm (h.recorded (e, i) mem_cons_self)).map Edge.arc
    simp only [addEdge_arcs] at hrest
    refine perm_middle.trans ((hrest.cons e.arc).trans ?_)
    rw [append_assoc]
    exact hremove.append_right _

/-- Ages are distinct and the last edge of the array is the newest one. -/
structure Stamped (g : Digraph α β) : Prop where
  lt_clock : ∀ e ∈ g.edges, e.stamp < g.clock
  nodup : (g.edges.map Edge.stamp).Nodup
  newest_last : ∀ e ∈ g.edges.getLast?, ∀ f ∈ g.edges, f.stamp ≤ e.stamp

theorem Stamped.addEdge' (hlt : ∀ e ∈ g.edges, e.stamp < g.clock)
    (hnd : (g.edges.map Edge.stamp).Nodup) (s t : ℕ) (w : β) : Stamped (g.addEdge s t w) := by
  refine ⟨?_, ?_, ?_⟩
  · intro e he
    simp only [addEdge, mem_append, mem_singleton] at he ⊢
    rcases he with he | rfl
    · exact (hlt e he).trans (Nat.lt_succ_self _)
    · exact Nat.lt_succ_self _
  · simp only [addEdge, map_append, map_singleton]
    refine hnd.append (nodup_singleton _) ?_
    intro n hn hclock
    obtain ⟨e, he, rfl⟩ := mem_map.mp hn
    have := hlt e he
    simp only [mem_singleton] at hclock
    omega
  · intro e he f hf
    simp only [addEdge, getLast?_append, getLast?_singleton,
      Option.some_or, Option.mem_def, Option.some.injEq] at he
    simp only [addEdge, mem_append, mem_singleton] at hf
    subst he
    rcases hf with hf | rfl
    · exact (hlt f hf).le
    · exact le_rfl

theorem Stamped.addEdge (h : Stamped g) (s t : ℕ) (w : β) : Stamped (g.addEdge s t w) :=
  Stamped.addEdge' h.lt_clock h.nodup s t w

theorem Stamped.addNode (h : Stamped g) (a : α) : Stamped (g.addNode a) :=
  ⟨h.lt_clock, h.nodup, h.newest_last⟩

theorem Stamped.pending (h : Stamped g) (v : ℕ) : Pending g (g.edgesFrom v) := by
  refine ⟨fun p hp => (mem_edgesFrom.mp hp).1, edgesFrom_nodup g v, fun p hp hlast => ?_⟩
  have hsort := pairwise_insertionSort (fun p q : Edge β × ℕ => q.1.stamp ≤ p.1.stamp)
    (g.edges.zipIdx.filter fun p => p.1.source = v)
  change (g.edgesFrom v).Pairwise _ at hsort
  have hnd := edgesFrom_nodup g v
  cases hl : g.edgesFrom v with
  | nil => simp [hl] at hp
  | cons q rest =>
    rw [hl] at hp hsort hnd
    have hq : g.edges[q.2]? = some q.1 := (mem_edgesFrom.mp (hl ▸ mem_cons_self)).1
    have hpmem : p ∈ g.edgesFrom v := hl ▸ mem_cons_of_mem _ hp
    have hpget := (mem_edgesFrom.mp hpmem).1
    have hplast : p.1 ∈ g.edges.getLast? := by
      rw [getLast?_eq_getElem?, ← hlast]
      simpa using hpget
    have hle := h.newest_last p.1 hplast q.1 (mem_of_getElem? hq)
    have hge := (pairwise_cons.mp hsort).1 p hp
    have hidx : p.2 = q.2 := by
      have hlt : p.2 < (g.edges.map Edge.stamp).length := by
        simpa using (getElem?_eq_some_iff.mp hpget).1
      apply (getElem?_inj hlt h.nodup).mp
      simp [hpget, hq, le_antisymm hge hle]
    have hmem : p.2 ∈ rest.map Prod.snd := mem_map_of_mem hp
    exact (nodup_cons.mp hnd).1 (hidx ▸ hmem)

theorem reroute_ages (h : Pending g pending) (hlt : ∀ e ∈ g.edges, e.stamp < g.clock)
    (hnd : (g.edges.map Edge.stamp).Nodup) :
    (∀ e ∈ (g.reroute v pending).edges, e.stamp < (g.reroute v pending).clock) ∧
      ((g.reroute v pending).edges.map Edge.stamp).Nodup := by
  induction pending generalizing g with
  | nil => exact ⟨hlt, hnd⟩
  | cons p rest ih =>
    obtain ⟨e, i⟩ := p
    have hperm := swapRemove_perm (h.recorded (e, i) mem_cons_self)
    have hlt' : ∀ f ∈ (g.removeEdge i).edges, f.stamp < (g.removeEdge i).clock := fun f hf =>
      hlt f (hperm.subset (mem_cons_of_mem _ hf))
    have hnd' : ((g.removeEdge i).edges.map Edge.stamp).Nodup := by
      have := (hperm.map Edge.stamp).nodup_iff.mpr hnd
      exact (nodup_cons.mp this).2
    have hadd := Stamped.addEdge' hlt' hnd' v e.target e.weight
    exact ih h.step hadd.lt_clock hadd.nodup

/-- Place a new vertex between `t` and everything that read from `t`. -/
def insertAbove (g : Digraph α β) (t : ℕ) (a : α) (w : β) : Digraph α β :=
  let v := g.nodes.length
  let g' := g.addNode a
  (g'.reroute v (g'.edgesFrom t)).addEdge t v w

def redirect (t v : ℕ) (a : Arc β) : Arc β :=
  if a.1 = t then (v, a.2) else a

theorem map_redirect_perm (t v : ℕ) (as : List (Arc β)) : (as.map (redirect t v)).Perm
      ((as.filter fun a => a.1 ≠ t) ++ (as.filter fun a => a.1 = t).map fun a => (v, a.2)) := by
  induction as with
  | nil => exact .refl _
  | cons a as ih =>
    by_cases ha : a.1 = t
    · simpa [redirect, ha] using (ih.cons _).trans perm_middle.symm
    · simpa [redirect, ha] using ih.cons a

@[simp] theorem insertAbove_nodes (g : Digraph α β) (t : ℕ) (a : α) (w : β) :
    (g.insertAbove t a w).nodes = g.nodes ++ [a] := by
  simp [insertAbove, addNode]

theorem insertAbove_arcs (h : Stamped g) (t : ℕ) (a : α) (w : β) : (g.insertAbove t a w).arcs.Perm
      (g.arcs.map (redirect t g.nodes.length) ++ [(t, g.nodes.length, w)]) := by
  have hpend := (h.addNode a).pending t
  have hloop := reroute_arcs (v := g.nodes.length) hpend
  have hfrom := edgesFrom_arcs (g.addNode a) t
  have hnew : (((g.addNode a).edgesFrom t).map fun p =>
      (g.nodes.length, p.1.target, p.1.weight)).Perm
      ((g.arcs.filter fun b => b.1 = t).map fun b => (g.nodes.length, b.2)) := by
    simpa [Function.comp_def, Edge.arc] using hfrom.map fun b => (g.nodes.length, b.2)
  have hsplit : g.arcs.Perm
      ((g.arcs.filter fun b => b.1 ≠ t) ++ g.arcs.filter fun b => b.1 = t) := by
    have hfilt := filter_append_perm (fun b : Arc β => decide (b.1 = t)) g.arcs
    refine (hfilt.symm.trans perm_append_comm).trans ?_
    simp
  have hcancel : ((g.addNode a).reroute g.nodes.length ((g.addNode a).edgesFrom t)).arcs.Perm
      (g.arcs.map (redirect t g.nodes.length)) := by
    refine List.Perm.trans ?_ (map_redirect_perm t g.nodes.length g.arcs).symm
    apply (perm_append_right_iff (g.arcs.filter fun b => b.1 = t)).mp
    refine ((hfrom.symm.append_left _).trans hloop).trans ((hsplit.append hnew).trans ?_)
    rw [append_assoc, append_assoc]
    exact perm_append_comm.append_left _
  simpa [insertAbove] using hcancel.append_right [(t, g.nodes.length, w)]

theorem Stamped.insertAbove (h : Stamped g) (t : ℕ) (a : α) (w : β) :
    Stamped (g.insertAbove t a w) := by
  have hpend := (h.addNode a).pending t
  obtain ⟨hlt, hnd⟩ := reroute_ages (v := g.nodes.length) hpend h.lt_clock h.nodup
  exact Stamped.addEdge' hlt hnd t g.nodes.length w

end Digraph

end IndexedDigraph
