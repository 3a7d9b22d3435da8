import Palimpsest.Dataflow.ListLiterals
import Palimpsest.Server.Router

/-! What two subscriptions with the same subgraph key have in common. -/
namespace Palimpsest.Server
open Permissions Framing Dataflow

theorem keyEntries_eq (c) : keyEntries c = c.values.map fun p => (p.1, p.2.canonicalRepr) := by
  apply List.Pairwise.insertionSort_eq
  rw [List.pairwise_map]
  have hsort := c.sorted
  rw [List.pairwise_map] at hsort
  exact hsort.imp fun h => .inl h

theorem toList_keyFrame (entry) :
    (keyFrame entry).toList = entry.1.toList ++ '=' :: ((frame entry.2).toList ++ [';']) := by
  simp [keyFrame, frame]

/-- Field names without the sign that ends them: the entries can be read off their frames. -/
theorem keyFrames_unique {es : List (String × String)} (hes : ∀ entry ∈ es, '=' ∉ entry.1.toList)
    (hes' : ∀ entry ∈ es', '=' ∉ entry.1.toList)
    (h : es.flatMap (fun e => (keyFrame e).toList) = es'.flatMap fun e => (keyFrame e).toList) :
    es = es' := by
  have hne : ∀ (e : String × String) (rest : List Char), (keyFrame e).toList ++ rest ≠ [] := by
    intro e rest hnil
    rw [toList_keyFrame] at hnil
    simp at hnil
  induction es generalizing es' with
  | nil =>
    cases es' with
    | nil => rfl
    | cons e' => exact absurd h.symm (hne e' _)
  | cons e es ih =>
    cases es' with
    | nil => exact absurd h (hne e _)
    | cons e' =>
      rw [List.forall_mem_cons] at hes hes'
      rw [List.flatMap_cons, List.flatMap_cons, toList_keyFrame e, toList_keyFrame e'] at h
      simp only [List.append_assoc, List.cons_append] at h
      obtain ⟨hname, hval⟩ := cut_unique hes.1 hes'.1 h
      obtain ⟨hrepr, htail⟩ := frame_unique hval
      rw [Prod.ext (String.toList_inj.mp hname) hrepr, ih hes.2 hes'.2 (List.cons.inj htail).2]

theorem toList_canonicalSubgraphKey (query) (c : UserContext) :
    (canonicalSubgraphKey query c).toList =
      query.toList ++ '|' :: (keyEntries c).flatMap fun e => (keyFrame e).toList := by
  simp [canonicalSubgraphKey, List.flatMap_map]

/-- Under one query, or two without the sign that ends one, the key tells query and frames. -/
theorem query_frames_of_key (hquery : query = query' ∨ '|' ∉ query.toList ∧ '|' ∉ query'.toList)
    (h : canonicalSubgraphKey query c = canonicalSubgraphKey query' c') :
    query = query' ∧ (keyEntries c).flatMap (fun e => (keyFrame e).toList) =
      (keyEntries c').flatMap fun e => (keyFrame e).toList := by
  have hlist := congrArg String.toList h
  rw [toList_canonicalSubgraphKey, toList_canonicalSubgraphKey] at hlist
  rcases hquery with rfl | ⟨hquery, hquery'⟩
  · exact ⟨rfl, (List.cons.inj (List.append_cancel_left hlist)).2⟩
  · obtain ⟨hsame, hframes⟩ := cut_unique hquery hquery' hlist
    exact ⟨String.toList_inj.mp hsame, hframes⟩

/-- Under the same names the frames tell the representations. -/
theorem keyFrames_named {es : List (String × String)} (hnames : es.map Prod.fst = es'.map Prod.fst)
    (h : es.flatMap (fun e => (keyFrame e).toList) = es'.flatMap fun e => (keyFrame e).toList) :
    es = es' := by
  induction es generalizing es' with
  | nil =>
    rw [List.map_nil, eq_comm, List.map_eq_nil_iff] at hnames
    rw [hnames]
  | cons e es ih =>
    cases es' with
    | nil => cases hnames
    | cons e' =>
      obtain ⟨hname, hnames⟩ := List.cons.inj hnames
      rw [List.flatMap_cons, List.flatMap_cons, toList_keyFrame e, toList_keyFrame e', hname] at h
      simp only [List.append_assoc, List.cons_append] at h
      obtain ⟨hrepr, htail⟩ := frame_unique (List.cons.inj (List.append_cancel_left h)).2
      rw [Prod.ext hname hrepr, ih hnames (List.cons.inj htail).2]

def fieldNames (c : UserContext) : List String := c.values.map Prod.fst

theorem map_fst_keyEntries (c : UserContext) : (keyEntries c).map Prod.fst = fieldNames c := by
  rw [keyEntries_eq, List.map_map]
  rfl

/-- Field by field, the entries tell the representations of the values. -/
theorem sameReprs_of_keyEntries (h : keyEntries c = keyEntries c') : c.SameReprs c' := by
  have hlookup : ∀ (c : UserContext) (field),
      (c.get field).map UserValue.canonicalRepr = (keyEntries c).lookup field := by
    intro c field
    rw [keyEntries_eq, UserContext.get]
    induction c.values with
    | nil => rfl
    | cons entry entries ih =>
      rw [List.lookup_cons, List.map_cons, List.lookup_cons]
      split
      · rfl
      · exact ih
  intro field
  rw [hlookup, hlookup, h]

/-- A predicate can be materialized for one of two users that bind the same fields exactly if it
can for the other. -/
theorem materialize_of_sameReprs {p : CompiledPredicate} (h : c.SameReprs c')
    (htext : p.materialize c = .ok text) : ∃ text', p.materialize c' = .ok text' := by
  obtain ⟨items, hitems, hfill⟩ := CompiledPredicate.materialize_ok_iff.mp htext
  have hbound : ∀ field ∈ Template.refs items, (c'.literal field).isSome := by
    intro field hfield
    have hsome := (Template.fill?_eq_some.mp hfill).1 field hfield
    have hsame := congrArg Option.isSome (h (String.ofList field))
    simpa [UserContext.literal] using hsame.symm.trans (by simpa [UserContext.literal] using hsome)
  exact ⟨_, CompiledPredicate.materialize_ok_iff.mpr ⟨items, hitems,
    Template.fill?_eq_some.mpr ⟨hbound, String.toList_ofList ..⟩⟩⟩

section
variable (P : Primitives) (schema : ScalarSchema) (parse : String → Option Expr)

/-- Materialized for the user, the predicate is true on the row. -/
def TrueFor (p : CompiledPredicate) (c : UserContext) (row : List Datum) : Prop :=
  ∃ text e accepts, p.materialize c = .ok text ∧ parse text = some e ∧
    compilePredicate P schema e = .ok accepts ∧ accepts row = true

/-- The parser reads the materialized text as the template with literals for its sentinels. -/
def ReadsAs (p : CompiledPredicate) (template : Expr) (c : UserContext) : Prop :=
  ∀ text, p.materialize c = .ok text → parse text = some (fillExpr c template)

/-- Subscribers with one key ask the same query, and a rule predicate materialized for one of them
is true on a row exactly when it is true materialized for the other. -/
def SharesSoundly (query : QueryId) (c : UserContext) (query' : QueryId) (c' : UserContext) :
    Prop :=
  canonicalSubgraphKey query c = canonicalSubgraphKey query' c' →
    query = query' ∧ ∀ p template, ReadsAs parse p template c → ReadsAs parse p template c' →
      ∀ row, TrueFor P schema parse p c row ↔ TrueFor P schema parse p c' row

end

theorem TrueFor.transfer {P : Primitives} (hP : P.ArraysOpaque) (h : c.SameReprs c')
    (hreads : ReadsAs parse p template c) (hreads' : ReadsAs parse p template c')
    (htrue : TrueFor P schema parse p c row) : TrueFor P schema parse p c' row := by
  obtain ⟨text, e, accepts, htext, hparse, hcompiled, hrow⟩ := htrue
  cases (hreads text htext).symm.trans hparse
  obtain ⟨text', htext'⟩ := materialize_of_sameReprs h htext
  obtain ⟨f, hf, ⟨⟩⟩ := Fallible.bind_ok hcompiled
  have hrelated : Fallible.Related _ (compileInner P schema _) _ := fillExpr_related hP h template
  rw [hf] at hrelated
  obtain ⟨g, hg, hsame⟩ := hrelated.of_ok
  refine ⟨text', _, _, htext', hreads' text' htext', Fallible.ok_bind hg rfl, ?_⟩
  rw [← Datum.isTrue_blank, ← hsame row, Datum.isTrue_blank]
  exact hrow

def single (field : String) (value : UserValue) : UserContext :=
  ⟨[(field, value)], List.pairwise_singleton ..⟩

theorem plainPrimitives_arraysOpaque : plainPrimitives.ArraysOpaque where
  cast h := by cases h
  display _ := rfl
  extract _ _ _ := rfl

def ownerIs (value : Expr) : Expr := .binaryOp (.identifier "owner") .eq value

end Palimpsest.Server
