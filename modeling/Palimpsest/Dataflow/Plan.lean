import Palimpsest.Dataflow.Host
import Mathlib.Data.Multiset.Bind
import Mathlib.Data.Multiset.Sort

/-! Compiled plans as trees of recipes: the dataflow that is installed for one, and what the query
means on given tables. -/
namespace Palimpsest.Dataflow
open Option hiding map_map mem_map map_id bind_map map_bind filter_map filter_filter
open Sql Function Multiset

inductive DatumAggregate where
  | count (distinct : Bool)
  | sumInt (distinct : Bool)
  | sumFloat (distinct : Bool)
  | min
  | max
  | avg (distinct : Bool)
deriving Repr, DecidableEq

/-- What the operators need of values: NULL, the order of `ORDER BY`, the order of rows, and the
aggregates of a column. -/
structure Datums (δ : Type) where
  null : δ
  sortCompare : δ → δ → Ordering
  rowCompare : Row δ → Row δ → Ordering
  evaluate : DatumAggregate → Multiset δ → δ
  sort_trans : Std.TransCmp sortCompare
  row_trans : Std.TransCmp rowCompare
  row_eq : Std.LawfulEqCmp rowCompare

inductive UnaryRecipe (δ : Type) where
  | filter (predicate : Row δ → Bool)
  | project (extract : Row δ → Row δ)
  | aggregate (groupExtract : Row δ → List δ) (valueExtracts : List (Row δ → δ))
      (funcs : List DatumAggregate) (emptyDefault : Option (Row δ))
  | topK (sortExtract : Row δ → List δ) (descending : List Bool) (limit offset : ℕ)
  | distinctOn (onExtract sortExtract : Row δ → List δ) (descending : List Bool)
  | distinct

inductive DualRecipe where
  | join (kind : JoinKind) (leftKeys rightKeys : List ℕ) (rightWidth : ℕ)
  | union (all : Bool)
  | setOp (intersect all : Bool)

/-- A plan, with shared nodes unfolded: a node is installed once and its collection used wherever it
is referred to. -/
inductive Plan (δ : Type) where
  | baseTable (table : TableId)
  | unary (recipe : UnaryRecipe δ) (input : Plan δ)
  | dual (recipe : DualRecipe) (left right : Plan δ)
  | cteRef (target : Plan δ)
  | fixpoint (cte : String) (unionAll : Bool) (base step : Plan δ)
  | recursiveRef (cte : String)

def Plan.tables {δ : Type} : Plan δ → List TableId
  | .baseTable table => [table]
  | .unary _ input => input.tables
  | .dual _ left right => left.tables ++ right.tables
  | .cteRef target => target.tables
  | .fixpoint _ _ base step => base.tables ++ step.tables
  | .recursiveRef _ => []

section
variable {δ : Type} (values : Datums δ)

def keyCompare (key : Bool × ℕ) (left right : List δ) : Ordering :=
  let ordering := values.sortCompare (left.getD key.2 values.null) (right.getD key.2 values.null)
  if key.1 then ordering.swap else ordering

def keysCompare (keys : List (Bool × ℕ)) (left right : List δ) : Ordering :=
  keys.foldr (fun key rest => (keyCompare values key left right).then rest) .eq

def sortKeyComparator (descending : List Bool) (a b : List δ × Row δ) : Ordering :=
  (keysCompare values descending.zipIdx a.1 b.1).then (values.rowCompare a.2 b.2)

def rowLe (sortExtract : Row δ → List δ) (descending : List Bool) (a b : Row δ) : Prop :=
  (sortKeyComparator values descending (sortExtract a, a) (sortExtract b, b)).isLE = true

instance (sortExtract : Row δ → List δ) (descending : List Bool) :
    DecidableRel (rowLe values sortExtract descending) :=
  fun _ _ => inferInstanceAs (Decidable (_ = true))

theorem keyCompare_trans (key) : Std.TransCmp (keyCompare values key) := by
  have htrans := values.sort_trans
  cases hdesc : key.1 with
  | false =>
    refine { eq_swap := ?_, isLE_trans := ?_ }
    · intro a b
      simp only [keyCompare, hdesc]
      exact htrans.eq_swap
    · intro a b c
      simp only [keyCompare, hdesc]
      exact htrans.isLE_trans
  | true =>
    refine { eq_swap := ?_, isLE_trans := ?_ }
    · intro a b
      simp only [keyCompare, hdesc, if_true, Ordering.swap_swap]
      exact htrans.eq_swap.symm
    · intro a b c hab hbc
      simp only [keyCompare, hdesc, if_true, Ordering.isLE_swap] at hab hbc ⊢
      exact Std.TransCmp.isGE_trans hab hbc

theorem keysCompare_trans (keys) : Std.TransCmp (keysCompare values keys) := by
  induction keys with
  | nil => exact { eq_swap := rfl, isLE_trans := fun _ _ => rfl }
  | cons key rest =>
    have hkey := keyCompare_trans values key
    exact inferInstanceAs
      (Std.TransCmp (compareLex (keyCompare values key) (keysCompare values rest)))

theorem rowOrder_trans (sortExtract : Row δ → List δ) (descending) : Std.TransCmp fun a b : Row δ =>
      sortKeyComparator values descending (sortExtract a, a) (sortExtract b, b) := by
  have hkeys := keysCompare_trans values descending.zipIdx
  have hrows := values.row_trans
  have hlex : Std.TransCmp (compareLex
      (fun a b : Row δ => keysCompare values descending.zipIdx (sortExtract a) (sortExtract b))
      values.rowCompare) := by
    have : Std.TransCmp fun a b : Row δ =>
        keysCompare values descending.zipIdx (sortExtract a) (sortExtract b) :=
      { eq_swap := Std.OrientedCmp.eq_swap, isLE_trans := Std.TransCmp.isLE_trans }
    infer_instance
  exact hlex

instance (sortExtract : Row δ → List δ) (descending : List Bool) :
    IsTrans (Row δ) (rowLe values sortExtract descending) where
  trans _ _ _ hab hbc := (rowOrder_trans values sortExtract descending).isLE_trans hab hbc

instance (sortExtract : Row δ → List δ) (descending : List Bool) :
    Std.Total (rowLe values sortExtract descending) where
  total a b := by
    have htrans := rowOrder_trans values sortExtract descending
    unfold rowLe
    rw [htrans.eq_swap (a := b), Ordering.isLE_swap]
    cases sortKeyComparator values descending (sortExtract a, a) (sortExtract b, b) with
    | lt => exact .inl rfl
    | eq => exact .inl rfl
    | gt => exact .inr rfl

instance (sortExtract : Row δ → List δ) (descending : List Bool) :
    Std.Antisymm (rowLe values sortExtract descending) where
  antisymm a b hab hba := by
    have htrans := rowOrder_trans values sortExtract descending
    have heq : sortKeyComparator values descending (sortExtract a, a) (sortExtract b, b) = .eq := by
      unfold rowLe at hba
      rw [htrans.eq_swap (a := b), Ordering.isLE_swap] at hba
      exact Ordering.eq_eq_of_isLE_of_isGE hab hba
    have hrows := values.row_eq
    exact Std.LawfulEqCmp.eq_of_compare (Ordering.then_eq_eq.mp heq).2

end

/-! Keyed operators on bags, as the dataflow library documents them. -/
namespace Bag
variable {κ α β γ : Type} [DecidableEq κ]

def joinMap (left : Multiset (κ × α)) (right : Multiset (κ × β)) (f : κ → α → β → γ) : Multiset γ :=
  left.bind fun l => (right.filter fun r => r.1 = l.1).map fun r => f l.1 l.2 r.2

def semijoin (left : Multiset (κ × α)) (keys : Multiset κ) : Multiset (κ × α) :=
  left.bind fun l => replicate (keys.count l.1) l

def antijoin [DecidableEq α] (left : Multiset (κ × α)) (keys : Multiset κ) : Multiset (κ × α) :=
  left - semijoin left keys

def reduce (logic : κ → Multiset α → Multiset β) (bag : Multiset (κ × α)) : Multiset (κ × β) :=
  (bag.map Prod.fst).dedup.bind fun key =>
    (logic key ((bag.filter fun entry => entry.1 = key).map Prod.snd)).map fun value => (key, value)

theorem semijoin_dedup (left : Multiset (κ × α)) (keys : Multiset κ) :
    semijoin left keys.dedup = left.filter fun l => l.1 ∈ keys := by
  induction left using Multiset.induction with
  | empty => rfl
  | cons l left ih =>
    rw [semijoin, cons_bind, ← semijoin, ih]
    by_cases hmem : l.1 ∈ keys <;> simp [hmem]

theorem antijoin_dedup [DecidableEq α] (left : Multiset (κ × α)) (keys : Multiset κ) :
    antijoin left keys.dedup = left.filter fun l => l.1 ∉ keys := by
  ext l
  rw [antijoin, semijoin_dedup]
  by_cases l.1 ∈ keys <;> simp

theorem reduce_map {ι : Type} (logic : κ → Multiset α → Multiset β) (key value) (bag : Multiset ι) :
    reduce logic (bag.map fun i => (key i, value i)) = (bag.map key).dedup.bind fun k =>
        (logic k ((bag.filter fun i => key i = k).map value)).map fun v => (k, v) := by
  rw [reduce, map_map]
  refine bind_congr fun k _ => ?_
  simp [filter_map]

theorem reduce_unit {logic : Unit → Multiset α → Multiset β} (h : logic () 0 = 0) (bag) :
    (reduce logic (bag.map fun value => ((), value))).map Prod.snd = logic () bag := by
  rw [reduce_map]
  rcases eq_or_ne bag 0 with rfl | hbag
  · simp [h]
  · obtain ⟨value, hval⟩ := exists_mem_of_ne_zero hbag
    have hunit : (bag.map fun _ => ()).dedup = {()} := by
      rw [Nodup.ext (nodup_dedup _) (nodup_singleton _)]
      intro _
      rw [mem_dedup, mem_map]
      exact iff_of_true ⟨value, hval, rfl⟩ (mem_singleton.mpr rfl)
    rw [hunit]
    simp

end Bag

/-- The contents of a collection at each time, where the dataflow gets that far. -/
abbrev Collection (α : Type) := Lsn → Option (Multiset α)

/-! Operators act on the contents at each time: that is what it means that they are correct. -/
namespace Collection
variable {κ α β γ : Type}

@[simp] def lift (f : Multiset α → Multiset β) (c : Collection α) : Collection β :=
  fun time => (c time).map f

@[simp] def lift₂ (f : Multiset α → Multiset β → Multiset γ) (c : Collection α) (d : Collection β) :
    Collection γ :=
  fun time => (c time).bind fun left => (d time).map fun right => f left right

@[simp] def filter (predicate : α → Bool) : Collection α → Collection α :=
  lift (Multiset.filter fun a => predicate a = true)

@[simp] def map (f : α → β) : Collection α → Collection β := lift (Multiset.map f)

@[simp] def concat : Collection α → Collection α → Collection α := lift₂ (· + ·)

@[simp] def distinct [DecidableEq α] : Collection α → Collection α := lift Multiset.dedup

@[simp] def joinMap [DecidableEq κ] (f : κ → α → β → γ) :
    Collection (κ × α) → Collection (κ × β) → Collection γ :=
  lift₂ fun left right => Bag.joinMap left right f

@[simp] def semijoin [DecidableEq κ] : Collection (κ × α) → Collection κ → Collection (κ × α) :=
  lift₂ Bag.semijoin

@[simp] def antijoin [DecidableEq κ] [DecidableEq α] :
    Collection (κ × α) → Collection κ → Collection (κ × α) :=
  lift₂ Bag.antijoin

@[simp] def reduce [DecidableEq κ] (logic : κ → Multiset α → Multiset β) :
    Collection (κ × α) → Collection (κ × β) :=
  lift (Bag.reduce logic)

def constant (bag : Multiset α) : Collection α := fun _ => some bag

end Collection

/-! Loops of the dataflow, with a bound on the number of rounds. -/
namespace Loop
variable {α : Type} [DecidableEq α]

def iterate (body : Multiset α → Option (Multiset α)) : ℕ → Multiset α → Option (Multiset α)
  | 0, _ => none
  | rounds + 1, bag => (body bag).bind fun next =>
    if next = bag then some bag else iterate body rounds next

/-- Circulates waves and adds them up until there is no wave any more. -/
def waves (body : Multiset α → Option (Multiset α)) :
    ℕ → Multiset α → Multiset α → Option (Multiset α)
  | 0, _, _ => none
  | rounds + 1, wave, accumulator => (body wave).bind fun next =>
    if wave = 0 ∧ next = 0 then some accumulator else waves body rounds next (accumulator + next)

variable {body body' : Multiset α → Option (Multiset α)}

variable (hbody : ∀ bag out, body bag = some out → body' bag = some out)
include hbody

theorem iterate_mono (hmore : rounds ≤ more) (h : iterate body rounds bag = some result) :
    iterate body' more bag = some result := by
  induction rounds generalizing bag more with
  | zero => cases h
  | succ rounds ih =>
    obtain ⟨more, rfl⟩ : ∃ m, more = m + 1 := ⟨more - 1, by omega⟩
    rw [iterate, bind_eq_some_iff] at h ⊢
    obtain ⟨next, hnext, hrest⟩ := h
    refine ⟨next, hbody bag next hnext, ?_⟩
    split at hrest
    next heq => rwa [if_pos heq]
    next hne =>
      rw [if_neg hne]
      exact ih (by omega) hrest

theorem waves_mono (hmore : rounds ≤ more) (h : waves body rounds wave accumulator = some result) :
    waves body' more wave accumulator = some result := by
  induction rounds generalizing wave accumulator more with
  | zero => cases h
  | succ rounds ih =>
    obtain ⟨more, rfl⟩ : ∃ m, more = m + 1 := ⟨more - 1, by omega⟩
    rw [waves, bind_eq_some_iff] at h ⊢
    obtain ⟨next, hnext, hrest⟩ := h
    refine ⟨next, hbody wave next hnext, ?_⟩
    split at hrest
    next heq => rwa [if_pos heq]
    next hne =>
      rw [if_neg hne]
      exact ih (by omega) hrest

end Loop

section
variable {δ : Type} [DecidableEq δ] (values : Datums δ)

def keyOf (row : Row δ) (indices : List ℕ) : List δ :=
  indices.map fun index => row.getD index values.null

/-- One datum for each aggregate function, over its own column of the value vectors. -/
def aggregateDatums (funcs : List DatumAggregate) (vectors : Multiset (List δ)) : List δ :=
  funcs.zipIdx.map fun func => values.evaluate func.1 (vectors.filterMap (·[func.2]?))

end

structure Ranked {δ : Type} (sortExtract : Row δ → List δ) where
  keys : List δ
  row : Row δ
  keys_eq : keys = sortExtract row

namespace Ranked
variable {δ : Type} (values : Datums δ) {sortExtract : Row δ → List δ} (descending : List Bool)

def of (sortExtract : Row δ → List δ) (row : Row δ) : Ranked sortExtract :=
  ⟨sortExtract row, row, rfl⟩

def le (a b : Ranked sortExtract) : Prop :=
  (sortKeyComparator values descending (a.keys, a.row) (b.keys, b.row)).isLE = true

theorem le_iff (a b : Ranked sortExtract) :
    le values descending a b ↔ rowLe values sortExtract descending a.row b.row := by
  rw [le, rowLe, a.keys_eq, b.keys_eq]

instance : DecidableRel (fun a b : Ranked sortExtract => le values descending a b) :=
  fun _ _ => inferInstanceAs (Decidable (_ = true))

instance : IsTrans (Ranked sortExtract) (le values descending) where
  trans a b c hab hbc := by
    rw [le_iff] at hab hbc ⊢
    exact IsTrans.trans _ _ _ hab hbc

instance : Std.Total (α := Ranked sortExtract) (le values descending) where
  total a b := by
    rw [le_iff, le_iff]
    exact Std.Total.total _ _

instance : Std.Antisymm (α := Ranked sortExtract) (le values descending) where
  antisymm a b hab hba := by
    rw [le_iff] at hab hba
    have hrow : a.row = b.row := Std.Antisymm.antisymm _ _ hab hba
    obtain ⟨keys, row, rfl⟩ := a
    obtain ⟨keys', row', rfl⟩ := b
    cases hrow
    rfl

theorem map_row_sort (bag : Multiset (Row δ)) :
    ((bag.map (of sortExtract)).sort (le values descending)).map row =
      bag.sort (rowLe values sortExtract descending) := by
  rw [map_sort _ _ _ (rowLe values sortExtract descending) fun a _ b _ =>
    le_iff values descending a b, map_map]
  exact congrArg _ (map_id bag)

end Ranked

section
variable {δ : Type} [DecidableEq δ] (values : Datums δ)

/-- The dataflow of `install_op` over one input. -/
def installUnary : UnaryRecipe δ → Collection (Row δ) → Collection (Row δ)
  | .filter predicate, input => input.filter predicate
  | .project extract, input => input.map extract
  | .aggregate groupExtract valueExtracts funcs emptyDefault, input =>
    let keyed :=
      input.map fun row => (groupExtract row, valueExtracts.map fun extract => extract row)
    let aggregated := keyed.reduce fun _ vectors => {aggregateDatums values funcs vectors}
    let result := aggregated.map fun entry => entry.1 ++ entry.2
    match emptyDefault with
    | none => result
    | some defaultRow =>
      let present := (keyed.map Prod.fst).distinct
      let missing := ((Collection.constant {[]}).map fun key : List δ => (key, ())).antijoin present
      result.concat (missing.map fun _ => defaultRow)
  | .topK sortExtract descending limit offset, input =>
    let withKey := input.map fun row => ((), Ranked.of sortExtract row)
    let sliced := withKey.reduce fun _ ranked =>
      Multiset.ofList (((ranked.sort (Ranked.le values descending)).drop offset).take limit)
    (sliced.map Prod.snd).map Ranked.row
  | .distinctOn onExtract sortExtract descending, input =>
    let keyed := input.map fun row => (onExtract row, Ranked.of sortExtract row)
    let picked := keyed.reduce fun _ ranked =>
      Multiset.ofList (ranked.sort (Ranked.le values descending)).head?.toList
    (picked.map Prod.snd).map Ranked.row
  | .distinct, input => input.distinct

/-- What a set operation makes of the counts of a row on both sides. -/
def setCombine : Bool → Bool → ℤ → ℤ → ℤ
  | false, false, l, r => if 0 < l ∧ r ≤ 0 then 1 else 0
  | false, true, l, r => max (l - r) 0
  | true, false, l, r => if 0 < l ∧ 0 < r then 1 else 0
  | true, true, l, r => max (min l r) 0

/-- The dataflow of `install_op` over two inputs. Rows with a NULL in their key are stripped from
the right side of a join: they match nothing. -/
def installDual : DualRecipe → Collection (Row δ) → Collection (Row δ) → Collection (Row δ)
  | .join kind leftKeys rightKeys rightWidth, left, right =>
    let leftKeyed := left.map fun row => (keyOf values row leftKeys, row)
    let rightKeyed := (right.map fun row => (keyOf values row rightKeys, row)).filter fun entry =>
      !entry.1.any fun datum => decide (datum = values.null)
    let rightDistinct := (rightKeyed.map Prod.fst).distinct
    match kind with
    | .inner => leftKeyed.joinMap (fun _ l r => l ++ r) rightKeyed
    | .left =>
      (leftKeyed.joinMap (fun _ l r => l ++ r) rightKeyed).concat
        ((leftKeyed.antijoin rightDistinct).map fun entry =>
          entry.2 ++ List.replicate rightWidth values.null)
    | .semi => (leftKeyed.semijoin rightDistinct).map Prod.snd
    | .anti => (leftKeyed.antijoin rightDistinct).map Prod.snd
  | .union true, left, right => left.concat right
  | .union false, left, right => (left.concat right).distinct
  | .setOp intersect all, left, right =>
    let tagged := (left.map fun row => (row, false)).concat (right.map fun row => (row, true))
    (tagged.reduce fun _ sides =>
      replicate (setCombine intersect all (sides.count false) (sides.count true)).toNat
        ()).map Prod.fst

/-- The dataflow of a plan. Inside the step of a recursion the working table is given. -/
def install (rounds : ℕ) (inputs : TableId → Collection (Row δ)) :
    Plan δ → Option (Collection (Row δ)) → Collection (Row δ)
  | .baseTable table, _ => inputs table
  | .unary recipe input, working => installUnary values recipe (install rounds inputs input working)
  | .dual recipe left right, working =>
    installDual values recipe (install rounds inputs left working)
      (install rounds inputs right working)
  | .cteRef target, working => install rounds inputs target working
  | .recursiveRef _, working => working.getD fun _ => none
  | .fixpoint _ unionAll base step, _ =>
    let seed := install rounds inputs base none
    -- the working table holds the rows of one round at a time
    let body := fun bag => install rounds inputs step (some (Collection.constant bag))
    if unionAll then fun time => (seed time).bind fun bag =>
      Loop.waves (fun wave => body wave time) rounds bag bag
    else fun time => (seed time).bind fun bag =>
      Loop.iterate (fun working => (seed.concat (body working)).distinct time) rounds bag

end

section Meaning
variable {δ : Type} [DecidableEq δ] (values : Datums δ)

def evalUnary : UnaryRecipe δ → Multiset (Row δ) → Multiset (Row δ)
  | .filter predicate, rows => rows.filter fun row => predicate row = true
  | .project extract, rows => rows.map extract
  | .aggregate groupExtract valueExtracts funcs emptyDefault, rows =>
    ((rows.map groupExtract).dedup.map fun group =>
      group ++ aggregateDatums values funcs
        ((rows.filter fun row => groupExtract row = group).map fun row =>
          valueExtracts.map fun extract => extract row)) +
    match emptyDefault with
    | none => 0
    | some defaultRow => if [] ∈ rows.map groupExtract then 0 else {defaultRow}
  | .topK sortExtract descending limit offset, rows =>
    Multiset.ofList (((rows.sort (rowLe values sortExtract descending)).drop offset).take limit)
  | .distinctOn onExtract sortExtract descending, rows =>
    (rows.map onExtract).dedup.bind fun group =>
      Multiset.ofList ((rows.filter fun row => onExtract row = group).sort
        (rowLe values sortExtract descending)).head?.toList
  | .distinct, rows => rows.dedup

def Matches (leftKeys rightKeys : List ℕ) (left right : Row δ) : Prop :=
  keyOf values right rightKeys = keyOf values left leftKeys ∧
    values.null ∉ keyOf values right rightKeys

instance (leftKeys rightKeys : List ℕ) (left right : Row δ) :
    Decidable (Matches values leftKeys rightKeys left right) :=
  inferInstanceAs (Decidable (_ ∧ _))

def evalDual : DualRecipe → Multiset (Row δ) → Multiset (Row δ) → Multiset (Row δ)
  | .join kind leftKeys rightKeys rightWidth, left, right =>
    let joined := left.bind fun l =>
      (right.filter fun r => Matches values leftKeys rightKeys l r).map fun r => l ++ r
    let alone := left.filter fun l => ∀ r ∈ right, ¬ Matches values leftKeys rightKeys l r
    match kind with
    | .inner => joined
    | .left => joined + alone.map fun l => l ++ List.replicate rightWidth values.null
    | .semi => left.filter fun l => ¬ ∀ r ∈ right, ¬ Matches values leftKeys rightKeys l r
    | .anti => alone
  | .union true, left, right => left + right
  | .union false, left, right => (left + right).dedup
  | .setOp false false, left, right => left.dedup.filter fun row => row ∉ right
  | .setOp false true, left, right => left - right
  | .setOp true false, left, right => left.dedup.filter fun row => row ∈ right
  | .setOp true true, left, right => left ∩ right

/-- The rows of a query on given tables. A recursion has a value if it ends within the given number
of rounds. -/
def eval (rounds : ℕ) (tables : TableId → Multiset (Row δ)) :
    Plan δ → Option (Multiset (Row δ)) → Option (Multiset (Row δ))
  | .baseTable table, _ => some (tables table)
  | .unary recipe input, working => (eval rounds tables input working).map (evalUnary values recipe)
  | .dual recipe left right, working =>
    (eval rounds tables left working).bind fun l =>
      (eval rounds tables right working).map fun r => evalDual values recipe l r
  | .cteRef target, working => eval rounds tables target working
  | .recursiveRef _, working => working
  | .fixpoint _ unionAll base step, _ =>
    (eval rounds tables base none).bind fun seed =>
      if unionAll then
        Loop.waves (fun wave => eval rounds tables step (some wave)) rounds seed seed
      else
        Loop.iterate (fun working => (eval rounds tables step (some working)).map fun out =>
          (seed + out).dedup) rounds seed

/-- The value of a plan does not depend on the bound on its rounds. -/
theorem eval_mono (hmore : rounds ≤ more)
    (h : eval values rounds tables plan working = some result) :
    eval values more tables plan working = some result := by
  induction plan generalizing working result with
  | baseTable => exact h
  | unary recipe input ih =>
    rw [eval, map_eq_some_iff] at h ⊢
    obtain ⟨rows, hrows, hres⟩ := h
    exact ⟨rows, ih hrows, hres⟩
  | dual recipe left right ihl ihr =>
    simp only [eval, bind_eq_some_iff, map_eq_some_iff] at h ⊢
    obtain ⟨l, hl, r, hr, hres⟩ := h
    exact ⟨l, ihl hl, r, ihr hr, hres⟩
  | cteRef target ih => exact ih h
  | recursiveRef => exact h
  | fixpoint cte unionAll base step ihb ihs =>
    rw [eval, bind_eq_some_iff] at h ⊢
    obtain ⟨seed, hseed, hloop⟩ := h
    refine ⟨seed, ihb hseed, ?_⟩
    cases unionAll with
    | true => exact Loop.waves_mono (fun _ _ hout => ihs hout) hmore hloop
    | false =>
      refine Loop.iterate_mono (fun _ _ hout => ?_) hmore hloop
      rw [map_eq_some_iff] at hout ⊢
      obtain ⟨rows, hrows, hres⟩ := hout
      exact ⟨rows, ihs hrows, hres⟩

end Meaning

section Refinement
variable {δ : Type} [DecidableEq δ] (values : Datums δ)

theorem aggregate_bag (groupExtract valueExtracts funcs rows) :
    (Bag.reduce (fun _ vectors => {aggregateDatums values funcs vectors}) (rows.map fun row =>
      (groupExtract row, valueExtracts.map fun extract => extract row))).map
        (fun entry => entry.1 ++ entry.2) =
      evalUnary values (.aggregate groupExtract valueExtracts funcs none) rows := by
  simp [Bag.reduce_map, evalUnary]

theorem missing_bag (keys : Multiset (List δ)) (defaultRow) :
    (Bag.antijoin (({[]} : Multiset (List δ)).map fun key => (key, ())) keys.dedup).map
      (fun _ => defaultRow) = if [] ∈ keys then (0 : Multiset (Row δ)) else {defaultRow} := by
  rw [Bag.antijoin_dedup]
  by_cases hmem : [] ∈ keys <;> simp [hmem, filter_singleton]

theorem topK_bag (sortExtract descending) (limit offset : ℕ) (rows) :
    ((Bag.reduce (fun _ ranked => Multiset.ofList
      (((ranked.sort (Ranked.le values descending)).drop offset).take limit))
        (rows.map fun row => ((), Ranked.of sortExtract row))).map Prod.snd).map Ranked.row =
      evalUnary values (.topK sortExtract descending limit offset) rows := by
  have hrank : (rows.map fun row => ((), Ranked.of sortExtract row)) =
      (rows.map (Ranked.of sortExtract)).map fun ranked => ((), ranked) := by
    simp
  rw [hrank, Bag.reduce_unit (by simp)]
  simp [evalUnary, ← Ranked.map_row_sort]

theorem distinctOn_bag (onExtract sortExtract descending rows) :
    ((Bag.reduce (fun _ ranked => Multiset.ofList
      (ranked.sort (Ranked.le values descending)).head?.toList)
        (rows.map fun row => (onExtract row, Ranked.of sortExtract row))).map Prod.snd).map
          Ranked.row = evalUnary values (.distinctOn onExtract sortExtract descending) rows := by
  rw [Bag.reduce_map]
  simp only [map_bind]
  refine bind_congr fun group _ => ?_
  rw [← Ranked.map_row_sort]
  cases ((rows.filter fun row => onExtract row = group).map (Ranked.of sortExtract)).sort
    (Ranked.le values descending) <;> rfl

/-- One recipe: the dataflow's contents at a time are the recipe's meaning on the contents there. -/
theorem installUnary_apply (recipe input) (time : Lsn) :
    installUnary values recipe input time = (input time).map (evalUnary values recipe) := by
  cases recipe with
  | aggregate groupExtract valueExtracts funcs emptyDefault =>
    have hres := aggregate_bag values groupExtract valueExtracts funcs
    cases emptyDefault with
    | none =>
      dsimp [installUnary]
      cases input time with
      | none => rfl
      | some rows => simpa using hres rows
    | some defaultRow =>
      dsimp [installUnary]
      cases input time with
      | none => rfl
      | some rows =>
        have hmissing := missing_bag (rows.map groupExtract) defaultRow
        simp only [map_some, bind_some, Collection.constant,
          map_map, comp_def] at hres hmissing ⊢
        rw [hres, hmissing]
        simp [evalUnary]
  | topK sortExtract descending limit offset =>
    dsimp [installUnary]
    cases input time with
    | none => rfl
    | some rows => simpa using topK_bag values sortExtract descending limit offset rows
  | distinctOn onExtract sortExtract descending =>
    dsimp [installUnary]
    cases input time with
    | none => rfl
    | some rows => simpa using distinctOn_bag values onExtract sortExtract descending rows
  | filter | project | distinct => rfl

section
variable (leftKeys rightKeys : List ℕ)

def rightKeyed (right : Multiset (Row δ)) : Multiset (List δ × Row δ) :=
  (right.map fun row => (keyOf values row rightKeys, row)).filter fun entry =>
    (!entry.1.any fun datum => decide (datum = values.null)) = true

theorem rightKeyed_eq (right) : rightKeyed values rightKeys right =
      (right.filter fun row => values.null ∉ keyOf values row rightKeys).map fun row =>
        (keyOf values row rightKeys, row) := by
  rw [rightKeyed, filter_map]
  congr 1
  refine filter_congr fun row _ => ?_
  simp only [Bool.not_eq_true', List.any_eq_false, decide_eq_true_eq]
  exact ⟨fun h hmem => h _ hmem rfl, fun h datum hmem heq => h (heq ▸ hmem)⟩

variable (left right : Multiset (Row δ))

theorem joinMap_bag : Bag.joinMap (left.map fun row => (keyOf values row leftKeys, row))
      (rightKeyed values rightKeys right) (fun _ l r => l ++ r) = left.bind fun l =>
        (right.filter fun r => Matches values leftKeys rightKeys l r).map fun r => l ++ r := by
  rw [Bag.joinMap, bind_map]
  refine bind_congr fun l _ => ?_
  rw [rightKeyed_eq, filter_map, map_map, filter_filter]
  rfl

theorem mem_rightKeyed (right l) :
    keyOf values l leftKeys ∈ (rightKeyed values rightKeys right).map Prod.fst ↔
      ¬ ∀ r ∈ right, ¬ Matches values leftKeys rightKeys l r := by
  rw [rightKeyed_eq, map_map]
  simp only [mem_map, mem_filter, not_forall, not_not]
  constructor
  · rintro ⟨r, ⟨hr, hnull⟩, hkey⟩
    exact ⟨r, hr, hkey, hnull⟩
  · rintro ⟨r, hr, hkey, hnull⟩
    exact ⟨r, ⟨hr, hnull⟩, hkey⟩

theorem semijoin_bag : (Bag.semijoin (left.map fun row => (keyOf values row leftKeys, row))
      ((rightKeyed values rightKeys right).map Prod.fst).dedup).map Prod.snd =
      left.filter fun l => ¬ ∀ r ∈ right, ¬ Matches values leftKeys rightKeys l r := by
  rw [Bag.semijoin_dedup, filter_map, map_map]
  refine (map_id _).trans (filter_congr fun l _ => ?_)
  exact mem_rightKeyed values leftKeys rightKeys right l

theorem antijoin_bag : Bag.antijoin (left.map fun row => (keyOf values row leftKeys, row))
      ((rightKeyed values rightKeys right).map Prod.fst).dedup =
      (left.filter fun l => ∀ r ∈ right, ¬ Matches values leftKeys rightKeys l r).map fun row =>
        (keyOf values row leftKeys, row) := by
  rw [Bag.antijoin_dedup, filter_map]
  congr 1
  refine filter_congr fun l _ => ?_
  exact (not_congr (mem_rightKeyed values leftKeys rightKeys right l)).trans not_not

end

theorem count_bind_replicate {keys : Multiset (Row δ)} (hnd : keys.Nodup) (weight : Row δ → ℕ)
    (row) : (keys.bind fun key => replicate (weight key) key).count row =
      if row ∈ keys then weight row else 0 := by
  induction keys using Multiset.induction with
  | empty => rfl
  | cons key keys ih =>
    rw [nodup_cons] at hnd
    rw [cons_bind, count_add, ih hnd.2, count_replicate]
    rcases eq_or_ne key row with rfl | heq
    · simp [hnd.1]
    · have hne : row ≠ key := fun h => heq h.symm
      simp [heq, hne]

theorem setOp_count (intersect all : Bool) (left right : Multiset (Row δ)) (row) :
    ((Bag.reduce (fun _ sides => replicate
      (setCombine intersect all (sides.count false) (sides.count true)).toNat ())
        (left.map (fun row => (row, false)) + right.map fun row => (row, true))).map
          Prod.fst).count row =
      if row ∈ left + right then (setCombine intersect all (left.count row) (right.count row)).toNat
      else 0 := by
  have hside : ∀ (side other : Bool) (bag : Multiset (Row δ)) (key : Row δ),
      (((bag.map fun row => (row, other)).filter fun entry => entry.1 = key).map
        Prod.snd).count side = if other = side then bag.count key else 0 := by
    intro side other bag key
    rw [filter_map, map_map,
      show Prod.snd ∘ (fun row : Row δ => (row, other)) = const _ other from rfl,
      map_const, count_replicate, count_eq_card_filter_eq]
    congr 2
    exact filter_congr fun row _ => eq_comm
  rw [Bag.reduce, map_bind]
  simp only [map_replicate, filter_add, map_add, count_add,
    hside, if_true, Bool.true_eq_false, Bool.false_eq_true, if_false, add_zero, zero_add]
  simp [count_bind_replicate (nodup_dedup _)
    fun key => (setCombine intersect all (left.count key) (right.count key)).toNat]

theorem setOp_bag (intersect all : Bool) (left right) : (Bag.reduce (fun _ sides => replicate
      (setCombine intersect all (sides.count false) (sides.count true)).toNat ())
        (left.map (fun row => (row, false)) + right.map fun row => (row, true))).map Prod.fst =
      evalDual values (.setOp intersect all) left right := by
  ext row
  rw [setOp_count]
  have hleft : row ∈ left ↔ 0 < left.count row := count_pos.symm
  have hright : row ∈ right ↔ 0 < right.count row := count_pos.symm
  simp only [mem_add, hleft]
  cases intersect with
  | false =>
    cases all with
    | false =>
      simp only [setCombine, evalDual, count_filter, count_dedup, hleft, hright]
      split_ifs <;> omega
    | true =>
      simp only [setCombine, evalDual, count_sub]
      split_ifs <;> omega
  | true =>
    cases all with
    | false =>
      simp only [setCombine, evalDual, count_filter, count_dedup, hleft, hright]
      split_ifs <;> omega
    | true =>
      simp only [setCombine, evalDual, count_inter]
      split_ifs <;> omega

theorem installDual_apply (recipe left right) (time : Lsn) :
    installDual values recipe left right time =
      (left time).bind fun l => (right time).map fun r => evalDual values recipe l r := by
  cases recipe with
  | join kind leftKeys rightKeys =>
    have hjoin := joinMap_bag values leftKeys rightKeys
    have hsemi := semijoin_bag values leftKeys rightKeys
    have hanti := antijoin_bag values leftKeys rightKeys
    unfold rightKeyed at hjoin hsemi hanti
    cases kind <;> dsimp [installDual] <;> cases left time <;> cases right time <;> try rfl
    · exact congrArg some (hjoin _ _)
    · simp only [map_some, bind_some, hjoin, hanti, map_map]
      rfl
    · exact congrArg some (hsemi _ _)
    · simp only [map_some, bind_some, hanti, map_map]
      exact congrArg some (map_id _)
  | union all =>  cases all <;> dsimp [installDual] <;> cases left time <;> cases right time <;> rfl
  | setOp =>
    dsimp [installDual]
    cases left time <;> cases right time <;> try rfl
    exact congrArg some (setOp_bag values ..)

/-- A whole plan: what the dataflow holds at a time is the query's result on the tables at that
time. -/
theorem install_apply (rounds : ℕ) (plan)
    (htabs : ∀ table ∈ plan.tables, inputs table time = some (tables table)) (working) :
    install values rounds inputs plan working time =
      eval values rounds tables plan (working.bind fun c => c time) := by
  induction plan generalizing working with
  | baseTable table => exact htabs table (mem_singleton.mpr rfl)
  | unary recipe input ih => rw [install, installUnary_apply, ih htabs, eval]
  | dual recipe left right ihl ihr =>
    rw [install, installDual_apply, eval,
      ihl (fun table h => htabs table (List.mem_append_left _ h)),
      ihr (fun table h => htabs table (List.mem_append_right _ h))]
  | cteRef target ih => exact ih htabs working
  | recursiveRef => cases working <;> rfl
  | fixpoint cte unionAll base step ihb ihs =>
    have hseed := ihb (fun table h => htabs table (List.mem_append_left _ h)) none
    have hstep : ∀ bag, install values rounds inputs step (some (Collection.constant bag)) time =
        eval values rounds tables step (some bag) := fun bag =>
      ihs (fun table h => htabs table (List.mem_append_right _ h)) (some (Collection.constant bag))
    rw [install, eval]
    cases unionAll with
    | true =>
      simp only [if_true]
      simp [hseed, hstep]
    | false =>
      simp only [Bool.false_eq_true, if_false]
      rw [hseed]
      cases hbase : eval values rounds tables base none <;> simp [hbase, hseed, hstep, comp_def]

/-- The result only depends on the tables the plan reads. -/
theorem eval_congr (rounds : ℕ) (plan) (h : ∀ table ∈ plan.tables, tables table = tables' table) :
    eval values rounds tables plan working = eval values rounds tables' plan working := by
  have hwork : ((working.map Collection.constant).bind fun c => c 0) = working := by
    cases working <;> rfl
  have hleft : install values rounds (fun table _ => some (tables' table)) plan
      (working.map Collection.constant) 0 = _ :=
    install_apply values rounds plan (fun table htab => congrArg some (h table htab).symm) _
  rw [install_apply values rounds plan (fun _ _ => rfl), hwork] at hleft
  exact hleft.symm

end Refinement

end Palimpsest.Dataflow
