import Palimpsest.Dataflow.Comparisons
import Palimpsest.Dataflow.Compile
import Palimpsest.Foundation.SignedBag
import Mathlib.Algebra.Order.BigOperators.Group.Finset

/-! The aggregates of a group of rows, and the single row of an aggregate without groups. -/
namespace Palimpsest.Dataflow
open List

section
variable (P : Primitives)

def saturate (total : ℤ) : Int64 :=
  if 2 ^ 63 - 1 < total then Int64.maxValue
  else if total < -2 ^ 63 then Int64.minValue
  else Int64.ofInt total

/-- One column of the value vectors, with the multiplicity of each vector. -/
def columnEntries (index : ℕ) (values : List (List Datum × ℤ)) : List (Datum × ℤ) :=
  values.filterMap fun value => (value.1[index]?).map fun datum => (datum, value.2)

abbrev derivedLe (a b : Datum) : Prop := (derivedCompare a b).isLE = true

/-- The map from values to summed multiplicities, in the order of its keys. -/
def merged (entries : List (Datum × ℤ)) : List (Datum × ℤ) :=
  (((entries.map Prod.fst).dedup.insertionSort derivedLe).map fun datum =>
    (datum, SignedBag.net entries datum)).filter fun entry => 0 < entry.2

-- sums of doubles are the hardware's
variable (floats : DatumAggregate → List (Datum × ℤ) → Datum)

def evaluateDatumAggregate (func : DatumAggregate) (column : List (Datum × ℤ)) : Datum :=
  let nonNull := column.filter fun entry => !entry.1.isNull
  match func with
  | .count distinct =>
    .i64 (saturate (nonNull.map fun entry => if distinct then 1 else entry.2).sum)
  | .sumInt distinct =>
    let addends := nonNull.filterMap fun entry =>
      (intValue entry.1).map fun value => value * if distinct then 1 else entry.2
    if addends = [] then .null else .i64 (saturate addends.sum)
  | .min => minDatum P (column.map Prod.fst)
  | .max => maxDatum P (column.map Prod.fst)
  | .sumFloat _ | .avg _ => floats func nonNull

/-- The closure of `aggregate_datums`, on the group as the engine lists it. -/
def aggregateListed (funcs : List DatumAggregate) (values : List (List Datum × ℤ)) : List Datum :=
  funcs.zipIdx.map fun func =>
    evaluateDatumAggregate P floats func.1 (merged (columnEntries func.2 values))

end

/-! SQL's aggregates, over a bag of values. -/
section

def columnOf (index : ℕ) (values : List (List Datum × ℤ)) : List Datum :=
  expand (columnEntries index values)

/-- NULLs do not count, and under `DISTINCT` each value counts once. -/
def aggregated (distinct : Bool) (bag : Multiset Datum) : Multiset Datum :=
  let present := bag.filter fun datum => datum.isNull = false
  if distinct then present.dedup else present

def amount (datum : Datum) : ℤ := (intValue datum).getD 0

def FitsI64 (n : ℤ) : Prop := -2 ^ 63 ≤ n ∧ n < 2 ^ 63

/-- A value of the bag that ranks lowest, or NULL if there is none. -/
def Lowest (rank : Datum → ℤ) (bag : Multiset Datum) (result : Datum) : Prop :=
  (bag = 0 → result = .null) ∧ (bag ≠ 0 → result ∈ bag ∧ ∀ datum ∈ bag, rank result ≤ rank datum)

/-- The result on a bag of NULLs and integers. Counts and sums beyond 64 bits are not SQL's either;
sums of doubles are left open. -/
def SqlResult (bag : Multiset Datum) : DatumAggregate → Datum → Prop
  | .count distinct, result =>
    let count : ℤ := (aggregated distinct bag).card
    FitsI64 count → result = .i64 (.ofInt count)
  | .sumInt distinct, result =>
    let total := ((aggregated distinct bag).map amount).sum
    (aggregated distinct bag = 0 → result = .null) ∧
      (aggregated distinct bag ≠ 0 → FitsI64 total → result = .i64 (.ofInt total))
  | .min, result => Lowest amount (aggregated false bag) result
  | .max, result => Lowest (fun datum => -amount datum) (aggregated false bag) result
  | .sumFloat _, _ | .avg _, _ => True

end

/-! Rows may be listed in any order: the derived order of the keys is a total one. -/
section Order

mutual

theorem eq_of_derivedCompare : ∀ {a b : Datum}, derivedCompare a b = .eq → a = b
  | .array xs, .array ys, h => congrArg Datum.array (eq_of_derivedCompareItems h)
  | a, b, h => by
    cases a <;> cases b <;>
      simp_all [derivedCompare, Datum.tag, Int16.toInt_inj, Int32.toInt_inj, Int64.toInt_inj]
    case array.array => exact eq_of_derivedCompareItems h

theorem eq_of_derivedCompareItems : ∀ {xs ys : List Datum},
    derivedCompareItems xs ys = .eq → xs = ys
  | [], [], _ => rfl
  | x :: xs, y :: ys, h => by
    obtain ⟨hx, hxs⟩ := Ordering.then_eq_eq.mp h
    rw [eq_of_derivedCompare hx, eq_of_derivedCompareItems hxs]

end

theorem derivedCompare_swap (a b) : derivedCompare b a = (derivedCompare a b).swap :=
  Comparator.Chained.eq_swap (derivedCompare_self a ▸ derivedCompare_chained a b a)

instance : IsTrans Datum derivedLe :=
  ⟨fun a b c hab hbc => (derivedCompare_chained a b c).isLE hab hbc⟩

instance : Std.Total derivedLe where
  total a b := by
    rw [derivedLe, derivedLe, derivedCompare_swap a b]
    cases derivedCompare a b <;> simp

instance : Std.Antisymm derivedLe where
  antisymm a b hab hba := by
    rw [derivedLe, derivedCompare_swap a b] at hba
    refine eq_of_derivedCompare ?_
    revert hab hba
    rw [derivedLe]
    cases derivedCompare a b <;> decide

theorem merged_perm (h : entries'.Perm entries) : merged entries' = merged entries := by
  have hkeys : (entries'.map Prod.fst).dedup.insertionSort derivedLe =
      (entries.map Prod.fst).dedup.insertionSort derivedLe :=
    Perm.eq_of_pairwise' (pairwise_insertionSort ..) (pairwise_insertionSort ..)
      ((perm_insertionSort ..).trans ((h.map _).dedup.trans (perm_insertionSort ..).symm))
  have hnet (d : Datum) : SignedBag.net entries' d = SignedBag.net entries d := (h.map _).sum_eq
  rw [merged, merged, hkeys]
  simp [hnet]

theorem aggregateListed_perm (P floats funcs) (h : values'.Perm values) :
    aggregateListed P floats funcs values' = aggregateListed P floats funcs values := by
  exact map_congr_left fun func _ => congrArg _ (merged_perm (h.filterMap _))

end Order

theorem columnEntries_positive (h : ∀ value ∈ values, 0 < value.2) (index : ℕ) :
    ∀ entry ∈ columnEntries index values, 0 < entry.2 := by
  intro entry hentry
  obtain ⟨value, hvalue, hsome⟩ := mem_filterMap.mp hentry
  obtain ⟨datum, -, rfl⟩ := Option.map_eq_some_iff.mp hsome
  exact h value hvalue

/-! The merged column has the counts of the expanded one. -/
section
variable {entries : List (Datum × ℤ)} (h : ∀ entry ∈ entries, 0 < entry.2)
include h

theorem net_eq_count (d) : SignedBag.net entries d = (expand entries).count d := by
  induction entries with
  | nil => rfl
  | cons entry rest ih =>
    obtain ⟨hpos, hrest⟩ := forall_mem_cons.mp h
    have hcons : expand (entry :: rest) = replicate entry.2.toNat entry.1 ++ expand rest := rfl
    rw [SignedBag.net_cons, ih hrest, hcons, count_append, count_replicate]
    simp only [beq_iff_eq]
    split <;> omega

theorem merged_eq : merged entries = ((Multiset.ofList (expand entries)).dedup.sort derivedLe).map
    fun d => (d, ((expand entries).count d : ℤ)) := by
  have hmem (d : Datum) : d ∈ (entries.map Prod.fst).dedup ↔ d ∈ expand entries := by
    have hall := filter_eq_self.mpr fun entry hentry => decide_eq_true (h entry hentry)
    rw [mem_dedup, mem_expand, hall]
  have hkeys : (entries.map Prod.fst).dedup.insertionSort derivedLe =
      (Multiset.ofList (expand entries)).dedup.sort derivedLe := by
    refine Perm.eq_of_pairwise' (pairwise_insertionSort ..) (Multiset.pairwise_sort ..)
      (Multiset.coe_eq_coe.mp ?_)
    rw [Multiset.sort_eq, Multiset.coe_eq_coe.mpr (perm_insertionSort ..)]
    refine (Multiset.Nodup.ext (Multiset.coe_nodup.mpr (nodup_dedup _))
      (Multiset.nodup_dedup _)).mpr fun d => ?_
    rw [Multiset.mem_coe, hmem, Multiset.mem_dedup, Multiset.mem_coe]
  simp only [merged, net_eq_count h, hkeys]
  refine filter_eq_self.mpr fun entry hentry => ?_
  obtain ⟨d, hd, rfl⟩ := mem_map.mp hentry
  simpa using hd

/-- What the functions see of a column: its values other than NULL, each with its count. -/
theorem nonNull_merged : ∃ keys : List Datum, ↑keys = (aggregated false (expand entries)).dedup ∧
    (merged entries).filter (fun entry => !entry.1.isNull) =
      keys.map fun d => (d, ((aggregated false (expand entries)).count d : ℤ)) := by
  refine ⟨((Multiset.ofList (expand entries)).dedup.sort derivedLe).filter fun d => !d.isNull,
    ?_, ?_⟩
  · have hnodup := Multiset.nodup_dedup (Multiset.ofList (expand entries))
    rw [← Multiset.sort_eq (Multiset.ofList (expand entries)).dedup derivedLe,
      Multiset.coe_nodup] at hnodup
    refine (Multiset.Nodup.ext (Multiset.coe_nodup.mpr (hnodup.filter _))
      (Multiset.nodup_dedup _)).mpr fun d => ?_
    simp [aggregated]
  · rw [merged_eq h, filter_map]
    refine map_congr_left fun d hd => ?_
    have hpres : d.isNull = false := by simpa using (mem_filter.mp hd).2
    simp [aggregated, hpres]

end

/-- The aggregates of a bag, as the operators of a plan use them. -/
def evaluateBag (P : Primitives) (floats : DatumAggregate → List (Datum × ℤ) → Datum)
    (func : DatumAggregate) (bag : Multiset Datum) : Datum :=
  evaluateDatumAggregate P floats func ((bag.dedup.sort derivedLe).map fun d => (d, bag.count d))

theorem filterMap_expand (index : ℕ) (values : List (List Datum × ℤ)) :
    (expand values).filterMap (·[index]?) = expand (columnEntries index values) := by
  induction values with
  | nil => rfl
  | cons value values ih =>
    rw [expand, flatMap_cons, filterMap_append, ← expand, ih]
    cases hdatum : value.1[index]? with
    | none => simp [columnEntries, hdatum]
    | some datum => simp [columnEntries, expand, hdatum]

/-- The plan's aggregate of a group is that of the closure on every listing of the group. -/
theorem aggregateDatums_eq (hdatums : datums.evaluate = evaluateBag P floats) (funcs)
    {values : List (List Datum × ℤ)} (h : ∀ value ∈ values, 0 < value.2) :
    aggregateDatums datums funcs ↑(expand values) = aggregateListed P floats funcs values := by
  refine map_congr_left fun func _ => ?_
  rw [hdatums, merged_eq (columnEntries_positive h func.2), Multiset.filterMap_coe,
    filterMap_expand,
    evaluateBag]
  simp only [Multiset.coe_count]

/-- Multiplicities add up to the bag, or to its distinct values where each counts once. -/
theorem sum_counted {keys : List Datum} (hkeys : ↑keys = (aggregated false bag).dedup)
    (distinct : Bool) (f) :
    (keys.map fun d => f d * if distinct then 1 else ((aggregated false bag).count d : ℤ)).sum =
      ((aggregated distinct bag).map f).sum := by
  cases distinct with
  | true =>
    have hsum := congrArg (fun bag => (Multiset.map f bag).sum) hkeys
    simpa [aggregated] using hsum
  | false =>
    have hsum := congrArg (fun keys => (Multiset.map (fun d =>
      f d * ((aggregated false bag).count d : ℤ)) keys).sum) hkeys
    rw [Finset.sum_multiset_map_count]
    simpa [mul_comm, Finset.sum] using hsum

theorem saturate_eq (h : FitsI64 n) : saturate n = .ofInt n := by
  obtain ⟨hlow, hhigh⟩ := h
  rw [saturate, if_neg (by omega), if_neg (by omega)]

theorem foldl_lowest {α : Type} {pick : α → α → α} {rank : α → ℤ} {rest : List α} {a : α}
    (h : ∀ x ∈ a :: rest, ∀ y ∈ a :: rest, (pick x y = x ∨ pick x y = y) ∧
      rank (pick x y) ≤ rank x ∧ rank (pick x y) ≤ rank y) :
    rest.foldl pick a ∈ a :: rest ∧ ∀ b ∈ a :: rest, rank (rest.foldl pick a) ≤ rank b := by
  induction rest generalizing a with
  | nil => simp
  | cons b rest ih =>
    obtain ⟨hpick, ha, hb⟩ := h a mem_cons_self b (mem_cons_of_mem _ mem_cons_self)
    have hsub : pick a b :: rest ⊆ a :: b :: rest := by
      rcases hpick with hpick | hpick <;> simp [hpick]
    obtain ⟨hmem, hle⟩ := ih fun x hx y hy => h x (hsub hx) y (hsub hy)
    have hfirst := hle _ mem_cons_self
    refine ⟨hsub hmem, ?_⟩
    simp only [forall_mem_cons]
    exact ⟨hfirst.trans ha, hfirst.trans hb, fun c hc => hle c (mem_cons_of_mem _ hc)⟩

section
variable (P : Primitives) (floats : DatumAggregate → List (Datum × ℤ) → Datum)
  {entries : List (Datum × ℤ)} (h : ∀ entry ∈ entries, 0 < entry.2)
include h

theorem count_sql (distinct : Bool) : SqlResult (expand entries) (.count distinct)
    (evaluateDatumAggregate P floats (.count distinct) (merged entries)) := by
  intro hfits
  obtain ⟨keys, hkeys, hcol⟩ := nonNull_merged h
  have hsum := sum_counted hkeys distinct fun _ => 1
  simp only [one_mul, Multiset.map_const', Multiset.sum_replicate, nsmul_eq_mul, mul_one] at hsum
  simp only [evaluateDatumAggregate, hcol, map_map, Function.comp_def]
  rw [hsum, saturate_eq hfits]

variable (hints : ∀ d ∈ expand entries, d = .null ∨ ∃ n, intValue d = some n)
include hints

omit h in
theorem intValue_of_key {keys : List Datum}
    (hkeys : ↑keys = (aggregated false (expand entries)).dedup)
    {d : Datum} (hd : d ∈ keys) : ∃ n, intValue d = some n := by
  rw [← Multiset.mem_coe, hkeys, Multiset.mem_dedup] at hd
  have hd : d ∈ Multiset.filter (fun d => d.isNull = false) (expand entries) := hd
  obtain ⟨hmem, hpres⟩ := Multiset.mem_filter.mp hd
  refine (hints d hmem).resolve_left ?_
  rintro rfl
  cases hpres

theorem sumInt_sql (distinct : Bool) : SqlResult (expand entries) (.sumInt distinct)
    (evaluateDatumAggregate P floats (.sumInt distinct) (merged entries)) := by
  obtain ⟨keys, hkeys, hcol⟩ := nonNull_merged h
  have haddends : ((merged entries).filter fun entry => !entry.1.isNull).filterMap (fun entry =>
      (intValue entry.1).map fun value => value * if distinct then 1 else entry.2) =
        keys.map fun d => amount d *
          if distinct then 1 else ((aggregated false (expand entries)).count d : ℤ) := by
    rw [hcol, filterMap_map, ← filterMap_eq_map]
    refine filterMap_congr fun d hd => ?_
    obtain ⟨n, hn⟩ := intValue_of_key hints hkeys hd
    simp [amount, hn]
  have hempty : aggregated distinct (expand entries) = 0 ↔ keys = [] := by
    rw [← Multiset.coe_eq_zero, hkeys]
    cases distinct with
    | true => exact .rfl
    | false => exact Multiset.dedup_eq_zero.symm
  simp only [evaluateDatumAggregate, haddends, map_eq_nil_iff, sum_counted hkeys distinct amount]
  refine ⟨fun hnone => if_pos (hempty.mp hnone), fun hsome hfits => ?_⟩
  rw [if_neg fun hnone => hsome (hempty.mpr hnone), saturate_eq hfits]

theorem lowest_of_fold (hpick : ∀ {x y n m}, intValue x = some n → intValue y = some m →
      (pick x y = x ∨ pick x y = y) ∧ rank (pick x y) ≤ rank x ∧ rank (pick x y) ≤ rank y) :
    Lowest rank (aggregated false (expand entries))
      (match ((merged entries).map Prod.fst).filter fun d => !d.isNull with
      | [] => .null
      | d :: rest => rest.foldl pick d) := by
  obtain ⟨keys, hkeys, hcol⟩ := nonNull_merged h
  have hmem (d : Datum) : d ∈ keys ↔ d ∈ aggregated false (expand entries) := by
    rw [← Multiset.mem_coe, hkeys, Multiset.mem_dedup]
  have hlist : ((merged entries).map Prod.fst).filter (fun d => !d.isNull) = keys := by
    rw [filter_map]
    exact (congrArg (map Prod.fst) hcol).trans (by simp [Function.comp_def])
  rw [hlist]
  cases keys with
  | nil => exact ⟨fun _ => rfl, fun hsome => absurd (Multiset.dedup_eq_zero.mp hkeys.symm) hsome⟩
  | cons d =>
    have hval := fun x hx => intValue_of_key hints hkeys (d := x) hx
    obtain ⟨hfound, hlowest⟩ := foldl_lowest fun x hx y hy =>
      hpick (hval x hx).choose_spec (hval y hy).choose_spec
    refine ⟨fun hnone => ?_, fun _ => ⟨(hmem _).mp hfound, fun e he => hlowest e ((hmem e).mpr he)⟩⟩
    rw [hnone] at hmem
    exact absurd ((hmem d).mp mem_cons_self) (Multiset.notMem_zero d)

theorem extremes_sql (hfunc : func = .min ∨ func = .max) :
    SqlResult (expand entries) func (evaluateDatumAggregate P floats func (merged entries)) := by
  rcases hfunc with rfl | rfl
  all_goals
    refine lowest_of_fold h hints fun hx hy => ?_
    simp only [compareDatumsSort_int hx hy, compare_gt_iff_gt]
    split_ifs with hlt
    · simp [amount, hx, hy, hlt.le]
    · simp [amount, hx, hy, not_lt.mp hlt]

end

theorem evalUnary_ungrouped (datums) (valueExtracts : List ScalarFn) (funcs defaultRow rows) :
    ∃ row, evalUnary datums (.aggregate (fun _ => []) valueExtracts funcs (some defaultRow)) rows =
      {row} ∧ (rows = 0 → row = defaultRow) := by
  by_cases hrows : rows = 0
  · exact ⟨defaultRow, by simp [evalUnary, hrows], fun _ => rfl⟩
  · obtain ⟨row, hrow⟩ := Multiset.exists_mem_of_ne_zero hrows
    have hmem : [] ∈ rows.map fun _ => ([] : List Datum) := Multiset.mem_map.mpr ⟨row, hrow, rfl⟩
    have hgroup : (rows.map fun _ => ([] : List Datum)).dedup = {[]} := by
      refine (Multiset.Nodup.ext (Multiset.nodup_dedup _) (Multiset.nodup_singleton _)).mpr
        fun key => ?_
      rw [Multiset.mem_dedup, Multiset.map_const', Multiset.mem_replicate, Multiset.mem_singleton]
      exact and_iff_right (mt Multiset.card_eq_zero.mp hrows)
    rw [evalUnary, hgroup, if_pos hmem]
    exact ⟨_, add_zero _, fun hempty => absurd hempty hrows⟩

theorem emptyValue_sql (func) : SqlResult 0 func (emptyValue func) := by
  cases func with
  | count distinct => cases distinct <;> exact fun _ => rfl
  | sumInt distinct => cases distinct <;> exact ⟨fun _ => rfl, fun hsome => absurd rfl hsome⟩
  | min | max => exact ⟨fun _ => rfl, fun hsome => absurd rfl hsome⟩
  | sumFloat | avg => trivial

/-- On every listing of a group the aggregates are SQL's, whatever the order, and those of the plan
are the same; `COUNT(*)` counts every row, and an aggregate without groups has one row at every
time, on no rows the row of SQL's results there. -/
theorem aggregates_sql (P : Primitives) (floats : DatumAggregate → List (Datum × ℤ) → Datum)
    (funcs : List DatumAggregate) {values : List (List Datum × ℤ)}
    (hpositive : ∀ value ∈ values, 0 < value.2) : (∀ index func, funcs[index]? = some func →
      ((∀ distinct, func ≠ .count distinct) → ∀ d ∈ columnOf index values,
        d = .null ∨ ∃ n, intValue d = some n) →
      ∃ result, (aggregateListed P floats funcs values)[index]? = some result ∧
        SqlResult (columnOf index values) func result) ∧ (∀ values', values'.Perm values →
      aggregateListed P floats funcs values' = aggregateListed P floats funcs values) ∧
    (∀ datums : Datums Datum, datums.evaluate = evaluateBag P floats →
      aggregateDatums datums funcs ↑(expand values) = aggregateListed P floats funcs values) ∧
    (∀ func, SqlResult 0 func (emptyValue func)) ∧
    (∀ C schema agg extract func column, compileAgg C schema agg = .ok (extract, func, column) →
      (parseAggCall agg).2 = "*" → ∀ row, (extract row).isNull = false) ∧
    ∀ C schema aggs recipe columns, compileAggregate C schema [] aggs = .ok (recipe, columns) →
      ∃ calls, aggs.mapM (compileAgg C schema) = .ok calls ∧
        ∀ (datums : Datums Datum) (input : Collection (Row Datum)) time rows,
          input time = some rows →
          ∃ row, installUnary datums recipe input time = some {row} ∧
            (rows = 0 → row = (calls.map fun call => call.2.1).map emptyValue) := by
  refine ⟨fun index func hfunc hints => ?_, fun values' => aggregateListed_perm P floats funcs,
    fun datums hdatums => aggregateDatums_eq hdatums funcs hpositive, emptyValue_sql,
    fun C schema agg extract func column h hstar row => ?_,
    fun C schema aggs recipe columns h => ?_⟩
  · have hentries := columnEntries_positive hpositive index
    refine ⟨_, by rw [aggregateListed, getElem?_map, getElem?_zipIdx, hfunc]; rfl, ?_⟩
    rw [zero_add]
    cases func with
    | count distinct => exact count_sql P floats hentries distinct
    | sumInt distinct => exact sumInt_sql P floats hentries (hints nofun) distinct
    | min => exact extremes_sql P floats hentries (hints nofun) (.inl rfl)
    | max => exact extremes_sql P floats hentries (hints nofun) (.inr rfl)
    | sumFloat | avg => trivial
  · obtain ⟨⟨extract', type⟩, harg, hrest⟩ := Fallible.bind_ok h
    obtain ⟨⟨func', type'⟩, -, hdone⟩ := Fallible.bind_ok hrest
    have harg : compileAggArg C schema (parseAggCall agg).2 = .ok (extract', type) := harg
    rw [hstar] at harg
    cases harg
    cases hdone
    rfl
  · obtain ⟨indices, hindices, hrest⟩ := Fallible.bind_ok h
    obtain ⟨calls, hcalls, hdone⟩ := Fallible.bind_ok hrest
    cases hindices
    cases hdone
    refine ⟨calls, hcalls, fun datums input time rows hrows => ?_⟩
    rw [installUnary_apply, hrows]
    exact (evalUnary_ungrouped ..).imp fun row hrow => ⟨congrArg some hrow.1, hrow.2⟩

theorem two_fives_summed : ∃ result,
    (aggregateListed plainPrimitives (fun _ _ => .null) [.sumInt false]
      [([.i32 5], 2), ([.null], 1)])[0]? = some result ∧
      SqlResult (columnOf 0 [([.i32 5], 2), ([.null], 1)]) (.sumInt false) result := by
  refine (aggregates_sql plainPrimitives _ [.sumInt false] ?_).1 0 _ rfl fun _ d hd => ?_
  · simp
  · have hcases : d = .i32 5 ∨ d = .null := by simpa [columnOf, columnEntries, expand] using hd
    rcases hcases with rfl | rfl
    · exact .inr ⟨5, rfl⟩
    · exact .inl rfl

end Palimpsest.Dataflow
