import Palimpsest.Dataflow.Plan
import Palimpsest.Foundation.FirstPerKey

/-! The operators that rank rows, `topk_by` and `distinct_on_first`, on every listing of their
rows. -/
namespace Palimpsest.Dataflow
open List Prod FirstPerKey

/-! Grouped bags of which one value is kept in each group. -/
section
variable {κ α : Type} [DecidableEq κ] {logic : κ → Multiset α → Multiset α}

/-- One entry of every key, and one that comes first among those of its key. -/
structure Firsts (le : α → α → Prop) (bag picked : Multiset (κ × α)) : Prop where
  keys : picked.map fst = (bag.map fst).dedup
  mem : ∀ entry ∈ picked, entry ∈ bag
  first : ∀ entry ∈ picked, ∀ value, (entry.1, value) ∈ bag → le entry.2 value

theorem Firsts.of_reduce
    (h : ∀ key group, group ≠ 0 → ∃ a ∈ group, logic key group = {a} ∧ ∀ b ∈ group, le a b) :
    Firsts le bag (Bag.reduce logic bag) := by
  have hgroup : ∀ {key value}, value ∈ (bag.filter fun entry => entry.1 = key).map snd ↔
      (key, value) ∈ bag := by
    intro key value
    simp
  have hone : ∀ key ∈ bag.map fst, ∃ a, (key, a) ∈ bag ∧
      logic key ((bag.filter fun entry => entry.1 = key).map snd) = {a} ∧
      ∀ b, (key, b) ∈ bag → le a b := by
    intro key hkey
    obtain ⟨⟨_, b⟩, hb, rfl⟩ := Multiset.mem_map.mp hkey
    obtain ⟨a, ha, hlogic, hle⟩ := h _ _ fun hzero : Multiset.map _ _ = 0 =>
      Multiset.notMem_zero b (hzero ▸ hgroup.mpr hb)
    exact ⟨a, hgroup.mp ha, hlogic, fun c hc => hle c (hgroup.mpr hc)⟩
  have hpicked : ∀ entry ∈ Bag.reduce logic bag, entry ∈ bag ∧
      ∀ value, (entry.1, value) ∈ bag → le entry.2 value := by
    intro entry hentry
    obtain ⟨key, hkey, hmem⟩ := Multiset.mem_bind.mp hentry
    obtain ⟨a, ha, hlogic, hle⟩ := hone key (Multiset.mem_dedup.mp hkey)
    rw [hlogic, Multiset.map_singleton, Multiset.mem_singleton] at hmem
    subst hmem
    exact ⟨ha, hle⟩
  refine ⟨?_, fun entry hentry => (hpicked entry hentry).1,
    fun entry hentry => (hpicked entry hentry).2⟩
  rw [Bag.reduce, Multiset.map_bind]
  refine (Multiset.bind_congr fun key hkey => ?_).trans
    ((Multiset.bind_singleton _ id).trans (Multiset.map_id _))
  obtain ⟨a, -, hlogic, -⟩ := hone key (Multiset.mem_dedup.mp hkey)
  simp [hlogic]

theorem least_of_sort (le : α → α → Prop) [DecidableRel le] [IsTrans α le] [Std.Total le]
    [Std.Antisymm le] {group : Multiset α} (h : group ≠ 0) :
    ∃ a ∈ group, Multiset.ofList (group.sort le).head?.toList = {a} ∧ ∀ b ∈ group, le a b := by
  have hsort := Multiset.pairwise_sort group le
  have hmem : ∀ b, b ∈ group.sort le ↔ b ∈ group := fun b => Multiset.mem_sort le
  cases hlist : group.sort le with
  | nil =>
    rw [← Multiset.sort_eq group le, hlist] at h
    exact absurd rfl h
  | cons a =>
    rw [hlist] at hsort hmem
    refine ⟨a, (hmem a).mp mem_cons_self, rfl, fun b hb => ?_⟩
    rcases mem_cons.mp ((hmem b).mpr hb) with rfl | hrest
    · exact refl (r := le) b
    · exact (pairwise_cons.mp hsort).1 b hrest

end

/-- How the dataflow engine hands the values of a group to the logic of a `reduce`: in some order,
each distinct value once and with its count. -/
structure Listing (α : Type) [DecidableEq α] where
  list : Multiset α → List (α × ℤ)
  nodup : ∀ bag, ((list bag).map fst).Nodup
  mem_list : ∀ bag value weight, (value, weight) ∈ list bag ↔ 0 < weight ∧ weight = bag.count value

def Listing.ofOrder {α : Type} [DecidableEq α] (order : Multiset α → List α)
    (h : ∀ bag, Multiset.ofList (order bag) = bag.dedup) : Listing α where
  list bag := (order bag).map fun value => (value, bag.count value)
  nodup bag := by
    have hnodup := Multiset.nodup_dedup bag
    rw [← h bag, Multiset.coe_nodup] at hnodup
    rw [List.map_map]
    exact (map_id (order bag)).symm ▸ hnodup
  mem_list bag value weight := by
    have hmem : value ∈ order bag ↔ 0 < bag.count value := by
      rw [← Multiset.mem_coe, h bag, Multiset.mem_dedup, Multiset.count_pos]
    simp only [mem_map]
    constructor
    · rintro ⟨_, hvalue, ⟨⟩⟩
      exact ⟨Int.natCast_pos.mpr (hmem.mp hvalue), rfl⟩
    · rintro ⟨hpos, rfl⟩
      exact ⟨value, hmem.mpr (Int.natCast_pos.mp hpos), rfl⟩

section Operators
variable {κ α : Type} [DecidableEq κ] [DecidableEq α]

/-- Rows with multiplicities, written out; those below zero count as none. -/
def expand (values : List (α × ℤ)) : List α :=
  values.flatMap fun value => replicate value.2.toNat value.1

variable (listing : Listing α) (compare : α → α → Ordering) (limit offset : ℕ)

def slice (values : Multiset α) : Multiset α :=
  ↑((((expand (listing.list values)).mergeSort fun a b => (compare a b).isLE).drop offset).take
    limit)

def topkBy (input : Collection α) : Collection α :=
  ((input.map fun value => ((), value)).reduce fun _ => slice listing compare limit offset).map
    snd

def first (values : Multiset α) : Multiset α :=
  ↑(minBy compare (((listing.list values).filter fun value => 0 < value.2).map fst)).toList

def distinctOnFirst (input : Collection (κ × α)) : Collection α :=
  (input.reduce fun _ => first listing compare).map snd

/-- The rows at the positions from `offset` up to `offset + limit` of the sorted bag. -/
structure IsSlice (rows out : Multiset α) : Prop where
  subBag : out ≤ rows
  card : out.card = min limit (rows.card - offset)
  sorted : ∃ sorted : List α, ↑sorted = rows ∧
    sorted.Pairwise (fun a b => (compare a b).isLE = true) ∧
      out = ↑((sorted.drop offset).take limit)

variable {listing compare limit offset}

omit [DecidableEq α] in
theorem IsSlice.of_sorted {sorted : List α} (hrows : ↑sorted = rows)
    (h : sorted.Pairwise fun a b => (compare a b).isLE = true) :
    IsSlice compare limit offset rows ↑((sorted.drop offset).take limit) := by
  refine ⟨?_, ?_, sorted, hrows, h, rfl⟩
  · rw [← hrows]
    exact ((take_sublist ..).trans (drop_sublist ..)).subperm
  · simp [← hrows]

omit [DecidableEq α] in
theorem mem_expand {values : List (α × ℤ)} :
    a ∈ expand values ↔ a ∈ (values.filter fun value => 0 < value.2).map fst := by
  simp only [expand, mem_flatMap, mem_replicate, mem_map, mem_filter, decide_eq_true_eq]
  refine exists_congr fun value => ?_
  rw [and_assoc, eq_comm (a := a)]
  exact and_congr_right fun _ => and_congr_left fun _ => by omega

theorem count_expand {values : List (α × ℤ)} (h : (values.map fst).Nodup) (a : α) :
    (expand values).count a = ((values.find? fun value => value.1 = a).elim 0 snd).toNat := by
  induction values with
  | nil => rfl
  | cons value values ih =>
    obtain ⟨hnew, hrest⟩ := nodup_cons.mp h
    rw [expand, flatMap_cons, count_append, ← expand, ih hrest, count_replicate, find?_cons]
    by_cases ha : value.1 = a
    · have hnone : (values.find? fun value => value.1 = a) = none := by
        rw [find?_eq_none]
        intro other hother
        have hne : other.1 ≠ a := fun heq => hnew (mem_map.mpr ⟨other, hother, heq.trans ha.symm⟩)
        simpa using hne
      simp [ha, hnone]
    · simp [ha]

/-- Written out, a listing is the bag again. -/
theorem Listing.expand_list (listing : Listing α) (bag : Multiset α) :
    Multiset.ofList (expand (listing.list bag)) = bag := by
  ext a
  rw [Multiset.coe_count, count_expand (listing.nodup bag)]
  cases hfind : (listing.list bag).find? fun value => value.1 = a with
  | none =>
    have habs : ∀ weight, (a, weight) ∉ listing.list bag := by
      intro weight hmem
      simpa using find?_eq_none.mp hfind _ hmem
    have hzero := habs (bag.count a)
    rw [listing.mem_list] at hzero
    simp only [Option.elim_none, Int.toNat_zero]
    omega
  | some value =>
    obtain rfl : value.1 = a := by simpa using find?_some hfind
    have hcount := ((listing.mem_list bag value.1 value.2).mp (mem_of_find?_eq_some hfind)).2
    simp [hcount]

theorem slice_zero : slice listing compare limit offset 0 = 0 := by
  have hnil : expand (listing.list 0) = [] := by simpa using listing.expand_list 0
  simp [slice, hnil]

theorem topkBy_apply (h : input time = some bag) :
    topkBy listing compare limit offset input time =
      some (slice listing compare limit offset bag) := by
  have hzero : slice listing compare limit offset 0 = 0 := slice_zero
  simpa [topkBy, h] using Bag.reduce_unit hzero bag

variable [Std.TransCmp compare]

variable (compare) in
omit [DecidableEq α] in
theorem pairwise_sorted (values : List α) :
    (values.mergeSort fun a b => (compare a b).isLE).Pairwise fun a b =>
      (compare a b).isLE = true := by
  refine pairwise_mergeSort (fun _ _ _ => Std.TransCmp.isLE_trans) (fun a b => ?_) values
  cases hab : compare a b with
  | lt | eq => rfl
  | gt => rw [Std.OrientedCmp.gt_iff_lt.mp hab]; rfl

theorem slice_isSlice (bag) :
    IsSlice compare limit offset bag (slice listing compare limit offset bag) :=
  .of_sorted ((Multiset.coe_eq_coe.mpr (mergeSort_perm _ _)).trans (listing.expand_list bag))
    (pairwise_sorted compare _)

variable (compare) in
theorem first_least (listing : Listing α) (hgroup : group ≠ 0) :
    ∃ a ∈ group, first listing compare group = {a} ∧ ∀ b ∈ group, (compare a b).isLE = true := by
  have hmem : ∀ a, a ∈ ((listing.list group).filter fun value => 0 < value.2).map fst ↔
      a ∈ group := by
    intro a
    rw [← mem_expand, ← Multiset.mem_coe, listing.expand_list]
  unfold first
  cases hvals : ((listing.list group).filter fun value => 0 < value.2).map fst with
  | nil =>
    obtain ⟨a, ha⟩ := Multiset.exists_mem_of_ne_zero hgroup
    simp [← hmem, hvals] at ha
  | cons a rest =>
    rw [hvals] at hmem
    obtain ⟨m, hm, hmin, hle⟩ := minBy_least compare a rest
    exact ⟨m, (hmem m).mp hm, by simp [hmin], fun b hb => hle b ((hmem b).mpr hb)⟩

end Operators

section
variable {δ : Type} [DecidableEq δ] (values : Datums δ) (onExtract sortExtract : Row δ → List δ)
  (descending : List Bool) (rows : Multiset (Row δ))

def sortCompare (a b : Row δ) : Ordering :=
  keysCompare values descending.zipIdx (sortExtract a) (sortExtract b)

theorem topK_isSlice (limit offset : ℕ) :
    IsSlice (sortCompare values sortExtract descending) limit offset rows
      (evalUnary values (.topK sortExtract descending limit offset) rows) :=
  .of_sorted (Multiset.sort_eq rows _) ((Multiset.pairwise_sort rows
    (rowLe values sortExtract descending)).imp Ordering.isLE_left_of_isLE_then)

theorem distinctOn_firsts : ∃ picked,
    evalUnary values (.distinctOn onExtract sortExtract descending) rows = picked.map snd ∧
      Firsts (rowLe values sortExtract descending) (rows.map fun row => (onExtract row, row))
        picked := by
  refine ⟨_, ?_, .of_reduce fun _ group => least_of_sort _⟩
  simp [Bag.reduce_map, evalUnary, Multiset.map_bind]

end

section Installed
variable {δ : Type} [DecidableEq δ] (values : Datums δ) (listing : Listing (List δ × Row δ))
  (onExtract sortExtract : Row δ → List δ) (descending : List Bool)

omit [DecidableEq δ] in
theorem sortKeyComparator_trans : Std.TransCmp (sortKeyComparator values descending) := by
  have hkeys := keysCompare_trans values descending.zipIdx
  have hrows := values.row_trans
  have hfirst : Std.TransCmp fun a b : List δ × Row δ =>
      keysCompare values descending.zipIdx a.1 b.1 :=
    { eq_swap := Std.OrientedCmp.eq_swap, isLE_trans := Std.TransCmp.isLE_trans }
  have hsnd : Std.TransCmp fun a b : List δ × Row δ => values.rowCompare a.2 b.2 :=
    { eq_swap := Std.OrientedCmp.eq_swap, isLE_trans := Std.TransCmp.isLE_trans }
  exact inferInstanceAs (Std.TransCmp (compareLex
    (fun a b : List δ × Row δ => keysCompare values descending.zipIdx a.1 b.1)
    fun a b => values.rowCompare a.2 b.2))

/-- The installed operator is `topk_by` over the rows with their sort keys. No two different rows
are equal to its comparator, so the order of the listing does not matter. -/
theorem installUnary_topK (limit offset : ℕ) (input) :
    installUnary values (.topK sortExtract descending limit offset) input =
      (topkBy listing (sortKeyComparator values descending) limit offset
        (input.map fun row => (sortExtract row, row))).map snd := by
  have htrans := sortKeyComparator_trans values descending
  funext time
  rw [installUnary_apply]
  cases hrows : input time with
  | none => simp [topkBy, hrows]
  | some rows =>
    have hbag : (input.map fun row => (sortExtract row, row)) time =
        some (rows.map fun row => (sortExtract row, row)) := by simp [hrows]
    have hsorted : ((expand (listing.list (rows.map fun row => (sortExtract row, row)))).mergeSort
        fun a b => (sortKeyComparator values descending a b).isLE).map snd =
          rows.sort (rowLe values sortExtract descending) := by
      have hperm := Multiset.coe_eq_coe.mpr (mergeSort_perm
        (expand (listing.list (rows.map fun row => (sortExtract row, row))))
        fun a b => (sortKeyComparator values descending a b).isLE)
      rw [listing.expand_list] at hperm
      refine Perm.eq_of_pairwise' (r := rowLe values sortExtract descending) ?_
        (Multiset.pairwise_sort rows _) (Multiset.coe_eq_coe.mp ?_)
      · refine pairwise_map.mpr ((pairwise_sorted _ _).imp_of_mem fun ha hb hle => ?_)
        rw [← Multiset.mem_coe, hperm, Multiset.mem_map] at ha hb
        obtain ⟨a, -, rfl⟩ := ha
        obtain ⟨b, -, rfl⟩ := hb
        exact hle
      · rw [Multiset.sort_eq, ← Multiset.map_coe, hperm]
        simp
    show _ = (topkBy listing _ limit offset
      (input.map fun row => (sortExtract row, row)) time).map _
    rw [topkBy_apply hbag]
    simp only [Option.map_some, evalUnary, slice, Multiset.map_coe, map_take, map_drop, hsorted]

theorem installUnary_distinctOn (input) :
    installUnary values (.distinctOn onExtract sortExtract descending) input =
      (distinctOnFirst listing (sortKeyComparator values descending)
        (input.map fun row => (onExtract row, (sortExtract row, row)))).map snd := by
  have htrans := sortKeyComparator_trans values descending
  funext time
  rw [installUnary_apply]
  cases hrows : input time with
  | none => simp [distinctOnFirst, hrows]
  | some rows =>
    simp only [distinctOnFirst, Collection.map, Collection.lift, Collection.reduce, hrows,
      Option.map_some, Bag.reduce_map, Multiset.map_bind, evalUnary]
    refine congrArg some (Multiset.bind_congr fun group hgroup => ?_)
    obtain ⟨row, hrow, hkey⟩ := Multiset.mem_map.mp (Multiset.mem_dedup.mp hgroup)
    have hmem : row ∈ rows.filter fun row => onExtract row = group :=
      Multiset.mem_filter.mpr ⟨hrow, hkey⟩
    obtain ⟨a, ha, hsort, hle⟩ := least_of_sort (rowLe values sortExtract descending)
      fun hzero => Multiset.notMem_zero row (hzero ▸ hmem)
    obtain ⟨entry, hentry, hfirst, hleast⟩ := first_least
      (sortKeyComparator values descending) listing fun hzero =>
        Multiset.notMem_zero (sortExtract row, row)
        (hzero ▸ Multiset.mem_map_of_mem (fun row => (sortExtract row, row)) hmem)
    obtain ⟨b, hb, rfl⟩ := Multiset.mem_map.mp hentry
    have hsame : a = b := antisymm (r := rowLe values sortExtract descending) (hle b hb)
      (hleast _ (Multiset.mem_map_of_mem _ ha))
    rw [hsort, hfirst, hsame]
    rfl

end Installed

/-- On any listing of its rows `topk_by` cuts its slice out of the sorted bag, and
`distinct_on_first` keeps one row of every key that comes first there. The operators a plan is
compiled to are these two, with the comparator of the sort keys. -/
theorem ranking_operators_correct {κ α δ : Type} [DecidableEq κ] [DecidableEq α] [DecidableEq δ]
    (listing : Listing α) (rowListing : Listing (List δ × Row δ)) (compare : α → α → Ordering)
    [Std.TransCmp compare] :
    (∀ limit offset (input : Collection α) time bag, input time = some bag →
      ∃ out, topkBy listing compare limit offset input time = some out ∧
        IsSlice compare limit offset bag out) ∧
    (∀ (input : Collection (κ × α)) time bag, input time = some bag →
      ∃ picked, distinctOnFirst listing compare input time = some (picked.map snd) ∧
        Firsts (fun a b => (compare a b).isLE = true) bag picked) ∧
    ∀ (values : Datums δ) sortExtract descending (input : Collection (Row δ)),
      (∀ limit offset, installUnary values (.topK sortExtract descending limit offset) input =
        (topkBy rowListing (sortKeyComparator values descending) limit offset
          (input.map fun row => (sortExtract row, row))).map snd) ∧
      (∀ onExtract, installUnary values (.distinctOn onExtract sortExtract descending) input =
        (distinctOnFirst rowListing (sortKeyComparator values descending)
          (input.map fun row => (onExtract row, (sortExtract row, row)))).map snd) ∧
      ∀ time rows, input time = some rows → (∀ limit offset, ∃ out,
          installUnary values (.topK sortExtract descending limit offset) input time = some out ∧
            IsSlice (sortCompare values sortExtract descending) limit offset rows out) ∧
        ∀ onExtract, ∃ picked,
          installUnary values (.distinctOn onExtract sortExtract descending) input
            time = some (picked.map snd) ∧
          Firsts (fun a b => (sortCompare values sortExtract descending a b).isLE = true)
            (rows.map fun row => (onExtract row, row)) picked := by
  refine ⟨fun limit offset input time bag h => ⟨_, topkBy_apply h, slice_isSlice bag⟩,
    fun input time bag h => ⟨_, by simp [distinctOnFirst, h],
      .of_reduce fun _ group => first_least _ listing⟩,
    fun values sortExtract descending input =>
      ⟨fun _ _ => installUnary_topK .., fun _ => installUnary_distinctOn .., fun time rows h =>
        ⟨fun limit offset => ⟨_, by simp [installUnary_apply, h], topK_isSlice ..⟩,
          fun onExtract => ?_⟩⟩⟩
  obtain ⟨picked, heq, hkeys, hmem, hfirst⟩ :=
    distinctOn_firsts values onExtract sortExtract descending rows
  refine ⟨picked, by simp [installUnary_apply, h, ← heq], hkeys, hmem, ?_⟩
  intro entry hentry value hvalue
  exact Ordering.isLE_left_of_isLE_then (hfirst entry hentry value hvalue)

/-- One of the three twos is behind the cut. -/
theorem numbers_ranked : ∃ out, topkBy (.ofOrder (fun bag => bag.dedup.sort (· ≤ ·)) fun _ =>
      Multiset.sort_eq ..) compare 2 1 (.constant {3, 1, 2, 2, 2}) 0 = some out ∧
    IsSlice compare 2 1 {3, 1, 2, 2, 2} out ∧ out = ({2, 2} : Multiset ℕ) := by
  obtain ⟨out, hout, hslice⟩ := (ranking_operators_correct (κ := ℕ) (δ := ℕ)
    (.ofOrder (fun bag => bag.dedup.sort (· ≤ ·)) fun _ => Multiset.sort_eq ..)
    (.ofOrder (fun bag => bag.dedup.toList) fun _ => Multiset.coe_toList _) compare).1 2 1
    (.constant {3, 1, 2, 2, 2}) 0 {3, 1, 2, 2, 2} rfl
  refine ⟨out, hout, hslice, ?_⟩
  obtain ⟨sorted, hrows, hpairwise, hcut⟩ := hslice.sorted
  have hsorted : sorted = [1, 2, 2, 2, 3] := by
    refine Perm.eq_of_pairwise (fun a b _ _ hab hba => ?_) hpairwise (by decide)
      (Multiset.coe_eq_coe.mp (hrows.trans (by decide)))
    rw [Nat.isLE_compare] at hab hba
    exact le_antisymm hab hba
  rw [hcut, hsorted]
  rfl

end Palimpsest.Dataflow
