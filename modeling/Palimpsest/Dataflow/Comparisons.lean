import Palimpsest.Dataflow.SortOrder
import Palimpsest.Dataflow.ThreeValued

/-! Whether two values compare everywhere as one ordering says: in filters, as join and group keys,
in set operations, in sorting and as extremes. -/
namespace Palimpsest.Dataflow
open Multiset

/-- The least value other than NULL, the first one where several are least. -/
def minDatum (P : Primitives) (column : List Datum) : Datum :=
  match column.filter fun d => !d.isNull with
  | [] => .null
  | d :: rest => rest.foldl (fun best d => if compareDatumsSort P best d = .gt then d else best) d

/-- The greatest value other than NULL, the last one where several are greatest. -/
def maxDatum (P : Primitives) (column : List Datum) : Datum :=
  match column.filter fun d => !d.isNull with
  | [] => .null
  | d :: rest => rest.foldl (fun best d => if compareDatumsSort P best d = .gt then best else d) d

/-- The operators answer as they should for values that compare as `o`. -/
def FiltersAs (P : Primitives) (ops : List BinaryOperator) (o : Ordering) (a b : Datum) : Prop :=
  ∀ op ∈ ops, ∀ test, op.test = some test → binaryDatum P op a b = .bool (test o)

/-- The operators on whole rows take `x` and `y` for one row just if `same` holds. -/
structure SameRow (values : Datums Datum) (x y : Row Datum) (same : Prop) : Prop where
  group : (evalUnary values (.aggregate (fun row => row) [] [] none) {x, y}).card = 1 ↔ same
  distinct : (evalUnary values .distinct {x, y}).card = 1 ↔ same
  union : (evalDual values (.union false) {x} {y}).card = 1 ↔ same
  intersect : ∀ all, evalDual values (.setOp true all) {x} {y} ≠ 0 ↔ same
  except : ∀ all, evalDual values (.setOp false all) {x} {y} = 0 ↔ same

/-- Two values compare as `o` wherever a query can compare them. -/
structure ComparesAs (values : Datums Datum) (P : Primitives) (ops : List BinaryOperator)
    (o : Ordering) (a b : Datum) : Prop where
  filter : FiltersAs P ops o a b
  join : ∀ (left right : Row Datum) (i j : ℕ), left.getD i values.null = a →
    right.getD j values.null = b → (Matches values [i] [j] left right ↔ o = .eq)
  rows : ∀ before after, SameRow values (before ++ a :: after) (before ++ b :: after) (o = .eq)
  sort : compareDatumsSort P a b = o
  least : minDatum P [a, b] = if o = .gt then b else a
  greatest : maxDatum P [a, b] = if o = .gt then a else b

section
variable {values : Datums Datum} {P : Primitives}

theorem sameRow_iff : SameRow values x y same ↔ (x = y ↔ same) := by
  constructor
  · intro h
    rw [← h.distinct, evalUnary]
    by_cases hxy : x = y <;> simp [hxy]
  · intro h
    rw [← propext h]
    refine ⟨?_, ?_, ?_, ?_, ?_⟩
    · by_cases hxy : x = y <;> simp [evalUnary, hxy]
    · by_cases hxy : x = y <;> simp [evalUnary, hxy]
    · by_cases hxy : x = y <;> simp [evalDual, hxy]
    · intro all
      cases all <;> simp [evalDual, eq_zero_iff_forall_notMem]
    · intro all
      by_cases hxy : x = y <;> cases all <;>
        simp [evalDual, hxy, Ne.symm]

theorem matches_iff (hnull : values.null = .null) (hb : b.isNull = false)
    (hleft : left.getD i values.null = a) (hright : right.getD j values.null = b) :
    Matches values [i] [j] left right ↔ a = b := by
  have hne : values.null ≠ b := by
    rintro rfl
    simp [hnull] at hb
  simp only [Matches, keyOf, List.map_cons, List.map_nil, hleft, hright, List.mem_singleton, hne,
    List.cons.injEq, and_true, not_false_eq_true]
  exact eq_comm

/-- Where the evaluator orders two values, its operators all go by that order. -/
theorem binaryDatum_of_ordering (hcmp : datumOrdering P a b = some c) (heq : datumEq P a b = c.isEq)
    (htest : op.test = some test) : binaryDatum P op a b = .bool (test c) := by
  cases op <;> cases htest
  case eq => rw [binaryDatum, heq]
  case notEq =>
    rw [binaryDatum, heq]
    cases c <;> rfl
  all_goals rw [binaryDatum, datumCmpBool, hcmp]

theorem filtersAs_iff (hlt : .lt ∈ ops) (hgt : .gt ∈ ops) (hcmp : datumOrdering P a b = some c)
    (heq : datumEq P a b = c.isEq) : FiltersAs P ops o a b ↔ o = c := by
  constructor
  · intro h
    have hless := (binaryDatum_of_ordering hcmp heq rfl).symm.trans (h .lt hlt _ rfl)
    have hgreater := (binaryDatum_of_ordering hcmp heq rfl).symm.trans (h .gt hgt _ rfl)
    revert hless hgreater
    cases o <;> cases c <;> decide
  · rintro rfl op - test htest
    exact binaryDatum_of_ordering hcmp heq htest

/-- Where it does not, they can only be right on equal values. -/
theorem FiltersAs.unordered (h : FiltersAs P ops o a b) (hlt : .lt ∈ ops) (hgt : .gt ∈ ops)
    (heq : .eq ∈ ops) (hcmp : datumOrdering P a b = none) : o = .eq ∧ datumEq P a b = true := by
  have hless := h .lt hlt _ rfl
  have hgreater := h .gt hgt _ rfl
  have hequal := h .eq heq _ rfl
  simp only [binaryDatum, datumCmpBool, hcmp, Datum.bool.injEq] at hless hgreater hequal
  cases o with
  | lt => cases hless
  | eq => exact ⟨rfl, hequal⟩
  | gt => cases hgreater

theorem comparesAs_iff (hnull : values.null = .null) (ha : a.isNull = false)
    (hb : b.isNull = false) : ComparesAs values P ops o a b ↔
      FiltersAs P ops o a b ∧ (a = b ↔ o = .eq) ∧ compareDatumsSort P a b = o := by
  constructor
  · intro h
    refine ⟨h.filter, ?_, h.sort⟩
    have hrow := sameRow_iff.mp (h.rows [] [])
    simpa using hrow
  · rintro ⟨hfilt, hsame, hsort⟩
    refine ⟨hfilt, ?_, ?_, hsort, ?_, ?_⟩
    · intro left right i j hleft hright
      rw [matches_iff hnull hb hleft hright, hsame]
    · intro prev after
      simp [sameRow_iff, ← hsame]
    · simp [minDatum, ha, hb, hsort]
    · simp [maxDatum, ha, hb, hsort]

end

/-! Integers of any widths. -/
section
variable {values : Datums Datum} {P : Primitives} {a b : Datum}

def comparisons : List BinaryOperator := [.eq, .notEq, .lt, .ltEq, .gt, .gtEq]

theorem datumEq_int (ha : intValue a = some x) (hb : intValue b = some y) :
    datumEq P a b = (compare x y).isEq := by
  rw [Bool.eq_iff_iff]
  cases a <;> cases ha <;> cases b <;> cases hb <;>
    simp [datumEq, ← Int16.toInt_inj, ← Int32.toInt_inj, ← Int64.toInt_inj]

theorem datumOrdering_int (ha : intValue a = some x) (hb : intValue b = some y) :
    datumOrdering P a b =
      if a.tag = b.tag ∨ a.tag ≠ 1 ∧ b.tag ≠ 1 then some (compare x y) else none := by
  cases a <;> cases ha <;> cases b <;> cases hb <;> rfl

theorem eq_iff_of_int (ha : intValue a = some x) (hb : intValue b = some y) :
    a = b ↔ a.tag = b.tag ∧ x = y := by
  cases a <;> cases ha <;> cases b <;> cases hb <;>
    simp [Datum.tag, Int16.toInt_inj, Int32.toInt_inj, Int64.toInt_inj]

theorem compareDatumsSort_int (ha : intValue a = some x) (hb : intValue b = some y) :
    compareDatumsSort P a b = compare x y := by
  cases a <;> cases ha <;> cases b <;> cases hb <;> rfl

/-- Two integers compare by value everywhere just if they have the same width, or neither is of 16
bits and they are different: 16 bits are not ordered against other widths, and rows with integers of
different widths are different rows. -/
theorem integers_compare_iff (hnull : values.null = .null) (ha : intValue a = some x)
    (hb : intValue b = some y) : ComparesAs values P comparisons (compare x y) a b ↔
      a.tag = b.tag ∨ a.tag ≠ 1 ∧ b.tag ≠ 1 ∧ x ≠ y := by
  have hpres {d : Datum} {z : ℤ} (h : intValue d = some z) : d.isNull = false := by
    cases d <;> first | rfl | cases h
  have hordering := datumOrdering_int (P := P) ha hb
  rw [comparesAs_iff hnull (hpres ha) (hpres hb), eq_iff_of_int ha hb, compare_eq_iff_eq]
  by_cases hordered : a.tag = b.tag ∨ a.tag ≠ 1 ∧ b.tag ≠ 1
  · rw [if_pos hordered] at hordering
    have hfilt : FiltersAs P comparisons (compare x y) a b :=
      (filtersAs_iff (by decide) (by decide) hordering (datumEq_int ha hb)).mpr rfl
    simp only [compareDatumsSort_int ha hb]
    tauto
  · rw [if_neg hordered] at hordering
    constructor
    · rintro ⟨hfilt, -⟩
      obtain ⟨heq, -⟩ := hfilt.unordered (by decide) (by decide) (by decide) hordering
      -- equal values are at most each other
      have hle := hfilt .ltEq (by decide) _ rfl
      simp [binaryDatum, datumCmpBool, hordering, heq] at hle
    · tauto

theorem equal_widths_compare :
    ComparesAs sampleDatums plainPrimitives comparisons .lt (.i16 2) (.i16 3) :=
  (integers_compare_iff (x := 2) (y := 3) rfl rfl rfl).mpr (Or.inl rfl)

/-- A one of 32 bits is equal to a one of 64 bits, and is not joined with it. -/
theorem widths_not_joined : datumEq plainPrimitives (.i32 1) (.i64 1) = true ∧
      ¬ ComparesAs sampleDatums plainPrimitives comparisons .eq (.i32 1) (.i64 1) := by
  refine ⟨by decide, fun h => ?_⟩
  have hjoin := (h.join [.i32 1] [.i64 1] 0 0 rfl rfl).mpr rfl
  cases (List.cons.inj hjoin.1).1

end

/-! The exact kinds beside the integers. `o` is how the database orders the values. -/
section Exact
variable {values : Datums Datum} {P : Primitives} {a b : Datum}

def Datum.isExact : Datum → Bool
  | .bool _ | .numeric _ | .text _ | .bytea _ | .date _ | .time _ | .timestamp _ | .timestampTz _
  | .uuid _ | .array _ => true
  | _ => false

def trichotomy : List BinaryOperator := [.lt, .eq, .gt, .notEq]

def Datum.isOrdered : Datum → Bool
  | .text _ | .uuid _ => true
  | _ => false

theorem ordered_compare (ha : a.isOrdered = true) (hb : b.tag = a.tag) :
    datumOrdering P a b = some (derivedCompare a b) ∧
      datumEq P a b = (derivedCompare a b).isEq ∧ (a = b ↔ derivedCompare a b = .eq) := by
  cases a <;> cases ha <;> cases b <;> cases hb
  case text.refl.text.refl x y =>
    refine ⟨rfl, ?_, ?_⟩
    · rw [Bool.eq_iff_iff, derivedCompare]
      simp [datumEq]
    · rw [derivedCompare, Std.LawfulEqOrd.compare_eq_iff_eq, Datum.text.injEq]
  case uuid.refl.uuid.refl x y =>
    refine ⟨rfl, ?_, ?_⟩
    · rw [Bool.eq_iff_iff, derivedCompare]
      simp [datumEq]
    · rw [derivedCompare, Std.LawfulEqOrd.compare_eq_iff_eq, Datum.uuid.injEq]

theorem unordered_compare (ha : a.isExact = true) (hordered : a.isOrdered = false)
    (hb : b.tag = a.tag ∨ ∃ t, b = .text t) : datumOrdering P a b = none ∧
      (datumEq P a b = true ↔ a.tag = 0 ∧ a = b) := by
  rcases hb with hb | ⟨t, rfl⟩
  · cases a <;> cases ha <;> cases hordered <;> cases b <;> cases hb <;>
      simp [datumOrdering, datumEq, Datum.tag]
  · cases a <;> cases ha <;> cases hordered <;> simp [datumOrdering, datumEq]

theorem sameKind_compare_iff (hnull : values.null = .null) (ha : a.isExact = true)
    (hb : b.tag = a.tag) : ComparesAs values P trichotomy o a b ↔
      a.isOrdered = true ∧ o = derivedCompare a b ∨ a.tag = 0 ∧ a = b ∧ o = .eq := by
  have hpres : a.isNull = false ∧ b.isNull = false := by
    cases a <;> cases ha <;> cases b <;> cases hb <;> exact ⟨rfl, rfl⟩
  have hsort : compareDatumsSort P a b = derivedCompare a b := by
    cases a <;> cases ha <;> cases b <;> cases hb <;> rfl
  rw [comparesAs_iff hnull hpres.1 hpres.2, hsort]
  cases hordered : a.isOrdered with
  | true =>
    obtain ⟨hcmp, heq, hsame⟩ := ordered_compare (P := P) hordered hb
    rw [filtersAs_iff (by decide) (by decide) hcmp heq]
    constructor
    · rintro ⟨rfl, -⟩
      exact .inl ⟨rfl, rfl⟩
    · rintro (⟨-, rfl⟩ | ⟨htag, -⟩)
      · exact ⟨rfl, hsame, rfl⟩
      · cases a <;> cases htag
        cases hordered
  | false =>
    obtain ⟨hcmp, heq⟩ := unordered_compare (P := P) ha hordered (.inl hb)
    constructor
    · rintro ⟨hfilt, -⟩
      obtain ⟨rfl, hequal⟩ := hfilt.unordered (by decide) (by decide) (by decide) hcmp
      obtain ⟨htag, hab⟩ := heq.mp hequal
      exact .inr ⟨htag, hab, rfl⟩
    · rintro (⟨hfalse, -⟩ | ⟨htag, rfl, rfl⟩)
      · cases hfalse
      · have hequal := heq.mpr ⟨htag, rfl⟩
        refine ⟨?_, by simp, derivedCompare_self a⟩
        intro op hop test htest
        simp only [trichotomy, List.mem_cons, List.not_mem_nil, or_false] at hop
        rcases hop with rfl | rfl | rfl | rfl <;> cases htest <;>
          simp [binaryDatum, datumCmpBool, hcmp, hequal]

theorem uuid_literal_iff :
    FiltersAs P trichotomy o (.uuid u) (.text t) ↔ ∃ v, P.parseUuid t = some v ∧
      o = compare u v := by
  cases hprs : P.parseUuid t with
  | none =>
    have hcmp : datumOrdering P (.uuid u) (.text t) = none := by simp [datumOrdering, hprs]
    constructor
    · intro hfilt
      obtain ⟨-, hequal⟩ := hfilt.unordered (by decide) (by decide) (by decide) hcmp
      simp [datumEq, hprs] at hequal
    · simp
  | some v =>
    have hcmp : datumOrdering P (.uuid u) (.text t) = some (compare u v) := by
      simp [datumOrdering, hprs]
    have heq : datumEq P (.uuid u) (.text t) = (compare u v).isEq := by
      rw [Bool.eq_iff_iff, Ordering.isEq_iff_eq_eq, Std.LawfulEqOrd.compare_eq_iff_eq]
      simp only [datumEq, hprs, beq_iff_eq, Option.some.injEq]
      exact eq_comm
    rw [filtersAs_iff (by decide) (by decide) hcmp heq]
    simp

/-- Values of one exact kind compare as the database has it just if they are texts or uuids that it
orders byte by byte, or one truth value; a text literal compares with a column just if that is a
text in that order, or a uuid and the literal reads as one. Numerics, dates, times and the others
are neither equal nor ordered. -/
theorem exact_compare_iff (hnull : values.null = .null) (ha : a.isExact = true) :
    (b.tag = a.tag → (ComparesAs values P trichotomy o a b ↔
      a.isOrdered = true ∧ o = derivedCompare a b ∨ a.tag = 0 ∧ a = b ∧ o = .eq)) ∧
    ∀ t, FiltersAs P trichotomy o a (.text t) ↔ (∃ x, a = .text x ∧ o = compare x t) ∨
        ∃ u v, a = .uuid u ∧ P.parseUuid t = some v ∧ o = compare u v := by
  refine ⟨sameKind_compare_iff hnull ha, fun t => ?_⟩
  cases hordered : a.isOrdered with
  | true =>
    match a, hordered with
    | .text x, _ =>
      obtain ⟨hcmp, heq, -⟩ := ordered_compare (P := P) (a := .text x) (b := .text t) rfl rfl
      rw [filtersAs_iff (by decide) (by decide) hcmp heq]
      simp [derivedCompare]
    | .uuid u, _ =>
      rw [uuid_literal_iff]
      simp
  | false =>
    obtain ⟨hcmp, heq⟩ := unordered_compare (P := P) ha hordered (.inr ⟨t, rfl⟩)
    constructor
    · intro hfilt
      obtain ⟨-, hequal⟩ := hfilt.unordered (by decide) (by decide) (by decide) hcmp
      obtain ⟨-, rfl⟩ := heq.mp hequal
      cases hordered
    · rintro (⟨x, rfl, -⟩ | ⟨u, v, rfl, -⟩)
      · cases hordered
      · cases hordered

theorem words_compare :
    ComparesAs sampleDatums plainPrimitives trichotomy .lt (.text "a") (.text "b") :=
  ((exact_compare_iff (a := .text "a") (b := .text "b") rfl rfl).1 rfl).mpr
    (Or.inl ⟨rfl, by decide⟩)

/-- A date is not equal to itself. -/
theorem date_unequal : ¬ FiltersAs plainPrimitives trichotomy .eq (.date 0) (.date 0) := by
  intro h
  have hequal := h .eq (by decide) _ rfl
  revert hequal
  decide

end Exact

end Palimpsest.Dataflow
