import Palimpsest.Dataflow.Ranking
import Palimpsest.Dataflow.DatumCode
import Palimpsest.Foundation.Comparator

/-! `ORDER BY`: the comparator of the dataflow, the order that SQL asks for, and when sorting by the
one is sorting by the other. -/
namespace Palimpsest.Dataflow
open List

/-! The comparator. -/
section Comparator

def intValue : Datum → Option ℤ
  | .i64 v => some v.toInt
  | .i32 v => some v.toInt
  | .i16 v => some v.toInt
  | _ => none

def floatValue (P : Primitives) : Datum → Option UInt64
  | .f64 bits => some bits
  | .f32 bits => some (P.widen bits)
  | .i64 v => some (P.ofInt v)
  | .i32 v => some (P.ofInt v.toInt64)
  | .i16 v => some (P.ofInt v.toInt64)
  | _ => none

mutual

/-- The derived order: kinds in the order of their declaration, then contents. -/
def derivedCompare : Datum → Datum → Ordering
  | .bool x, .bool y => compare x y
  | .i16 x, .i16 y => compare x.toInt y.toInt
  | .i32 x, .i32 y => compare x.toInt y.toInt
  | .i64 x, .i64 y => compare x.toInt y.toInt
  | .f32 x, .f32 y => compare x y
  | .f64 x, .f64 y => compare x y
  | .numeric x, .numeric y => compare x y
  | .text x, .text y => compare x y
  | .bytea x, .bytea y => compare x y
  | .date x, .date y => compare x.toInt y.toInt
  | .time x, .time y => compare x.toInt y.toInt
  | .timestamp x, .timestamp y => compare x.toInt y.toInt
  | .timestampTz x, .timestampTz y => compare x.toInt y.toInt
  | .interval m d u, .interval m' d' u' =>
    (compare m.toInt m'.toInt).then ((compare d.toInt d'.toInt).then (compare u.toInt u'.toInt))
  | .uuid x, .uuid y => compare x y
  | .json x, .json y => compare x y
  | .jsonb x, .jsonb y => compare x y
  | .array xs, .array ys => derivedCompareItems xs ys
  | a, b => compare a.tag b.tag

def derivedCompareItems : List Datum → List Datum → Ordering
  | [], [] => .eq
  | [], _ :: _ => .lt
  | _ :: _, [] => .gt
  | x :: xs, y :: ys => (derivedCompare x y).then (derivedCompareItems xs ys)

end

/-- NULL is greater than everything; numbers compare across widths, with a float that is not a
number equal to all. -/
def compareDatumsSort (P : Primitives) (a b : Datum) : Ordering :=
  match a.isNull, b.isNull with
  | true, true => .eq
  | true, false => .gt
  | false, true => .lt
  | false, false =>
    match intValue a, intValue b with
    | some x, some y => compare x y
    | _, _ =>
      match floatValue P a, floatValue P b with
      | some x, some y => (P.floatCmp x y).getD .eq
      | _, _ => derivedCompare a b

/-- One sort key in its direction; a missing one counts as NULL. -/
def datumKeyCompare (P : Primitives) (key : Bool × ℕ) (left right : List Datum) : Ordering :=
  let ordering := compareDatumsSort P (left.getD key.2 .null) (right.getD key.2 .null)
  if key.1 then ordering.swap else ordering

/-- `sort_key_comparator` on values: the keys in turn, then the rows' derived order. -/
def datumKeyComparator (P : Primitives) (descending : List Bool) (a b : List Datum × Row Datum) :
    Ordering :=
  (descending.zipIdx.foldr (fun key rest => (datumKeyCompare P key a.1 b.1).then rest) .eq).then
    (derivedCompareItems a.2 b.2)

end Comparator

/-! The comparator's laws. -/
section Laws
open Comparator

def Datum.isFloat : Datum → Bool
  | .f32 _ | .f64 _ => true
  | _ => false

theorem derivedCompare_tag (a b) :
    derivedCompare a b = (compare a.tag b.tag).then (derivedCompare a b) := by
  cases a <;> cases b <;> rfl

mutual

theorem derivedCompare_self : ∀ a : Datum, derivedCompare a a = .eq
  | .array items => derivedCompareItems_self items
  | .bool _ | .i16 _ | .i32 _ | .i64 _ | .f32 _ | .f64 _ | .numeric _ | .text _ | .bytea _
  | .date _ | .time _ | .timestamp _ | .timestampTz _ | .uuid _ | .json _ | .jsonb _ | .null
  | .unchanged => Std.ReflOrd.compare_self
  | .interval _ _ _ => by simp [derivedCompare]

theorem derivedCompareItems_self : ∀ items : List Datum, derivedCompareItems items items = .eq
  | [] => rfl
  | item :: items => by
    simp [derivedCompareItems, derivedCompare_self item, derivedCompareItems_self items]

end

theorem chained_compare [Ord α] [Std.TransOrd α] (a b c : α) :
    Chained (compare a b) (compare b c) (compare a c) :=
  chained_of_transCmp compare a b c

mutual

theorem derivedCompare_chained : ∀ a b c : Datum,
    Chained (derivedCompare a b) (derivedCompare b c) (derivedCompare a c) := by
  intro a b c
  rw [derivedCompare_tag a b, derivedCompare_tag b c, derivedCompare_tag a c]
  refine (chained_compare a.tag b.tag c.tag).then fun hab hbc => ?_
  have hab := Nat.compare_eq_eq.mp hab
  have hbc := Nat.compare_eq_eq.mp hbc
  -- the three are of one kind
  cases a <;> cases b <;> cases hab <;> cases c <;> cases hbc
  case array.array.refl.array.refl xs ys zs => exact derivedCompareItems_chained xs ys zs
  case interval.interval.refl.interval.refl m d u m' d' u' m'' d'' u'' =>
    exact (chained_compare m.toInt m'.toInt m''.toInt).then fun _ _ =>
      (chained_compare d.toInt d'.toInt d''.toInt).then fun _ _ =>
        chained_compare u.toInt u'.toInt u''.toInt
  all_goals exact chained_compare ..

theorem derivedCompareItems_chained : ∀ xs ys zs : List Datum,
    Chained (derivedCompareItems xs ys) (derivedCompareItems ys zs) (derivedCompareItems xs zs)
  | x :: xs, y :: ys, z :: zs =>
    (derivedCompare_chained x y z).then fun _ _ => derivedCompareItems_chained xs ys zs
  | [], [], [] | [], [], _ :: _ | [], _ :: _, [] | [], _ :: _, _ :: _ | _ :: _, [], []
  | _ :: _, [], _ :: _ | _ :: _, _ :: _, [] => by simp +contextual [derivedCompareItems, Chained]

end

/-- Where a value stands among the kinds: truth values, integers of any width, everything else,
NULL. -/
def Datum.sortClass : Datum → ℕ
  | .bool _ => 0
  | .i16 _ | .i32 _ | .i64 _ => 1
  | .null => 3
  | _ => 2

def valueCompare (a b : Datum) : Ordering :=
  match intValue a, intValue b with
  | some x, some y => compare x y
  | _, _ => derivedCompare a b

theorem compareDatumsSort_eq (P) (ha : a.isFloat = false) (hb : b.isFloat = false) :
    compareDatumsSort P a b = (compare a.sortClass b.sortClass).then (valueCompare a b) := by
  cases a <;> cases ha <;> cases b <;> cases hb <;> rfl

theorem intValue_isSome_iff (a) : (intValue a).isSome ↔ a.sortClass = 1 := by
  cases a <;> first | exact iff_of_true rfl rfl | exact iff_of_false nofun nofun

theorem compareDatumsSort_chained (P) (ha : a.isFloat = false) (hb : b.isFloat = false)
    (hc : c.isFloat = false) :
    Chained (compareDatumsSort P a b) (compareDatumsSort P b c) (compareDatumsSort P a c) := by
  rw [compareDatumsSort_eq P ha hb, compareDatumsSort_eq P hb hc, compareDatumsSort_eq P ha hc]
  refine (chained_compare a.sortClass b.sortClass c.sortClass).then fun hab hbc => ?_
  have hab := Nat.compare_eq_eq.mp hab
  have hbc := Nat.compare_eq_eq.mp hbc
  by_cases hclass : a.sortClass = 1
  · obtain ⟨x, hx⟩ := Option.isSome_iff_exists.mp ((intValue_isSome_iff a).mpr hclass)
    obtain ⟨y, hy⟩ := Option.isSome_iff_exists.mp ((intValue_isSome_iff b).mpr (hab ▸ hclass))
    obtain ⟨z, hz⟩ := Option.isSome_iff_exists.mp
      ((intValue_isSome_iff c).mpr (hbc ▸ hab ▸ hclass))
    simp only [valueCompare, hx, hy, hz]
    exact chained_compare x y z
  · have hnone {d : Datum} (hd : d.sortClass ≠ 1) (e : Datum) :
        valueCompare d e = derivedCompare d e := by
      have hd : intValue d = none := by
        rw [← Option.not_isSome_iff_eq_none, intValue_isSome_iff]
        exact hd
      rw [valueCompare, hd]
    rw [hnone hclass, hnone (hab ▸ hclass), hnone hclass]
    exact derivedCompare_chained a b c

theorem isFloat_getD {keys : List Datum} (h : ∀ d ∈ keys, d.isFloat = false) (i : ℕ) :
    (keys.getD i .null).isFloat = false := by
  rw [getD_eq_getElem?_getD]
  cases hi : keys[i]? with
  | none => rfl
  | some d => exact h d (mem_of_getElem? hi)

/-- Floats apart, values are sorted by a total preorder, by any list of keys in any directions. -/
theorem sort_preorders (P : Primitives) :
    PreordersOn (compareDatumsSort P) (fun d => d.isFloat = false) ∧
      ∀ descending, PreordersOn (datumKeyComparator P descending)
        (fun entry => ∀ d ∈ entry.1, d.isFloat = false) := by
  have hself (a : Datum) : a.isFloat = false → compareDatumsSort P a a = .eq := by
    intro ha
    rw [compareDatumsSort_eq P ha ha, valueCompare]
    cases intValue a <;> simp [derivedCompare_self]
  refine ⟨.of_chained hself fun a b c => compareDatumsSort_chained P, fun descending => ?_⟩
  apply PreordersOn.of_chained
  · intro a ha
    rw [datumKeyComparator, derivedCompareItems_self]
    induction descending.zipIdx with
    | nil => rfl
    | cons key keys ih =>
      rw [foldr_cons, datumKeyCompare, hself _ (isFloat_getD ha key.2)]
      cases key.1 <;> exact ih
  · intro a b c ha hb hc
    refine Chained.then ?_ fun _ _ => derivedCompareItems_chained a.2 b.2 c.2
    induction descending.zipIdx with
    | nil => exact ⟨fun _ => rfl, fun _ => rfl, fun _ => rfl⟩
    | cons key keys ih =>
      refine Chained.then ?_ fun _ _ => ih
      have hkey := compareDatumsSort_chained P (isFloat_getD ha key.2) (isFloat_getD hb key.2)
        (isFloat_getD hc key.2)
      unfold datumKeyCompare
      cases key.1
      · exact hkey
      · exact hkey.swap

end Laws

end Palimpsest.Dataflow
