import Palimpsest.Dataflow.Plan
import Palimpsest.Dataflow.Datum

/-! Values as sequences of numbers: equality of values can be decided, and rows can be ordered. -/
namespace Palimpsest.Dataflow
open List

namespace Datum

def counted {α : Type} (f : α → ℕ) (xs : List α) : List ℕ := xs.length :: xs.map f

def tag : Datum → ℕ
  | bool _ => 0
  | i16 _ => 1
  | i32 _ => 2
  | i64 _ => 3
  | f32 _ => 4
  | f64 _ => 5
  | numeric _ => 6
  | text _ => 7
  | bytea _ => 8
  | date _ => 9
  | time _ => 10
  | timestamp _ => 11
  | timestampTz _ => 12
  | interval _ _ _ => 13
  | uuid _ => 14
  | json _ => 15
  | jsonb _ => 16
  | array _ => 17
  | null => 18
  | unchanged => 19

mutual

def content : Datum → List ℕ
  | bool b => [b.toNat]
  | i16 v => [v.toBitVec.toNat]
  | i32 v | date v => [v.toBitVec.toNat]
  | i64 v | time v | timestamp v | timestampTz v => [v.toBitVec.toNat]
  | f32 bits => [bits.toNat]
  | f64 bits => [bits.toNat]
  | numeric s | text s | json s | jsonb s => counted Char.toNat s.toList
  | bytea bytes | uuid bytes => counted UInt8.toNat bytes
  | interval months days micros =>
    [months.toBitVec.toNat, days.toBitVec.toNat, micros.toBitVec.toNat]
  | array items => items.length :: contents items
  | null | unchanged => []

def contents : List Datum → List ℕ
  | [] => []
  | d :: rest => d.tag :: (d.content ++ contents rest)

end

theorem counted_append_inj {f : α → ℕ} (hf : Function.Injective f) {xs : List α}
    (h : counted f xs ++ r = counted f ys ++ s) : xs = ys ∧ r = s := by
  obtain ⟨hlen, hrest⟩ := cons.inj h
  obtain ⟨hmap, hrest⟩ := append_inj hrest (by simpa using hlen)
  exact ⟨map_injective_iff.mpr hf hmap, hrest⟩

theorem toNat_injective : Function.Injective Char.toNat := fun _ _ h => Char.toNat_inj.mp h

theorem string_append_inj {s : String}
    (h : counted Char.toNat s.toList ++ r = counted Char.toNat t.toList ++ q) : s = t ∧ r = q := by
  obtain ⟨hchars, hrest⟩ := counted_append_inj toNat_injective h
  exact ⟨String.toList_inj.mp hchars, hrest⟩

mutual

theorem content_append_inj : ∀ (d e : Datum) {r s : List ℕ}, d.tag = e.tag →
    d.content ++ r = e.content ++ s → d = e ∧ r = s := by
  intro d e r s htag h
  cases d <;> cases e <;> cases htag <;> simp only [content] at h
  case array.array xs ys =>
    obtain ⟨hlen, hrest⟩ := cons.inj h
    obtain ⟨hits, hrest⟩ := contents_append_inj xs ys hlen hrest
    exact ⟨congrArg array hits, hrest⟩
  case bool.bool b c =>
    obtain ⟨hb, hr⟩ := cons.inj h
    have hbool : b = c := by cases b <;> cases c <;> simp_all
    exact ⟨congrArg bool hbool, hr⟩
  case i16.i16 v w =>
    obtain ⟨hv, hr⟩ := cons.inj h
    exact ⟨congrArg i16 (Int16.toBitVec_inj.mp (BitVec.toNat_inj.mp hv)), hr⟩
  case f32.f32 v w =>
    obtain ⟨hv, hr⟩ := cons.inj h
    exact ⟨congrArg f32 (UInt32.toNat_inj.mp hv), hr⟩
  case f64.f64 v w =>
    obtain ⟨hv, hr⟩ := cons.inj h
    exact ⟨congrArg f64 (UInt64.toNat_inj.mp hv), hr⟩
  case i32.i32 | date.date =>
    obtain ⟨hv, hr⟩ := cons.inj h
    obtain rfl := Int32.toBitVec_inj.mp (BitVec.toNat_inj.mp hv)
    exact ⟨rfl, hr⟩
  case i64.i64 | time.time | timestamp.timestamp | timestampTz.timestampTz =>
    obtain ⟨hv, hr⟩ := cons.inj h
    obtain rfl := Int64.toBitVec_inj.mp (BitVec.toNat_inj.mp hv)
    exact ⟨rfl, hr⟩
  case numeric.numeric | text.text | json.json | jsonb.jsonb =>
    obtain ⟨rfl, hr⟩ := string_append_inj h
    exact ⟨rfl, hr⟩
  case bytea.bytea | uuid.uuid =>
    obtain ⟨rfl, hr⟩ := counted_append_inj (fun _ _ hbyte => UInt8.toNat_inj.mp hbyte) h
    exact ⟨rfl, hr⟩
  case interval.interval =>
    simp only [cons_append, nil_append, cons.injEq] at h
    obtain ⟨hmonths, hdays, hmicros, hr⟩ := h
    obtain rfl := Int32.toBitVec_inj.mp (BitVec.toNat_inj.mp hmonths)
    obtain rfl := Int32.toBitVec_inj.mp (BitVec.toNat_inj.mp hdays)
    obtain rfl := Int64.toBitVec_inj.mp (BitVec.toNat_inj.mp hmicros)
    exact ⟨rfl, hr⟩
  case null.null | unchanged.unchanged => exact ⟨rfl, h⟩

theorem contents_append_inj : ∀ (xs ys : List Datum) {r s : List ℕ}, xs.length = ys.length →
    contents xs ++ r = contents ys ++ s → xs = ys ∧ r = s
  | [], [], _, _, _, h => ⟨rfl, h⟩
  | d :: xs, e :: ys, r, s, hlen, h => by
    simp only [contents, cons_append, append_assoc, cons.injEq] at h
    obtain ⟨hd, hrest⟩ := content_append_inj d e h.1 h.2
    obtain ⟨hxs, hrest⟩ := contents_append_inj xs ys (by simpa using hlen) hrest
    exact ⟨by rw [hd, hxs], hrest⟩

end

def code (d : Datum) : List ℕ := d.tag :: d.content

theorem code_injective : Function.Injective code := by
  intro d e h
  obtain ⟨htag, hcontent⟩ := cons.inj h
  have happ : d.content ++ [] = e.content ++ [] := by simpa using hcontent
  exact (content_append_inj d e htag happ).1

instance : DecidableEq Datum := fun _ _ => decidable_of_iff _ code_injective.eq_iff

end Datum

/-! An order of rows, and values whose sort order puts integers by size and NULL last. -/
section

def rowCode (row : Row Datum) : List (List ℕ) := row.map Datum.code

theorem rowCode_injective : Function.Injective rowCode :=
  map_injective_iff.mpr Datum.code_injective

def codeCompare (a b : Row Datum) : Ordering := compare (rowCode a) (rowCode b)

/-- Integers by value, then everything else by its code, then NULL. -/
def sortRank : Datum → List ℤ
  | .i64 v => [0, v.toInt]
  | .i32 v => [0, v.toInt]
  | .i16 v => [0, v.toInt]
  | .null => [2]
  | d => 1 :: d.code.map Int.ofNat

theorem transCmp_of_image {α β : Type} [Ord β] [Std.TransOrd β] (f : α → β) :
    Std.TransCmp fun a b => compare (f a) (f b) := by
  refine { eq_swap := ?_, isLE_trans := ?_ }
  · intro a b
    exact Std.OrientedOrd.eq_swap
  · intro a b c
    exact Std.TransOrd.isLE_trans

theorem codeCompare_eq : Std.LawfulEqCmp codeCompare := by
  refine { compare_self := ?_, eq_of_compare := ?_ }
  · intro a
    exact Std.ReflOrd.compare_self
  · intro a b h
    exact rowCode_injective (Std.LawfulEqOrd.eq_of_compare h)

/-- Counts are those of all rows; the other aggregates are left undefined. -/
def sampleDatums : Datums Datum where
  null := .null
  sortCompare a b := compare (sortRank a) (sortRank b)
  rowCompare := codeCompare
  evaluate
    | .count _, bag => .i64 (Int64.ofNat bag.card)
    | _, _ => .null
  sort_trans := transCmp_of_image sortRank
  row_trans := transCmp_of_image rowCode
  row_eq := codeCompare_eq

end

end Palimpsest.Dataflow
