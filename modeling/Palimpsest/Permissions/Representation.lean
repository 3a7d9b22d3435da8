import Mathlib.Data.List.Dedup
import Palimpsest.Foundation.Framing
import Palimpsest.Permissions.Rule

/-! What the representation of a user's value in a key tells of the value. -/
namespace Palimpsest.Permissions
open Framing List

namespace UserValue

def tag : UserValue → String
  | .bool _ => "bool"
  | .int _ => "int"
  | .float _ => "float"
  | .text _ => "text"
  | .timestamp _ => "ts"
  | .uuid _ => "uuid"
  | .jsonb _ => "jsonb"
  | .enum _ => "enum"
  | .list _ => "list"
  | .null => "null"

/-- The distinct element representations of a list, in order. -/
def listReprs (items : List UserValue) : List String :=
  ((canonicalReprs items).insertionSort (· ≤ ·)).dedup

def body : UserValue → String
  | .bool value => toString value
  | .int value => toString value
  | .float value => value.display
  | .text value => value
  | .timestamp value => value
  | .uuid value => normalizeOrRaw value
  | .jsonb value => value.render
  | .enum value => value
  | .list items => "[" ++ String.intercalate "," ((listReprs items).map frame) ++ "]"
  | .null => ""

theorem toList_canonicalRepr {v : UserValue} (h : v ≠ .null) :
    v.canonicalRepr.toList = v.tag.toList ++ ':' :: v.body.toList := by
  cases v with
  | null => exact absurd rfl h
  | list =>
    simp only [canonicalRepr, tag, body, String.toList_append]
    rfl
  | _ => simp [canonicalRepr, tag]; rfl

theorem colon_not_mem_tag (v : UserValue) : ':' ∉ v.tag.toList := by
  cases v <;> (simp only [tag]; decide)

/-- A representation tells its kind and its body. -/
theorem tag_body_of_repr {v w : UserValue} (h : v.canonicalRepr = w.canonicalRepr) :
    v.tag = w.tag ∧ v.body = w.body := by
  have hcolon : ∀ {u : UserValue}, u ≠ .null → u.canonicalRepr ≠ UserValue.null.canonicalRepr := by
    intro u hu heq
    have hlist := congrArg String.toList heq
    rw [toList_canonicalRepr hu] at hlist
    have hmem : ':' ∈ UserValue.null.canonicalRepr.toList := by
      rw [← hlist]
      exact mem_append_right _ (mem_cons_self ..)
    exact absurd hmem (by decide)
  by_cases hv : v = .null
  · by_cases hw : w = .null
    · rw [hv, hw]
      exact ⟨rfl, rfl⟩
    · rw [hv] at h
      exact absurd h.symm (hcolon hw)
  · by_cases hw : w = .null
    · rw [hw] at h
      exact absurd h (hcolon hv)
    · have hlist := congrArg String.toList h
      rw [toList_canonicalRepr hv, toList_canonicalRepr hw] at hlist
      obtain ⟨htag, hbody⟩ := cut_unique (colon_not_mem_tag v) (colon_not_mem_tag w) hlist
      exact ⟨String.toList_inj.mp htag, String.toList_inj.mp hbody⟩

theorem intercalate_cons (sep x : List Char) (xs) :
    sep.intercalate (x :: xs) = x ++ xs.flatMap (sep ++ ·) := by
  induction xs generalizing x with
  | nil => simp
  | cons y ys ih =>
    have := ih y
    simp only [intercalate, intersperse_cons_cons, flatten_cons, flatMap_cons] at this ⊢
    rw [this, append_assoc]

theorem toList_intercalate_frame (v : String) (vs) :
    (String.intercalate "," ((v :: vs).map frame)).toList =
      (frame v).toList ++ vs.flatMap fun w => ',' :: (frame w).toList := by
  simp [intercalate_cons, flatMap_map]

/-- A frame starts with a digit, so it is not the end of a list. -/
theorem frame_ne_close : (frame v).toList ++ s ≠ ']' :: t := by
  intro h
  rw [toList_frame] at h
  obtain ⟨digit, rest, hdigits, hdigit⟩ :
      ∃ digit rest, (toString v.utf8ByteSize).toList = digit :: rest ∧ digit.isDigit := by
    have hdigits : (toString v.utf8ByteSize).toList = Nat.toDigits 10 v.utf8ByteSize :=
      Nat.toList_repr
    obtain ⟨digit, rest, hcons⟩ :=
      exists_cons_of_ne_nil (Nat.toDigits_ne_nil (n := v.utf8ByteSize) (b := 10))
    refine ⟨digit, rest, hdigits.trans hcons, ?_⟩
    apply Nat.isDigit_of_mem_toDigits (b := 10) (n := v.utf8ByteSize) (by decide) (by decide)
    rw [hcons]
    exact mem_cons_self ..
  rw [hdigits] at h
  rw [(cons.inj h).1] at hdigit
  exact absurd hdigit (by decide)

theorem intercalate_frame_unique {vs : List String}
    (h : (String.intercalate "," (vs.map frame)).toList ++ ']' :: s =
      (String.intercalate "," (ws.map frame)).toList ++ ']' :: t) : vs = ws := by
  cases vs with
  | nil =>
    cases ws with
    | nil => rfl
    | cons =>
      rw [toList_intercalate_frame, append_assoc] at h
      exact absurd h.symm frame_ne_close
  | cons =>
    cases ws with
    | nil =>
      rw [toList_intercalate_frame, append_assoc] at h
      exact absurd h frame_ne_close
    | cons =>
      rw [toList_intercalate_frame, toList_intercalate_frame, append_assoc, append_assoc] at h
      obtain ⟨rfl, hrest⟩ := frame_unique h
      obtain ⟨rfl, -⟩ := frames_unique (by decide) hrest
      rfl

theorem listReprs_of_body (h : (UserValue.list items).body = (UserValue.list items').body) :
    listReprs items = listReprs items' := by
  have hlist := congrArg String.toList h
  simp only [body, String.toList_append, append_assoc] at hlist
  exact intercalate_frame_unique (append_cancel_left hlist)

theorem mem_listReprs {r : String} :
    r ∈ listReprs items ↔ ∃ item ∈ items, item.canonicalRepr = r := by
  rw [listReprs, mem_dedup, mem_insertionSort]
  induction items with
  | nil => simp [canonicalReprs]
  | cons item items ih => simp [canonicalReprs, ih, eq_comm]

end UserValue

/-- The users have the same fields, with values of one representation. -/
def UserContext.SameReprs (c c' : UserContext) : Prop :=
  ∀ field, (c.get field).map UserValue.canonicalRepr = (c'.get field).map UserValue.canonicalRepr

end Palimpsest.Permissions
