import Mathlib.Data.String.Basic

/-! Texts that are cut in one way only: at the first occurrence of a separator, or after as many
bytes as a length in front says. -/
namespace Framing
open List

theorem cut_unique {a : List α} (ha : c ∉ a) (hb : c ∉ b) (h : a ++ c :: s = b ++ c :: t) :
    a = b ∧ s = t := by
  induction a generalizing b with
  | nil =>
    cases b with
    | nil => exact ⟨rfl, (cons.inj h).2⟩
    | cons => exact absurd (mem_cons.mpr (.inl (cons.inj h).1)) hb
  | cons x a ih =>
    cases b with
    | nil => exact absurd (mem_cons.mpr (.inl (cons.inj h).1.symm)) ha
    | cons =>
      obtain ⟨rfl, htail⟩ := cons.inj h
      obtain ⟨rfl, rfl⟩ := ih (fun hc => ha (mem_cons_of_mem _ hc))
        (fun hc => hb (mem_cons_of_mem _ hc)) htail
      exact ⟨rfl, rfl⟩

theorem prefix_unique {v : String} (hsize : v.utf8ByteSize = w.utf8ByteSize)
    (h : v.toList ++ s = w.toList ++ t) : v = w ∧ s = t := by
  have hnil : ∀ {a b : String} {x : List Char}, b.toList = a.toList ++ x →
      a.utf8ByteSize = b.utf8ByteSize → x = [] := by
    intro a b x hb heq
    have hstr : b = a ++ String.ofList x := by
      rw [← String.ofList_toList (s := b), hb, String.ofList_append, String.ofList_toList]
    rw [hstr, String.utf8ByteSize_append] at heq
    have hzero : (String.ofList x).utf8ByteSize = 0 := by omega
    rw [String.utf8ByteSize_eq_zero_iff] at hzero
    simpa using congrArg String.toList hzero
  rcases append_eq_append_iff.mp h with ⟨x, hw, hs⟩ | ⟨x, hv, ht⟩
  · obtain rfl := hnil hw hsize
    rw [append_nil] at hw
    exact ⟨String.toList_inj.mp hw.symm, hs⟩
  · obtain rfl := hnil hv hsize.symm
    rw [append_nil] at hv
    exact ⟨String.toList_inj.mp hv, ht.symm⟩

def frame (v : String) : String := toString v.utf8ByteSize ++ ":" ++ v

theorem toList_frame (v : String) :
    (frame v).toList = (toString v.utf8ByteSize).toList ++ ':' :: v.toList := by
  simp [frame]

theorem colon_not_mem_toString (n : ℕ) : ':' ∉ (toString n).toList := by
  have hdigits : (toString n).toList = Nat.toDigits 10 n := Nat.toList_repr
  rw [hdigits]
  intro hcolon
  exact absurd (Nat.isDigit_of_mem_toDigits (by decide) (by decide) hcolon) (by decide)

theorem toString_unique {n : ℕ} (h : (toString n).toList = (toString m).toList) : n = m := by
  have hn : (toString n).toList = Nat.toDigits 10 n := Nat.toList_repr
  have hm : (toString m).toList = Nat.toDigits 10 m := Nat.toList_repr
  rw [hn, hm] at h
  rw [← Nat.ofDigitChars_toDigits (b := 10) (n := n) (by decide) (by decide), h,
    Nat.ofDigitChars_toDigits (by decide) (by decide)]

theorem frame_unique (h : (frame v).toList ++ s = (frame w).toList ++ t) : v = w ∧ s = t := by
  rw [toList_frame, toList_frame, append_assoc, append_assoc] at h
  obtain ⟨hlen, h⟩ := cut_unique (colon_not_mem_toString _) (colon_not_mem_toString _) h
  exact prefix_unique (toString_unique hlen) h

/-- Framed texts behind a separator each, up to a closing mark. -/
theorem frames_unique (hcd : c ≠ d) {vs : List String}
    (h : vs.flatMap (fun v => c :: (frame v).toList) ++ d :: s =
      ws.flatMap (fun w => c :: (frame w).toList) ++ d :: t) : vs = ws ∧ s = t := by
  induction vs generalizing ws with
  | nil =>
    cases ws with
    | nil => exact ⟨rfl, (cons.inj h).2⟩
    | cons => exact absurd (cons.inj h).1.symm hcd
  | cons v vs ih =>
    cases ws with
    | nil => exact absurd (cons.inj h).1 hcd
    | cons =>
      simp only [flatMap_cons, append_assoc] at h
      obtain ⟨rfl, hrest⟩ := frame_unique (cons.inj h).2
      obtain ⟨rfl, rfl⟩ := ih hrest
      exact ⟨rfl, rfl⟩

end Framing
