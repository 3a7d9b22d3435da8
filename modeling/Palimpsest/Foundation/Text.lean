import Mathlib.Algebra.Ring.Nat
import Mathlib.Data.List.Forall2
import Mathlib.Data.List.Infix
import Mathlib.Data.List.TakeWhile

/-! Searching, trimming and joining texts as lists of characters. -/
namespace TextSearch
open List

variable {α : Type*} [DecidableEq α]
variable {pat : List α}

/-- The text before and after the first occurrence of `pat`. -/
def cut (pat : List α) : List α → Option (List α × List α)
  | [] => if pat = [] then some ([], []) else none
  | c :: cs =>
    if pat <+: c :: cs then some ([], (c :: cs).drop pat.length)
    else (cut pat cs).map fun p => (c :: p.1, p.2)

def cutLast (pat s : List α) : Option (List α × List α) :=
  (cut pat.reverse s.reverse).map fun p => (p.2.reverse, p.1.reverse)

theorem cut_at_head (h : pat <+: s) : cut pat s = some ([], s.drop pat.length) := by
  cases s with
  | nil => simp [cut, prefix_nil.mp h]
  | cons => simp [cut, h]

theorem cut_cons_skip (h : ¬ pat <+: c :: cs) :
    cut pat (c :: cs) = (cut pat cs).map fun p => (c :: p.1, p.2) := by
  simp [cut, h]

theorem cut_append_skip (h : ∀ a₁ a₂, a = a₁ ++ a₂ → a₂ ≠ [] → ¬ pat <+: a₂ ++ s) :
    cut pat (a ++ s) = (cut pat s).map fun p => (a ++ p.1, p.2) := by
  induction a with
  | nil => cases hs : cut pat s <;> simp [hs]
  | cons c cs ih =>
    have hhead : ¬ pat <+: c :: (cs ++ s) := h [] (c :: cs) rfl (by simp)
    rw [cons_append, cut_cons_skip hhead, ih]
    · cases cut pat s <;> simp
    · intro a₁ a₂ ha hne
      exact h (c :: a₁) a₂ (by simp [ha]) hne

theorem cut_eq_none (hpat : pat ≠ []) (h : ∀ s₁ s₂, s = s₁ ++ s₂ → s₂ ≠ [] → ¬ pat <+: s₂) :
    cut pat s = none := by
  have hstep := cut_append_skip (s := []) (by simpa using h)
  simpa [cut, hpat] using hstep

theorem cut_eq_none_of_not_mem (h : c ∉ s) : cut (c :: pat) s = none := by
  apply cut_eq_none (by simp)
  rintro s₁ s₂ rfl - hp
  apply h
  have hc : c ∈ s₂ := hp.subset mem_cons_self
  exact mem_append_right s₁ hc

theorem cut_spec (h : cut pat s = some (a, b)) : s = a ++ pat ++ b := by
  induction s generalizing a with
  | nil =>
    simp only [cut, Option.ite_none_right_eq_some] at h
    obtain ⟨rfl, rfl, rfl⟩ := h
    rfl
  | cons c cs ih =>
    by_cases hp : pat <+: c :: cs
    · rw [cut_at_head hp] at h
      obtain ⟨rfl, rfl⟩ := h
      simpa using prefix_iff_eq_append.mp hp |>.symm
    · rw [cut_cons_skip hp] at h
      obtain ⟨⟨a', b'⟩, hcut, heq⟩ := Option.map_eq_some_iff.mp h
      obtain ⟨rfl, rfl⟩ := heq
      simp [ih hcut]

theorem not_prefix_of_cut_eq_none (h : cut pat (a ++ b) = none) : ¬ pat <+: b := by
  intro hb
  induction a with
  | nil => rw [nil_append, cut_at_head hb] at h; cases h
  | cons c a ih =>
    by_cases hp : pat <+: c :: (a ++ b)
    · rw [cons_append, cut_at_head hp] at h; cases h
    · rw [cons_append, cut_cons_skip hp, Option.map_eq_none_iff] at h
      exact ih h

/-- A character that is not in the pattern ends every occurrence that starts before it. -/
theorem cut_append_separated (hrun : cut pat run = none) (hc : c ∉ pat) (s) :
    cut pat (run ++ c :: s) = (cut pat (c :: s)).map fun p => (run ++ p.1, p.2) := by
  refine cut_append_skip ?_
  rintro a₁ a₂ rfl - hp
  rcases lt_or_ge a₂.length pat.length with hlong | hshort
  · have hhead : a₂ ++ [c] <+: pat := by
      refine prefix_of_prefix_length_le ⟨s, by simp⟩ hp ?_
      rw [length_append]
      exact hlong
    exact hc (hhead.subset (by simp))
  · have hinside : pat <+: a₂ :=
      prefix_of_prefix_length_le hp (prefix_append _ _) hshort
    exact not_prefix_of_cut_eq_none hrun hinside

/-- Whether the first occurrence of `pat` is the one written behind `a` does not depend on what
follows. -/
theorem cut_append_iff (b) :
    cut pat (a ++ pat ++ b) = some (a, b) ↔ cut pat (a ++ pat) = some (a, []) := by
  induction a with
  | nil =>
    have hhead : pat <+: [] ++ pat := prefix_rfl
    have hhead' : pat <+: [] ++ pat ++ b := hhead.trans (prefix_append _ _)
    rw [cut_at_head hhead, cut_at_head hhead']
    simp
  | cons c a ih =>
    have hstart : pat <+: c :: (a ++ pat ++ b) ↔ pat <+: c :: (a ++ pat) := by
      have hlen : pat.length ≤ (c :: (a ++ pat)).length := by simp; omega
      have happ : c :: (a ++ pat ++ b) = c :: (a ++ pat) ++ b := rfl
      constructor
      · intro h
        exact prefix_of_prefix_length_le h (happ ▸ prefix_append _ _) hlen
      · intro h
        exact h.trans (happ ▸ prefix_append _ _)
    by_cases hp : pat <+: c :: (a ++ pat)
    · have hleft : cut pat (c :: (a ++ pat)) ≠ some (c :: a, []) := by
        rw [cut_at_head hp]
        simp
      have hright : cut pat (c :: (a ++ pat ++ b)) ≠ some (c :: a, b) := by
        rw [cut_at_head (hstart.mpr hp)]
        simp
      simpa using iff_of_false hright hleft
    · have hleft := cut_cons_skip hp
      have hright := cut_cons_skip (mt hstart.mp hp)
      rw [cons_append, cons_append, hright, hleft]
      simpa using ih

/-- Escaping by doubling: every `q` of the text is written twice. -/
def double (q : α) (s : List α) : List α := s.flatMap fun c => if c = q then [q, q] else [c]

theorem double_cons (q c : α) (s) :
    double q (c :: s) = (if c = q then [q, q] else [c]) ++ double q s := rfl

theorem double_injective (q : α) : Function.Injective (double q) := by
  intro s
  induction s with
  | nil =>
    intro t h
    cases t with
    | nil => rfl
    | cons =>
      rw [double_cons] at h
      split at h <;> simp [double] at h
  | cons c s ih =>
    intro t h
    cases t with
    | nil =>
      rw [double_cons] at h
      split at h <;> simp [double] at h
    | cons d =>
      rw [double_cons, double_cons] at h
      by_cases hc : c = q
      · by_cases hd : d = q
        · simp only [hc, hd, ↓reduceIte, cons_append, cons.injEq, true_and] at h
          rw [hc, hd, ih h]
        · simp only [hc, hd, ↓reduceIte, cons_append, cons.injEq] at h
          exact absurd h.1.symm hd
      · by_cases hd : d = q
        · simp only [hc, hd, ↓reduceIte, cons_append, cons.injEq] at h
          exact h.1.elim
        · simp only [hc, hd, ↓reduceIte, cons_append, cons.injEq] at h
          rw [h.1, ih h.2]

end TextSearch

namespace Text

/-- The Unicode `White_Space` property. -/
def isWhitespace (c : Char) : Bool :=
  let n := c.toNat
  (9 ≤ n && n ≤ 13) || n == 32 || n == 0x85 || n == 0xA0 || n == 0x1680 ||
    (0x2000 ≤ n && n ≤ 0x200A) || n == 0x2028 || n == 0x2029 || n == 0x202F || n == 0x205F ||
    n == 0x3000

def trim (s : List Char) : List Char :=
  ((s.dropWhile isWhitespace).reverse.dropWhile isWhitespace).reverse

def isIdent (isAlphanumeric : Char → Bool) (part : List Char) : Bool :=
  part != [] && part.all fun c => isAlphanumeric c || c == '_' || c == '"'

def eqIgnoreAsciiCase (s t : List Char) : Bool :=
  s.map Char.toLower == t.map Char.toLower

theorem mem_of_mem_trim (hc : c ∈ trim s) : c ∈ s := by
  have hdrop : ∀ {l : List Char}, c ∈ l.dropWhile isWhitespace → c ∈ l :=
    fun h => List.dropWhile_suffix _ |>.subset h
  have hrev : c ∈ (s.dropWhile isWhitespace).reverse := hdrop (List.mem_reverse.mp hc)
  exact hdrop (List.mem_reverse.mp hrev)

theorem mem_trim_or (hc : c ∈ s) : c ∈ trim s ∨ isWhitespace c = true := by
  by_cases hw : isWhitespace c = true
  · exact .inr hw
  · left
    have hdrop : ∀ {l : List Char}, c ∈ l → c ∈ l.dropWhile isWhitespace := by
      intro l hl
      rw [← List.takeWhile_append_dropWhile (p := isWhitespace) (l := l), List.mem_append] at hl
      exact hl.resolve_left fun h => hw (List.mem_takeWhile_imp h)
    simpa [trim] using hdrop (List.mem_reverse.mpr (hdrop hc))

theorem trim_append_whitespace (hc : isWhitespace c = true) (s) : trim (s ++ [c]) = trim s := by
  unfold trim
  by_cases hall : ∀ x ∈ s, isWhitespace x = true
  · have hleft : (s ++ [c]).dropWhile isWhitespace = [] := by
      rw [List.dropWhile_eq_nil_iff]
      intro x hx
      rcases List.mem_append.mp hx with hs | hlast
      · exact hall x hs
      · rw [List.mem_singleton.mp hlast, hc]
    have hright : s.dropWhile isWhitespace = [] := List.dropWhile_eq_nil_iff.mpr hall
    rw [hleft, hright]
  · have hkeep : (s ++ [c]).dropWhile isWhitespace = s.dropWhile isWhitespace ++ [c] := by
      rw [List.dropWhile_append, if_neg]
      simpa using hall
    rw [hkeep, List.reverse_append, List.reverse_singleton, List.singleton_append,
      List.dropWhile_cons_of_pos hc]

theorem length_intercalate (sep) (h : parts ≠ []) :
    (String.intercalate sep parts).length + sep.length =
      (parts.map fun part => part.length + sep.length).sum := by
  induction parts with
  | nil => exact absurd rfl h
  | cons first parts ih =>
    cases parts with
    | nil => simp
    | cons =>
      have hrest := ih (by simp)
      rw [String.intercalate_cons_cons, String.length_append _ (String.intercalate _ _),
        String.length_append, List.map_cons, List.sum_cons]
      omega

theorem sum_length_le
    (h : List.Forall₂ (fun part part' => part.length ≤ part'.length) parts parts') :
    (parts.map String.length).sum ≤ (parts'.map String.length).sum := by
  induction h with
  | nil => exact le_rfl
  | cons =>
    simp only [List.map_cons, List.sum_cons]
    omega

theorem length_intercalate_mono (sep)
    (h : List.Forall₂ (fun part part' => part.length ≤ part'.length) parts parts') :
    (String.intercalate sep parts).length ≤ (String.intercalate sep parts').length ∧
      ((parts.map String.length).sum < (parts'.map String.length).sum →
        (String.intercalate sep parts).length < (String.intercalate sep parts').length) := by
  cases h with
  | nil => exact ⟨le_rfl, fun hlt => absurd hlt (lt_irrefl _)⟩
  | @cons a a' l l' ha hl =>
    have hleft := length_intercalate sep (List.cons_ne_nil a l)
    have hright := length_intercalate sep (List.cons_ne_nil a' l')
    have hwidth : ∀ parts : List String, (parts.map fun part => part.length + sep.length).sum =
        (parts.map String.length).sum + parts.length * sep.length := by
      intro parts
      induction parts with
      | nil => simp
      | cons =>
        simp only [List.map_cons, List.sum_cons, List.length_cons, Nat.succ_mul]
        omega
    have hle := sum_length_le (.cons ha hl)
    have hlength : (a :: l).length = (a' :: l').length := by simp [hl.length_eq]
    rw [hwidth] at hleft
    rw [hwidth, ← hlength] at hright
    constructor
    · omega
    · intro hlt
      omega

end Text
