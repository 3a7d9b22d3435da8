import Mathlib.Data.Nat.Digits.Lemmas

/-! `Debug` texts of strings, lists and records, which can be read back. -/
namespace DebugText
open List

variable {α : Type}

/-- Where the text of a value ends can be seen whatever follows it. -/
def SelfDelimiting (render : α → List Char) : Prop :=
  ∀ a b rest rest', render a ++ rest = render b ++ rest' → a = b ∧ rest = rest'

def closed (render : α → List Char) (close : Char) (values : List α) : List Char :=
  values.flatMap render ++ [close]

def list (render : α → List Char) (opening close : Char) : List α → List Char
  | [] => [opening, close]
  | a :: rest => opening :: render a ++ closed (fun b => ',' :: ' ' :: render b) close rest

def field (label : String) (value rest : List Char) : List Char := label.toList ++ (value ++ rest)

theorem close_ne_render {render : α → List Char} {close : Char}
    (h : (render a).head?.any (· ≠ close)) (rest rest') : close :: rest ≠ render a ++ rest' := by
  intro heq
  cases htext : render a with
  | nil => simp [htext] at h
  | cons c text =>
    rw [htext, cons_append, cons.injEq] at heq
    simp [htext, heq.1] at h

section
variable {render : α → List Char} (hrender : SelfDelimiting render)
include hrender

theorem SelfDelimiting.field {value value' : α}
    (h : DebugText.field label (render value) rest = DebugText.field label (render value') rest') :
    value = value' ∧ rest = rest' :=
  hrender _ _ _ _ (append_cancel_left h)

theorem SelfDelimiting.closed {close : Char} (hclose : ∀ a, (render a).head?.any (· ≠ close)) :
    SelfDelimiting (DebugText.closed render close) := by
  intro values
  induction values with
  | nil =>
    intro values' rest rest' h
    cases values' with
    | nil => exact ⟨rfl, (cons.inj h).2⟩
    | cons b values' =>
      simp only [DebugText.closed, flatMap_cons, append_assoc] at h
      exact absurd h (close_ne_render (hclose b) _ _)
  | cons a values ih =>
    intro values' rest rest' h
    cases values' with
    | nil =>
      simp only [DebugText.closed, flatMap_cons, append_assoc] at h
      exact absurd h.symm (close_ne_render (hclose a) _ _)
    | cons b values' =>
      simp only [DebugText.closed, flatMap_cons, append_assoc] at h
      obtain ⟨rfl, htail⟩ := hrender _ _ _ _ h
      rw [← append_assoc, ← append_assoc] at htail
      obtain ⟨rfl, hrest⟩ := ih _ _ _ htail
      exact ⟨rfl, hrest⟩

theorem SelfDelimiting.list {opening close : Char} (hcomma : close ≠ ',')
    (hclose : ∀ a, (render a).head?.any (· ≠ close)) :
    SelfDelimiting (DebugText.list render opening close) := by
  have hitem : SelfDelimiting fun b => ',' :: ' ' :: render b := fun a b rest rest' h =>
    hrender a b rest rest' (cons.inj (cons.inj h).2).2
  have htail : SelfDelimiting (DebugText.closed _ close) :=
    hitem.closed fun _ => by simpa using hcomma.symm
  intro values values' rest rest' h
  cases values with
  | nil =>
    cases values' with
    | nil => exact ⟨rfl, (cons.inj (cons.inj h).2).2⟩
    | cons b values' =>
      simp only [DebugText.list, cons_append, nil_append, append_assoc, cons.injEq, true_and] at h
      exact absurd h (close_ne_render (hclose b) _ _)
  | cons a values =>
    cases values' with
    | nil =>
      simp only [DebugText.list, cons_append, nil_append, append_assoc, cons.injEq, true_and] at h
      exact absurd h.symm (close_ne_render (hclose a) _ _)
    | cons b values' =>
      simp only [DebugText.list, cons_append, append_assoc, cons.injEq, true_and] at h
      obtain ⟨rfl, hvalues⟩ := hrender _ _ _ _ h
      obtain ⟨rfl, hrest⟩ := htail _ _ _ _ hvalues
      exact ⟨rfl, hrest⟩

end

section Strings

def backslash : Char := Char.ofNat 92

def quote : Char := Char.ofNat 34

/-- The characters that are written as a backslash and another character. -/
def marked : List (Char × Char) :=
  [(Char.ofNat 0, '0'), (Char.ofNat 9, 't'), (Char.ofNat 10, 'n'), (Char.ofNat 13, 'r'),
    (quote, quote), (backslash, backslash)]

/-- The number in hexadecimal digits, up to the closing brace. -/
def hex (n : ℕ) : List Char :=
  closed (fun digit : Fin 16 => [Nat.digitChar digit]) '\x7d'
    ((Nat.digits 16 n).reverse.map (Fin.ofNat 16))

/-- `printable` characters stand for themselves, others are written by their number. -/
def escape (printable : Char → Bool) (c : Char) : List Char :=
  match marked.lookup c with
  | some mark => [backslash, mark]
  | none => if printable c then [c] else backslash :: 'u' :: '\x7b' :: hex c.toNat

def string (printable : Char → Bool) (s : String) : List Char :=
  quote :: closed (escape printable) quote s.toList

variable {printable : Char → Bool}

theorem hex_selfDelimiting : SelfDelimiting hex := by
  intro m n rest rest' h
  have hdigit : SelfDelimiting fun digit : Fin 16 => [Nat.digitChar digit] := by
    intro a b rest rest' h
    have hinjective : ∀ a b : Fin 16, Nat.digitChar a = Nat.digitChar b → a = b := by decide
    exact ⟨hinjective a b (cons.inj h).1, (cons.inj h).2⟩
  obtain ⟨hdigits, hrest⟩ := hdigit.closed (by decide) _ _ _ _ h
  have hvalues : ∀ n, ((Nat.digits 16 n).reverse.map (Fin.ofNat 16)).map Fin.val =
      (Nat.digits 16 n).reverse := by
    intro n
    rw [map_map]
    refine (map_congr_left fun digit hdigit => ?_).trans (map_id _)
    exact Nat.mod_eq_of_lt (Nat.digits_lt_base (by decide) (mem_reverse.mp hdigit))
  refine ⟨?_, hrest⟩
  have hsame := congrArg (map Fin.val) hdigits
  rw [hvalues, hvalues, reverse_inj] at hsame
  exact Nat.digits_inj_iff.mp hsame

theorem lookup_marked (h : marked.lookup c = some mark) : (c, mark) ∈ marked := by
  obtain ⟨before, after, hsplit, -⟩ := lookup_eq_some_iff.mp h
  simp [hsplit]

theorem escape_selfDelimiting : SelfDelimiting (escape printable) := by
  intro c d rest rest' h
  have hplain : ∀ c, marked.lookup c = none → c ≠ backslash := by
    rintro _ hnone rfl
    exact absurd hnone (by decide)
  unfold escape at h
  cases hc : marked.lookup c with
  | some mark =>
    have hmem := lookup_marked hc
    cases hd : marked.lookup d with
    | some mark' =>
      simp only [hc, hd, cons_append, nil_append, cons.injEq, true_and] at h
      obtain ⟨rfl, rfl⟩ := h
      have hunique : ∀ p ∈ marked, ∀ q ∈ marked, p.2 = q.2 → p.1 = q.1 := by decide
      exact ⟨hunique _ hmem _ (lookup_marked hd) rfl, rfl⟩
    | none =>
      simp only [hc, hd] at h
      split at h
      · exact absurd (cons.inj h).1.symm (hplain d hd)
      · have hmark : ∀ p ∈ marked, p.2 ≠ 'u' := by decide
        exact absurd (cons.inj (cons.inj h).2).1 (hmark _ hmem)
  | none =>
    cases hd : marked.lookup d with
    | some mark =>
      simp only [hc, hd] at h
      split at h
      · exact absurd (cons.inj h).1 (hplain c hc)
      · have hmark : ∀ p ∈ marked, p.2 ≠ 'u' := by decide
        exact absurd (cons.inj (cons.inj h).2).1.symm (hmark _ (lookup_marked hd))
    | none =>
      simp only [hc, hd] at h
      split at h <;> split at h
      · exact ⟨(cons.inj h).1, (cons.inj h).2⟩
      · exact absurd (cons.inj h).1 (hplain c hc)
      · exact absurd (cons.inj h).1.symm (hplain d hd)
      · simp only [cons_append, cons.injEq, true_and] at h
        obtain ⟨hnumber, hrest⟩ := hex_selfDelimiting _ _ _ _ h
        exact ⟨Char.toNat_inj.mp hnumber, hrest⟩

theorem string_selfDelimiting : SelfDelimiting (string printable) := by
  intro s s' rest rest' h
  have hquote : ∀ c, (escape printable c).head?.any (· ≠ quote) := by
    intro c
    have hne : backslash ≠ quote := by decide
    unfold escape
    cases hc : marked.lookup c with
    | some => simpa using hne
    | none =>
      dsimp only
      split
      · have hplain : c ≠ quote := by
          rintro rfl
          exact absurd hc (by decide)
        simpa using hplain
      · simpa using hne
  obtain ⟨hchars, hrest⟩ := escape_selfDelimiting.closed hquote _ _ _ _ (cons.inj h).2
  exact ⟨String.toList_inj.mp hchars, hrest⟩

end Strings

end DebugText
