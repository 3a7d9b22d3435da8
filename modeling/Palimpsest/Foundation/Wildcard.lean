import Mathlib.Data.List.Basic
import Mathlib.Algebra.Order.Group.Nat

/-! Matching a subject against literals, single wildcards and runs with two cursors that fall back
to the last run on a mismatch. -/
namespace Palimpsest.Wildcard
open List

inductive Token (α : Type*) where
  | anyRun
  | anyOne
  | literal (a : α)
  deriving DecidableEq

variable {α : Type*}

/-- What a pattern means: a run stands for any stretch of the subject. -/
def Matches : List (Token α) → List α → Prop
  | [], xs => xs = []
  | .anyRun :: ts, xs => ∃ k, Matches ts (xs.drop k)
  | .anyOne :: _, [] => False
  | .anyOne :: ts, _ :: xs => Matches ts xs
  | .literal _ :: _, [] => False
  | .literal a :: ts, x :: xs => a = x ∧ Matches ts xs

theorem matches_nil_iff (ts : List (Token α)) : Matches ts [] ↔ ∀ t ∈ ts, t = .anyRun := by
  induction ts with
  | nil => simp [Matches]
  | cons t ts ih => cases t <;> simp [Matches, ih]

theorem matches_run_run (ts : List (Token α)) (xs) :
    Matches (.anyRun :: .anyRun :: ts) xs ↔ Matches (.anyRun :: ts) xs := by
  constructor
  · rintro ⟨k, l, h⟩
    exact ⟨k + l, by rwa [drop_drop] at h⟩
  · rintro ⟨k, h⟩
    exact ⟨0, k, by simpa using h⟩

theorem matches_append_congr (pre : List (Token α)) (h : ∀ xs, Matches ts xs ↔ Matches us xs) (xs) :
    Matches (pre ++ ts) xs ↔ Matches (pre ++ us) xs := by
  induction pre generalizing xs with
  | nil => exact h xs
  | cons t pre ih => cases t <;> cases xs <;> simp [Matches, ih]

def Token.map {β : Type*} (f : α → β) : Token α → Token β
  | .anyRun => .anyRun
  | .anyOne => .anyOne
  | .literal a => .literal (f a)

theorem matches_map {f : α → β} (hf : Function.Injective f) (ts xs) :
    Matches (ts.map (Token.map f)) (xs.map f) ↔ Matches ts xs := by
  induction ts generalizing xs with
  | nil => simp [Matches]
  | cons t ts ih =>
    cases t with
    | anyRun => simp [Token.map, Matches, ← map_drop, ih]
    | anyOne => cases xs <;> simp [Matches, Token.map, ih]
    | literal => cases xs <;> simp [Matches, Token.map, ih, hf.eq_iff]

variable [DecidableEq α]

def Token.takes : Token α → α → Bool
  | .anyRun, _ => false
  | .anyOne, _ => true
  | .literal a, x => a = x

/-- The loop's variables: where it reads the subject and the pattern, the last run it met and
where the subject stood when that run was last tried. -/
structure Cursor where
  s : ℕ
  p : ℕ
  star : Option ℕ
  starS : ℕ

def Cursor.start : Cursor := ⟨0, 0, none, 0⟩

/-- The way back to the last run, which then covers one more element. -/
def Cursor.retry (c : Cursor) : Bool ⊕ Cursor :=
  match c.star with
  | none => .inl false
  | some starP => .inr ⟨c.starS + 1, starP + 1, c.star, c.starS + 1⟩

/-- One pass through the loop: the answer, or the variables of the next pass. -/
def advance (tokens : List (Token α)) (subject : List α) (c : Cursor) : Bool ⊕ Cursor :=
  match subject[c.s]? with
  | none => .inl ((tokens.drop c.p).all (· = .anyRun))
  | some x =>
    match tokens[c.p]? with
    | some .anyRun => .inr ⟨c.s, c.p + 1, some c.p, c.s⟩
    | some t => if t.takes x then .inr { c with s := c.s + 1, p := c.p + 1 } else c.retry
    | none => c.retry

def run (tokens : List (Token α)) (subject : List α) : ℕ → Cursor → Option Bool
  | 0, _ => none
  | fuel + 1, c =>
    match advance tokens subject c with
    | .inl answer => some answer
    | .inr next => run tokens subject fuel next

def budget (tokens : List (Token α)) (subject : List α) (c : Cursor) : ℕ :=
  (subject.length - c.starS) * (tokens.length + 1) + (tokens.length - c.p)

def search (tokens : List (Token α)) (subject : List α) : Bool :=
  (run tokens subject (budget tokens subject .start + 1) .start).getD false

section Correctness
variable (tokens : List (Token α)) (subject : List α)

def From (p s : ℕ) : Prop := Matches (tokens.drop p) (subject.drop s)

variable {tokens subject}

variable {p s k : ℕ} {c : Cursor}

section
omit [DecidableEq α]

theorem from_run_iff (h : tokens[p]? = some .anyRun) (s : ℕ) :
    From tokens subject p s ↔ ∃ k, s ≤ k ∧ From tokens subject (p + 1) k := by
  obtain ⟨hp, heq⟩ := List.getElem?_eq_some_iff.mp h
  rw [From, drop_eq_getElem_cons hp, heq]
  simp only [Matches, drop_drop]
  constructor
  · rintro ⟨k, hk⟩
    exact ⟨s + k, by omega, hk⟩
  · rintro ⟨k, hsk, hk⟩
    refine ⟨k - s, ?_⟩
    rwa [Nat.add_sub_cancel' hsk]

theorem from_run_mono (h : tokens[p]? = some .anyRun) (hsk : s ≤ k)
    (hk : From tokens subject p k) : From tokens subject p s := by
  obtain ⟨l, hkl, hl⟩ := (from_run_iff h k).mp hk
  exact (from_run_iff h s).mpr ⟨l, hsk.trans hkl, hl⟩

end

theorem from_token_iff (ht : tokens[p]? = some t) (hrun : t ≠ .anyRun) (hx : subject[s]? = some x) :
    From tokens subject p s ↔ t.takes x = true ∧ From tokens subject (p + 1) (s + 1) := by
  obtain ⟨hp, heq⟩ := List.getElem?_eq_some_iff.mp ht
  obtain ⟨hs, hseq⟩ := List.getElem?_eq_some_iff.mp hx
  unfold From
  rw [drop_eq_getElem_cons hp, drop_eq_getElem_cons hs, heq, hseq]
  cases t with
  | anyRun => exact absurd rfl hrun
  | anyOne | literal => simp [Matches, Token.takes]

section
omit [DecidableEq α]

theorem not_from_end {x : α} (hp : tokens[p]? = none) (hx : subject[s]? = some x) :
    ¬ From tokens subject p s := by
  obtain ⟨hs, -⟩ := List.getElem?_eq_some_iff.mp hx
  rw [From, drop_eq_nil_of_le (getElem?_eq_none_iff.mp hp), Matches]
  simpa using hs

theorem from_shift (n : ℕ) (h : ∀ i, p ≤ i → i < p + n → ∃ t, tokens[i]? = some t ∧ t ≠ .anyRun)
    (hk : From tokens subject p k) : From tokens subject (p + n) (k + n) := by
  induction n with
  | zero => exact hk
  | succ n ih =>
    have hfrom := ih fun i hpi hi => h i hpi (by omega)
    obtain ⟨t, ht, hrun⟩ := h (p + n) (by omega) (by omega)
    obtain ⟨hlt, heq⟩ := List.getElem?_eq_some_iff.mp ht
    unfold From at hfrom ⊢
    rw [drop_eq_getElem_cons hlt, heq] at hfrom
    -- the token is not a run, so the subject has an element for it
    cases hsub : subject.drop (k + n) with
    | nil => rw [hsub] at hfrom; cases t <;> simp_all [Matches]
    | cons x xs =>
      have htail : subject.drop (k + (n + 1)) = xs := by
        simp [← add_assoc, ← drop_drop, hsub]
      rw [htail, ← add_assoc]
      cases t <;> simp_all [Matches]

end

variable (tokens subject) in
/-- The loop's invariant. The whole pattern matches exactly if the cursors' rests match or the
last run, stretched further, leaves a rest that matches; since that run, tokens and elements were
consumed in step. -/
structure Inv (c : Cursor) : Prop where
  s_le : c.s ≤ subject.length
  p_le : c.p ≤ tokens.length
  starS_le : c.starS ≤ c.s
  fresh : c.star = none → (Matches tokens subject ↔ From tokens subject c.p c.s)
  stretched : ∀ q, c.star = some q → q + 1 ≤ c.p ∧ c.s - c.starS = c.p - (q + 1) ∧
    (∀ i, q + 1 ≤ i → i < c.p → ∃ t, tokens[i]? = some t ∧ t ≠ .anyRun) ∧
    (Matches tokens subject ↔ From tokens subject c.p c.s ∨
      ∃ k, c.starS < k ∧ From tokens subject (q + 1) k)

section
omit [DecidableEq α]

theorem inv_start : Inv tokens subject .start where
  s_le := Nat.zero_le _
  p_le := Nat.zero_le _
  starS_le := le_rfl
  fresh _ := by simp [From, Cursor.start]
  stretched q h := by simp [Cursor.start] at h

/-- What the last run could still reach by stretching, it reaches from the current run too. -/
theorem Inv.stretch_shift (h : Inv tokens subject c) {q : ℕ}
    (hq : c.star = some q) (hk : c.starS < k) (hfrom : From tokens subject (q + 1) k) :
    ∃ l, c.s < l ∧ From tokens subject c.p l := by
  obtain ⟨hqp, hstep, htokens, -⟩ := h.stretched q hq
  have hstar := h.starS_le
  have hp : q + 1 + (c.p - (q + 1)) = c.p := by omega
  refine ⟨k + (c.p - (q + 1)), by omega, ?_⟩
  have hshift := from_shift (c.p - (q + 1)) (fun i h1 h2 => htokens i h1 (by omega)) hfrom
  rwa [hp] at hshift

/-- Past the subject's end, and at a run, the cursors' own rests decide. -/
theorem Inv.iff_from (h : Inv tokens subject c)
    (hmono : ∀ l, c.s < l → From tokens subject c.p l → From tokens subject c.p c.s) :
    Matches tokens subject ↔ From tokens subject c.p c.s := by
  cases hstar : c.star with
  | none => exact h.fresh hstar
  | some q =>
    rw [(h.stretched q hstar).2.2.2]
    refine ⟨?_, Or.inl⟩
    rintro (hfrom | ⟨k, hk, hfrom⟩)
    · exact hfrom
    · obtain ⟨l, hl, hl'⟩ := h.stretch_shift hstar hk hfrom
      exact hmono l hl hl'

end

variable (tokens subject) in
/-- The loop ends right, or goes on with its invariant and fewer passes left. -/
def Good (outcome : Bool ⊕ Cursor) (passes : ℕ) : Prop :=
  match outcome with
  | .inl answer => (answer = true ↔ Matches tokens subject)
  | .inr next => Inv tokens subject next ∧ budget tokens subject next < passes

omit [DecidableEq α] in
theorem Inv.retry (h : Inv tokens subject c) (hs : c.s < subject.length)
    (hfrom : ¬ From tokens subject c.p c.s) :
    Good tokens subject c.retry (budget tokens subject c) := by
  have hstar := h.starS_le
  have hp := h.p_le
  unfold Cursor.retry
  cases hq : c.star with
  | none => simpa [Good, h.fresh hq] using hfrom
  | some q =>
    obtain ⟨hqp, -, -, hiff⟩ := h.stretched q hq
    refine ⟨⟨by dsimp only; omega, by dsimp only; omega, le_rfl, nofun, ?_⟩, ?_⟩
    · rintro _ ⟨rfl⟩
      refine ⟨le_rfl, by simp, fun i h1 h2 => by dsimp only at h2; omega, ?_⟩
      rw [hiff, or_iff_right hfrom]
      grind
    · obtain ⟨rest, hrest⟩ : ∃ rest, subject.length - c.starS = rest + 1 :=
        ⟨subject.length - c.starS - 1, by omega⟩
      have hnext : subject.length - (c.starS + 1) = rest := by omega
      simp only [budget, hrest, hnext, Nat.add_mul, Nat.one_mul]
      omega

theorem Inv.advance (h : Inv tokens subject c) : Good tokens subject (advance tokens subject c)
      (budget tokens subject c) := by
  have hstar := h.starS_le
  unfold Wildcard.advance
  cases hx : subject[c.s]? with
  | none =>
    have hend := drop_eq_nil_of_le (getElem?_eq_none_iff.mp hx)
    have hiff := h.iff_from fun l hl hfrom => by
      have hpast : subject.drop l = [] :=
        drop_eq_nil_of_le ((getElem?_eq_none_iff.mp hx).trans hl.le)
      rw [From, hpast] at hfrom
      rwa [From, hend]
    rw [From, hend, matches_nil_iff] at hiff
    simp [Good, hiff]
  | some x =>
    obtain ⟨hs, -⟩ := List.getElem?_eq_some_iff.mp hx
    cases ht : tokens[c.p]? with
    | none => exact h.retry hs (not_from_end ht hx)
    | some t =>
      obtain ⟨hp, -⟩ := List.getElem?_eq_some_iff.mp ht
      -- one more token behind the pattern cursor, as every pass that does not fall back has
      have hbudget : ∀ starS, c.starS ≤ starS →
          (subject.length - starS) * (tokens.length + 1) + (tokens.length - (c.p + 1)) <
            budget tokens subject c := by
        intro starS hle
        have := Nat.mul_le_mul_right (tokens.length + 1)
          (Nat.sub_le_sub_left hle subject.length)
        unfold budget
        omega
      rcases eq_or_ne t .anyRun with rfl | hrun
      · refine ⟨⟨h.s_le, hp, le_rfl, nofun, ?_⟩, hbudget c.s hstar⟩
        rintro _ ⟨rfl⟩
        refine ⟨le_rfl, by simp, fun i h1 h2 => by dsimp only at h2; omega, ?_⟩
        rw [h.iff_from fun l hl => from_run_mono ht hl.le, from_run_iff ht]
        grind
      · have htok := from_token_iff ht hrun hx
        have hgood : Good tokens subject
            (if t.takes x then .inr { c with s := c.s + 1, p := c.p + 1 } else c.retry)
            (budget tokens subject c) := by
          split_ifs with htakes
          · rw [htakes, eq_self, true_and] at htok
            refine ⟨⟨hs, hp, by dsimp only; omega, fun hnone => ?_, fun q hq => ?_⟩,
              hbudget c.starS le_rfl⟩
            · rw [h.fresh hnone, htok]
            · obtain ⟨hqp, hstep, htokens, hiff⟩ := h.stretched q hq
              refine ⟨by dsimp only; omega, by dsimp only; omega, fun i h1 h2 => ?_, ?_⟩
              · rcases lt_or_eq_of_le (Nat.le_of_lt_succ h2) with hlt | rfl
                · exact htokens i h1 hlt
                · exact ⟨t, ht, hrun⟩
              · rw [hiff, htok]
          · exact h.retry hs fun hfrom => htakes (htok.mp hfrom).1
        cases t with
        | anyRun => exact absurd rfl hrun
        | anyOne | literal => exact hgood

theorem Inv.run (h : Inv tokens subject c) (fuel : ℕ) (hfuel : budget tokens subject c < fuel) :
    ∃ answer, run tokens subject fuel c = some answer ∧
      (answer = true ↔ Matches tokens subject) := by
  induction fuel generalizing c with
  | zero => omega
  | succ fuel ih =>
    have hgood := h.advance
    unfold run
    cases hnext : Wildcard.advance tokens subject c with
    | inl answer => rw [hnext] at hgood; exact ⟨answer, rfl, hgood⟩
    | inr =>
      rw [hnext] at hgood
      exact ih hgood.1 (by have := hgood.2; omega)

variable (tokens subject) in
/-- The two-cursor search decides the pattern. -/
theorem search_iff : search tokens subject = true ↔ Matches tokens subject := by
  obtain ⟨answer, hrun, hanswer⟩ :=
    inv_start.run _ (Nat.lt_succ_self (budget tokens subject .start))
  rw [search, hrun]
  exact hanswer

end Correctness
end Palimpsest.Wildcard
