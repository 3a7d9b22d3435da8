import Mathlib.Data.List.Basic
import Mathlib.Algebra.Order.Group.Nat

/-! Operator expressions: trees, their tokens, and a precedence parser that reads back exactly the
trees whose tokens need no more parentheses than they have. -/
namespace Palimpsest.Precedence
open List

/-- How strongly operators bind their operands, larger is tighter. Operators of one strength form
chains that group to the left, or none at all. -/
structure Grammar (σ : Type*) where
  binary : σ → Option ℕ
  unary : σ → Option ℕ
  chains : ℕ → Bool

inductive Token (α σ : Type*) where
  | atom (a : α)
  | op (s : σ)
  | opening
  | closing
  deriving DecidableEq

inductive Tree (α σ : Type*) where
  | atom (a : α)
  | unary (s : σ) (t : Tree α σ)
  | binary (s : σ) (left right : Tree α σ)
  | group (t : Tree α σ)
  deriving DecidableEq

variable {α σ : Type*}

def Tree.print : Tree α σ → List (Token α σ)
  | .atom a => [.atom a]
  | .unary s t => .op s :: t.print
  | .binary s left right => left.print ++ .op s :: right.print
  | .group t => .opening :: t.print ++ [.closing]

/-- `left` and `right` joined by `s`, with a chain of `s` on the right hung in on the left. -/
def graft [DecidableEq σ] (s : σ) (left : Tree α σ) : Tree α σ → Tree α σ
  | .binary s' first second =>
    if s' = s then .binary s (graft s left first) second
    else .binary s left (.binary s' first second)
  | right => .binary s left right

theorem print_graft [DecidableEq σ] (s : σ) (left right : Tree α σ) :
    (graft s left right).print = left.print ++ .op s :: right.print := by
  induction right with
  | atom | unary | group => rfl
  | binary s' first second ih =>
    rw [graft]
    split_ifs with hs
    · subst hs
      rw [Tree.print, ih, Tree.print, append_assoc, cons_append]
    · rfl

section Parser
variable (G : Grammar σ)

/-- The strength of the operator at the root, if it is binary and not in parentheses. -/
def Tree.strength : Tree α σ → Option ℕ
  | .binary s _ _ => G.binary s
  | _ => none

/-- A chain the grammar does not have. -/
def blocked (k : ℕ) (left : Tree α σ) : Bool := left.strength G == some k && !G.chains k

mutual

/-- An expression whose bare binary operators have at least the strength `p`. -/
def parse : ℕ → ℕ → List (Token α σ) → Option (Tree α σ × List (Token α σ))
  | 0, _, _ => none
  | fuel + 1, p, ts =>
    match operand fuel ts with
    | some (left, rest) => extend fuel p left rest
    | none => none

def operand : ℕ → List (Token α σ) → Option (Tree α σ × List (Token α σ))
  | 0, _ => none
  | _ + 1, .atom a :: rest => some (.atom a, rest)
  | fuel + 1, .opening :: rest =>
    match parse fuel 0 rest with
    | some (t, .closing :: rest) => some (.group t, rest)
    | _ => none
  | fuel + 1, .op s :: rest =>
    match G.unary s with
    | some k =>
      match parse fuel k rest with
      | some (t, rest) => some (.unary s t, rest)
      | none => none
    | none => none
  | _ + 1, _ => none

/-- Takes further operators, with their right operands, as long as they are strong enough. -/
def extend : ℕ → ℕ → Tree α σ → List (Token α σ) → Option (Tree α σ × List (Token α σ))
  | 0, _, _, _ => none
  | fuel + 1, p, left, .op s :: rest =>
    match G.binary s with
    | none => some (left, .op s :: rest)
    | some k =>
      if k < p then some (left, .op s :: rest)
      else if blocked G k left then none
      else
        match parse fuel (k + 1) rest with
        | some (right, rest) => extend fuel p (.binary s left right) rest
        | none => none
  | _ + 1, _, left, rest => some (left, rest)

end

def read (ts : List (Token α σ)) : Option (Tree α σ) :=
  match parse G (2 * ts.length) 0 ts with
  | some (t, []) => some t
  | _ => none

/-- Whether an operator of strength `j` after the tree would go to an operand inside it. -/
def swallows (j : ℕ) : Tree α σ → Bool
  | .unary s t => (G.unary s).any (· ≤ j) || swallows j t
  | .binary s _ right => (G.binary s).any (· < j) || swallows j right
  | _ => false

def above (p : ℕ) (t : Tree α σ) : Bool := (t.strength G).all (p ≤ ·)

/-- Every operand binds tightly enough to stand where it does without further parentheses. -/
def fits : Tree α σ → Bool
  | .atom _ => true
  | .group t => fits t
  | .unary s t =>
    match G.unary s with
    | some k => fits t && above G k t
    | none => false
  | .binary s left right =>
    match G.binary s with
    | some k => fits left && fits right && above G k left && !blocked G k left &&
        !swallows G k left && above G (k + 1) right
    | none => false

/-- The operator that comes next, if one does, satisfies the test on its strength. -/
def Next (test : ℕ → Prop) : List (Token α σ) → Prop
  | .op s :: _ => ∀ k, G.binary s = some k → test k
  | _ => True

end Parser

variable {G : Grammar σ}
variable {t : Tree α σ}

theorem fits_unary : fits G (.unary s t) = true ↔
    ∃ k, G.unary s = some k ∧ fits G t = true ∧ above G k t = true := by
  rw [fits]
  cases G.unary s <;> simp

theorem fits_binary {left : Tree α σ} : fits G (.binary s left right) = true ↔
    ∃ k, G.binary s = some k ∧ fits G left = true ∧ fits G right = true ∧
      above G k left = true ∧ blocked G k left = false ∧ swallows G k left = false ∧
      above G (k + 1) right = true := by
  rw [fits]
  cases G.binary s <;> simp [and_assoc]

theorem Next.imp (h : ∀ k, P k → Q k) {ts : List (Token α σ)} (hP : Next G P ts) : Next G Q ts := by
  unfold Next at hP ⊢
  split at hP
  · exact fun k hk => h k (hP k hk)
  · trivial

/-- How many calls lie between reading a tree's first token and its last operator. -/
def Tree.spine : Tree α σ → ℕ
  | .binary _ left _ => left.spine + 1
  | _ => 1

theorem Tree.spine_pos (t : Tree α σ) : 0 < t.spine := by
  cases t <;> simp [spine]

theorem Tree.spine_le (t : Tree α σ) : t.spine ≤ t.print.length := by
  induction t with
  | atom | unary => simp [spine, print]
  | binary =>
    simp only [spine, print, length_append, length_cons]
    omega
  | group => simp [spine, print]

theorem next_nil (test) : Next G test ([] : List (Token α σ)) := trivial

theorem next_closing (test) (rest : List (Token α σ)) : Next G test (.closing :: rest) := trivial

theorem above_zero (t : Tree α σ) : above G 0 t = true := by
  cases h : t.strength G <;> simp [above]

theorem above_mono (hpk : p ≤ k) (h : above G k t = true) : above G p t = true := by
  unfold above at h ⊢
  cases hs : t.strength G with
  | none => rfl
  | some =>
    rw [hs] at h
    simp only [Option.all_some, decide_eq_true_eq] at h ⊢
    exact hpk.trans h

variable {rest : List (Token α σ)}

theorem extend_stops (hn : 0 < n) (h : Next G (· < p) rest) :
    extend G n p t rest = some (t, rest) := by
  obtain ⟨n, rfl⟩ := Nat.exists_eq_succ_of_ne_zero hn.ne'
  match rest, h with
  | [], _ => rfl
  | .atom _ :: _, _ | .opening :: _, _ | .closing :: _, _ => rfl
  | .op s :: rest, h =>
    rw [extend]
    cases hs : G.binary s with
    | none => rfl
    | some k => simp [h k hs]

theorem parse_print (t) : ∀ (p n : ℕ) (rest : List (Token α σ)), fits G t = true →
    above G p t = true → Next G (fun k => swallows G k t = false) rest →
    2 * t.print.length ≤ n + t.spine →
      parse G (n + t.spine) p (t.print ++ rest) = extend G n p t rest := by
  induction t with
  | atom =>
    intro p n rest _ _ _ hn
    obtain ⟨n, rfl⟩ : ∃ m, n = m + 1 := ⟨n - 1, by simp [Tree.print, Tree.spine] at hn; omega⟩
    rfl
  | unary s t ih =>
    intro p n rest hfits _ hnext hn
    obtain ⟨k, hk, ht, habove⟩ := fits_unary.mp hfits
    have hspine := t.spine_le
    have hpos := t.spine_pos
    simp only [Tree.print, Tree.spine, length_cons] at hn
    obtain ⟨m, rfl⟩ : ∃ m, n = m + t.spine + 1 := ⟨n - t.spine - 1, by omega⟩
    have hoperand : parse G (m + t.spine) k (t.print ++ rest) = some (t, rest) := by
      rw [ih k m rest ht habove (hnext.imp fun j hj => by simp [swallows] at hj; exact hj.2)
        (by omega)]
      refine extend_stops (by omega) (hnext.imp fun j hj => ?_)
      simp [swallows, hk] at hj
      exact hj.1
    simp [Tree.spine, Tree.print, parse, operand, hk, hoperand]
  | group t ih =>
    intro p n rest hfits _ _ hn
    have hspine := t.spine_le
    simp only [Tree.print, Tree.spine, length_cons, length_append] at hn
    obtain ⟨m, rfl⟩ : ∃ m, n = m + t.spine + 1 := ⟨n - t.spine - 1, by omega⟩
    have hinner : parse G (m + t.spine) 0 (t.print ++ .closing :: rest) =
        some (t, .closing :: rest) := by
      rw [ih 0 m (.closing :: rest) hfits (above_zero t) (next_closing _ rest) (by omega)]
      exact extend_stops (by omega) (next_closing _ rest)
    simp [Tree.spine, Tree.print, parse, operand, hinner]
  | binary s left right ihl ihr =>
    intro p n rest hfits habove hnext hn
    obtain ⟨k, hk, hleft, hright, hkleft, hblocked, hswallows, hkright⟩ := fits_binary.mp hfits
    have hspineLeft := left.spine_le
    have hspineRight := right.spine_le
    have hpk : p ≤ k := by simpa [above, Tree.strength, hk] using habove
    simp only [Tree.print, Tree.spine, length_append, length_cons] at hn
    have hstart := ihl p (n + 1) (.op s :: (right.print ++ rest)) hleft (above_mono hpk hkleft)
      (fun j hj => by rw [hk] at hj; cases hj; exact hswallows) (by omega)
    obtain ⟨m, rfl⟩ : ∃ m, n = m + right.spine := ⟨n - right.spine, by omega⟩
    have hoperand :
        parse G (m + right.spine) (k + 1) (right.print ++ rest) = some (right, rest) := by
      rw [ihr (k + 1) m rest hright hkright
        (hnext.imp fun j hj => by simp [swallows] at hj; exact hj.2) (by omega)]
      refine extend_stops (by omega) (hnext.imp fun j hj => ?_)
      simp [swallows, hk] at hj
      omega
    have hfuel : m + right.spine + (Tree.binary s left right).spine =
        m + right.spine + 1 + left.spine := by
      simp only [Tree.spine]
      omega
    rw [hfuel, Tree.print, append_assoc, cons_append, hstart, extend]
    simp only [hk, hblocked, hoperand, Bool.false_eq_true, ↓reduceIte]
    rw [if_neg (by omega)]

theorem read_print (h : fits G t = true) : read G t.print = some t := by
  have hspine := t.spine_le
  have hpos := t.spine_pos
  have hfuel : 2 * t.print.length = 2 * t.print.length - t.spine + t.spine := by omega
  have hprs := parse_print t 0 (2 * t.print.length - t.spine) [] h (above_zero t) (next_nil _)
    (by omega)
  rw [← hfuel, append_nil, extend_stops (by omega) (next_nil _)] at hprs
  rw [read, hprs]

/-- The tree stands at strength `p` with nothing after it that belongs inside it. -/
structure Complete (G : Grammar σ) (p : ℕ) (t : Tree α σ) (rest : List (Token α σ)) : Prop where
  fits : fits G t = true
  above : above G p t = true
  free : Next G (fun k => swallows G k t = false) rest

theorem Complete.binary (hs : G.binary s = some k) (hp : p ≤ k)
    (hblocked : blocked G k left = false) (hleft : Complete G p left (.op s :: ts))
    (hright : Complete G (k + 1) right rest) (hnext : Next G (· < k + 1) rest) :
    Complete G p (.binary s left right) rest := by
  have hswallows := hleft.free k hs
  have habove : Precedence.above G k left = true := by
    unfold Precedence.above
    cases left with
    | binary s' =>
      cases hs' : G.binary s' with
      | none => simp [Tree.strength, hs']
      | some =>
        -- a weaker operator at the root would have taken this one into its right operand
        simp [swallows] at hswallows
        simpa [Tree.strength, hs'] using hswallows.1
    | _ => rfl
  refine ⟨fits_binary.mpr ⟨k, hs, hleft.fits, hright.fits, habove, hblocked, hswallows,
    hright.above⟩, by simpa [Precedence.above, Tree.strength, hs] using hp, ?_⟩
  unfold Next at hnext ⊢
  have hfree := hright.free
  split at hnext
  · intro j hj
    simp [swallows, hs, Nat.le_of_lt_succ (hnext j hj), hfree j hj]
  · trivial

theorem Complete.unary (hs : G.unary s = some k)
    (ht : Complete G k t rest) (hnext : Next G (· < k) rest) : Complete G p (.unary s t) rest := by
  refine ⟨fits_unary.mpr ⟨k, hs, ht.fits, ht.above⟩, rfl, ?_⟩
  unfold Next at hnext ⊢
  have hfree := ht.free
  split at hnext
  · intro j hj
    simp [swallows, hs, hnext j hj, hfree j hj]
  · trivial

theorem next_of_swallows_false (h : ∀ k, swallows G k t = false) (rest : List (Token α σ)) :
    Next G (fun k => swallows G k t = false) rest := by
  unfold Next
  split
  · exact fun k _ => h k
  · trivial

/-- What the parser reads is a tree that fits, printed by the tokens it took. -/
theorem parse_sound (fuel : ℕ) : (∀ {p : ℕ} {ts rest : List (Token α σ)} {t : Tree α σ},
      parse G fuel p ts = some (t, rest) →
        ts = t.print ++ rest ∧ Complete G p t rest ∧ Next G (· < p) rest) ∧
    (∀ {p : ℕ} {ts rest : List (Token α σ)} {t : Tree α σ},
      operand G fuel ts = some (t, rest) → ts = t.print ++ rest ∧ Complete G p t rest) ∧
    (∀ {p : ℕ} {ts rest : List (Token α σ)} {left t : Tree α σ},
      extend G fuel p left ts = some (t, rest) → Complete G p left ts →
        left.print ++ ts = t.print ++ rest ∧ Complete G p t rest ∧ Next G (· < p) rest) := by
  induction fuel with
  | zero => exact ⟨nofun, nofun, nofun⟩
  | succ fuel ih =>
    obtain ⟨ihparse, ihoperand, ihextend⟩ := ih
    refine ⟨?_, ?_, ?_⟩
    · intro p ts rest t h
      rw [parse] at h
      split at h
      · rename_i left rest' hoperand
        obtain ⟨hts, hleft⟩ := ihoperand hoperand
        obtain ⟨hrest, hdone⟩ := ihextend h hleft
        exact ⟨hts.trans hrest, hdone⟩
      · cases h
    · intro p ts rest t h
      match ts, h with
      | .atom a :: ts, h =>
        cases h
        exact ⟨rfl, rfl, rfl, next_of_swallows_false (fun _ => rfl) _⟩
      | .opening :: ts, h =>
        rw [operand] at h
        split at h
        · rename_i inner rest' hprs
          cases h
          obtain ⟨hts, hinner, -⟩ := ihparse hprs
          refine ⟨?_, hinner.fits, rfl, next_of_swallows_false (fun _ => rfl) _⟩
          rw [hts]
          simp [Tree.print]
        · cases h
      | .op s :: ts, h =>
        rw [operand] at h
        split at h
        · rename_i k hk
          split at h
          · rename_i inner rest' hprs
            cases h
            obtain ⟨hts, hinner, hnext⟩ := ihparse hprs
            refine ⟨?_, hinner.unary hk hnext⟩
            rw [hts]
            rfl
          · cases h
        · cases h
    · intro p ts rest left t h hleft
      match ts, h, hleft with
      | [], h, hleft => cases h; exact ⟨rfl, hleft, trivial⟩
      | .atom _ :: _, h, hleft | .opening :: _, h, hleft | .closing :: _, h, hleft =>
        cases h; exact ⟨rfl, hleft, trivial⟩
      | .op s :: ts, h, hleft =>
        rw [extend] at h
        split at h
        · rename_i hs
          cases h
          exact ⟨rfl, hleft, fun k hk => by rw [hs] at hk; cases hk⟩
        · rename_i k hs
          split_ifs at h with hk hblocked
          · cases h
            exact ⟨rfl, hleft, fun j hj => by rw [hs] at hj; cases hj; exact hk⟩
          · split at h
            · rename_i right rest' hprs
              obtain ⟨hts, hright, hnext⟩ := ihparse hprs
              obtain ⟨hrest, hdone⟩ := ihextend h
                (.binary hs (Nat.le_of_not_lt hk) (by simpa using hblocked) hleft hright hnext)
              refine ⟨?_, hdone⟩
              rw [← hrest, hts]
              simp [Tree.print]
            · cases h

/-- The trees that fit are exactly those their tokens are read as. -/
theorem read_eq_some_iff : read G ts = some t ↔ ts = t.print ∧ fits G t = true := by
  constructor
  · intro h
    unfold read at h
    split at h
    · rename_i t' hprs
      cases h
      obtain ⟨hts, hdone, -⟩ := (parse_sound _).1 hprs
      exact ⟨by rw [hts, append_nil], hdone.fits⟩
    · cases h
  · rintro ⟨rfl, h⟩
    exact read_print h

section Substitution
variable {β : Type*} (f : α → Tree β σ)

def Tree.subst : Tree α σ → Tree β σ
  | .atom a => f a
  | .unary s t => .unary s t.subst
  | .binary s left right => .binary s left.subst right.subst
  | .group t => .group t.subst

def Token.subst : Token α σ → List (Token β σ)
  | .atom a => (f a).print
  | .op s => [.op s]
  | .opening => [.opening]
  | .closing => [.closing]

theorem print_subst (t : Tree α σ) : (t.subst f).print = t.print.flatMap (Token.subst f) := by
  induction t with
  | atom => simp [Tree.subst, Tree.print, Token.subst]
  | unary s t ih => simp [Tree.subst, Tree.print, Token.subst, ih]
  | binary s left right ihl ihr => simp [Tree.subst, Tree.print, Token.subst, ihl, ihr]
  | group t ih => simp [Tree.subst, Tree.print, Token.subst, ih]

theorem subst_atom (t : Tree α σ) : t.subst Tree.atom = t := by
  induction t with
  | atom => rfl
  | unary s t ih => rw [Tree.subst, ih]
  | binary s left right ihl ihr => rw [Tree.subst, ihl, ihr]
  | group t ih => rw [Tree.subst, ih]

/-- The tree can stand wherever an atom can: no binary operator beside it reaches into it. -/
structure Tight (G : Grammar σ) (t : Tree α σ) : Prop where
  fits : fits G t = true
  strength : t.strength G = none
  swallows : ∀ s k, G.binary s = some k → swallows G k t = false

theorem Tight.atom (a : α) : Tight G (.atom a : Tree α σ) := ⟨rfl, rfl, fun _ _ _ => rfl⟩

variable {f}

variable (hf : ∀ a, Tight G (f a))
include hf

theorem strength_subst (t : Tree α σ) : (t.subst f).strength G = t.strength G := by
  cases t with
  | atom a => exact (hf a).strength
  | _ => rfl

theorem swallows_subst (hs : G.binary s = some k) (t) :
    swallows G k (t.subst f) = swallows G k t := by
  induction t with
  | atom a => exact (hf a).swallows s k hs
  | unary s' t ih | binary s' left right _ ih => simp [Tree.subst, swallows, ih]
  | group => rfl

/-- Filling the atoms with tight trees leaves no operand looser than it was. -/
theorem fits_subst (h : fits G t = true) : fits G (t.subst f) = true := by
  induction t with
  | atom a => exact (hf a).fits
  | group t ih => exact ih h
  | unary s t ih =>
    obtain ⟨k, hk, ht, habove⟩ := fits_unary.mp h
    refine fits_unary.mpr ⟨k, hk, ih ht, ?_⟩
    rwa [above, strength_subst hf]
  | binary s left right ihl ihr =>
    obtain ⟨k, hk, hleft, hright, hkleft, hblocked, hswallows, hkright⟩ := fits_binary.mp h
    refine fits_binary.mpr ⟨k, hk, ihl hleft, ihr hright, ?_, ?_, ?_, ?_⟩
    · rwa [above, strength_subst hf]
    · rwa [blocked, strength_subst hf]
    · rwa [swallows_subst hf hk]
    · rwa [above, strength_subst hf]

theorem read_subst (h : read G ts = some t) :
    read G (ts.flatMap (Token.subst f)) = some (t.subst f) := by
  obtain ⟨rfl, hfits⟩ := read_eq_some_iff.mp h
  exact read_eq_some_iff.mpr ⟨(print_subst f t).symm, fits_subst hf hfits⟩

omit hf

theorem read_group (h : read G ts = some t) :
    read G (.opening :: ts ++ [.closing]) = some (.group t) := by
  obtain ⟨rfl, hfits⟩ := read_eq_some_iff.mp h
  exact read_eq_some_iff.mpr ⟨rfl, hfits⟩

end Substitution

end Palimpsest.Precedence
