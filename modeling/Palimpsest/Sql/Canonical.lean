import Palimpsest.Foundation.Precedence
import Mathlib.Data.List.Sort

/-! The text a filter predicate is lowered to, as its tokens, and what is left of the expression
when that text is read again. -/
namespace Palimpsest.Sql

open Precedence List

/-- The operators of a scalar expression; `plus` and `minus` stand before one operand too. -/
inductive Symbol where
  | or | and | not
  | isDistinctFrom | isNotDistinctFrom
  | eq | notEq | lt | ltEq | gt | gtEq
  | plus | minus | multiply | divide | modulo
  deriving DecidableEq

/-- The operators' strengths in Postgres. Comparisons do not form chains. -/
def postgres : Grammar Symbol where
  binary
    | .or => some 1
    | .and => some 2
    | .not => none
    | .isDistinctFrom | .isNotDistinctFrom => some 4
    | .eq | .notEq | .lt | .ltEq | .gt | .gtEq => some 5
    | .plus | .minus => some 8
    | .multiply | .divide | .modulo => some 9
  unary
    | .not => some 3
    | .plus | .minus => some 11
    | _ => none
  chains k := k != 4 && k != 5

structure Ident where
  value : String
  quoted : Bool
  deriving DecidableEq

/-- The kinds of string literals; only their contents matter. -/
inductive StringStyle where
  | single | escaped | unicode | national
  deriving DecidableEq

/-- Digits, or a number with a fraction or an exponent. -/
def isNumeral (n : List Char) : Bool :=
  (n != [] && n.all Char.isDigit) ||
    (n.any (fun c => c = '.' || c = 'e' || c = 'E') &&
      n.head?.all (fun c => c.isDigit || c = '.'))

/-- An unsigned number as the tokenizer cuts it out. -/
structure Numeral where
  chars : List Char
  wellFormed : isNumeral chars = true
  deriving DecidableEq

inductive Leaf where
  | identifier (name : Ident)
  | compoundIdentifier (parts : List Ident)
  | number (n : Numeral)
  | string (style : StringStyle) (s : String)
  | boolean (b : Bool)
  | null
  deriving DecidableEq

/-- A scalar predicate expression as the parser builds it; `group` is a pair of parentheses. -/
abbrev Scalar := Tree Leaf Symbol

/-- A text of the printer, cut into tokens. -/
abbrev Tokens := List (Token Leaf Symbol)

section Printer

def canonicalNumber (value : List Char) : List Char :=
  let value := value.dropWhile (· = '+')
  if value.any (fun c => c = '.' || c = 'e' || c = 'E') then value.map Char.toLower
  else
    let negative := value.head? = some '-'
    let digits := if negative then value.tail else value
    let digits := digits.dropWhile (· = '0')
    let digits := if digits = [] then ['0'] else digits
    if negative ∧ digits ≠ ['0'] then '-' :: digits else digits

theorem toLower_of_isDigit {c : Char} (h : c.isDigit = true) : c.toLower = c := by
  simp only [Char.isDigit, Bool.and_eq_true, decide_eq_true_eq, UInt32.le_iff_toNat_le] at h
  have hnine : '9'.val.toNat = 57 := rfl
  have hA : 'A'.val.toNat = 65 := rfl
  refine dif_neg ?_
  simp only [UInt32.le_iff_toNat_le]
  omega

theorem not_isDigit_of_mark (h : c = '.' ∨ c = 'e' ∨ c = 'E') : c.isDigit = false := by
  rcases h with rfl | rfl | rfl <;> rfl

/-- A numeral is a run of digits, or has a fraction or an exponent and no sign. -/
theorem Numeral.digits_or_decimal (n : Numeral) : (n.chars ≠ [] ∧ ∀ c ∈ n.chars, c.isDigit = true) ∨
    ((∃ c ∈ n.chars, c = '.' ∨ c = 'e' ∨ c = 'E') ∧
      ∃ c rest, n.chars = c :: rest ∧ (c.isDigit = true ∨ c = '.')) := by
  obtain ⟨chars, h⟩ := n
  simp only [isNumeral, Bool.or_eq_true, Bool.and_eq_true, bne_iff_ne, all_eq_true,
    any_eq_true, decide_eq_true_eq, or_assoc] at h
  rcases h with ⟨hne, hdigits⟩ | ⟨hmark, hhead⟩
  · exact .inl ⟨hne, hdigits⟩
  · refine .inr ⟨hmark, ?_⟩
    cases chars with
    | nil => simp at hmark
    | cons c rest => exact ⟨c, rest, rfl, by simpa using hhead⟩

theorem canonicalNumber_digits (h : ∀ c ∈ n, c.isDigit = true) :
    canonicalNumber n = if n.dropWhile (· = '0') = [] then ['0'] else n.dropWhile (· = '0') := by
  have hplus : n.dropWhile (· = '+') = n := by
    cases n with
    | nil => rfl
    | cons c =>
      have hc : c ≠ '+' := by rintro rfl; exact absurd (h _ (mem_cons_self ..)) (by decide)
      rw [dropWhile_cons_of_neg (by simpa using hc)]
  have hmark : n.any (fun c => c = '.' || c = 'e' || c = 'E') = false := by
    rw [any_eq_false]
    intro c hc hmark
    simp only [Bool.or_eq_true, decide_eq_true_eq, or_assoc] at hmark
    exact absurd (h c hc) (by simp [not_isDigit_of_mark hmark])
  have hsign : n.head? ≠ some '-' := by
    intro hhead
    exact absurd (h '-' (mem_of_mem_head? hhead)) (by decide)
  simp [canonicalNumber, hplus, hmark, hsign]

theorem canonicalNumber_decimal (hc : c.isDigit = true ∨ c = '.')
    (hmark : ∃ d ∈ c :: rest, d = '.' ∨ d = 'e' ∨ d = 'E') :
    canonicalNumber (c :: rest) = (c :: rest).map Char.toLower := by
  have hplus : (c :: rest).dropWhile (· = '+') = c :: rest := by
    have : c ≠ '+' := by rintro rfl; revert hc; decide
    rw [dropWhile_cons_of_neg (by simpa using this)]
  have hany : (c :: rest).any (fun c => c = '.' || c = 'e' || c = 'E') = true := by
    simpa [or_assoc] using hmark
  simp [canonicalNumber, hplus, hany]

theorem isNumeral_canonicalNumber (n : Numeral) : isNumeral (canonicalNumber n.chars) = true := by
  rcases n.digits_or_decimal with ⟨-, hdigits⟩ | ⟨hmark, c, rest, hn, hc⟩
  · rw [canonicalNumber_digits hdigits]
    split_ifs with hzeros
    · rfl
    · simp only [isNumeral, Bool.or_eq_true, Bool.and_eq_true, bne_iff_ne, all_eq_true]
      exact .inl ⟨hzeros, fun d hd => hdigits d (dropWhile_suffix _ |>.subset hd)⟩
  · rw [hn] at hmark
    rw [hn, canonicalNumber_decimal hc hmark]
    obtain ⟨d, hd, hmark⟩ := hmark
    simp only [isNumeral, Bool.or_eq_true, Bool.and_eq_true, any_eq_true, map_cons,
      head?_cons, Option.all_some]
    refine .inr ⟨⟨d.toLower, mem_map_of_mem hd, ?_⟩, ?_⟩
    · rcases hmark with rfl | rfl | rfl <;> decide
    · rcases hc with hc | rfl
      · exact .inl (by rwa [toLower_of_isDigit hc])
      · exact .inr rfl

/-- How a literal is written; names stay as they are. -/
def Leaf.canonical : Leaf → Leaf
  | .number n => .number ⟨canonicalNumber n.chars, isNumeral_canonicalNumber n⟩
  | .string _ s => .string .single s
  | leaf => leaf

def Ident.display (i : Ident) : String :=
  if i.quoted then "\"" ++ i.value.replace "\"" "\"\"" ++ "\"" else i.value

def Leaf.display : Leaf → String
  | .identifier name => name.display
  | .compoundIdentifier parts => ".".intercalate (parts.map Ident.display)
  | .number n => String.ofList n.chars
  | .string _ s => "'" ++ s.replace "'" "''" ++ "'"
  | .boolean b => toString b
  | .null => "NULL"

def Symbol.display : Symbol → String
  | .or => "OR"
  | .and => "AND"
  | .not => "NOT"
  | .isDistinctFrom => "IS DISTINCT FROM"
  | .isNotDistinctFrom => "IS NOT DISTINCT FROM"
  | .eq => "="
  | .notEq => "<>"
  | .lt => "<"
  | .ltEq => "<="
  | .gt => ">"
  | .gtEq => ">="
  | .plus => "+"
  | .minus => "-"
  | .multiply => "*"
  | .divide => "/"
  | .modulo => "%"

def word : Token Leaf Symbol → String
  | .atom a => a.display
  | .op s => s.display
  | .opening => "("
  | .closing => ")"

def text : Tokens → String
  | [] => ""
  | [t] => word t
  | .opening :: rest => "(" ++ text rest
  | t :: .closing :: rest => word t ++ text (.closing :: rest)
  | t :: rest => word t ++ " " ++ text rest

/-- The two operators that are printed in parentheses of their own. -/
def Symbol.isDistinct : Symbol → Bool
  | .isDistinctFrom | .isNotDistinctFrom => true
  | _ => false

def canonicalExpr : Scalar → Tokens
  | .atom a => [.atom a.canonical]
  | .unary s e => .op s :: canonicalExpr e
  | .group e => canonicalExpr e
  | .binary s left right =>
    if s.isDistinct then .opening :: (canonicalExpr left ++ .op s :: canonicalExpr right) ++
      [.closing]
    else canonicalExpr left ++ .op s :: canonicalExpr right

def operandSortKey (e : Scalar) : String :=
  match e with
  | .atom (.identifier name) => "0:" ++ (Leaf.identifier name).display
  | .atom (.compoundIdentifier parts) => "0:" ++ (Leaf.compoundIdentifier parts).display
  | e => "1:" ++ text (canonicalExpr e)

def inOrder (left right : Scalar) : Bool :=
  let keys := (operandSortKey left, operandSortKey right)
  keys.1 < keys.2 ∨ (keys.1 = keys.2 ∧ text (canonicalExpr left) ≤ text (canonicalExpr right))

/-- The text of anything but a conjunction. -/
def canonicalConjunct : Scalar → Tokens
  | .binary .eq left right =>
    if inOrder left right then canonicalExpr left ++ .op .eq :: canonicalExpr right
    else canonicalExpr right ++ .op .eq :: canonicalExpr left
  | e => canonicalExpr e

def flattenAnd : Scalar → List Tokens
  | .binary .and left right => flattenAnd left ++ flattenAnd right
  | e => [canonicalConjunct e]

def joinAnd : List Tokens → Tokens
  | [] => []
  | part :: parts => parts.foldl (fun joined part => joined ++ .op .and :: part) part

def canonicalPredicate : Scalar → Tokens
  | .binary .and left right =>
    joinAnd ((flattenAnd left ++ flattenAnd right).insertionSort fun a b => text a ≤ text b)
  | e => canonicalConjunct e

end Printer

section Meant

/-- The expression without its parentheses, literals as they are written and chains of `AND` and
`OR` hung in on the left. -/
def bare : Scalar → Scalar
  | .atom a => .atom a.canonical
  | .unary s e => .unary s (bare e)
  | .group e => bare e
  | .binary s left right =>
    if s.isDistinct then .group (.binary s (bare left) (bare right))
    else if s = .and ∨ s = .or then graft s (bare left) (bare right)
    else .binary s (bare left) (bare right)

def meantConjunct : Scalar → Scalar
  | .binary .eq left right =>
    if inOrder left right then .binary .eq (bare left) (bare right)
    else .binary .eq (bare right) (bare left)
  | e => bare e

def meantConjuncts : Scalar → List Scalar
  | .binary .and left right => meantConjuncts left ++ meantConjuncts right
  | e => [meantConjunct e]

def chainAnd : List Scalar → Scalar
  | [] => .atom .null
  | e :: es => es.foldl (graft .and) e

def sortConjuncts (es : List Scalar) : List Scalar :=
  es.insertionSort fun a b => text a.print ≤ text b.print

/-- The tree the predicate's text is meant to stand for: without parentheses, conjuncts in the
order of their texts and the operands of an equality in theirs. -/
def meant : Scalar → Scalar
  | .binary .and left right =>
    chainAnd (sortConjuncts (meantConjuncts left ++ meantConjuncts right))
  | e => meantConjunct e

variable (e : Scalar)

theorem canonicalExpr_eq : canonicalExpr e = (bare e).print := by
  induction e with
  | atom => rfl
  | unary s e ih => rw [canonicalExpr, ih]; rfl
  | group e ih => exact ih
  | binary s left right ihl ihr =>
    rw [canonicalExpr, bare]
    split_ifs with hdist hchain
    · rw [ihl, ihr]; rfl
    · rw [ihl, ihr, print_graft]
    · rw [ihl, ihr]; rfl

theorem canonicalConjunct_eq : canonicalConjunct e = (meantConjunct e).print := by
  unfold canonicalConjunct meantConjunct
  split
  · split_ifs <;> simp [canonicalExpr_eq] <;> rfl
  · exact canonicalExpr_eq _

theorem flattenAnd_eq : flattenAnd e = (meantConjuncts e).map Tree.print := by
  fun_induction flattenAnd e with
  | case1 left right ihl ihr => rw [ihl, ihr, meantConjuncts, map_append]
  | case2 e hand =>
    simp [meantConjuncts.eq_2 e hand, canonicalConjunct_eq]

theorem print_chainAnd (h : es ≠ []) : (chainAnd es).print = joinAnd (es.map Tree.print) := by
  cases es with
  | nil => exact absurd rfl h
  | cons e es =>
    simp only [chainAnd, joinAnd]
    induction es generalizing e with
    | nil => rfl
    | cons e' es ih => simp [ih _ (cons_ne_nil _ _), print_graft]

theorem meantConjuncts_ne_nil : meantConjuncts e ≠ [] := by
  fun_induction meantConjuncts e with
  | case1 left right ihl => simp [ihl]
  | case2 => simp

theorem sortConjuncts_perm (es) : (sortConjuncts es).Perm es :=
  perm_insertionSort _ es

theorem sortConjuncts_ne_nil (left right) :
    sortConjuncts (meantConjuncts left ++ meantConjuncts right) ≠ [] := by
  intro hnil
  have hperm := sortConjuncts_perm (meantConjuncts left ++ meantConjuncts right)
  rw [hnil, nil_perm, append_eq_nil_iff] at hperm
  exact meantConjuncts_ne_nil left hperm.1

theorem canonicalPredicate_eq : canonicalPredicate e = (meant e).print := by
  unfold canonicalPredicate meant
  split
  · rename_i left right
    rw [flattenAnd_eq, flattenAnd_eq, ← map_append,
      print_chainAnd (sortConjuncts_ne_nil left right), sortConjuncts,
      map_insertionSort _ (fun a b : Tokens => text a ≤ text b)]
    exact fun a _ b _ => .rfl
  · exact canonicalConjunct_eq _

end Meant

/-- What leaves and operators stand for, up to the spelling of literals, the grouping and order of
conjunctions, the grouping of disjunctions and the order of an equality. -/
structure Interpretation (δ : Type*) where
  atom : Leaf → δ
  unary : Symbol → δ → δ
  binary : Symbol → δ → δ → δ
  atom_canonical : ∀ a, atom a.canonical = atom a
  and_assoc : ∀ x y z, binary .and (binary .and x y) z = binary .and x (binary .and y z)
  and_comm : ∀ x y, binary .and x y = binary .and y x
  or_assoc : ∀ x y z, binary .or (binary .or x y) z = binary .or x (binary .or y z)
  eq_comm : ∀ x y, binary .eq x y = binary .eq y x

namespace Interpretation
variable {δ : Type*} (I : Interpretation δ)

def eval : Scalar → δ
  | .atom a => I.atom a
  | .unary s e => I.unary s (eval e)
  | .binary s left right => I.binary s (eval left) (eval right)
  | .group e => eval e

/-- A chain means the same however it is hung in, also with its leaves replaced. -/
theorem eval_subst_graft (f : Leaf → Scalar)
    (hs : ∀ x y z, I.binary s (I.binary s x y) z = I.binary s x (I.binary s y z))
    (left right : Scalar) : I.eval ((graft s left right).subst f) =
      I.binary s (I.eval (left.subst f)) (I.eval (right.subst f)) := by
  induction right with
  | atom => rfl
  | unary => rfl
  | group => rfl
  | binary s' first second ih =>
    rw [graft]
    split_ifs with h
    · subst h
      simp [Tree.subst, eval, ih, hs]
    · rfl

theorem eval_graft (hs : ∀ x y z, I.binary s (I.binary s x y) z = I.binary s x (I.binary s y z))
    (left right : Scalar) :
    I.eval (graft s left right) = I.binary s (I.eval left) (I.eval right) := by
  have h := I.eval_subst_graft Tree.atom hs left right
  rwa [subst_atom, subst_atom, subst_atom] at h

/-- Dropping the parentheses of a tree does not change its meaning, nor that of the tree with its
leaves replaced by values that do not depend on how a literal is spelled. -/
theorem eval_subst_bare {f : Leaf → Scalar} (hf : ∀ a, I.eval (f a.canonical) = I.eval (f a)) (e) :
    I.eval ((bare e).subst f) = I.eval (e.subst f) := by
  induction e with
  | atom a => exact hf a
  | unary s e ih => rw [bare, Tree.subst, eval, ih, Tree.subst, eval]
  | group e ih => exact ih
  | binary s left right ihl ihr =>
    rw [bare, Tree.subst, eval]
    split_ifs with hdist hchain
    · rw [Tree.subst, Tree.subst, eval, eval, ihl, ihr]
    · rcases hchain with rfl | rfl
      · rw [I.eval_subst_graft f I.and_assoc, ihl, ihr]
      · rw [I.eval_subst_graft f I.or_assoc, ihl, ihr]
    · rw [Tree.subst, eval, ihl, ihr]

variable (e : Scalar)

theorem eval_bare : I.eval (bare e) = I.eval e := by
  have h := I.eval_subst_bare (f := Tree.atom) I.atom_canonical e
  rwa [subst_atom, subst_atom] at h

theorem eval_meantConjunct : I.eval (meantConjunct e) = I.eval e := by
  unfold meantConjunct
  split
  · split_ifs
    · rw [eval, eval, eval_bare, eval_bare]
    · rw [eval, eval, eval_bare, eval_bare, eq_comm]
  · exact I.eval_bare _

def all (values : List δ) : Option δ :=
  values.foldr (fun x rest => some (rest.elim x (I.binary .and x))) none

theorem all_append (hx : I.all xs = some x) (hy : I.all ys = some y) :
    I.all (xs ++ ys) = some (I.binary .and x y) := by
  induction xs generalizing x with
  | nil => cases hx
  | cons first xs ih =>
    rw [all, foldr_cons, ← all, Option.some.injEq] at hx
    rw [cons_append, all, foldr_cons, ← all]
    cases hrest : I.all xs with
    | none =>
      have hnil : xs = [] := by
        cases xs with
        | nil => rfl
        | cons => cases hrest
      subst hnil
      rw [nil_append, hy, ← hx]
      rfl
    | some =>
      rw [hrest, Option.elim_some] at hx
      rw [ih hrest, Option.elim_some, ← hx, and_assoc]

theorem all_perm (h : xs.Perm ys) : I.all xs = I.all ys := by
  refine h.foldr_eq' ?_ none
  intro x _ y _ rest
  cases rest with
  | none => exact congrArg some (I.and_comm y x)
  | some =>
    simp only [Option.elim_some]
    rw [← and_assoc, I.and_comm y x, and_assoc]

theorem all_meantConjuncts : I.all ((meantConjuncts e).map I.eval) = some (I.eval e) := by
  fun_induction meantConjuncts e with
  | case1 left right ihl ihr =>
    rw [map_append, I.all_append ihl ihr]
    rfl
  | case2 =>
    rw [map_singleton, eval_meantConjunct]
    rfl

theorem all_cons_cons (x y : δ) (rest) :
    I.all (x :: y :: rest) = I.all (I.binary .and x y :: rest) := by
  simp only [all, foldr_cons]
  rw [← all]
  cases I.all rest with
  | none => rfl
  | some z => exact congrArg some (I.and_assoc x y z).symm

theorem all_chainAnd (h : es ≠ []) : I.all (es.map I.eval) = some (I.eval (chainAnd es)) := by
  cases es with
  | nil => exact absurd rfl h
  | cons e es =>
    clear h
    rw [chainAnd]
    induction es generalizing e with
    | nil => rfl
    | cons e' es ih =>
      rw [foldl_cons, ← ih, map_cons, map_cons, map_cons, all_cons_cons, I.eval_graft I.and_assoc]

theorem eval_meant : I.eval (meant e) = I.eval e := by
  unfold meant
  split
  · rename_i left right
    apply Option.some.inj
    rw [← I.all_chainAnd (sortConjuncts_ne_nil left right),
      I.all_perm ((sortConjuncts_perm _).map I.eval)]
    exact I.all_meantConjuncts (.binary .and left right)
  · exact I.eval_meantConjunct _

end Interpretation
end Palimpsest.Sql
