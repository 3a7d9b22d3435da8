import Palimpsest.Sql.Canonical
import Palimpsest.Dataflow.Evaluator

/-! A filter predicate between the frontend that prints it and the evaluator that parses it
again. -/
namespace Palimpsest.Dataflow

open Sql Precedence List

section

def StringStyle.toQuoteStyle : StringStyle → QuoteStyle
  | .single => .single
  | .escaped => .escaped
  | .unicode => .unicode
  | .national => .national

def leafExpr : Leaf → Expr
  | .identifier name => .identifier name.value
  | .compoundIdentifier parts => .compoundIdentifier (parts.map Ident.value)
  | .number n => .value (.number (String.ofList n.chars))
  | .string style s => .value (.quoted (StringStyle.toQuoteStyle style) s)
  | .boolean b => .value (.boolean b)
  | .null => .value .null

def binaryOperator : Symbol → Option BinaryOperator
  | .or => some .or
  | .and => some .and
  | .eq => some .eq
  | .notEq => some .notEq
  | .lt => some .lt
  | .ltEq => some .ltEq
  | .gt => some .gt
  | .gtEq => some .gtEq
  | .plus => some .plus
  | .minus => some .minus
  | .multiply => some .multiply
  | .divide => some .divide
  | .modulo => some .modulo
  | .not | .isDistinctFrom | .isNotDistinctFrom => none

def unaryOperator : Symbol → Option UnaryOperator
  | .not => some .not
  | .plus => some .plus
  | .minus => some .minus
  | _ => none

def scalarExpr : Scalar → Expr
  | .atom a => leafExpr a
  | .group e => .nested (scalarExpr e)
  | .unary s e =>
    match unaryOperator s with
    | some op => .unaryOp op (scalarExpr e)
    | none => .other s.display
  | .binary .isDistinctFrom left right => .isDistinctFrom (scalarExpr left) (scalarExpr right)
  | .binary .isNotDistinctFrom left right => .isNotDistinctFrom (scalarExpr left) (scalarExpr right)
  | .binary s left right =>
    match binaryOperator s with
    | some op => .binaryOp (scalarExpr left) op (scalarExpr right)
    | none => .other s.display

end

section

/-- A function of digits that skips a leading zero does not see the zeros being trimmed. -/
theorem trimZeros_eq {β : Type*} {f : List Char → β}
    (hf : ∀ s, s ≠ [] → (∀ c ∈ s, c.isDigit = true) → f ('0' :: s) = f s) (hne : n ≠ [])
    (hn : ∀ c ∈ n, c.isDigit = true) :
    f (if n.dropWhile (· = '0') = [] then ['0'] else n.dropWhile (· = '0')) = f n := by
  induction n with
  | nil => exact absurd rfl hne
  | cons c rest ih =>
    rcases eq_or_ne c '0' with rfl | hc
    · rw [dropWhile_cons_of_pos (by simp)]
      by_cases hrest : rest = []
      · subst hrest; rfl
      · have hdigits : ∀ c ∈ rest, c.isDigit = true := fun c hc => hn c (mem_cons_of_mem _ hc)
        rw [ih hrest hdigits, hf rest hrest hdigits]
    · rw [dropWhile_cons_of_neg (by simpa using hc), if_neg (cons_ne_nil _ _)]

theorem parseI64_unsigned (hplus : c ≠ '+') (hminus : c ≠ '-') :
    parseI64 (c :: rest) = if (c :: rest).any (fun c => !c.isDigit) then none
      else checkedI64 ((c :: rest).foldl (fun n c => 10 * n + ((c.toNat : ℤ) - 48)) 0) := by
  unfold parseI64
  split
  rename_i negative digits hsplit
  split at hsplit
  · rename_i h; cases h; exact absurd rfl hminus
  · rename_i h; cases h; exact absurd rfl hplus
  · cases hsplit
    simp

theorem ne_sign (h : c.isDigit = true ∨ c = '.') : c ≠ '+' ∧ c ≠ '-' := by
  constructor <;> rintro rfl <;> revert h <;> decide

theorem parseI64_zero (hne : s ≠ []) (hs : ∀ c ∈ s, c.isDigit = true) :
    parseI64 ('0' :: s) = parseI64 s := by
  cases s with
  | nil => exact absurd rfl hne
  | cons c =>
    obtain ⟨hplus, hminus⟩ := ne_sign (.inl (hs c (mem_cons_self ..)))
    rw [parseI64_unsigned (by decide) (by decide), parseI64_unsigned hplus hminus]
    rfl

theorem parseI64_decimal (hc : c.isDigit = true ∨ c = '.')
    (hmark : ∃ d ∈ c :: rest, d = '.' ∨ d = 'e' ∨ d = 'E') : parseI64 (c :: rest) = none := by
  obtain ⟨hplus, hminus⟩ := ne_sign hc
  obtain ⟨d, hd, hmark⟩ := hmark
  rw [parseI64_unsigned hplus hminus, if_pos]
  exact any_eq_true.mpr ⟨d, hd, by simp [not_isDigit_of_mark hmark]⟩

variable (P : Primitives)

theorem parse_canonicalNumber (n : Numeral) :
    parseI64 (canonicalNumber n.chars) = parseI64 n.chars ∧
      P.parseFloat (canonicalNumber n.chars) = P.parseFloat n.chars := by
  rcases n.digits_or_decimal with ⟨hne, hdigits⟩ | ⟨hmark, c, rest, hn, hc⟩
  · rw [canonicalNumber_digits hdigits]
    exact ⟨trimZeros_eq (fun s => parseI64_zero) hne hdigits,
      trimZeros_eq P.parseFloat_zero hne hdigits⟩
  · rw [hn] at hmark ⊢
    rw [canonicalNumber_decimal hc hmark]
    refine ⟨?_, P.parseFloat_toLower _⟩
    rw [parseI64_decimal hc hmark]
    obtain ⟨d, hd, hmark⟩ := hmark
    refine parseI64_decimal ?_ ⟨d.toLower, mem_map_of_mem hd, ?_⟩
    · rcases hc with hc | rfl
      · exact .inl (by rwa [toLower_of_isDigit hc])
      · exact .inr rfl
    · rcases hmark with rfl | rfl | rfl <;> decide

end

section Evaluator
variable (P : Primitives) (schema : ScalarSchema)

theorem binaryDatum_and (a b) : binaryDatum P .and a b = .bool (a.isTrue && b.isTrue) := by
  rw [binaryDatum]
  cases a.isTrue <;> rfl

theorem binaryDatum_or (a b) : binaryDatum P .or a b = .bool (a.isTrue || b.isTrue) := by
  rw [binaryDatum]
  cases a.isTrue <;> rfl

def closure (e : Scalar) : Option ScalarFn :=
  (compileInner P schema (scalarExpr e)).toOption

theorem valueScalar_canonicalNumber (n : Numeral) :
    (valueScalar P (.number (String.ofList (canonicalNumber n.chars)))).toOption =
      (valueScalar P (.number (String.ofList n.chars))).toOption := by
  obtain ⟨hint, hfloat⟩ := parse_canonicalNumber P n
  simp only [valueScalar, String.toList_ofList, hint, hfloat]
  cases parseI64 n.chars with
  | some => rfl
  | none =>
    cases P.parseFloat n.chars <;> rfl

theorem closure_canonical (a : Leaf) :
    closure P schema (.atom a.canonical) = closure P schema (.atom a) := by
  cases a with
  | number n => exact valueScalar_canonicalNumber P n
  | string =>
    simp [closure, Leaf.canonical, scalarExpr, leafExpr, compileInner, valueScalar]
  | _ => rfl

/-- The evaluator as an interpretation of scalar expressions. -/
def evaluator : Interpretation (Option ScalarFn) where
  atom a := closure P schema (.atom a)
  unary s x := do
    let e ← x
    let op ← unaryOperator s
    some fun row => unaryDatum P op (e row)
  binary s x y := do
    let l ← x
    let r ← y
    match s with
    | .isDistinctFrom => some fun row => .bool !nullSafeEq P (l row) (r row)
    | .isNotDistinctFrom => some fun row => .bool (nullSafeEq P (l row) (r row))
    | s => (binaryOperator s).map fun op row => binaryDatum P op (l row) (r row)
  atom_canonical a := closure_canonical P schema a
  and_assoc x y z := by
    rcases x with _ | l <;> rcases y with _ | m <;> rcases z with _ | r <;> try rfl
    refine congrArg some (funext fun row => ?_)
    simp [binaryDatum_and, Bool.and_assoc]
  and_comm x y := by
    rcases x with _ | l <;> rcases y with _ | r <;> try rfl
    refine congrArg some (funext fun row => ?_)
    simp [binaryDatum_and, Bool.and_comm]
  or_assoc x y z := by
    rcases x with _ | l <;> rcases y with _ | m <;> rcases z with _ | r <;> try rfl
    refine congrArg some (funext fun row => ?_)
    simp [binaryDatum_or, Bool.or_assoc]
  eq_comm x y := by
    rcases x with _ | l <;> rcases y with _ | r <;> try rfl
    refine congrArg some (funext fun row => ?_)
    simp [binaryDatum, datumEq_comm P (l row)]

theorem eval_evaluator (e) : (evaluator P schema).eval e = closure P schema e := by
  induction e with
  | atom => rfl
  | group e ih => exact ih
  | unary s e ih =>
    rw [Interpretation.eval, ih]
    unfold closure
    cases s <;> simp [scalarExpr, unaryOperator, compileInner] <;>
      cases compileInner P schema (scalarExpr e) <;> rfl
  | binary s left right ihl ihr =>
    rw [Interpretation.eval, ihl, ihr]
    unfold closure
    cases s <;> simp [scalarExpr, binaryOperator, compileInner] <;>
      cases compileInner P schema (scalarExpr left) <;>
      cases compileInner P schema (scalarExpr right) <;> rfl

/-- Whether the predicate is true on the row, if the evaluator compiles it. -/
def acceptsRow (e : Scalar) (row : List Datum) : Option Bool :=
  (compilePredicate P schema (scalarExpr e)).toOption.map (· row)

theorem acceptsRow_eq (e row) :
    acceptsRow P schema e row = (closure P schema e).map fun f => (f row).isTrue := by
  unfold acceptsRow compilePredicate closure
  cases compileInner P schema (scalarExpr e) <;> rfl

/-- The printed predicate is read again as one that is true on the same rows. -/
def SurvivesPrinting (e : Scalar) : Prop :=
  ∃ reread, read postgres (canonicalPredicate e) = some reread ∧
    ∀ row, acceptsRow P schema reread row = acceptsRow P schema e row

/-- The text is read as the tree it is meant for exactly if that tree fits the grammar. -/
theorem read_canonicalPredicate_iff (e) :
    read postgres (canonicalPredicate e) = some (meant e) ↔ fits postgres (meant e) = true := by
  rw [read_eq_some_iff, canonicalPredicate_eq]
  exact and_iff_right rfl

/-- A predicate whose meant tree fits the grammar is true on the same rows once it is read again. -/
theorem survivesPrinting_of_fits (e : Scalar) (h : fits postgres (meant e) = true) :
    SurvivesPrinting P schema e := by
  refine ⟨meant e, (read_canonicalPredicate_iff e).mpr h, fun row => ?_⟩
  rw [acceptsRow_eq, acceptsRow_eq, ← eval_evaluator, ← eval_evaluator,
    (evaluator P schema).eval_meant]

end Evaluator

def column (name : String) : Scalar := .atom (.identifier ⟨name, false⟩)

def digit (d : Char) (h : isNumeral [d] = true) : Scalar := .atom (.number ⟨[d], h⟩)

def threeColumns : ScalarSchema := ⟨["a", "b", "c"], []⟩

/-- `NOT (c = 3) AND ((7 = a + b * 2) AND a < 5)`: no parenthesis is needed, and the conjuncts and
the equality's operands change places. -/
theorem spare_parentheses_survive : SurvivesPrinting plainPrimitives threeColumns (.binary .and
      (.unary .not (.group (.binary .eq (column "c") (digit '3' rfl)))) (.group (.binary .and
        (.group (.binary .eq (digit '7' rfl)
          (.binary .plus (column "a") (.binary .multiply (column "b") (digit '2' rfl)))))
        (.binary .lt (column "a") (digit '5' rfl))))) :=
  survivesPrinting_of_fits _ _ _ (by decide +kernel)

/-- `(a = 1 OR b = 2) AND c = 3` is printed as `a = 1 OR b = 2 AND c = 3`, which is true on a row
with `a = 1` and `c = 0`. -/
theorem disjunction_regrouped : ¬ SurvivesPrinting plainPrimitives threeColumns (.binary .and
      (.group (.binary .or (.binary .eq (column "a") (digit '1' rfl))
        (.binary .eq (column "b") (digit '2' rfl))))
      (.binary .eq (column "c") (digit '3' rfl))) := by
  rintro ⟨reread, hread, hrows⟩
  have hrow := hrows [.i64 1, .i64 0, .i64 0]
  have hread' : reread = .binary .or (.binary .eq (column "a") (digit '1' rfl))
      (.binary .and (.binary .eq (column "b") (digit '2' rfl))
        (.binary .eq (column "c") (digit '3' rfl))) :=
    Option.some.inj (hread.symm.trans (by decide +kernel))
  subst hread'
  exact absurd hrow (by decide +kernel)

end Palimpsest.Dataflow
