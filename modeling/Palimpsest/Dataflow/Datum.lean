import Palimpsest.Foundation.Text
import Palimpsest.Foundation.Wildcard

/-! The values a row holds, and the comparisons, arithmetic and pattern matching the evaluator does
on them. -/
namespace Palimpsest.Dataflow

/-- A column's value. Floats are bit patterns; `unchanged` stands for a value the log left out. -/
inductive Datum where
  | bool (b : Bool)
  | i16 (v : Int16)
  | i32 (v : Int32)
  | i64 (v : Int64)
  | f32 (bits : UInt32)
  | f64 (bits : UInt64)
  | numeric (digits : String)
  | text (s : String)
  | bytea (bytes : List UInt8)
  | date (daysSinceUnixEpoch : Int32)
  | time (micros : Int64)
  | timestamp (microsSinceUnixEpoch : Int64)
  | timestampTz (microsSinceUnixEpoch : Int64)
  | interval (months days : Int32) (micros : Int64)
  | uuid (bytes : List UInt8)
  | json (document : String)
  | jsonb (document : String)
  | array (items : List Datum)
  | null
  | unchanged

namespace Datum

def isNull : Datum → Bool
  | null => true
  | _ => false

def isTrue : Datum → Bool
  | bool b => b
  | _ => false

def isFalse : Datum → Bool
  | bool b => !b
  | _ => false

@[simp] theorem isTrue_bool (b : Bool) : (bool b).isTrue = b := rfl

@[simp] theorem isNull_bool (b : Bool) : (bool b).isNull = false := rfl

@[simp] theorem isNull_null : null.isNull = true := rfl

@[simp] theorem isTrue_null : null.isTrue = false := rfl

theorem isNull_iff : d.isNull = true ↔ d = null := by
  cases d <;> simp [isNull]

end Datum

open Datum

/-- What the evaluator takes from the hardware, from other crates and from the expression kinds
whose meaning does not matter here: IEEE floats on bit patterns, the readers of float, uuid and
json texts, Unicode lower case, casts, text rendering and json paths. Equalities are symmetric, and
the reader of floats takes exponents in either case and skips leading zeros. -/
structure Primitives where
  floatEq : UInt64 → UInt64 → Bool
  floatCmp : UInt64 → UInt64 → Option Ordering
  singleEq : UInt32 → UInt32 → Bool
  widen : UInt32 → UInt64
  ofInt : Int64 → UInt64
  isZero : UInt64 → Bool
  floatAdd : UInt64 → UInt64 → UInt64
  floatSub : UInt64 → UInt64 → UInt64
  floatMul : UInt64 → UInt64 → UInt64
  floatDiv : UInt64 → UInt64 → UInt64
  floatRem : UInt64 → UInt64 → UInt64
  floatNeg : UInt64 → UInt64
  singleNeg : UInt32 → UInt32
  parseFloat : List Char → Option UInt64
  parseUuid : String → Option (List UInt8)
  jsonEq : String → String → Bool
  toLowercase : String → String
  castTarget : String → Option (Datum → Datum)
  displayText : Datum → Option String
  jsonExtract : Datum → Datum → Bool → Datum
  floatEq_comm : ∀ x y, floatEq x y = floatEq y x
  singleEq_comm : ∀ x y, singleEq x y = singleEq y x
  jsonEq_comm : ∀ x y, jsonEq x y = jsonEq y x
  parseFloat_toLower : ∀ s, parseFloat (s.map Char.toLower) = parseFloat s
  parseFloat_zero : ∀ s, s ≠ [] → (∀ c ∈ s, c.isDigit = true) → parseFloat ('0' :: s) = parseFloat s

def plainPrimitives : Primitives where
  floatEq x y := x == y
  floatCmp x y := some (compare x y)
  singleEq x y := x == y
  widen _ := 0
  ofInt _ := 0
  isZero x := x == 0
  floatAdd _ _ := 0
  floatSub _ _ := 0
  floatMul _ _ := 0
  floatDiv _ _ := 0
  floatRem _ _ := 0
  floatNeg x := x
  singleNeg x := x
  parseFloat _ := none
  parseUuid _ := none
  jsonEq x y := x == y
  toLowercase s := s
  castTarget _ := none
  displayText _ := none
  jsonExtract _ _ _ := .null
  floatEq_comm _ _ := Bool.beq_comm
  singleEq_comm _ _ := Bool.beq_comm
  jsonEq_comm _ _ := Bool.beq_comm
  parseFloat_toLower _ := rfl
  parseFloat_zero _ _ _ := rfl

inductive BinaryOperator where
  | eq | notEq | lt | ltEq | gt | gtEq
  | and | or
  | plus | minus | multiply | divide | modulo
  | stringConcat | arrow | longArrow
  | other (debug : String)
  deriving DecidableEq

inductive UnaryOperator where
  | not | minus | plus
  | other (debug : String)
  deriving DecidableEq

section Comparison
variable (P : Primitives)

def datumEq : Datum → Datum → Bool
  | .null, _ => false
  | _, .null => false
  | .bool x, .bool y => x == y
  | .i64 x, .i64 y => x == y
  | .i32 x, .i32 y => x == y
  | .i16 x, .i16 y => x == y
  | .f64 x, .f64 y => P.floatEq x y
  | .f32 x, .f32 y => P.singleEq x y
  | .i64 x, .i32 y => x == y.toInt64
  | .i32 x, .i64 y => x.toInt64 == y
  | .i64 x, .i16 y => x == y.toInt64
  | .i16 x, .i64 y => x.toInt64 == y
  | .i32 x, .i16 y => x == y.toInt32
  | .i16 x, .i32 y => x.toInt32 == y
  | .text x, .text y => x == y
  | .uuid x, .uuid y => x == y
  | .uuid u, .text t => P.parseUuid t == some u
  | .text t, .uuid u => P.parseUuid t == some u
  | .jsonb x, .jsonb y => P.jsonEq x y
  | .jsonb x, .json y => P.jsonEq x y
  | .json x, .jsonb y => P.jsonEq x y
  | .json x, .json y => P.jsonEq x y
  | .jsonb x, .text t => P.jsonEq x t
  | .json x, .text t => P.jsonEq x t
  | .text t, .jsonb x => P.jsonEq x t
  | .text t, .json x => P.jsonEq x t
  | _, _ => false

/-- The ordering `datumCmpBool` hands to its test; `none` where it answers `false` outright. -/
def datumOrdering : Datum → Datum → Option Ordering
  | .null, _ => none
  | _, .null => none
  | .i64 x, .i64 y => some (compare x.toInt y.toInt)
  | .i32 x, .i32 y => some (compare x.toInt y.toInt)
  | .i16 x, .i16 y => some (compare x.toInt y.toInt)
  | .f64 x, .f64 y => some ((P.floatCmp x y).getD .eq)
  | .i64 x, .i32 y => some (compare x.toInt y.toInt)
  | .i32 x, .i64 y => some (compare x.toInt y.toInt)
  | .text x, .text y => some (compare x y)
  | .uuid x, .uuid y => some (compare x y)
  | .uuid u, .text t => (P.parseUuid t).map (compare u ·)
  | .text t, .uuid u => (P.parseUuid t).map (compare · u)
  | _, _ => none

def datumCmpBool (a b : Datum) (pick : Ordering → Bool) : Datum :=
  match datumOrdering P a b with
  | none => .bool false
  | some ord => .bool (pick ord)

def nullSafeEq (a b : Datum) : Bool :=
  match a.isNull, b.isNull with
  | true, true => true
  | true, false => false
  | false, true => false
  | false, false => datumEq P a b

def BinaryOperator.pick : BinaryOperator → Option (Ordering → Bool)
  | .lt => some Ordering.isLT
  | .ltEq => some Ordering.isLE
  | .gt => some Ordering.isGT
  | .gtEq => some Ordering.isGE
  | _ => none

/-- A comparison as `ANY` makes it; `none` for operators that do not compare. -/
def compareDatums (op : BinaryOperator) (a b : Datum) : Option Bool :=
  match op with
  | .eq => some (datumEq P a b)
  | .notEq => if a.isNull || b.isNull then some false else some (!datumEq P a b)
  | op => op.pick.map fun pick => (datumCmpBool P a b pick).isTrue

variable (d : Datum)

theorem datumEq_null_left : datumEq P .null d = false := by
  cases d <;> rfl

theorem datumEq_null_right : datumEq P d .null = false := by
  cases d <;> rfl

theorem datumOrdering_null_left : datumOrdering P .null d = none := by
  cases d <;> rfl

theorem datumOrdering_null_right : datumOrdering P d .null = none := by
  cases d <;> rfl

theorem datumEq_comm (a b) : datumEq P a b = datumEq P b a := by
  cases a <;> cases b <;>
    simp [datumEq, P.floatEq_comm, P.singleEq_comm, P.jsonEq_comm, Bool.beq_comm]

end Comparison

section
variable (P : Primitives)

def asI64 : Datum → Option Int64
  | .i64 v => some v
  | .i32 v => some v.toInt64
  | .i16 v => some v.toInt64
  | _ => none

def asF64 : Datum → Option UInt64
  | .f64 bits => some bits
  | .f32 bits => some (P.widen bits)
  | .i64 v => some (P.ofInt v)
  | .i32 v => some (P.ofInt v.toInt64)
  | .i16 v => some (P.ofInt v.toInt64)
  | _ => none

def checkedI64 (v : ℤ) : Option Int64 :=
  if Int64.minValue.toInt ≤ v ∧ v ≤ Int64.maxValue.toInt then some (.ofInt v) else none

def integerArithmetic (op : BinaryOperator) (x y : Int64) : Option Int64 :=
  match op with
  | .plus => checkedI64 (x.toInt + y.toInt)
  | .minus => checkedI64 (x.toInt - y.toInt)
  | .multiply => checkedI64 (x.toInt * y.toInt)
  | .divide => if y = 0 then none else checkedI64 (x.toInt.tdiv y.toInt)
  | .modulo => if y = 0 ∨ (x = Int64.minValue ∧ y = -1) then none
      else checkedI64 (x.toInt.tmod y.toInt)
  | _ => none

def floatArithmetic (op : BinaryOperator) (x y : UInt64) : Option UInt64 :=
  match op with
  | .plus => some (P.floatAdd x y)
  | .minus => some (P.floatSub x y)
  | .multiply => some (P.floatMul x y)
  | .divide => if P.isZero y then none else some (P.floatDiv x y)
  | .modulo => if P.isZero y then none else some (P.floatRem x y)
  | _ => none

def arithmeticDatums (op : BinaryOperator) (a b : Datum) : Datum :=
  match asI64 a, asI64 b with
  | some x, some y => ((integerArithmetic op x y).map Datum.i64).getD .null
  | _, _ =>
    match asF64 P a, asF64 P b with
    | some x, some y => ((floatArithmetic P op x y).map Datum.f64).getD .null
    | _, _ => .null

def concatDatums (a b : Datum) : Datum :=
  if a.isNull || b.isNull then .null
  else
    match P.displayText a, P.displayText b with
    | some left, some right => .text (left ++ right)
    | _, _ => .null

def negateDatum : Datum → Datum
  | .i64 v => .i64 (-v)
  | .i32 v => .i32 (-v)
  | .i16 v => .i16 (-v)
  | .f64 bits => .f64 (P.floatNeg bits)
  | .f32 bits => .f32 (P.singleNeg bits)
  | other => other

end

section
open Wildcard

/-- The pattern's tokens, in the order they are pushed; neighbouring `%` are pushed once. -/
def pushTokens (escape : Option Char) : List (Token Char) → List Char → List (Token Char)
  | tokens, [] => tokens
  | tokens, c :: rest =>
    if some c = escape then
      match rest with
      | escaped :: rest => pushTokens escape (tokens ++ [.literal escaped]) rest
      | [] => tokens ++ [.literal c]
    else if c = '%' then
      pushTokens escape
        (if tokens.getLast? = some .anyRun then tokens else tokens ++ [.anyRun]) rest
    else if c = '_' then pushTokens escape (tokens ++ [.anyOne]) rest
    else pushTokens escape (tokens ++ [.literal c]) rest

def likeMatch (subject pattern : String) (escape : Option Char) : Bool :=
  search (pushTokens escape [] pattern.toList) subject.toList

/-- The pattern's tokens, one for each wildcard, escape or character. -/
def likePattern (escape : Option Char) : List Char → List (Token Char)
  | [] => []
  | c :: rest =>
    if some c = escape then
      match rest with
      | escaped :: rest => .literal escaped :: likePattern escape rest
      | [] => [.literal c]
    else if c = '%' then .anyRun :: likePattern escape rest
    else if c = '_' then .anyOne :: likePattern escape rest
    else .literal c :: likePattern escape rest

theorem likePattern_unescaped (h : some c ≠ escape) (rest) : likePattern escape (c :: rest) =
      (if c = '%' then .anyRun else if c = '_' then .anyOne else .literal c) ::
        likePattern escape rest := by
  rw [likePattern.eq_def]
  simp only [h, ↓reduceIte]
  split_ifs <;> rfl

theorem matches_pushTokens (escape toks pattern subject) :
    Matches (pushTokens escape toks pattern) subject ↔
      Matches (toks ++ likePattern escape pattern) subject := by
  fun_induction pushTokens escape toks pattern generalizing subject with
  | case1 => simp [likePattern]
  | case2 toks c hc escaped rest ih => simp [ih, likePattern, hc]
  | case3 toks c hc => simp [likePattern, hc]
  | case4 toks rest hc ih =>
    rw [ih, likePattern_unescaped hc, if_pos rfl]
    split_ifs with hlast
    · -- the run already stands at the end, so the pattern's own one is its double
      obtain ⟨prev, rfl⟩ := List.getLast?_eq_some_iff.mp hlast
      simp only [List.append_assoc]
      exact (matches_append_congr prev (fun xs => matches_run_run _ xs) subject).symm
    · simp
  | case5 toks rest hc hrun ih => simp [ih, likePattern_unescaped hc]
  | case6 toks c rest hc hrun hone ih => simp [ih, likePattern_unescaped hc, hrun, hone]

theorem likeMatch_iff (subject pattern escape) : likeMatch subject pattern escape = true ↔
      Matches (likePattern escape pattern.toList) subject.toList := by
  rw [likeMatch, search_iff, matches_pushTokens, List.nil_append]

end
end Palimpsest.Dataflow
