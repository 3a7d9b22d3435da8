import Palimpsest.Foundation.Kleene
import Palimpsest.Dataflow.Evaluator

/-! The value an expression has under SQL's three-valued logic. -/
namespace Palimpsest.Dataflow

def Datum.truth : Datum → Option Bool
  | .bool b => some b
  | _ => none

/-- UNKNOWN is the boolean NULL. -/
def Datum.ofTruth : Option Bool → Datum
  | some b => .bool b
  | none => .null

@[simp] theorem Datum.isTrue_ofTruth (t) : (ofTruth t).isTrue = (t == some true) := by
  rcases t with _ | _ | _ <;> rfl

theorem Datum.truth_eq_true {d : Datum} : d.truth = some true ↔ d.isTrue = true := by
  cases d <;> simp [truth, isTrue]

def BinaryOperator.test : BinaryOperator → Option (Ordering → Bool)
  | .eq => some Ordering.isEq
  | .notEq => some Ordering.isNe
  | op => op.pick

open Wildcard

instance (tokens : List (Token Char)) (subject : List Char) : Decidable (Matches tokens subject) :=
  decidable_of_iff _ (search_iff tokens subject)

section

/-! `order` is how the database compares two values other than NULL; `none` where it cannot. -/
variable (P : Primitives) (order : Datum → Datum → Option Ordering)

def compareTruth (op : BinaryOperator) (a b : Datum) : Option Bool :=
  if a.isNull || b.isNull then none
  else op.test.bind fun test => (order a b).map test

def inTruth (value : Datum) (candidates : List Datum) : Option Bool :=
  if value.isNull then none else Kleene.any (candidates.map (compareTruth order .eq value))

def betweenTruth (value low high : Datum) : Option Bool :=
  Kleene.and (compareTruth order .ltEq low value) (compareTruth order .ltEq value high)

def likeTruth (caseInsensitive : Bool) (escape : Option Char) : Datum → Datum → Option Bool
  | .text subject, .text pattern =>
    let fold := if caseInsensitive then P.toLowercase else id
    some (decide (Matches (likePattern escape (fold pattern).toList) (fold subject).toList))
  | _, _ => none

def anyTruth (op : BinaryOperator) (left : Datum) (elements : List Datum) : Option Bool :=
  Kleene.any (elements.map (compareTruth order op left))

/-- NULLs are not distinct from each other, and distinct from everything else. -/
def notDistinct (a b : Datum) : Bool :=
  if a.isNull || b.isNull then a.isNull && b.isNull else order a b == some .eq

def binaryMeaning (op : BinaryOperator) (a b : Datum) : Datum :=
  match op with
  | .and => .ofTruth (Kleene.and a.truth b.truth)
  | .or => .ofTruth (Kleene.or a.truth b.truth)
  | op => if op.test.isSome then .ofTruth (compareTruth order op a b) else binaryDatum P op a b

def unaryMeaning (op : UnaryOperator) (a : Datum) : Datum :=
  match op with
  | .not => .ofTruth (Kleene.not a.truth)
  | op => unaryDatum P op a

def branchTaken (operand : Option Datum) (condition : Datum) : Bool :=
  match operand with
  | some operand => compareTruth order .eq operand condition == some true
  | none => condition.isTrue

/-- A leaf's value; one that does not compile has none. -/
def leafMeaning (leaf : Except EvalError ScalarFn) (row : List Datum) : Datum :=
  match leaf with
  | .ok f => f row
  | .error _ => .null

end

/-- What an expression is read in: a schema, a row, and the database's ordering beside the
evaluator's primitives. -/
structure Setting where
  primitives : Primitives
  order : Datum → Datum → Option Ordering
  schema : ScalarSchema
  row : List Datum

namespace Setting
variable (S : Setting)

mutual

def meaning : Expr → Datum
  | .nested inner => meaning inner
  | .identifier name => leafMeaning (identifierScalar S.schema name) S.row
  | .compoundIdentifier parts => leafMeaning (compoundScalar S.schema parts) S.row
  | .value v => leafMeaning (valueScalar S.primitives v) S.row
  | .binaryOp left op right => binaryMeaning S.primitives S.order op (meaning left) (meaning right)
  | .unaryOp op inner => unaryMeaning S.primitives op (meaning inner)
  | .isNull inner => .bool (meaning inner).isNull
  | .isNotNull inner => .bool !(meaning inner).isNull
  | .isTrue inner => .bool (meaning inner).isTrue
  | .isFalse inner => .bool (meaning inner).isFalse
  | .anyOp left op right => .ofTruth (anyTruth S.order op (meaning left) (elementMeanings right))
  | .cast inner dataType => ((S.primitives.castTarget dataType).map (· (meaning inner))).getD .null
  | .inList needle list negated =>
    .ofTruth (Kleene.signed negated (inTruth S.order (meaning needle) (meanings list)))
  | .between needle negated low high =>
    .ofTruth (Kleene.signed negated
      (betweenTruth S.order (meaning needle) (meaning low) (meaning high)))
  | .like negated subject pattern escapeChar caseInsensitive =>
    .ofTruth (Kleene.signed negated (likeTruth S.primitives caseInsensitive
      ((escapeOf escapeChar).toOption.getD none) (meaning subject) (meaning pattern)))
  | .isDistinctFrom left right => .bool !notDistinct S.order (meaning left) (meaning right)
  | .isNotDistinctFrom left right => .bool (notDistinct S.order (meaning left) (meaning right))
  | .case operand conditions results elseResult =>
    caseDatum (branchTaken S.order (meaningOption operand))
      ((meanings conditions).zip (meanings results)) ((meaningOption elseResult).getD .null)
  | .array elements => .array (meanings elements)
  | .coalesce args => coalesceDatum (meanings args)
  | .cardinality [arg] => cardinalityDatum (meaning arg)
  | .cardinality _ => .null
  | .other _ => .null

def elementMeanings : Expr → List Datum
  | .array elements => meanings elements
  | .value (.quoted .single s) => (parseArrayLiteral S.primitives s).toOption.getD []
  | _ => []

def meanings : List Expr → List Datum
  | [] => []
  | e :: rest => meaning e :: meanings rest

def meaningOption : Option Expr → Option Datum
  | none => none
  | some e => some (meaning e)

end

end Setting
end Palimpsest.Dataflow
