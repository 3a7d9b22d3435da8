import Palimpsest.Foundation.Fallible
import Palimpsest.Dataflow.ThreeValued

/-! Where the compiled closures accept the rows on which a predicate is TRUE. -/
namespace Palimpsest.Dataflow

open Wildcard Fallible List

section
variable (P : Primitives) (order : Datum → Datum → Option Ordering)

/-- Comparing the two values, the evaluator and the database see the same ordering. -/
def Comparable (op : BinaryOperator) (a b : Datum) : Prop :=
  a.isNull = false → b.isNull = false → ∃ ord, order a b = some ord ∧
    if op.pick.isSome then datumOrdering P a b = some ord else datumEq P a b = ord.isEq

/-- A truth value that is read exactly is not UNKNOWN. -/
def Known (exact : Bool) (t : Option Bool) : Prop := exact = true → t ≠ none

end

/-- The condition on the values up to the first at which reading stops. -/
def UpTo (stop : Datum → Bool) (p : Datum → Prop) : List Datum → Prop
  | [] => True
  | value :: rest => p value ∧ (stop value = false → UpTo stop p rest)

/-- Two lists match up to the first value of the second at which reading stops. -/
inductive MatchUpTo (stop : Datum → Bool) (r : Datum → Datum → Prop) :
    List Datum → List Datum → Prop
  | nil : MatchUpTo stop r [] []
  | last : r a b → stop b = true → MatchUpTo stop r (a :: as) (b :: bs)
  | next : r a b → MatchUpTo stop r as bs → MatchUpTo stop r (a :: as) (b :: bs)

section Reading
variable {stop : Datum → Bool} {p : Datum → Prop} {r r' : Datum → Datum → Prop}

theorem MatchUpTo.refl (h : ∀ a, r a a) : ∀ as, MatchUpTo stop r as as
  | [] => .nil
  | a :: as => .next (h a) (refl h as)

theorem MatchUpTo.mono (h : MatchUpTo stop r as bs) (hpoint : UpTo stop p bs)
    (himp : ∀ a b, r a b → p b → r' a b) : MatchUpTo stop r' as bs := by
  induction h with
  | nil => exact .nil
  | last hab hstop => exact .last (himp _ _ hab hpoint.1) hstop
  | @next a b as bs hab _ ih =>
    cases hstop : stop b with
    | true => exact .last (himp _ _ hab hpoint.1) hstop
    | false => exact .next (himp _ _ hab hpoint.1) (ih (hpoint.2 hstop))

/-- Two lists that are equal up to a stop have a front in common that is all of both or has a stop
in it. -/
theorem MatchUpTo.front (h : MatchUpTo stop (fun a b => a = b ∧ p b) as bs) :
    ∃ front rest rest', as = front ++ rest ∧ bs = front ++ rest' ∧ (∀ value ∈ front, p value) ∧
      ((∃ value ∈ front, stop value = true) ∨ rest = [] ∧ rest' = []) := by
  induction h with
  | nil => exact ⟨[], [], [], rfl, rfl, forall_mem_nil _, .inr ⟨rfl, rfl⟩⟩
  | @last a b as bs hab hstop =>
    obtain ⟨rfl, hp⟩ := hab
    exact ⟨[a], as, bs, rfl, rfl, forall_mem_singleton.mpr hp, .inl ⟨a, mem_cons_self, hstop⟩⟩
  | @next a b as bs hab _ ih =>
    obtain ⟨rfl, hp⟩ := hab
    obtain ⟨front, rest, rest', rfl, rfl, hfront, hend⟩ := ih
    refine ⟨a :: front, rest, rest', rfl, rfl, forall_mem_cons.mpr ⟨hp, hfront⟩, hend.imp_left ?_⟩
    rintro ⟨value, hvalue, hstop⟩
    exact ⟨value, mem_cons_of_mem _ hvalue, hstop⟩

end Reading

section Operators
variable {P : Primitives}

theorem Known.signed (h : Known exact t) (negated : Bool) :
    Known exact (Kleene.signed negated t) := by
  intro hexact
  have := h hexact
  cases negated <;> rcases t with _ | _ | _ <;> simp_all [Kleene.signed, Kleene.not]

theorem compareTruth_null (h : a.isNull = true ∨ b.isNull = true) :
    compareTruth order op a b = none := by
  rcases h with h | h <;> simp [compareTruth, h]

theorem Comparable.known (h : Comparable P order op a b) (hop : op.test.isSome = true)
    (ha : a.isNull = false) (hb : b.isNull = false) :
    ∃ x, compareTruth order op a b = some x ∧ binaryDatum P op a b = .bool x ∧
      compareDatums P op a b = some x := by
  obtain ⟨ord, hord, hcode⟩ := h ha hb
  cases op <;>
    simp_all [compareTruth, binaryDatum, compareDatums, datumCmpBool, BinaryOperator.test,
      BinaryOperator.pick]

theorem compareDatums_null (hop : op.test.isSome = true) (h : a.isNull = true ∨ b.isNull = true) :
    compareDatums P op a b = some false := by
  rw [Datum.isNull_iff, Datum.isNull_iff] at h
  rcases h with rfl | rfl <;> cases op <;>
    simp_all [compareDatums, datumCmpBool, BinaryOperator.test, BinaryOperator.pick,
      datumEq_null_left, datumEq_null_right, datumOrdering_null_left, datumOrdering_null_right]

theorem binaryDatum_null (hop : op.test.isSome = true) (hne : op ≠ .notEq)
    (h : a.isNull = true ∨ b.isNull = true) : binaryDatum P op a b = .bool false := by
  rw [Datum.isNull_iff, Datum.isNull_iff] at h
  rcases h with rfl | rfl <;> cases op <;>
    simp_all [binaryDatum, datumCmpBool, BinaryOperator.test, BinaryOperator.pick,
      datumEq_null_left, datumEq_null_right, datumOrdering_null_left, datumOrdering_null_right]

theorem null_or_values (a b : Datum) :
    (a.isNull = true ∨ b.isNull = true) ∨ (a.isNull = false ∧ b.isNull = false) := by
  cases a.isNull <;> cases b.isNull <;> simp

theorem Comparable.compareDatums (h : Comparable P order op a b) (hop : op.test.isSome = true) :
    compareDatums P op a b = some (compareTruth order op a b == some true) := by
  rcases null_or_values a b with hnull | ⟨ha, hb⟩
  · simp [compareDatums_null hop hnull, compareTruth_null hnull]
  · obtain ⟨x, hx, -, hcode⟩ := h.known hop ha hb
    rw [hcode, hx]
    cases x <;> rfl

theorem Comparable.binaryDatum (h : Comparable P order op a b) (hop : op.test.isSome = true)
    (hknown : Known (op = .notEq) (compareTruth order op a b)) :
    binaryDatum P op a b = .bool (compareTruth order op a b == some true) := by
  rcases null_or_values a b with hnull | ⟨ha, hb⟩
  · have hne : op ≠ .notEq := fun hop => hknown (by simpa using hop) (compareTruth_null hnull)
    simp [binaryDatum_null hop hne hnull, compareTruth_null hnull]
  · obtain ⟨x, hx, hcode, -⟩ := h.known hop ha hb
    rw [hcode, hx]
    cases x <;> rfl

theorem Comparable.datumEq (h : Comparable P order .eq a b) :
    datumEq P a b = (compareTruth order .eq a b == some true) := by
  simpa [Dataflow.compareDatums] using h.compareDatums rfl

theorem anyDatum_eq (hop : op.test.isSome = true)
    (h : ∀ element ∈ elems, Comparable P order op left element) :
    anyDatum P op left elems = .bool (anyTruth order op left elems == some true) := by
  unfold anyDatum anyTruth
  congr 1
  rw [Bool.eq_iff_iff, any_eq_true, beq_iff_eq, Kleene.any_eq_true, mem_map]
  refine exists_congr fun element => and_congr_right fun hmem => ?_
  simp [(h element hmem).compareDatums hop]

/-- Elements after a hit do not count. -/
theorem anyDatum_matched (hop : op.test.isSome = true)
    (h : MatchUpTo (fun element => compareTruth order op left element == some true)
      (fun a b => a = b ∧ Comparable P order op left b) elems elems') :
    anyDatum P op left elems = .bool (anyTruth order op left elems' == some true) := by
  obtain ⟨front, rest, rest', rfl, rfl, hfront, ⟨element, helement, hhit⟩ | ⟨rfl, rfl⟩⟩ := h.front
  · have htruth : anyTruth order op left (front ++ rest') = some true :=
      Kleene.any_eq_true.mpr (mem_map.mpr
        ⟨element, mem_append_left _ helement, by simpa using hhit⟩)
    have hcode := (hfront element helement).compareDatums hop
    rw [htruth, anyDatum]
    refine congrArg Datum.bool (any_eq_true.mpr ⟨element, mem_append_left _ helement, ?_⟩)
    simp [hcode, hhit]
  · exact anyDatum_eq hop (by simpa using hfront)

theorem inListDatum_eq (h : ∀ candidate ∈ candidates, Comparable P order .eq value candidate) :
    inListDatum P negated value candidates =
      .bool (Kleene.signed negated (inTruth order value candidates) == some true) := by
  unfold inListDatum inTruth
  cases hval : value.isNull with
  | true => cases negated <;> rfl
  | false =>
    have hhit : (candidates.any fun candidate =>
        !candidate.isNull && Dataflow.datumEq P value candidate) =
          (Kleene.any (candidates.map (compareTruth order .eq value)) == some true) := by
      rw [Bool.eq_iff_iff, any_eq_true, beq_iff_eq, Kleene.any_eq_true, mem_map]
      refine exists_congr fun candidate => and_congr_right fun hmem => ?_
      rw [(h candidate hmem).datumEq, Bool.and_eq_true, beq_iff_eq, and_iff_right_iff_imp]
      intro htrue
      cases hnull : candidate.isNull with
      | false => rfl
      | true => rw [compareTruth_null (.inr hnull)] at htrue; cases htrue
    cases negated with
    | false => simp [hhit, Kleene.signed]
    | true =>
      -- without a hit the scan passes the whole list, and each element is a NULL or a miss
      simp only [Bool.false_eq_true, ↓reduceIte, hhit, Kleene.signed]
      congr 1
      rw [Bool.eq_iff_iff, Bool.and_eq_true, Bool.not_eq_true', Bool.not_eq_true', beq_iff_eq,
        Kleene.not_eq_true, beq_eq_false_iff_ne, Kleene.any_eq_false, forall_mem_map, ne_eq,
        Kleene.any_eq_true, mem_map]
      constructor
      · rintro ⟨hmiss, hnulls⟩ candidate hmem
        have hne : Dataflow.datumEq P value candidate = false := by
          rw [(h candidate hmem).datumEq, beq_eq_false_iff_ne]
          exact fun htrue => hmiss ⟨candidate, hmem, htrue⟩
        have hall : candidates.takeWhile (fun candidate =>
            candidate.isNull || !Dataflow.datumEq P value candidate) = candidates := by
          rw [takeWhile_eq_self_iff]
          intro other hother
          rw [(h other hother).datumEq, Bool.or_eq_true, Bool.not_eq_true', beq_eq_false_iff_ne]
          exact .inr fun htrue => hmiss ⟨other, hother, htrue⟩
        rw [hall, any_eq_false] at hnulls
        obtain ⟨x, hx, -, hcode⟩ := (h candidate hmem).known rfl hval
          (by simpa using hnulls candidate hmem)
        rw [compareDatums, hne] at hcode
        rw [hx, ← hcode]
      · intro hfalse
        refine ⟨?_, ?_⟩
        · rintro ⟨candidate, hmem, htrue⟩
          simp [hfalse candidate hmem] at htrue
        · rw [any_eq_false]
          intro candidate hmem hnull
          have := hfalse candidate (takeWhile_subset _ hmem)
          simp [compareTruth_null (.inr hnull)] at this

theorem inListDatum_matched (hvalue : value.isNull = false)
    (h : MatchUpTo (fun candidate => compareTruth order .eq value candidate == some true)
      (fun a b => a = b ∧ Comparable P order .eq value b) candidates candidates') :
    inListDatum P negated value candidates =
      .bool (Kleene.signed negated (inTruth order value candidates') == some true) := by
  obtain ⟨front, rest, rest', rfl, rfl, hfront, ⟨candidate, hmem, hhit⟩ | ⟨rfl, rfl⟩⟩ := h.front
  · have htruth : inTruth order value (front ++ rest') = some true := by
      rw [inTruth, hvalue]
      exact Kleene.any_eq_true.mpr (mem_map.mpr
        ⟨candidate, mem_append_left _ hmem, by simpa using hhit⟩)
    have hnull : candidate.isNull = false := by
      by_contra hnull
      simp [compareTruth_null (.inr (by simpa using hnull))] at hhit
    have hcode : ((front ++ rest).any fun other =>
        !other.isNull && Dataflow.datumEq P value other) = true :=
      any_eq_true.mpr ⟨candidate, mem_append_left _ hmem, by
        simp [hnull, (hfront candidate hmem).datumEq, hhit]⟩
    rw [htruth, inListDatum, hvalue]
    cases negated <;> simp [hcode, Kleene.signed, Kleene.not]
  · exact inListDatum_eq (by simpa using hfront)

theorem coalesceDatum_matched (h : MatchUpTo (fun arg => !arg.isNull) Eq args args') :
    coalesceDatum args = coalesceDatum args' := by
  induction h with
  | nil => rfl
  | last hab hstop =>
    subst hab
    simp_all [coalesceDatum]
  | @next a b _ _ hab _ ih =>
    subst hab
    cases hnull : a.isNull with
    | true => simpa [coalesceDatum, hnull] using ih
    | false => simp [coalesceDatum, hnull]

theorem betweenDatum_eq (hlow : Comparable P order .ltEq low value)
    (hhigh : Comparable P order .ltEq value high)
    (hbounds : negated = true → value.isNull = false → low.isNull = false ∧ high.isNull = false) :
    betweenDatum P negated value low high =
      .bool (Kleene.signed negated (betweenTruth order value low high) == some true) := by
  unfold betweenDatum betweenTruth
  cases hv : value.isNull with
  | true =>
    rw [compareTruth_null (.inr hv), compareTruth_null (.inl hv)]
    cases negated <;> rfl
  | false =>
    rcases null_or_values low high with hnull | ⟨hl, hh⟩
    · have hplain : negated = false := by
        by_contra hneg
        have := hbounds (by simpa using hneg) hv
        simp [this] at hnull
      subst hplain
      have hnot : Kleene.and (compareTruth order .ltEq low value)
          (compareTruth order .ltEq value high) ≠ some true := by
        rw [ne_eq, Kleene.and_eq_true]
        rintro ⟨h1, h2⟩
        rcases hnull with hnull | hnull
        · simp [compareTruth_null (.inl hnull)] at h1
        · simp [compareTruth_null (.inr hnull)] at h2
      simp [if_pos (by simpa using hnull), Kleene.signed, hnot]
    · obtain ⟨x, hx, hxcode, -⟩ := hlow.known rfl hl hv
      obtain ⟨y, hy, hycode, -⟩ := hhigh.known rfl hv hh
      simp only [binaryDatum] at hxcode hycode
      rw [hx, hy, hxcode, hycode, hl, hh]
      cases negated <;> cases x <;> cases y <;> rfl

theorem likeDatum_eq (negated caseInsensitive : Bool) (escape subject pattern) :
    likeDatum P negated caseInsensitive escape subject pattern =
      .bool (Kleene.signed negated (likeTruth P caseInsensitive escape subject pattern)
        == some true) := by
  by_cases htext : ∃ text text', subject = .text text ∧ pattern = .text text'
  · obtain ⟨subject, pattern, rfl, rfl⟩ := htext
    have hmatch : (if caseInsensitive = true
        then likeMatch (P.toLowercase subject) (P.toLowercase pattern) escape
        else likeMatch subject pattern escape) =
          decide (Matches (likePattern escape
            ((if caseInsensitive = true then P.toLowercase else id) pattern).toList)
            ((if caseInsensitive = true then P.toLowercase else id) subject).toList) := by
      rw [Bool.eq_iff_iff, decide_eq_true_eq]
      cases caseInsensitive <;> exact likeMatch_iff ..
    simp only [likeDatum, likeTruth, hmatch]
    cases negated <;> simp [Kleene.signed, Kleene.not]
  · have hdatum : likeDatum P negated caseInsensitive escape subject pattern = .bool false := by
      unfold likeDatum
      split
      · exact absurd ⟨_, _, rfl, rfl⟩ htext
      · rfl
    have htruth : likeTruth P caseInsensitive escape subject pattern = none := by
      unfold likeTruth
      split
      · exact absurd ⟨_, _, rfl, rfl⟩ htext
      · rfl
    rw [hdatum, htruth]
    cases negated <;> rfl

theorem notDatum_eq (a) : notDatum a = .bool (Kleene.not a.truth == some true) := by
  cases a with
  | bool b => cases b <;> rfl
  | _ => rfl

theorem nullSafeEq_eq (h : Comparable P order .eq a b) :
    nullSafeEq P a b = notDistinct order a b := by
  unfold nullSafeEq notDistinct
  rcases null_or_values a b with hnull | ⟨ha, hb⟩
  · cases ha : a.isNull <;> cases hb : b.isNull <;> simp_all
  · obtain ⟨ord, hord, hcode⟩ := h ha hb
    rw [ha, hb, hcode, hord]
    cases ord <;> rfl

theorem caseHits_eq (h : ∀ value, operand = some value → Comparable P order .eq value condition) :
    caseHits P operand condition = branchTaken order operand condition := by
  cases operand with
  | none => rfl
  | some value => exact (h value rfl).datumEq

end Operators

namespace Setting
variable (S : Setting)

mutual

/-- What the evaluator's reading of an expression rests on. Where only TRUE matters, an UNKNOWN
may count as false, unless it is one of `<>` or of a negated `BETWEEN` with a bound missing;
where the value itself matters, below `NOT`, `IS` and every operator other than `AND` and `OR`, no
truth value may be UNKNOWN but one that a column or a literal holds. Nothing is asked of an operand
that the others make irrelevant: one side of an `AND` or `OR` that the other decides, a branch of a
`CASE` that is not taken, and what stands after the first match of a list. -/
def Faithful : Bool → Expr → Prop
  | exact, .nested inner => Faithful exact inner
  | _, .identifier _ => True
  | _, .compoundIdentifier _ => True
  | _, .value _ => True
  | exact, .binaryOp left .and right =>
      (Faithful false left ∧ ((S.meaning left).isTrue = true → Faithful false right) ∨
        Faithful false right ∧ (S.meaning right).isTrue = false) ∧
      Known exact (Kleene.and (S.meaning left).truth (S.meaning right).truth)
  | exact, .binaryOp left .or right =>
      (Faithful false left ∧ ((S.meaning left).isTrue = false → Faithful false right) ∨
        Faithful false right ∧ (S.meaning right).isTrue = true) ∧
      Known exact (Kleene.or (S.meaning left).truth (S.meaning right).truth)
  | exact, .binaryOp left op right => Faithful true left ∧ Faithful true right ∧
      (op.test.isSome = true →
        Comparable S.primitives S.order op (S.meaning left) (S.meaning right) ∧
        Known (exact || op = .notEq) (compareTruth S.order op (S.meaning left) (S.meaning right)))
  | exact, .unaryOp .not inner => Faithful true inner ∧ Known exact (S.meaning inner).truth
  | _, .unaryOp _ inner => Faithful true inner
  | _, .isNull inner => Faithful true inner
  | _, .isNotNull inner => Faithful true inner
  | _, .isTrue inner => Faithful false inner
  | _, .isFalse inner => Faithful true inner
  | exact, .anyOp left op right => Faithful true left ∧
      FaithfulElements
        (fun element => compareTruth S.order op (S.meaning left) element == some true) right ∧
      UpTo (fun element => compareTruth S.order op (S.meaning left) element == some true)
        (Comparable S.primitives S.order op (S.meaning left)) (S.elementMeanings right) ∧
      Known exact (anyTruth S.order op (S.meaning left) (S.elementMeanings right))
  | _, .cast inner _ => Faithful true inner
  | exact, .inList needle list _ => Faithful true needle ∧
      ((S.meaning needle).isNull = false →
        FaithfulUpTo (fun candidate =>
          compareTruth S.order .eq (S.meaning needle) candidate == some true) true list ∧
        UpTo (fun candidate => compareTruth S.order .eq (S.meaning needle) candidate == some true)
          (Comparable S.primitives S.order .eq (S.meaning needle)) (S.meanings list)) ∧
      Known exact (inTruth S.order (S.meaning needle) (S.meanings list))
  | exact, .between needle negated low high =>
      Faithful true needle ∧ Faithful true low ∧ Faithful true high ∧
      Comparable S.primitives S.order .ltEq (S.meaning low) (S.meaning needle) ∧
      Comparable S.primitives S.order .ltEq (S.meaning needle) (S.meaning high) ∧
      Known exact (betweenTruth S.order (S.meaning needle) (S.meaning low) (S.meaning high)) ∧
      (negated = true → (S.meaning needle).isNull = false →
        (S.meaning low).isNull = false ∧ (S.meaning high).isNull = false)
  | exact, .like _ subject pattern escapeChar caseInsensitive =>
      Faithful true subject ∧ Faithful true pattern ∧
      Known exact (likeTruth S.primitives caseInsensitive ((escapeOf escapeChar).toOption.getD none)
        (S.meaning subject) (S.meaning pattern))
  | _, .isDistinctFrom left right => Faithful true left ∧ Faithful true right ∧
      Comparable S.primitives S.order .eq (S.meaning left) (S.meaning right)
  | _, .isNotDistinctFrom left right => Faithful true left ∧ Faithful true right ∧
      Comparable S.primitives S.order .eq (S.meaning left) (S.meaning right)
  | exact, .case operand conditions results elseResult =>
      FaithfulOption true operand ∧
      FaithfulUpTo (branchTaken S.order (S.meaningOption operand)) operand.isSome conditions ∧
      UpTo (branchTaken S.order (S.meaningOption operand))
        (fun condition => ∀ value, S.meaningOption operand = some value →
          Comparable S.primitives S.order .eq value condition) (S.meanings conditions) ∧
      FaithfulBranch exact (FaithfulOption exact elseResult)
        ((S.meanings conditions).map (branchTaken S.order (S.meaningOption operand))) results
  | _, .array elements => FaithfulUpTo (fun _ => false) true elements
  | _, .coalesce args => FaithfulUpTo (fun arg => !arg.isNull) true args
  | _, .cardinality args => FaithfulUpTo (fun _ => false) true args
  | _, .other _ => True

def FaithfulElements (stop : Datum → Bool) : Expr → Prop
  | .array elements => FaithfulUpTo stop true elements
  | _ => True

def FaithfulUpTo (stop : Datum → Bool) : Bool → List Expr → Prop
  | _, [] => True
  | exact, e :: rest =>
    Faithful exact e ∧ (stop (S.meaning e) = false → FaithfulUpTo stop exact rest)

/-- Only the result of the first branch that is taken counts, or what follows the branches. -/
def FaithfulBranch (exact : Bool) (fallback : Prop) : List Bool → List Expr → Prop
  | taken :: later, result :: rest =>
    if taken then Faithful exact result else FaithfulBranch exact fallback later rest
  | _, [] | [], _ :: _ => fallback

def FaithfulOption : Bool → Option Expr → Prop
  | _, none => True
  | exact, some e => Faithful exact e

end

end Setting
variable {exact : Bool} {P : Primitives}

/-- The closure's value is the SQL value, or at least TRUE at the same rows. -/
def Agreement (exact : Bool) (code sql : Datum) : Prop :=
  if exact then code = sql else code.isTrue = sql.isTrue

theorem Agreement.of_eq (h : code = sql) : Agreement exact code sql := by
  cases exact
  · exact congrArg Datum.isTrue h
  · exact h

theorem Agreement.of_truth (h : Known exact t) :
    Agreement exact (.bool (t == some true)) (.ofTruth t) := by
  cases exact
  · exact (Datum.isTrue_ofTruth t).symm
  · rcases t with _ | _ | _
    · exact absurd rfl (h rfl)
    · rfl
    · rfl

theorem eq_of_matchUpTo (h : MatchUpTo (fun _ => false) (Agreement true) code sql) :
    code = sql := by
  induction h with
  | nil => rfl
  | last _ hstop => cases hstop
  | next hagree _ ih => rw [ih, show _ = _ from hagree]

theorem agreement_and (hboth : (a.isTrue && b.isTrue) = (a'.isTrue && b'.isTrue))
    (h : Known exact (Kleene.and a'.truth b'.truth)) :
    Agreement exact (binaryDatum P .and a b) (binaryMeaning P order .and a' b') := by
  have hcode : binaryDatum P .and a b = .bool (Kleene.and a'.truth b'.truth == some true) := by
    have hiff : (a.isTrue && b.isTrue) = (Kleene.and a'.truth b'.truth == some true) := by
      rw [hboth, Bool.eq_iff_iff, Bool.and_eq_true, beq_iff_eq, Kleene.and_eq_true,
        Datum.truth_eq_true, Datum.truth_eq_true]
    rw [← hiff, binaryDatum]
    cases a.isTrue <;> rfl
  rw [hcode]
  exact .of_truth h

theorem agreement_or (heither : (a.isTrue || b.isTrue) = (a'.isTrue || b'.isTrue))
    (h : Known exact (Kleene.or a'.truth b'.truth)) :
    Agreement exact (binaryDatum P .or a b) (binaryMeaning P order .or a' b') := by
  have hcode : binaryDatum P .or a b = .bool (Kleene.or a'.truth b'.truth == some true) := by
    have hiff : (a.isTrue || b.isTrue) = (Kleene.or a'.truth b'.truth == some true) := by
      rw [heither, Bool.eq_iff_iff, Bool.or_eq_true, beq_iff_eq, Kleene.or_eq_true,
        Datum.truth_eq_true, Datum.truth_eq_true]
    rw [← hiff, binaryDatum]
    cases a.isTrue <;> rfl
  rw [hcode]
  exact .of_truth h

theorem agreement_binary (hand : op ≠ .and) (hor : op ≠ .or)
    (h : op.test.isSome = true → Comparable P order op a b ∧
      Known (exact || op = .notEq) (compareTruth order op a b)) :
    Agreement exact (binaryDatum P op a b) (binaryMeaning P order op a b) := by
  have hmeaning : binaryMeaning P order op a b = if op.test.isSome
      then .ofTruth (compareTruth order op a b) else binaryDatum P op a b := by
    cases op <;> first | rfl | contradiction
  rw [hmeaning]
  split_ifs with htest
  · obtain ⟨hcmp, hknown⟩ := h htest
    rw [hcmp.binaryDatum htest fun hne => hknown (by simp [hne])]
    exact .of_truth fun hexact => hknown (by simp [hexact])
  · exact .of_eq rfl

theorem anyAccepts_iff : anyAccepts P op = true ↔ op.test.isSome = true := by
  cases op <;> rfl

namespace Setting
variable {S : Setting}

theorem faithful_binaryOp (hand : op ≠ .and) (hor : op ≠ .or) :
    S.Faithful exact (.binaryOp left op right) ↔
      S.Faithful true left ∧ S.Faithful true right ∧ (op.test.isSome = true →
        Comparable S.primitives S.order op (S.meaning left) (S.meaning right) ∧
        Known (exact || op = .notEq)
          (compareTruth S.order op (S.meaning left) (S.meaning right))) := by
  cases op <;> first | exact Iff.rfl | contradiction

mutual

/-- Case by case along the tree: an operator whose operands agree agrees. -/
theorem agreement_of_faithful {exact : Bool} : ∀ {e : Expr} {f : ScalarFn},
    compileInner S.primitives S.schema e = .ok f → S.Faithful exact e →
      Agreement exact (f S.row) (S.meaning e)
  | .nested inner, f, hf, h => agreement_of_faithful (e := inner) hf h
  | .identifier name, f, hf, h | .compoundIdentifier parts, f, hf, h | .value v, f, hf, h => by
    rw [compileInner] at hf
    exact .of_eq (by rw [meaning, hf, leafMeaning])
  | .binaryOp left op right, f, hf, h => by
    obtain ⟨l, hl, hf⟩ := bind_ok hf
    obtain ⟨r, hr, hf⟩ := bind_ok hf
    have hclosure : f S.row = binaryDatum S.primitives op (l S.row) (r S.row) := by
      split at hf
      · cases hf
      · rw [← Except.ok.inj hf]
    rw [hclosure, meaning]
    -- where only TRUE matters, an operand is read no further than its being TRUE
    have hreadLeft : S.Faithful false left → (l S.row).isTrue = (S.meaning left).isTrue :=
      agreement_of_faithful hl
    have hreadRight : S.Faithful false right → (r S.row).isTrue = (S.meaning right).isTrue :=
      agreement_of_faithful hr
    rcases eq_or_ne op .and with rfl | hand
    · obtain ⟨⟨hleft, hright⟩ | ⟨hright, hfalse⟩, hknown⟩ := h
      · refine agreement_and ?_ hknown
        rw [hreadLeft hleft]
        cases htrue : (S.meaning left).isTrue with
        | true => rw [hreadRight (hright htrue)]
        | false => rfl
      · exact agreement_and (by rw [hreadRight hright, hfalse, Bool.and_false, Bool.and_false])
          hknown
    rcases eq_or_ne op .or with rfl | hor
    · obtain ⟨⟨hleft, hright⟩ | ⟨hright, htrue⟩, hknown⟩ := h
      · refine agreement_or ?_ hknown
        rw [hreadLeft hleft]
        cases hfalse : (S.meaning left).isTrue with
        | true => rfl
        | false => rw [hreadRight (hright hfalse)]
      · exact agreement_or (by rw [hreadRight hright, htrue, Bool.or_true, Bool.or_true]) hknown
    obtain ⟨hleft, hright, htest⟩ := (faithful_binaryOp hand hor).mp h
    have hleft : l S.row = S.meaning left := agreement_of_faithful hl hleft
    have hright : r S.row = S.meaning right := agreement_of_faithful hr hright
    rw [hleft, hright]
    exact agreement_binary hand hor htest
  | .unaryOp op inner, f, hf, h => by
    obtain ⟨e, he, hf⟩ := bind_ok hf
    have hclosure : f S.row = unaryDatum S.primitives op (e S.row) := by
      split at hf
      · cases hf
      · rw [← Except.ok.inj hf]
    rw [hclosure, meaning]
    cases op with
    | not =>
      obtain ⟨hinner, hknown⟩ := h
      have hinner : e S.row = S.meaning inner := agreement_of_faithful he hinner
      rw [hinner, unaryMeaning, unaryDatum, notDatum_eq]
      exact .of_truth (hknown.signed true)
    | minus | plus | other =>
      have hinner : e S.row = S.meaning inner := agreement_of_faithful he h
      exact .of_eq (by rw [hinner]; rfl)
  | .isNull inner, f, hf, h | .isNotNull inner, f, hf, h | .isFalse inner, f, hf, h => by
    obtain ⟨target, htarget, ⟨⟩⟩ := bind_ok hf
    have hinner : target S.row = S.meaning inner := agreement_of_faithful htarget h
    exact .of_eq (by simp [meaning, hinner])
  | .isTrue inner, f, hf, h => by
    obtain ⟨target, htarget, ⟨⟩⟩ := bind_ok hf
    have hinner : (target S.row).isTrue = (S.meaning inner).isTrue :=
      agreement_of_faithful htarget h
    exact .of_eq (by simp [meaning, hinner])
  | .anyOp left op right, f, hf, h => by
    obtain ⟨l, hl, hf⟩ := bind_ok hf
    obtain ⟨elems, helements, hf⟩ := bind_ok hf
    obtain ⟨hleft, hright, hcmp, hknown⟩ := h
    have hleft : l S.row = S.meaning left := agreement_of_faithful hl hleft
    split_ifs at hf with haccepts
    cases hf
    have hcode := anyDatum_matched (anyAccepts_iff.mp haccepts)
      ((agreement_elements helements hright).mono hcmp fun _ _ heq hcomparable =>
        ⟨heq, hcomparable⟩)
    simp only [meaning, hleft, hcode]
    exact .of_truth hknown
  | .cast inner dataType, f, hf, h => by
    rw [compileInner] at hf
    split at hf
    · cases hf
    · rename_i castDatum hcast
      obtain ⟨src, hsrc, ⟨⟩⟩ := bind_ok hf
      have hinner : src S.row = S.meaning inner := agreement_of_faithful hsrc h
      exact .of_eq (by simp [meaning, hinner, hcast])
  | .inList needle list negated, f, hf, h => by
    obtain ⟨value, hval, hf⟩ := bind_ok hf
    obtain ⟨elems, helements, ⟨⟩⟩ := bind_ok hf
    obtain ⟨hneedle, hlist, hknown⟩ := h
    have hneedle : value S.row = S.meaning needle := agreement_of_faithful hval hneedle
    have hcode : inListDatum S.primitives negated (S.meaning needle) (elems.map (· S.row)) =
        .bool (Kleene.signed negated (inTruth S.order (S.meaning needle) (S.meanings list))
          == some true) := by
      cases hnull : (S.meaning needle).isNull with
      | true => cases negated <;> simp [inListDatum, inTruth, hnull, Kleene.signed, Kleene.not]
      | false =>
        obtain ⟨hlist, hcmp⟩ := hlist hnull
        exact inListDatum_matched hnull ((agreements_upTo helements hlist).mono hcmp
          fun _ _ heq hcomparable => ⟨heq, hcomparable⟩)
    simp only [meaning, hneedle, hcode]
    exact .of_truth (hknown.signed negated)
  | .between needle negated low high, f, hf, h => by
    obtain ⟨value, hval, hf⟩ := bind_ok hf
    obtain ⟨lowValue, hlow, hf⟩ := bind_ok hf
    obtain ⟨highValue, hhigh, ⟨⟩⟩ := bind_ok hf
    obtain ⟨hneedle, hlow', hhigh', hleft, hright, hknown, hbounds⟩ := h
    have hneedle : value S.row = S.meaning needle := agreement_of_faithful hval hneedle
    have hlow : lowValue S.row = S.meaning low := agreement_of_faithful hlow hlow'
    have hhigh : highValue S.row = S.meaning high := agreement_of_faithful hhigh hhigh'
    simp only [meaning, hneedle, hlow, hhigh, betweenDatum_eq hleft hright hbounds]
    exact .of_truth (hknown.signed negated)
  | .like negated subject pattern escapeChar caseInsensitive, f, hf, h => by
    obtain ⟨s, hs, hf⟩ := bind_ok hf
    obtain ⟨p, hp, hf⟩ := bind_ok hf
    obtain ⟨escape, hescape, ⟨⟩⟩ := bind_ok hf
    obtain ⟨hsubj, hpat, hknown⟩ := h
    have hsubj : s S.row = S.meaning subject := agreement_of_faithful hs hsubj
    have hpat : p S.row = S.meaning pattern := agreement_of_faithful hp hpat
    rw [hescape] at hknown
    simp only [meaning, hsubj, hpat, likeDatum_eq, hescape]
    exact .of_truth (hknown.signed negated)
  | .isDistinctFrom left right, f, hf, h | .isNotDistinctFrom left right, f, hf, h => by
    obtain ⟨l, hl, hf⟩ := bind_ok hf
    obtain ⟨r, hr, ⟨⟩⟩ := bind_ok hf
    obtain ⟨hleft, hright, hcmp⟩ := h
    have hleft : l S.row = S.meaning left := agreement_of_faithful hl hleft
    have hright : r S.row = S.meaning right := agreement_of_faithful hr hright
    exact .of_eq (by simp [meaning, hleft, hright, nullSafeEq_eq hcmp])
  | .case operand conditions results elseResult, f, hf, h => by
    obtain ⟨o, ho, hf⟩ := bind_ok hf
    obtain ⟨cs, hcs, hf⟩ := bind_ok hf
    obtain ⟨rs, hrs, hf⟩ := bind_ok hf
    obtain ⟨fallback, hfallback, ⟨⟩⟩ := bind_ok hf
    obtain ⟨hoperand, hconds, hcmp, hbranch⟩ := h
    have hoperand := (agreement_option ho hoperand).2 rfl
    have hconds := agreements_upTo hcs hconds
    simp only [meaning, hoperand]
    refine agreement_branches (fun helse => (agreement_option hfallback helse).1) hrs
      (hconds.mono hcmp fun code sql hagree hcomparable => ?_) hbranch
    -- a `CASE` without an operand only asks whether its conditions are TRUE
    cases operand with
    | none => exact hagree
    | some value =>
      have hagree : code = sql := hagree
      rw [hagree]
      exact caseHits_eq hcomparable
  | .array args, f, hf, h => by
    obtain ⟨fs, hfs, ⟨⟩⟩ := bind_ok hf
    have hargs := eq_of_matchUpTo (agreements_upTo hfs h)
    exact .of_eq (by simp [meaning, hargs])
  | .coalesce args, f, hf, h => by
    obtain ⟨fs, hfs, ⟨⟩⟩ := bind_ok hf
    exact .of_eq (by simp [meaning, coalesceDatum_matched (agreements_upTo hfs h)])
  | .cardinality [arg], f, hf, h => by
    obtain ⟨target, htarget, ⟨⟩⟩ := bind_ok hf
    have harg : target S.row = S.meaning arg := agreement_of_faithful htarget h.1
    exact .of_eq (by simp [meaning, harg])
  | .cardinality [], f, hf, h | .cardinality (_ :: _ :: _), f, hf, h | .other debug, f, hf, h =>
    by cases hf

theorem agreement_elements {stop : Datum → Bool} : ∀ {e : Expr} {fs : List ScalarFn},
    compileElements S.primitives S.schema e = .ok fs → S.FaithfulElements stop e →
      MatchUpTo stop (Agreement true) (fs.map (· S.row)) (S.elementMeanings e)
  | e, fs, hfs, h => by
    cases e with
    | array => exact agreements_upTo hfs h
    | value v =>
      cases v with
      | quoted style =>
        cases style with
        | single =>
          obtain ⟨datums, hdatums, ⟨⟩⟩ := bind_ok hfs
          rw [elementMeanings, hdatums, map_map]
          exact (map_id datums).symm ▸ .refl (fun _ => rfl) datums
        | _ => cases hfs
      | _ => cases hfs
    | _ => cases hfs

theorem agreements_upTo {exact : Bool} {stop : Datum → Bool} :
    ∀ {es : List Expr} {fs : List ScalarFn},
    compileList S.primitives S.schema es = .ok fs → S.FaithfulUpTo stop exact es →
      MatchUpTo stop (Agreement exact) (fs.map (· S.row)) (S.meanings es)
  | [], fs, hfs, _ => by
    cases hfs
    exact .nil
  | e :: rest, fs, hfs, h => by
    obtain ⟨f, hf, hfs⟩ := bind_ok hfs
    obtain ⟨tail, htail, ⟨⟩⟩ := bind_ok hfs
    cases hstop : stop (S.meaning e) with
    | true => exact .last (agreement_of_faithful hf h.1) hstop
    | false => exact .next (agreement_of_faithful hf h.1) (agreements_upTo htail (h.2 hstop))

/-- Branches that are taken together, with a result that agrees, make a `CASE` that agrees. -/
theorem agreement_branches {exact : Bool} {hits taken : Datum → Bool} {otherwise : Prop}
    {fallback fallback' : Datum} (hfallback : otherwise → Agreement exact fallback fallback') :
    ∀ {es : List Expr} {fs : List ScalarFn} {conditions conditions' : List Datum},
    compileList S.primitives S.schema es = .ok fs →
    MatchUpTo taken (fun c c' => hits c = taken c') conditions conditions' →
    S.FaithfulBranch exact otherwise (conditions'.map taken) es →
      Agreement exact (caseDatum hits (conditions.zip (fs.map (· S.row))) fallback)
        (caseDatum taken (conditions'.zip (S.meanings es)) fallback')
  | [], fs, conditions, conditions', hfs, hconds, h => by
    cases hfs
    cases hconds with
    | nil => exact hfallback h
    | last | next => exact hfallback h
  | e :: rest, fs, conditions, conditions', hfs, hconds, h => by
    obtain ⟨f, hf, hfs⟩ := bind_ok hfs
    obtain ⟨tail, htail, ⟨⟩⟩ := bind_ok hfs
    cases hconds with
    | nil => exact hfallback h
    | last hcondition hstop =>
      simp only [map_cons, FaithfulBranch, hstop, if_true] at h
      simp only [map_cons, meanings, zip_cons_cons, caseDatum, hcondition, hstop, if_true]
      exact agreement_of_faithful hf h
    | next hcondition hconds =>
      simp only [map_cons, FaithfulBranch] at h
      simp only [map_cons, meanings, zip_cons_cons, caseDatum, hcondition]
      split_ifs at h ⊢
      · exact agreement_of_faithful hf h
      · exact agreement_branches hfallback htail hconds h

theorem agreement_option {exact : Bool} : ∀ {o : Option Expr} {g : Option ScalarFn},
    compileOption S.primitives S.schema o = .ok g → S.FaithfulOption exact o →
      Agreement exact ((g.map (· S.row)).getD .null) ((S.meaningOption o).getD .null) ∧
        (exact = true → g.map (· S.row) = S.meaningOption o)
  | none, g, hg, _ => by
    cases hg
    exact ⟨.of_eq rfl, fun _ => rfl⟩
  | some e, g, hg, h => by
    obtain ⟨f, hf, ⟨⟩⟩ := bind_ok hg
    have hagree := agreement_of_faithful hf h
    refine ⟨hagree, fun hexact => ?_⟩
    subst hexact
    exact congrArg some hagree

end

/-- The closure filters as SQL does: it accepts the rows on which the predicate is TRUE and no
row on which it is FALSE or UNKNOWN. -/
def FiltersAsSql (S : Setting) (e : Expr) : Prop :=
  ∀ accepts, compilePredicate S.primitives S.schema e = .ok accepts →
    (accepts S.row = true ↔ (S.meaning e).truth = some true) ∧
    (accepts S.row = false ↔ (S.meaning e).truth = some false ∨ (S.meaning e).truth = none)

end Setting

/-- Integers of every width compare by value, texts by their characters. -/
def plainOrder (a b : Datum) : Option Ordering :=
  match asI64 a, asI64 b, a, b with
  | some x, some y, _, _ => some (compare x.toInt y.toInt)
  | _, _, .text x, .text y => some (compare x y)
  | _, _, _, _ => none

def reading (x : Datum) : Setting := ⟨plainPrimitives, plainOrder, ⟨["x"], []⟩, [x]⟩

def columnX : Expr := .identifier "x"

def numberLiteral (n : String) : Expr := .value (.number n)

def nullLiteral : Expr := .value .null

end Palimpsest.Dataflow
