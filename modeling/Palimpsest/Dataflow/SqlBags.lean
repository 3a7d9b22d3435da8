import Palimpsest.Dataflow.Compile
import Palimpsest.Dataflow.DatumCode
import Mathlib.Data.UInt

/-! Joins and set operations against their SQL meaning, for any equality of values. -/
namespace Palimpsest.Dataflow
open Sql Multiset

section Sql
variable {δ : Type} [DecidableEq δ] (values : Datums δ) (eq : δ → δ → Prop) [DecidableRel eq]

/-- SQL's ON clause: the keys are pairwise equal, and nothing is equal to NULL. -/
def SqlMatches (leftKeys rightKeys : List ℕ) (left right : Row δ) : Prop :=
  List.Forall₂ (fun a b => a ≠ values.null ∧ b ≠ values.null ∧ eq a b) (keyOf values left leftKeys)
    (keyOf values right rightKeys)

instance (leftKeys rightKeys : List ℕ) (left right : Row δ) :
    Decidable (SqlMatches values eq leftKeys rightKeys left right) :=
  inferInstanceAs (Decidable (List.Forall₂ _ _ _))

def sqlJoin (kind : JoinKind) (leftKeys rightKeys : List ℕ) (rightWidth : ℕ)
    (left right : Multiset (Row δ)) : Multiset (Row δ) :=
  let joined := left.bind fun l =>
    (right.filter fun r => SqlMatches values eq leftKeys rightKeys l r).map fun r => l ++ r
  let alone := left.filter fun l => ∀ r ∈ right, ¬ SqlMatches values eq leftKeys rightKeys l r
  match kind with
  | .inner => joined
  | .left => joined + alone.map fun l => l ++ List.replicate rightWidth values.null
  | .semi => left.filter fun l => ¬ ∀ r ∈ right, ¬ SqlMatches values eq leftKeys rightKeys l r
  | .anti => alone

/-- Rows that SQL does not tell apart; here NULLs are equal. -/
def EqualRows (a b : Row δ) : Prop :=
  List.Forall₂ (fun x y => x = y ∨ x ≠ values.null ∧ y ≠ values.null ∧ eq x y) a b

instance (a b : Row δ) : Decidable (EqualRows values eq a b) :=
  inferInstanceAs (Decidable (List.Forall₂ _ _ _))

def sqlCount (row : Row δ) (bag : Multiset (Row δ)) : ℕ := bag.countP (EqualRows values eq row)

def sqlMultiplicity : DualRecipe → ℕ → ℕ → ℕ
  | .union true, m, n => m + n
  | .union false, m, n => if 0 < m + n then 1 else 0
  | .setOp false true, m, n => m - n
  | .setOp false false, m, n => if 0 < m ∧ n = 0 then 1 else 0
  | .setOp true true, m, n => min m n
  | .setOp true false, m, n => if 0 < m ∧ 0 < n then 1 else 0
  | .join _ _ _ _, m, _ => m

def DualRecipe.isSetOperation : DualRecipe → Bool
  | .join _ _ _ _ => false
  | _ => true

/-- Each value is NULL or of the kind of its column, where `K` says which values a kind has. -/
def Fits {κ : Type} (K : κ → δ → Prop) (columns : List κ) (row : Row δ) : Prop :=
  List.Forall₂ (fun kind d => d ≠ values.null → K kind d) columns row

def OnKinds {κ : Type} (K : κ → δ → Prop) (p : δ → δ → Prop) : Prop :=
  ∀ kind a b, K kind a → K kind b → a ≠ values.null → b ≠ values.null → p a b

variable {values eq} {κ : Type} {K : κ → δ → Prop}

section
omit [DecidableEq δ] [DecidableRel eq]

theorem sqlMatches_iff (h : OnKinds values K fun a b => eq a b ↔ a = b)
    {cols : List κ} {as bs : Row δ} (has : Fits values K cols as) (hbs : Fits values K cols bs) :
    List.Forall₂ (fun a b => a ≠ values.null ∧ b ≠ values.null ∧ eq a b) as bs ↔
      bs = as ∧ values.null ∉ bs := by
  induction has generalizing bs with
  | nil => cases hbs; simp
  | @cons kind a cols as ha _ ih =>
    obtain _ | ⟨hb, hbs⟩ := hbs
    rename_i b bs
    rw [List.forall₂_cons, ih hbs, List.cons.injEq, List.mem_cons, not_or]
    constructor
    · rintro ⟨⟨hanull, hbnull, heq⟩, rfl, hnull⟩
      exact ⟨⟨((h kind a b (ha hanull) (hb hbnull) hanull hbnull).mp heq).symm, rfl⟩,
        Ne.symm hbnull, hnull⟩
    · rintro ⟨⟨rfl, rfl⟩, hbnull, hnull⟩
      have hbnull := Ne.symm hbnull
      exact ⟨⟨hbnull, hbnull, (h kind b b (hb hbnull) (hb hbnull) hbnull hbnull).mpr rfl⟩,
        rfl, hnull⟩

theorem equalRows_iff (h : OnKinds values K fun a b => eq a b → a = b)
    {cols : List κ} {a b : Row δ} (ha : Fits values K cols a) (hb : Fits values K cols b) :
    EqualRows values eq a b ↔ a = b := by
  constructor
  · intro hrows
    induction ha generalizing b with
    | nil => cases hrows; rfl
    | @cons kind x cols a hx _ ih =>
      obtain _ | ⟨hxy, hrows⟩ := hrows
      obtain _ | ⟨hy, hb⟩ := hb
      rw [ih hb hrows]
      obtain rfl | ⟨hxnull, hynull, heq⟩ := hxy
      · rfl
      · rw [h kind _ _ (hx hxnull) (hy hynull) hxnull hynull heq]
  · rintro rfl
    exact List.forall₂_same.mpr fun _ _ => .inl rfl

end

/-- Joins on columns of the kinds `K` are SQL's if and only if SQL tells different values of a kind
apart. -/
theorem joins_sql_iff :
    (∀ kind leftKeys rightKeys rightWidth (left right : Collection (Row δ)) time l r columns,
      left time = some l → right time = some r →
      (∀ x ∈ l, Fits values K columns (keyOf values x leftKeys)) →
      (∀ y ∈ r, Fits values K columns (keyOf values y rightKeys)) →
      installDual values (.join kind leftKeys rightKeys rightWidth) left right time =
        some (sqlJoin values eq kind leftKeys rightKeys rightWidth l r)) ↔
      OnKinds values K fun a b => eq a b ↔ a = b := by
  constructor
  · intro h kind a b ha hb hanull hbnull
    have hsemi := h .semi [0] [0] 0 (.constant {[a]}) (.constant {[b]}) 0 {[a]} {[b]} [kind] rfl rfl
      (by simpa [Fits, keyOf] using fun _ => ha) (by simpa [Fits, keyOf] using fun _ => hb)
    have hmem := congrArg (fun rows => rows.map ([a] ∈ ·)) hsemi
    simpa [installDual_apply, Collection.constant, evalDual, sqlJoin, SqlMatches, Matches, keyOf,
      hanull, hbnull, eq_comm] using hmem.symm
  · intro h kind leftKeys rightKeys rightWidth left right time l r columns hleft hright hl hr
    have hmatches : ∀ x ∈ l, ∀ y ∈ r, (SqlMatches values eq leftKeys rightKeys x y ↔
        Matches values leftKeys rightKeys x y) := fun x hx y hy =>
          sqlMatches_iff h (hl x hx) (hr y hy)
    have hjoined : (l.bind fun x => (r.filter fun y => Matches values leftKeys rightKeys x y).map
        fun y => x ++ y) = l.bind fun x => (r.filter fun y =>
          SqlMatches values eq leftKeys rightKeys x y).map fun y => x ++ y :=
      bind_congr fun x hx => by
        rw [filter_congr fun y hy => (hmatches x hx y hy).symm]
    have halone : ∀ x ∈ l, ((∀ y ∈ r, ¬ Matches values leftKeys rightKeys x y) ↔
        ∀ y ∈ r, ¬ SqlMatches values eq leftKeys rightKeys x y) := fun x hx =>
      forall₂_congr fun y hy => not_congr (hmatches x hx y hy).symm
    rw [installDual_apply, hleft, hright]
    cases kind <;>
      simp [evalDual, sqlJoin, hjoined, filter_congr halone,
        filter_congr fun x hx => not_congr (halone x hx)]

theorem sqlCount_eq (h : OnKinds values K fun a b => eq a b → a = b)
    (hrow : Fits values K cols row) (hbag : ∀ x ∈ bag, Fits values K cols x) :
    sqlCount values eq row bag = bag.count row :=
  countP_congr rfl fun x hx => propext (equalRows_iff h hrow (hbag x hx))

theorem count_evalDual (hrecipe : recipe.isSetOperation = true) (left right row) :
    (evalDual values recipe left right).count row =
      sqlMultiplicity recipe (left.count row) (right.count row) := by
  have hleft : row ∈ left ↔ 0 < left.count row := count_pos.symm
  have hright : row ∈ right ↔ 0 < right.count row := count_pos.symm
  match recipe, hrecipe with
  | .union true, _ => exact count_add row left right
  | .union false, _ =>
    simp only [evalDual, sqlMultiplicity, count_dedup, mem_add, hleft, hright,
      Nat.add_pos_iff_pos_or_pos]
  | .setOp false true, _ => exact count_sub row left right
  | .setOp true true, _ => exact count_inter row left right
  | .setOp false false, _ | .setOp true false, _ =>
    simp only [evalDual, sqlMultiplicity, count_filter, count_dedup, hleft, hright]
    split_ifs <;> omega

theorem mem_evalDual (hrecipe : recipe.isSetOperation = true)
    (h : row ∈ evalDual values recipe left right) : row ∈ left + right := by
  rw [← count_pos, count_evalDual hrecipe] at h
  rw [← count_pos, count_add]
  match recipe with
  | .union true => exact h
  | .union false | .setOp false true | .setOp true true | .setOp false false | .setOp true false =>
    simp only [sqlMultiplicity] at h
    try split_ifs at h
    all_goals omega

theorem except_keeps (hne : a ≠ b) (ha : a ≠ values.null) (hb : b ≠ values.null) (heq : eq a b) :
    sqlCount values eq [a] (evalDual values (.setOp false false) {[a]} {[b]}) ≠
      sqlMultiplicity (.setOp false false) (sqlCount values eq [a] {[a]})
        (sqlCount values eq [a] {[b]}) := by
  have hkept : evalDual values (.setOp false false) {[a]} {[b]} = {[a]} := by
    simp [evalDual, hne]
  have hself : EqualRows values eq [a] [a] := .cons (.inl rfl) .nil
  have hother : EqualRows values eq [a] [b] := .cons (.inr ⟨ha, hb, heq⟩) .nil
  simp [hkept, sqlCount, sqlMultiplicity, countP_eq_card_filter, hself, hother]

/-- Zero and minus zero are different bits. -/
theorem zeros_do_not_join : installDual sampleDatums (.join .inner [0] [0] 1) (.constant {[.f64 0]})
        (.constant {[.f64 (2 ^ 63)]}) 0 = some 0 ∧
    ∀ (eq : Datum → Datum → Prop) [DecidableRel eq], eq (.f64 0) (.f64 (2 ^ 63)) →
      sqlJoin sampleDatums eq .inner [0] [0] 1 {[.f64 0]} {[.f64 (2 ^ 63)]} =
        {[.f64 0, .f64 (2 ^ 63)]} := by
  refine ⟨by decide +kernel, fun eq _ heq => ?_⟩
  simp [sqlJoin, SqlMatches, keyOf, sampleDatums, filter_singleton, heq]

end Sql

/-- A set operation on columns of the kinds `K` is SQL's: each row comes out as often as SQL says,
every output row is a row of an operand, and operands and output have the same columns. -/
def SetOperationsAgree {κ : Type} (values : Datums Datum) (eq : Datum → Datum → Prop)
    [DecidableRel eq] (K : κ → Datum → Prop) : Prop :=
  ∀ what recipe left right compiled, recipe.isSetOperation = true →
    compileSetOp what recipe left right = .ok compiled →
    compiled.schema = left.schema.within none ∧
    compiled.schema.columns.length = right.schema.columns.length ∧
    ∀ rounds inputs working time l r columns,
      install values rounds inputs left.plan working time = some l →
      install values rounds inputs right.plan working time = some r →
      (∀ row ∈ l + r, Fits values K columns row) →
      ∃ out, install values rounds inputs compiled.plan working time = some out ∧
        (∀ row ∈ out, row ∈ l + r) ∧
        ∀ row, Fits values K columns row → sqlCount values eq row out =
          sqlMultiplicity recipe (sqlCount values eq row l) (sqlCount values eq row r)

theorem set_operations_sql_iff {κ : Type} {values : Datums Datum} {eq : Datum → Datum → Prop}
    [DecidableRel eq] {K : κ → Datum → Prop} :
    SetOperationsAgree values eq K ↔ OnKinds values K fun a b => eq a b → a = b := by
  constructor
  · intro h kind a b ha hb hanull hbnull heq
    by_contra hne
    let tables : TableId → Multiset (Row Datum) := fun table => if table = 0 then {[a]} else {[b]}
    let operand (table : TableId) : Compiled := ⟨⟨[⟨"x", .int, none⟩]⟩, .baseTable table⟩
    obtain ⟨-, -, hbags⟩ := h "set-operation" (.setOp false false) (operand 0) (operand 1) _ rfl rfl
    obtain ⟨out, hout, -, hcount⟩ := hbags 0 (fun table _ => some (tables table)) none 0 {[a]} {[b]}
      [kind] rfl rfl (by simp [Fits, ha, hb])
    rw [install, installDual_apply] at hout
    obtain rfl := Option.some.inj hout
    exact except_keeps hne hanull hbnull heq (hcount [a] (by simp [Fits, ha]))
  · intro h what recipe left right compiled hrecipe hcomp
    dsimp only [compileSetOp] at hcomp
    split at hcomp
    · rename_i hwidth
      obtain rfl := Except.ok.inj hcomp
      refine ⟨rfl, by simpa [NodeSchema.within] using hwidth, ?_⟩
      intro rounds inputs working time l r columns hl hr hfits
      refine ⟨evalDual values recipe l r, ?_, fun row hrow => mem_evalDual hrecipe hrow, ?_⟩
      · simp [install, installDual_apply, hl, hr]
      · intro row hrow
        have hout : ∀ x ∈ evalDual values recipe l r, Fits values K columns x := fun x hx =>
          hfits x (mem_evalDual hrecipe hx)
        rw [sqlCount_eq h hrow hout, count_evalDual hrecipe,
          sqlCount_eq h hrow fun x hx => hfits x (mem_add.mpr (.inl hx)),
          sqlCount_eq h hrow fun x hx => hfits x (mem_add.mpr (.inr hx))]
    · cases hcomp

/-- `SELECT x FROM a EXCEPT SELECT x FROM b`, with columns of different widths. -/
theorem except_keeps_narrow_integer : ∃ out, installDual sampleDatums (.setOp false false)
      (.constant {[.i32 1]}) (.constant {[.i64 1]}) 0 = some out ∧
    ∀ (eq : Datum → Datum → Prop) [DecidableRel eq], eq (.i32 1) (.i64 1) →
      sqlCount sampleDatums eq [.i32 1] out ≠
        sqlMultiplicity (.setOp false false) (sqlCount sampleDatums eq [.i32 1] {[.i32 1]})
          (sqlCount sampleDatums eq [.i32 1] {[.i64 1]}) :=
  ⟨_, installDual_apply _ _ _ _ _,
    fun _ _ heq => except_keeps (by decide) (by decide) (by decide) heq⟩

end Palimpsest.Dataflow
