import Palimpsest.Dataflow.WorkingTable

/-! How the rows of a plan follow the rows of one table. -/
namespace Palimpsest.Dataflow
open Multiset hiding induction
open Option

/-- How a recipe's rows follow its right input: with it (`true`), against it (`false`) or
neither. -/
def DualRecipe.rightSign : DualRecipe → Option Bool
  | .join .inner _ _ _ | .join .semi _ _ _ | .union _ | .setOp true _ => some true
  | .join .anti _ _ _ | .setOp false _ => some false
  | .join .left _ _ _ => none

/-- When rows are added to the table, rows are only added to the result (`up`), or only removed. -/
def Plan.follows {δ : Type} (table : TableId) : Bool → Plan δ → Bool
  | up, .baseTable other => up || decide (other ≠ table)
  | up, .unary recipe input =>
    if recipe.rowWise then input.follows table up else decide (table ∉ input.tables)
  | up, .dual recipe left right => left.follows table up && match recipe.rightSign with
    | some sign => right.follows table (up == sign)
    | none => decide (table ∉ right.tables)
  | up, .cteRef target => target.follows table up
  | _, .fixpoint _ _ base step => decide (table ∉ base.tables ++ step.tables)
  | _, .recursiveRef _ => true

section
variable {α β : Type}

theorem bind_le_bind {s : Multiset α} {f : α → Multiset β} (h : s ≤ t) (hfg : ∀ a, f a ≤ g a) :
    s.bind f ≤ t.bind g := by
  obtain ⟨u, rfl⟩ := Multiset.le_iff_exists_add.mp h
  have hpoint : s.bind f ≤ s.bind g := by
    induction s using Multiset.induction with
    | empty => exact le_rfl
    | cons a s ih =>
      rw [cons_bind, cons_bind]
      exact add_le_add (hfg a) (ih (le_add_right s u))
  rw [add_bind]
  exact hpoint.trans (le_add_right _ _)

theorem dedup_le_dedup [DecidableEq α] {s : Multiset α} (h : s ≤ t) : s.dedup ≤ t.dedup :=
  le_dedup.mpr ⟨(dedup_le s).trans h, nodup_dedup s⟩

theorem filter_le_of_imp [DecidablePred p] [DecidablePred q] {s : Multiset α} (h : s ≤ t)
    (hpq : ∀ a, p a → q a) : s.filter p ≤ t.filter q :=
  (filter_le_filter p h).trans (monotone_filter_right t hpq)

end

section Rows
variable {δ : Type} [DecidableEq δ] (values : Datums δ)

theorem evalUnary_le (hrow : recipe.rowWise = true) (h : rows ≤ rows') :
    evalUnary values recipe rows ≤ evalUnary values recipe rows' := by
  cases recipe with
  | filter => exact filter_le_filter _ h
  | project => exact map_le_map h
  | distinct => exact dedup_le_dedup h
  | aggregate | topK | distinctOn => cases hrow

/-- The right inputs stand in the order that the sign asks for. -/
def Follow (right right' : Multiset (Row δ)) : Option Bool → Prop
  | some true => right ≤ right'
  | some false => right' ≤ right
  | none => right = right'

theorem evalDual_le (recipe) (hleft : left ≤ left')
    (hright : Follow right right' recipe.rightSign) :
    evalDual values recipe left right ≤ evalDual values recipe left' right' := by
  cases recipe with
  | join kind =>
    cases kind with
    | inner => exact bind_le_bind hleft fun l => map_le_map (filter_le_filter _ hright)
    | left =>
      obtain rfl : right = right' := hright
      exact add_le_add (bind_le_bind hleft fun _ => le_rfl)
        (map_le_map (filter_le_filter _ hleft))
    | semi =>
      refine filter_le_of_imp hleft fun l hmatch hnone => hmatch fun r hr => ?_
      exact hnone r (mem_of_le hright hr)
    | anti => exact filter_le_of_imp hleft fun l hnone r hr => hnone r (mem_of_le hright hr)
  | union all =>
    cases all with
    | true => exact add_le_add hleft hright
    | false => exact dedup_le_dedup (add_le_add hleft hright)
  | setOp intersect all =>
    cases intersect <;> cases all
    · exact filter_le_of_imp (dedup_le_dedup hleft) fun row => mt (mem_of_le hright)
    · exact tsub_le_tsub hleft hright
    · exact filter_le_of_imp (dedup_le_dedup hleft) fun row => mem_of_le hright
    · exact inf_le_inf hleft hright

/-! Tables of which the second have more rows in one place, and the same rows elsewhere. -/
variable {tables : Bool → TableId → Multiset (Row δ)}
  (hsame : ∀ other, other ≠ table → tables false other = tables true other)
include hsame

theorem eval_unread (h : table ∉ plan.tables) (up : Bool) :
    eval values rounds (tables !up) plan working = eval values rounds (tables up) plan working := by
  refine eval_congr values rounds plan fun other hother => ?_
  have hne : other ≠ table := fun heq => h (heq ▸ hother)
  cases up with
  | false => exact (hsame other hne).symm
  | true => exact hsame other hne

theorem eval_follows (hmore : tables false table ≤ tables true table)
    (h : plan.follows table up = true) (ha : eval values rounds (tables !up) plan working = some a)
    (hb : eval values rounds (tables up) plan working = some b) : a ≤ b := by
  induction plan generalizing up working a b with
  | baseTable other =>
    cases ha
    cases hb
    rcases eq_or_ne other table with rfl | heq
    · cases up with
      | false => simp [Plan.follows] at h
      | true => exact hmore
    · cases up with
      | false => exact (hsame other heq).ge
      | true => exact (hsame other heq).le
  | unary recipe input ih =>
    obtain ⟨rows, hrows, rfl⟩ := map_eq_some_iff.mp ha
    obtain ⟨rows', hrows', rfl⟩ := map_eq_some_iff.mp hb
    rw [Plan.follows] at h
    split at h
    next hrow => exact evalUnary_le values hrow (ih h hrows hrows')
    next =>
      rw [eval_unread values hsame (of_decide_eq_true h)] at hrows
      rw [mem_unique hrows hrows']
  | dual recipe left right ihl ihr =>
    simp only [eval, bind_eq_some_iff, map_eq_some_iff] at ha hb
    obtain ⟨l, hl, r, hr, rfl⟩ := ha
    obtain ⟨l', hl', r', hr', rfl⟩ := hb
    rw [Plan.follows, Bool.and_eq_true] at h
    refine evalDual_le values recipe (ihl h.1 hl hl') ?_
    replace h := h.2
    split at h
    next sign hsign =>
      rw [hsign]
      cases sign with
      | true => exact ihr (by simpa using h) hr hr'
      | false => exact ihr (by simpa using h) (by simpa using hr') hr
    next hsign =>
      rw [hsign]
      rw [eval_unread values hsame (of_decide_eq_true h)] at hr
      exact mem_unique hr hr'
  | cteRef target ih => exact ih h ha hb
  | fixpoint cte unionAll base step =>
    have hnot : table ∉ (Plan.fixpoint cte unionAll base step).tables := of_decide_eq_true h
    rw [eval_unread values hsame hnot] at ha
    exact (mem_unique ha hb).le
  | recursiveRef => exact (mem_unique ha hb).le

end Rows

end Palimpsest.Dataflow
