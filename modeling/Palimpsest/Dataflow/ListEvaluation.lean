import Palimpsest.Dataflow.Plan

/-! The meaning of plans computed on lists of rows. -/
namespace Palimpsest.Dataflow
open Sql Multiset

theorem sort_coe {α : Type} (r) [DecidableRel r] [IsTrans α r] [Std.Total r] [Std.Antisymm r]
    (rows : List α) : (rows : Multiset α).sort r = rows.insertionSort r := by
  refine List.Perm.eq_of_pairwise' (pairwise_sort _ r) (List.pairwise_insertionSort r rows) ?_
  rw [← coe_eq_coe, sort_eq]
  exact (coe_eq_coe.mpr (List.perm_insertionSort r rows)).symm

section Lists
variable {δ : Type} [DecidableEq δ] (values : Datums δ)

local instance : LawfulBEq (Row δ) := inferInstance

def listUnary : UnaryRecipe δ → List (Row δ) → List (Row δ)
  | .filter predicate, rows => rows.filter fun row => predicate row
  | .project extract, rows => rows.map extract
  | .aggregate groupExtract valueExtracts funcs emptyDefault, rows =>
    ((rows.map groupExtract).dedup.map fun group =>
      group ++ aggregateDatums values funcs
        ((rows.filter fun row => groupExtract row = group).map fun row =>
          valueExtracts.map fun extract => extract row)) ++
    match emptyDefault with
    | none => []
    | some defaultRow => if [] ∈ rows.map groupExtract then [] else [defaultRow]
  | .topK sortExtract descending limit offset, rows =>
    ((rows.insertionSort (rowLe values sortExtract descending)).drop offset).take limit
  | .distinctOn onExtract sortExtract descending, rows =>
    (rows.map onExtract).dedup.flatMap fun group =>
      ((rows.filter fun row => onExtract row = group).insertionSort
        (rowLe values sortExtract descending)).head?.toList
  | .distinct, rows => rows.dedup

def listDual : DualRecipe → List (Row δ) → List (Row δ) → List (Row δ)
  | .join kind leftKeys rightKeys rightWidth, left, right =>
    let joined := left.flatMap fun l =>
      (right.filter fun r => Matches values leftKeys rightKeys l r).map fun r => l ++ r
    let alone := left.filter fun l => ∀ r ∈ right, ¬ Matches values leftKeys rightKeys l r
    match kind with
    | .inner => joined
    | .left => joined ++ alone.map fun l => l ++ List.replicate rightWidth values.null
    | .semi => left.filter fun l => ¬ ∀ r ∈ right, ¬ Matches values leftKeys rightKeys l r
    | .anti => alone
  | .union true, left, right => left ++ right
  | .union false, left, right => (left ++ right).dedup
  | .setOp false false, left, right => left.dedup.filter fun row => row ∉ right
  | .setOp false true, left, right => @List.diff _ instBEqOfDecidableEq left right
  | .setOp true false, left, right => left.dedup.filter fun row => row ∈ right
  | .setOp true true, left, right => @List.bagInter _ instBEqOfDecidableEq left right

def listIterate (body : List (Row δ) → Option (List (Row δ))) :
    ℕ → List (Row δ) → Option (List (Row δ))
  | 0, _ => none
  | rounds + 1, bag => (body bag).bind fun next =>
    if next.isPerm bag then some bag else listIterate body rounds next

def listWaves (body : List (Row δ) → Option (List (Row δ))) :
    ℕ → List (Row δ) → List (Row δ) → Option (List (Row δ))
  | 0, _, _ => none
  | rounds + 1, wave, accumulator => (body wave).bind fun next =>
    if wave = [] ∧ next = [] then some accumulator
    else listWaves body rounds next (accumulator ++ next)

def listEval (rounds : ℕ) (tables : TableId → List (Row δ)) :
    Plan δ → Option (List (Row δ)) → Option (List (Row δ))
  | .baseTable table, _ => some (tables table)
  | .unary recipe input, working =>
    (listEval rounds tables input working).map (listUnary values recipe)
  | .dual recipe left right, working =>
    (listEval rounds tables left working).bind fun l =>
      (listEval rounds tables right working).map fun r => listDual values recipe l r
  | .cteRef target, working => listEval rounds tables target working
  | .recursiveRef _, working => working
  | .fixpoint _ unionAll base step, _ =>
    (listEval rounds tables base none).bind fun seed =>
      if unionAll then
        listWaves (fun wave => listEval rounds tables step (some wave)) rounds seed seed
      else
        listIterate (fun working => (listEval rounds tables step (some working)).map fun out =>
          (seed ++ out).dedup) rounds seed

theorem evalUnary_coe (recipe) (rows : List (Row δ)) :
    evalUnary values recipe rows = listUnary values recipe rows := by
  cases recipe with
  | filter | project | distinct => simp [evalUnary, listUnary]
  | topK => simp only [evalUnary, listUnary, sort_coe]
  | distinctOn =>
    simp only [evalUnary, listUnary, map_coe, coe_dedup, filter_coe, sort_coe, coe_bind]
  | aggregate groupExtract valueExtracts funcs emptyDefault =>
    cases emptyDefault with
    | none => simp [evalUnary, listUnary]
    | some =>
      by_cases hempty : ∃ row ∈ rows, groupExtract row = []
      · simp [evalUnary, listUnary, hempty]
      · simp only [evalUnary, listUnary, map_coe, mem_coe, List.mem_map, hempty]
        rfl

theorem evalDual_coe (recipe) (left right : List (Row δ)) :
    evalDual values recipe left right = listDual values recipe left right := by
  cases recipe with
  | join kind => cases kind <;> simp [evalDual, listDual]
  | union all => cases all <;> simp [evalDual, listDual]
  | setOp intersect all =>
    cases intersect with
    | false =>
      cases all with
      | false => simp [evalDual, listDual]
      | true => rw [evalDual, listDual, coe_sub]
    | true =>
      cases all with
      | false => simp [evalDual, listDual]
      | true => rw [evalDual, listDual, coe_inter]

section
variable {body : Multiset (Row δ) → Option (Multiset (Row δ))}
  {listBody : List (Row δ) → Option (List (Row δ))}

variable (hbody : ∀ bag : List (Row δ), body bag = (listBody bag).map ofList)
include hbody

theorem iterate_coe (rounds : ℕ) (bag : List (Row δ)) :
    Loop.iterate body rounds bag = (listIterate listBody rounds bag).map ofList := by
  induction rounds generalizing bag with
  | zero => rfl
  | succ rounds ih =>
    rw [Loop.iterate, listIterate, hbody]
    cases listBody bag with
    | none => rfl
    | some next =>
      rw [Option.map_some, Option.bind_some, Option.bind_some]
      by_cases hsame : next.isPerm bag = true
      · rw [if_pos hsame, if_pos (coe_eq_coe.mpr (List.isPerm_iff.mp hsame)), Option.map_some]
      · rw [if_neg hsame, if_neg fun heq => hsame (List.isPerm_iff.mpr (coe_eq_coe.mp heq))]
        exact ih next

theorem waves_coe (rounds : ℕ) (wave accumulator : List (Row δ)) :
    Loop.waves body rounds wave accumulator =
      (listWaves listBody rounds wave accumulator).map ofList := by
  induction rounds generalizing wave accumulator with
  | zero => rfl
  | succ rounds ih =>
    rw [Loop.waves, listWaves, hbody]
    cases listBody wave with
    | none => rfl
    | some next =>
      rw [Option.map_some, Option.bind_some, Option.bind_some]
      by_cases hdone : wave = [] ∧ next = []
      · rw [if_pos hdone, if_pos (by simpa using hdone), Option.map_some]
      · rw [if_neg hdone, if_neg (by simpa using hdone)]
        exact ih next (accumulator ++ next)

end

/-- Plans mean the same on lists as on bags. -/
theorem eval_coe (rounds : ℕ) (tables plan working) :
    eval values rounds (fun table => ↑(tables table)) plan (working.map ofList) =
      (listEval values rounds tables plan working).map ofList := by
  induction plan generalizing working with
  | baseTable | recursiveRef => rfl
  | cteRef target ih => exact ih working
  | unary recipe input ih =>
    rw [eval, listEval, ih, Option.map_map, Option.map_map]
    exact congrArg (Option.map · _) (funext fun rows => evalUnary_coe values recipe rows)
  | dual recipe left right ihl ihr =>
    rw [eval, listEval, ihl, ihr]
    cases listEval values rounds tables left working with
    | none => rfl
    | some l =>
      cases listEval values rounds tables right working with
      | none => rfl
      | some r => exact congrArg some (evalDual_coe values recipe l r)
  | fixpoint cte unionAll base step ihb ihs =>
    have hseed := ihb none
    rw [Option.map_none] at hseed
    rw [eval, listEval, hseed]
    cases listEval values rounds tables base none with
    | none => rfl
    | some seed =>
      cases unionAll with
      | true => exact waves_coe (fun bag => ihs (some bag)) rounds seed seed
      | false =>
        refine iterate_coe (fun bag => ?_) rounds seed
        rw [show eval values rounds (fun table => ↑(tables table)) step (some ↑bag) = _ from
          ihs (some bag), Option.map_map, Option.map_map]
        rfl

end Lists

end Palimpsest.Dataflow
