import Palimpsest.Dataflow.ListEvaluation

/-! `WITH RECURSIVE`: the loops of the dataflow against SQL's iteration over a working table. -/
namespace Palimpsest.Dataflow
open Multiset hiding mem_map
open Sql Option

/-! SQL's iteration: the recursive term reads the rows that the last round has added. -/
namespace WorkingTable
variable {α : Type} [DecidableEq α]

/-- `UNION`: a row counts as added if no earlier round has produced it. -/
def union (step : Multiset α → Option (Multiset α)) :
    ℕ → Multiset α → Multiset α → Option (Multiset α)
  | 0, _, _ => none
  | rounds + 1, working, result =>
    if working = 0 then some result
    else (step working).bind fun out =>
      let fresh := out.dedup.filter fun row => row ∉ result
      union step rounds fresh (result + fresh)

def unionAll (step : Multiset α → Option (Multiset α)) :
    ℕ → Multiset α → Multiset α → Option (Multiset α)
  | 0, _, _ => none
  | rounds + 1, working, result =>
    if working = 0 then some result
    else (step working).bind fun out => unionAll step rounds out (result + out)

section
variable {step step' : Multiset α → Option (Multiset α)}

variable (hstep : ∀ bag out, step bag = some out → step' bag = some out)
include hstep

theorem union_mono (h : union step rounds working result = some final) :
    union step' rounds working result = some final := by
  induction rounds generalizing working result with
  | zero => cases h
  | succ rounds ih =>
    rw [union] at h ⊢
    split at h
    next hempty => rwa [if_pos hempty]
    next hne =>
      rw [bind_eq_some_iff] at h
      obtain ⟨out, hout, hrest⟩ := h
      rw [if_neg hne, hstep working out hout]
      exact ih hrest

theorem unionAll_mono (h : unionAll step rounds working result = some final) :
    unionAll step' rounds working result = some final := by
  induction rounds generalizing working result with
  | zero => cases h
  | succ rounds ih =>
    rw [unionAll] at h ⊢
    split at h
    next hempty => rwa [if_pos hempty]
    next hne =>
      rw [bind_eq_some_iff] at h
      obtain ⟨out, hout, hrest⟩ := h
      rw [if_neg hne, hstep working out hout]
      exact ih hrest

end

/-- The step makes rows out of single rows of its working table. -/
def RowWise (step : Multiset α → Multiset α) (image : α → α → Prop) : Prop :=
  ∀ working x, x ∈ step working ↔ ∃ w ∈ working, image w x

/-- What the rounds of both loops have in common: SQL's result so far and the set that is iterated
in the dataflow have the same rows, and what they lack is in reach of the working table. -/
structure InStep (image : α → α → Prop) (seed working result accumulated : Multiset α) : Prop where
  nodup : result.Nodup
  working_mem : ∀ x ∈ working, x ∈ result
  seed_mem : ∀ x ∈ seed, x ∈ result
  produced : ∀ x ∈ result, x ∈ seed ∨ ∃ w ∈ result, image w x
  reached : ∀ w ∈ result, ∀ x, image w x → x ∈ result ∨ ∃ v ∈ working, image v x
  same : ∀ x, x ∈ accumulated ↔ x ∈ result

section Union
variable {step : Multiset α → Multiset α}

theorem InStep.start (image : α → α → Prop) (seed) :
    InStep image seed seed.dedup seed.dedup seed where
  nodup := nodup_dedup seed
  working_mem _ hx := hx
  seed_mem _ hx := mem_dedup.mpr hx
  produced _ hx := .inl (mem_dedup.mp hx)
  reached w hw _ hx := .inr ⟨w, hw, hx⟩
  same _ := mem_dedup.symm

theorem InStep.mem_body (h : InStep image seed working result total)
    (hstep : RowWise step image) (x : α) :
    x ∈ (seed + step total).dedup ↔ x ∈ seed ∨ ∃ w ∈ result, image w x := by
  rw [mem_dedup, mem_add, hstep]
  simp [h.same]

theorem InStep.body_eq_result (h : InStep image seed 0 result total)
    (hstep : RowWise step image) : (seed + step total).dedup = result := by
  refine (Nodup.ext (nodup_dedup _) h.nodup).mpr fun x => ?_
  rw [h.mem_body hstep]
  constructor
  · rintro (hseed | ⟨w, hw, hx⟩)
    · exact h.seed_mem x hseed
    · rcases h.reached w hw x hx with hres | ⟨v, hv, -⟩
      · exact hres
      · exact absurd hv (notMem_zero v)
  · exact h.produced x

def fresh (step : Multiset α → Multiset α) (working result : Multiset α) : Multiset α :=
  (step working).dedup.filter fun row => row ∉ result

theorem mem_fresh (hstep : RowWise step image) :
    x ∈ fresh step working result ↔ (∃ w ∈ working, image w x) ∧ x ∉ result := by
  rw [fresh, mem_filter, mem_dedup, hstep]

theorem InStep.mem_next (h : InStep image seed working result total)
    (hstep : RowWise step image) (x : α) :
    x ∈ result + fresh step working result ↔ x ∈ seed ∨ ∃ w ∈ result, image w x := by
  rw [mem_add, mem_fresh hstep]
  constructor
  · rintro (hx | ⟨⟨w, hw, hx⟩, -⟩)
    · exact h.produced x hx
    · exact .inr ⟨w, h.working_mem w hw, hx⟩
  · rintro (hseed | ⟨w, hw, hx⟩)
    · exact .inl (h.seed_mem x hseed)
    · by_cases hres : x ∈ result
      · exact .inl hres
      · rcases h.reached w hw x hx with hmem | hwork
        · exact absurd hmem hres
        · exact .inr ⟨hwork, hres⟩

theorem InStep.next (h : InStep image seed working result total) (hstep : RowWise step image) :
    InStep image seed (fresh step working result) (result + fresh step working result)
      (seed + step total).dedup where
  nodup := by
    refine nodup_add.mpr ⟨h.nodup, (nodup_dedup _).filter _, ?_⟩
    rw [disjoint_left]
    intro x hx hfr
    exact (mem_fresh hstep).mp hfr |>.2 hx
  working_mem x hx := mem_add.mpr (.inr hx)
  seed_mem x hx := mem_add.mpr (.inl (h.seed_mem x hx))
  produced x hx := by
    rcases (h.mem_next hstep x).mp hx with hseed | ⟨w, hw, himage⟩
    · exact .inl hseed
    · exact .inr ⟨w, mem_add.mpr (.inl hw), himage⟩
  reached w hw x hx := by
    rcases mem_add.mp hw with hold | hnew
    · exact .inl ((h.mem_next hstep x).mpr (.inr ⟨w, hold, hx⟩))
    · exact .inr ⟨w, hnew, hx⟩
  same x := (h.mem_body hstep x).trans (h.mem_next hstep x).symm

/-- A step that makes rows out of single rows may as well read all rows found so far. -/
theorem iterate_of_union (hstep : RowWise step image) (h : InStep image seed working result total)
    (hunion : union (fun bag => some (step bag)) rounds working result = some final) :
    Loop.iterate (fun bag => some (seed + step bag).dedup) (rounds + 1) total = some final := by
  induction rounds generalizing working result total with
  | zero => cases hunion
  | succ rounds ih =>
    rw [union] at hunion
    rw [Loop.iterate, bind_some]
    by_cases hempty : working = 0
    · -- nothing is new: the set is complete after one more round
      subst hempty
      obtain rfl : result = final := some.inj hunion
      have hbody := h.body_eq_result hstep
      rw [hbody]
      by_cases hsame : result = total
      · rw [if_pos hsame, hsame]
      · have hagain : InStep image seed 0 result result :=
          ⟨h.nodup, h.working_mem, h.seed_mem, h.produced, h.reached, fun _ => Iff.rfl⟩
        rw [if_neg hsame, Loop.iterate, bind_some, hagain.body_eq_result hstep, if_pos rfl]
    · rw [if_neg hempty] at hunion
      by_cases hsame : (seed + step total).dedup = total
      · rw [if_pos hsame]
        -- the set has not grown, so nothing was new in SQL's round either
        have hnext := h.next hstep
        have hfr : fresh step working result = 0 := by
          refine eq_zero_of_forall_notMem fun x hx => ?_
          have hall := (hnext.same x).mpr (mem_add.mpr (.inr hx))
          rw [hsame, h.same] at hall
          exact ((mem_fresh hstep).mp hx).2 hall
        have hfinal : result = final := by
          change union _ rounds (fresh step working result) (result + fresh step working result) =
            some final at hunion
          rw [hfr, add_zero] at hunion
          cases rounds with
          | zero => cases hunion
          | succ => exact some.inj hunion
        rw [← hfinal]
        have hnd : total.Nodup := hsame ▸ nodup_dedup _
        exact congrArg some ((Nodup.ext hnd h.nodup).mpr h.same)
      · rw [if_neg hsame]
        exact ih (h.next hstep) hunion

end Union

section

variable {final : Multiset α}

/-- SQL's rounds are the first rounds of the waves; they end where a wave is empty. -/
theorem waves_of_unionAll (h : unionAll step rounds working result = some final) :
    ∃ k, ∀ more, Loop.waves step (more + k) working result = Loop.waves step more 0 final := by
  induction rounds generalizing working result with
  | zero => cases h
  | succ rounds ih =>
    rw [unionAll] at h
    by_cases hempty : working = 0
    · rw [if_pos hempty] at h
      obtain rfl := some.inj h
      exact ⟨0, fun more => by rw [hempty, add_zero]⟩
    · rw [if_neg hempty, bind_eq_some_iff] at h
      obtain ⟨out, hout, hrest⟩ := h
      obtain ⟨k, hk⟩ := ih hrest
      refine ⟨k + 1, fun more => ?_⟩
      rw [← add_assoc, Loop.waves, hout, bind_some, if_neg fun hboth => hempty hboth.1]
      exact hk more

theorem waves_le (h : Loop.waves step rounds wave accumulator = some final) :
    accumulator ≤ final := by
  induction rounds generalizing wave accumulator with
  | zero => cases h
  | succ rounds ih =>
    rw [Loop.waves, bind_eq_some_iff] at h
    obtain ⟨next, -, hrest⟩ := h
    split at hrest
    · exact (some.inj hrest).le
    · exact (le_add_right _ _).trans (ih hrest)

theorem waves_empty_iff (hout : step 0 = some out) :
    Loop.waves step (rounds + 1) 0 final = some final ↔ out = 0 := by
  rw [Loop.waves, hout, bind_some]
  constructor
  · intro h
    by_contra hne
    rw [if_neg fun hboth => hne hboth.2] at h
    have hle := card_le_card (waves_le h)
    rw [card_add] at hle
    exact hne (card_eq_zero.mp (by omega))
  · rintro rfl
    rw [if_pos ⟨rfl, rfl⟩]

end

/-! The iteration on lists. -/
section

def listUnion (step : List α → Option (List α)) : ℕ → List α → List α → Option (List α)
  | 0, _, _ => none
  | rounds + 1, working, result =>
    if working = [] then some result
    else (step working).bind fun out =>
      let fresh := out.dedup.filter fun row => row ∉ result
      listUnion step rounds fresh (result ++ fresh)

theorem union_coe (hstep : ∀ bag : List α, step bag = (listStep bag).map ofList) (rounds : ℕ)
    (working result : List α) :
    union step rounds working result = (listUnion listStep rounds working result).map ofList := by
  induction rounds generalizing working result with
  | zero => rfl
  | succ rounds ih =>
    rw [union, listUnion, hstep]
    by_cases hempty : working = []
    · rw [if_pos hempty, if_pos (by simpa using hempty), map_some]
    · rw [if_neg hempty, if_neg (by simpa using hempty)]
      cases listStep working with
      | none => rfl
      | some =>
        simp [← ih]

end

end WorkingTable
open WorkingTable

/-! Plans whose rows come from single rows of the working table. -/
section Plans
variable {δ : Type}

/-- Whether the plan reads the working table of the recursion it stands in. -/
def Plan.readsWorking : Plan δ → Bool
  | .baseTable _ | .fixpoint _ _ _ _ => false
  | .recursiveRef _ => true
  | .unary _ input => input.readsWorking
  | .dual _ left right => left.readsWorking || right.readsWorking
  | .cteRef target => target.readsWorking

def UnaryRecipe.rowWise : UnaryRecipe δ → Bool
  | .filter _ | .project _ | .distinct => true
  | .aggregate _ _ _ _ | .topK _ _ _ _ | .distinctOn _ _ _ => false

def DualRecipe.leftRowWise : DualRecipe → Bool
  | .join _ _ _ _ => true
  | .union _ => false
  | .setOp intersect all => intersect || !all

def DualRecipe.rightRowWise : DualRecipe → Bool
  | .join .inner _ _ _ | .join .semi _ _ _ => true
  | .join .left _ _ _ | .join .anti _ _ _ => false
  | .union _ => false
  | .setOp intersect _ => intersect

def DualRecipe.isUnion : DualRecipe → Bool
  | .union _ => true
  | _ => false

/-- On the way from the root to the working table every recipe looks at one row at a time. -/
def Plan.rowWise : Plan δ → Bool
  | .baseTable _ | .fixpoint _ _ _ _ => false
  | .recursiveRef _ => true
  | .cteRef target => target.rowWise
  | .unary recipe input => recipe.rowWise && input.rowWise
  | .dual recipe left right =>
    (recipe.leftRowWise && left.rowWise && !right.readsWorking) ||
      (recipe.rightRowWise && !left.readsWorking && right.rowWise) ||
      (recipe.isUnion && left.rowWise && right.rowWise)

variable [DecidableEq δ] (values : Datums δ)

theorem eval_of_not_reads (h : plan.readsWorking = false) (working working') :
    eval values rounds tables plan working = eval values rounds tables plan working' := by
  induction plan with
  | baseTable | fixpoint => rfl
  | recursiveRef => cases h
  | unary recipe input ih => rw [eval, eval, ih h]
  | dual recipe left right ihl ihr =>
    rw [Plan.readsWorking, Bool.or_eq_false_iff] at h
    rw [eval, eval, ihl h.1, ihr h.2]
  | cteRef target ih => exact ih h

/-- Whether a step has a value does not depend on its working table. -/
theorem eval_isSome (plan working working') :
    (eval values rounds tables plan (some working)).isSome =
      (eval values rounds tables plan (some working')).isSome := by
  induction plan with
  | baseTable => rfl
  | fixpoint | recursiveRef => rfl
  | unary recipe input ih => rw [eval, eval, isSome_map, isSome_map, ih]
  | dual recipe left =>
    simp only [eval]
    cases hl : eval values rounds tables left (some working) <;>
      cases hl' : eval values rounds tables left (some working') <;>
      simp_all
  | cteRef target ih => exact ih

theorem mem_evalUnary (h : recipe.rowWise = true) (rows x) :
    x ∈ evalUnary values recipe rows ↔ ∃ row ∈ rows, x ∈ evalUnary values recipe {row} := by
  cases recipe with
  | filter =>
    simp only [evalUnary, mem_filter, mem_singleton]
    refine ⟨fun hx => ⟨x, hx.1, rfl, hx.2⟩, ?_⟩
    rintro ⟨_, hrow, rfl, hx⟩
    exact ⟨hrow, hx⟩
  | project => simp [evalUnary, eq_comm]
  | distinct => simp [evalUnary]
  | aggregate | topK | distinctOn => cases h

omit [DecidableEq δ] in
theorem mem_filter_single {p : Row δ → Prop} [DecidablePred p] {rows : Multiset (Row δ)}
    {x : Row δ} : x ∈ rows.filter p ↔ ∃ row ∈ rows, x ∈ ({row} : Multiset (Row δ)).filter p := by
  simp only [mem_filter, mem_singleton]
  exact ⟨fun hx => ⟨x, hx.1, rfl, hx.2⟩, fun ⟨_, hrow, heq, hx⟩ => ⟨heq ▸ hrow, hx⟩⟩

theorem mem_evalDual_left (h : recipe.leftRowWise = true) (left right x) :
    x ∈ evalDual values recipe left right ↔ ∃ l ∈ left, x ∈ evalDual values recipe {l} right := by
  cases recipe with
  | join kind =>
    cases kind with
    | inner => simp [evalDual]
    | left =>
      simp only [evalDual, mem_add, mem_bind, Multiset.mem_map, mem_filter, mem_singleton]
      grind
    | semi | anti => exact mem_filter_single
  | union => cases h
  | setOp intersect all =>
    cases intersect <;> cases all <;> simp_all [evalDual, DualRecipe.leftRowWise]

theorem mem_evalDual_right (h : recipe.rightRowWise = true) (left right x) :
    x ∈ evalDual values recipe left right ↔ ∃ r ∈ right, x ∈ evalDual values recipe left {r} := by
  cases recipe with
  | join kind =>
    cases kind with
    | inner =>
      simp only [evalDual, mem_bind, Multiset.mem_map, mem_filter, mem_singleton]
      grind
    | semi =>
      simp only [evalDual, mem_filter, mem_singleton, not_forall, exists_prop, exists_eq_left]
      tauto
    | left | anti => cases h
  | union => cases h
  | setOp intersect all =>
    cases intersect with
    | false => cases h
    | true => cases all <;> simp [evalDual, and_comm]

theorem mem_evalDual_union (h : recipe.isUnion = true) (left right x) :
    x ∈ evalDual values recipe left right ↔ x ∈ left ∨ x ∈ right := by
  cases recipe with
  | join | setOp => cases h
  | union all => cases all <;> simp [evalDual]

/-- Rows that come one by one from the rows of the working table. -/
def Imaged (F : Multiset (Row δ) → Option (Multiset (Row δ))) : Prop :=
  ∃ image : Row δ → Row δ → Prop, ∀ working out, F working = some out →
    ∀ x, x ∈ out ↔ ∃ w ∈ working, image w x

omit [DecidableEq δ] in
theorem Imaged.comp {F G : Multiset (Row δ) → Option (Multiset (Row δ))}
    {f : Multiset (Row δ) → Multiset (Row δ)} (h : Imaged F)
    (hf : ∀ rows x, x ∈ f rows ↔ ∃ row ∈ rows, x ∈ f {row})
    (hG : ∀ working out, G working = some out → ∃ rows, F working = some rows ∧ f rows = out) :
    Imaged G := by
  obtain ⟨image, himage⟩ := h
  refine ⟨fun w x => ∃ row, image w row ∧ x ∈ f {row}, fun working out hout x => ?_⟩
  obtain ⟨rows, hrows, rfl⟩ := hG working out hout
  rw [hf]
  grind

theorem imaged_eval (rounds : ℕ) (tables) (h : plan.rowWise = true) :
    Imaged fun working => eval values rounds tables plan (some working) := by
  induction plan with
  | baseTable | fixpoint => cases h
  | recursiveRef =>
    refine ⟨Eq, fun working out hout x => ?_⟩
    obtain rfl : working = out := some.inj hout
    simp
  | cteRef target ih => exact ih h
  | unary recipe input ih =>
    rw [Plan.rowWise, Bool.and_eq_true] at h
    exact (ih h.2).comp (mem_evalUnary values h.1) fun _ _ => map_eq_some_iff.mp
  | dual recipe left right ihl ihr =>
    simp only [Plan.rowWise, Bool.or_eq_true, Bool.and_eq_true, Bool.not_eq_true'] at h
    rcases h with (⟨⟨hrecipe, hleft⟩, hright⟩ | ⟨⟨hrecipe, hleft⟩, hright⟩) |
      ⟨⟨hrecipe, hleft⟩, hright⟩
    · -- the right input is the same in every round
      refine (ihl hleft).comp (fun rows => mem_evalDual_left values hrecipe rows
        ((eval values rounds tables right (some 0)).getD 0)) fun working out hout => ?_
      simp only [eval, bind_eq_some_iff, map_eq_some_iff] at hout
      obtain ⟨rows, hrows, other, hother, rfl⟩ := hout
      rw [eval_of_not_reads values hright _ (some 0)] at hother
      exact ⟨rows, hrows, by rw [hother, getD_some]⟩
    · refine (ihr hright).comp (mem_evalDual_right values hrecipe
        ((eval values rounds tables left (some 0)).getD 0)) fun working out hout => ?_
      simp only [eval, bind_eq_some_iff, map_eq_some_iff] at hout
      obtain ⟨other, hother, rows, hrows, rfl⟩ := hout
      rw [eval_of_not_reads values hleft _ (some 0)] at hother
      exact ⟨rows, hrows, by rw [hother, getD_some]⟩
    · obtain ⟨image, himage⟩ := ihl hleft
      obtain ⟨image', himage'⟩ := ihr hright
      refine ⟨fun w x => image w x ∨ image' w x, fun working out hout x => ?_⟩
      simp only [eval, bind_eq_some_iff, map_eq_some_iff] at hout
      obtain ⟨l, hl, r, hr, rfl⟩ := hout
      rw [mem_evalDual_union values hrecipe, himage working l hl, himage' working r hr]
      simp [and_or_left, exists_or]

end Plans

/-! Recursive queries. -/
section Recursion
variable {δ : Type} [DecidableEq δ] (values : Datums δ) (tables : TableId → Multiset (Row δ))

/-- SQL's value of a recursive query, if its rounds end within a bound. -/
def workingTable (rounds : ℕ) (unionAll : Bool) (base step : Plan δ) : Option (Multiset (Row δ)) :=
  (eval values rounds tables base none).bind fun seed =>
    if unionAll then
      WorkingTable.unionAll
        (fun working => eval values rounds tables step (some working)) rounds seed
        seed
    else
      union (fun working => eval values rounds tables step (some working)) rounds
        seed.dedup seed.dedup

theorem workingTable_coe (tables) (rounds : ℕ) (base step) :
    workingTable values (fun table => ↑(tables table)) rounds false base step =
      ((listEval values rounds tables base none).bind fun seed =>
        listUnion (fun working => listEval values rounds tables step (some working)) rounds
          seed.dedup seed.dedup).map ofList := by
  have hbase := eval_coe values rounds tables base none
  rw [map_none] at hbase
  rw [workingTable, hbase]
  cases listEval values rounds tables base none with
  | none => rfl
  | some seed =>
    exact union_coe (fun bag => eval_coe values rounds tables step (some bag)) rounds
      seed.dedup seed.dedup

/-- The dataflow of a plan settles on the rows `result`. -/
def Settles (plan : Plan δ) (result : Multiset (Row δ)) : Prop :=
  ∃ enough, ∀ rounds, enough ≤ rounds → eval values rounds tables plan none = some result

/-- The recursive term has a value, whatever its working table: recursions inside it end. -/
def StepDefined (step : Plan δ) : Prop :=
  ∃ rounds, (eval values rounds tables step (some 0)).isSome = true

def NothingFromNothing (step : Plan δ) : Prop :=
  ∀ rounds out, eval values rounds tables step (some 0) = some out → out = 0

variable {values tables}

/-- A step that is defined has one value for each working table, from some number of rounds on. -/
theorem StepDefined.exists_function (h : StepDefined values tables step) :
    ∃ (f : Multiset (Row δ) → Multiset (Row δ)) (enough : ℕ), ∀ rounds, enough ≤ rounds →
      ∀ working, eval values rounds tables step (some working) = some (f working) := by
  obtain ⟨enough, hsome⟩ := h
  have hall : ∀ working, ∃ out, eval values enough tables step (some working) = some out := by
    intro working
    rw [← isSome_iff_exists, eval_isSome values step working 0]
    exact hsome
  choose f hf using hall
  exact ⟨f, enough, fun rounds hrounds working => eval_mono values hrounds (hf working)⟩

theorem settles_of_listEval {tables : TableId → List (Row δ)}
    (h : listEval values rounds tables plan none = some rows) :
    Settles values (fun table => ↑(tables table)) plan rows := by
  have hval := eval_coe values rounds tables plan none
  rw [h] at hval
  exact ⟨rounds, fun more hmore => eval_mono values hmore hval⟩

theorem eval_unique (ha : eval values rounds tables plan working = some a)
    (hb : eval values more tables plan working = some b) : a = b := by
  have hmax := eval_mono values (le_max_left rounds more) ha
  have hmax' := eval_mono values (le_max_right rounds more) hb
  exact mem_unique hmax hmax'

theorem union_settles (hdef : StepDefined values tables step) (hrow : step.rowWise = true)
    (hsql : workingTable values tables rounds false base step = some result) :
    Settles values tables (.fixpoint cte false base step) result := by
  obtain ⟨f, enough, hf⟩ := hdef.exists_function
  obtain ⟨seed, hseed, hunion⟩ := bind_eq_some_iff.mp hsql
  obtain ⟨image, himage⟩ := imaged_eval values enough tables hrow
  have hstep : RowWise f image := fun working x =>
    himage working (f working) (hf enough le_rfl working) x
  have hloop := iterate_of_union hstep (InStep.start image seed)
    (union_mono (fun bag out hout => ?_) hunion)
  · refine ⟨max (max enough rounds) (rounds + 1), fun more hmore => ?_⟩
    have henough : enough ≤ more := by omega
    have hrounds : rounds ≤ more := by omega
    rw [eval, eval_mono values hrounds hseed]
    refine Loop.iterate_mono (fun bag out hout => ?_) (show rounds + 1 ≤ more by omega) hloop
    rw [hf more henough bag]
    exact hout
  · rw [← eval_unique hout (hf enough le_rfl bag)]

theorem unionAll_settles_iff (hdef : StepDefined values tables step)
    (hsql : workingTable values tables rounds true base step = some result) :
    Settles values tables (.fixpoint cte true base step) result ↔
      NothingFromNothing values tables step := by
  obtain ⟨f, enough, hf⟩ := hdef.exists_function
  obtain ⟨seed, hseed, hunionAll⟩ := bind_eq_some_iff.mp hsql
  have hrun : unionAll (fun bag => some (f bag)) rounds seed seed = some result := by
    refine unionAll_mono (fun bag out hout => ?_) hunionAll
    rw [← eval_unique hout (hf enough le_rfl bag)]
  obtain ⟨k, hwaves⟩ := waves_of_unionAll hrun
  -- from some bound on, the value is that of the waves after SQL's last round
  have hval : ∀ more, eval values (max enough rounds + more + 1 + k) tables
      (.fixpoint cte true base step) none = some result ↔ f 0 = 0 := by
    intro more
    have henough : enough ≤ max enough rounds + more + 1 + k := by omega
    have hrounds : rounds ≤ max enough rounds + more + 1 + k := by omega
    rw [eval, eval_mono values hrounds hseed, bind_some, if_pos rfl,
      funext fun bag => hf _ henough bag, hwaves]
    exact waves_empty_iff rfl
  have hnothing : NothingFromNothing values tables step ↔ f 0 = 0 := by
    constructor
    · exact fun h => h enough (f 0) (hf enough le_rfl 0)
    · intro h _ out hout
      rw [eval_unique hout (hf enough le_rfl 0), h]
  rw [hnothing]
  constructor
  · rintro ⟨bound, hbound⟩
    exact (hval bound).mp (hbound _ (by omega))
  · intro h
    refine ⟨max enough rounds + 1 + k, fun more hmore => ?_⟩
    obtain ⟨extra, rfl⟩ := Nat.exists_eq_add_of_le hmore
    have hsettled := (hval extra).mpr h
    rwa [show max enough rounds + extra + 1 + k = max enough rounds + 1 + k + extra by omega]
      at hsettled

end Recursion

end Palimpsest.Dataflow
