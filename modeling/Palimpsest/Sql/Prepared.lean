import Palimpsest.Foundation.Agreement
import Palimpsest.Foundation.Fallible
import Palimpsest.Sql.Catalog

/-! The types a prepared query's parameters are given by the places they are used at. -/
namespace Palimpsest.Sql.Prepared
open Agreement Fallible

/-- What one use site tells about a parameter. -/
structure Inference where
  ty : Option ColumnType
  list : Option Bool
  nameHint : Option String

/-- A place a placeholder is used at, with what the catalog knows of the column beside it. -/
inductive UseSite where
  | limit
  | offset
  | cast (dataType : String)
  | column (resolved : Except String (String × ColumnType)) (list : Bool)
  | like

/-- Why a position has no type; the conflicts are the source's two marker texts. -/
inductive Reason where
  | site (reason : String)
  | conflictList
  | conflictType (first second : ColumnType)

def UseSite.record : UseSite → Except Reason Inference
  | .limit => .ok ⟨some .int, some false, some "limit"⟩
  | .offset => .ok ⟨some .int, some false, some "offset"⟩
  | .cast dataType => match ColumnType.fromCastTarget dataType with
    | none => .error (.site s!"cast target '{dataType}' is unsupported")
    | some ty => .ok ⟨some ty, some false, none⟩
  | .column (.ok (name, ty)) list => .ok ⟨some ty, some list, some name⟩
  | .column (.error reason) _ => .error (.site reason)
  | .like => .ok ⟨some .text, some false, none⟩

def mergeSites (existing new : Inference) : Except Reason Inference := do
  if let (some a, some b) := (existing.list, new.list) then
    if a ≠ b then throw .conflictList
  if let (some a, some b) := (existing.ty, new.ty) then
    if a ≠ b then throw (.conflictType a b)
  return ⟨existing.ty <|> new.ty, existing.list <|> new.list, existing.nameHint <|> new.nameHint⟩

def mergeSlot : Option (Except Reason Inference) → Except Reason Inference → Except Reason Inference
  | none, site => site
  | some slot, .error _ => slot
  | some (.error _), .ok new => .ok new
  | some (.ok existing), .ok new => mergeSites existing new

def mergeInference (inferred : ℕ → Option (Except Reason Inference)) (use : ℕ × UseSite) :
    ℕ → Option (Except Reason Inference) :=
  Function.update inferred use.1 (some (mergeSlot (inferred use.1) use.2.record))

/-- `infer_param_types` over the use sites in the order they are visited. -/
def inferParamTypes (uses : List (ℕ × UseSite)) : ℕ → Option (Except Reason Inference) :=
  uses.foldl mergeInference fun _ => none

structure NamedArg where
  name : String
  nullable : Bool

structure ParamSpec where
  position : ℕ
  name : String
  ty : ColumnType
  list : Bool
  nullable : Bool

inductive RegisterError where
  | nonContiguousParams (missing max : ℕ)
  | paramTypeUnknown (param reason : String)
  | paramListConflict (param : String)
  | paramTypeConflict (param : String) (first second : ColumnType)
  | duplicateParamName (first second : ℕ) (name : String)

/-- Only these types are named in a conflict. -/
def leakTypeName (ty : ColumnType) : ColumnType :=
  if ty ∈ [.bool, .int, .float, .text, .timestamp, .uuid, .jsonb, .enum] then ty else .unknown

def resolveParam (uses : List (ℕ × UseSite)) (namedArgs : ℕ → Option NamedArg) (position : ℕ) :
    Except RegisterError ParamSpec :=
  let label := match namedArgs position with
    | none => s!"${position}"
    | some arg => s!"sqlc.arg({arg.name})"
  match inferParamTypes uses position with
  | none => .error (.paramTypeUnknown label
      ("the parameter is not used in a comparison, ANY(...), IN, BETWEEN, LIKE, " ++
        "LIMIT/OFFSET, or cast position"))
  | some (.error .conflictList) => .error (.paramListConflict label)
  | some (.error (.conflictType first second)) =>
    .error (.paramTypeConflict label (leakTypeName first) (leakTypeName second))
  | some (.error (.site reason)) => .error (.paramTypeUnknown label reason)
  | some (.ok ⟨none, _, _⟩) =>
    .error (.paramTypeUnknown label "no use site determines a concrete type")
  | some (.ok ⟨some ty, list, nameHint⟩) =>
    let (name, nullable) := match namedArgs position with
      | none => (nameHint.getD s!"arg{position}", false)
      | some arg => (arg.name, arg.nullable)
    .ok ⟨position, name, ty, list.getD false, nullable⟩

/-- A name that an earlier parameter was given gets its position as suffix. -/
def dedupe : List String → List ParamSpec → List ParamSpec
  | _, [] => []
  | seen, spec :: specs =>
    if spec.name ∈ seen then
      { spec with name := s!"{spec.name}_{spec.position}" } :: dedupe seen specs
    else spec :: dedupe (spec.name :: seen) specs

def checkDuplicateNames : List (String × ℕ) → List ParamSpec → Except RegisterError Unit
  | _, [] => .ok ()
  | seen, spec :: specs => match seen.lookup spec.name with
    | some first => .error (.duplicateParamName first spec.position spec.name)
    | none => checkDuplicateNames ((spec.name, spec.position) :: seen) specs

/-- `resolve_params` without declarations, for the placeholders' positions in increasing order. -/
def resolveParams (uses : List (ℕ × UseSite)) (namedArgs : ℕ → Option NamedArg)
    (positions : List ℕ) : Except RegisterError (List ParamSpec) :=
  let max := positions.getLast?.getD 0
  match (List.range' 1 max).find? (· ∉ positions) with
  | some missing => .error (.nonContiguousParams missing max)
  | none => do
    let specs := dedupe [] (← (List.range' 1 max).mapM (resolveParam uses namedArgs))
    checkDuplicateNames [] specs
    return specs

def inferredType (uses : List (ℕ × UseSite)) (namedArgs : ℕ → Option NamedArg) (position : ℕ) :
    Option (ColumnType × Bool) :=
  match resolveParam uses namedArgs position with
  | .ok spec => some (spec.ty, spec.list)
  | .error _ => none

/-- The type, list or not, that a use site requires. -/
def UseSite.requires (site : UseSite) : Option (ColumnType × Bool) :=
  match site.record with
  | .ok ⟨some ty, some list, _⟩ => some (ty, list)
  | _ => none

def required (position : ℕ) (uses : List (ℕ × UseSite)) : List (ColumnType × Bool) :=
  uses.filterMap fun use => if use.1 = position then use.2.requires else none

/-- What a position holds is a type with its list flag, or a failure. -/
inductive Typed : Option (Except Reason Inference) → Option (ColumnType × Bool) → Prop
  | vacant : Typed none none
  | failed (reason : Reason) : Typed (some (.error reason)) none
  | typed (ty list nameHint) : Typed (some (.ok ⟨some ty, some list, nameHint⟩)) (some (ty, list))

theorem UseSite.typed (site : UseSite) : Typed (some site.record) site.requires := by
  unfold UseSite.requires
  cases site with
  | cast dataType =>
    rw [UseSite.record]
    cases ColumnType.fromCastTarget dataType <;> constructor
  | column resolved => cases resolved <;> constructor
  | _ => constructor

theorem mergeSites_typed (ty list nameHint ty' list' nameHint') :
    Typed (some (mergeSites ⟨some ty, some list, nameHint⟩ ⟨some ty', some list', nameHint'⟩))
      (agree (some (ty, list)) (ty', list')) := by
  unfold mergeSites
  by_cases hlist : list = list'
  · by_cases hty : ty = ty'
    · simp [agree, hlist, hty]
      exact .typed ..
    · simp [agree, hlist, hty]
      exact .failed _
  · simp [agree, hlist]
    exact .failed _

theorem Typed.step (h : Typed slot c) (hsite : Typed (some site) c') :
    Typed (some (mergeSlot slot site)) (c'.elim c (agree c)) := by
  cases hsite with
  | failed reason =>
    cases h with
    | vacant => exact .failed reason
    | failed prev => exact .failed prev
    | typed ty list nameHint => exact .typed ty list nameHint
  | typed ty list nameHint =>
    cases h with
    | vacant | failed => exact .typed ty list nameHint
    | typed => exact mergeSites_typed ..

theorem Typed.foldl (uses) (h : Typed (inferred pos) c) :
    Typed (uses.foldl mergeInference inferred pos) ((required pos uses).foldl agree c) := by
  induction uses generalizing inferred c with
  | nil => exact h
  | cons use uses ih =>
    rw [List.foldl_cons, required, List.filterMap_cons]
    by_cases hplace : use.1 = pos
    · have hstep : Typed (mergeInference inferred use pos) (use.2.requires.elim c (agree c)) := by
        rw [mergeInference, hplace, Function.update_self]
        exact h.step use.2.typed
      rw [if_pos hplace]
      cases hrequires : use.2.requires <;> exact ih (by simpa [hrequires] using hstep)
    · rw [if_neg hplace]
      exact ih (by rwa [mergeInference, Function.update_of_ne (Ne.symm hplace)])

theorem inferredType_eq (uses namedArgs pos) :
    inferredType uses namedArgs pos = (required pos uses).foldl agree none := by
  have htyped : Typed (inferParamTypes uses pos) _ := Typed.foldl uses .vacant
  unfold inferredType resolveParam
  generalize inferParamTypes uses pos = slot,
    (required pos uses).foldl agree none = c at htyped
  cases htyped with
  | failed reason => cases reason <;> rfl
  | _ => rfl

theorem inferredType_of_resolveParams (h : resolveParams uses namedArgs positions = .ok specs)
    (hplace : pos ∈ List.range' 1 (positions.getLast?.getD 0)) :
    inferredType uses namedArgs pos ≠ none := by
  simp only [resolveParams] at h
  split at h
  · cases h
  · obtain ⟨resolved, hresolved, -⟩ := bind_ok h
    obtain ⟨spec, hspec⟩ := ok_of_mapM hresolved hplace
    simp [inferredType, hspec]

/-- The uses fix a parameter's type whatever their order, and incompatible ones refuse it, when they
all agree or are pairwise different and even in number. -/
theorem inferred_in_any_order_iff (uses : List (ℕ × UseSite)) (namedArgs : ℕ → Option NamedArg)
    (positions : List ℕ) : (∀ visited, visited.Perm uses →
      (∀ position, inferredType visited namedArgs position = inferredType uses namedArgs position) ∧
      ∀ position ∈ List.range' 1 (positions.getLast?.getD 0),
        (∃ a ∈ required position uses, ∃ b ∈ required position uses, a ≠ b) →
          ∀ specs, resolveParams visited namedArgs positions ≠ .ok specs) ↔
      ∀ position, (∀ a ∈ required position uses, ∀ b ∈ required position uses, a = b) ∨
        (required position uses).Nodup ∧ Even (required position uses).length := by
  simp only [inferredType_eq]
  constructor
  · exact fun h position => agree_perm_iff.mp fun visited hperm => (h visited hperm).1 position
  · intro h visited hperm
    have hsame position := agree_perm_iff.mpr (h position) visited hperm
    refine ⟨hsame, fun position hplace ⟨a, ha, b, hb, hne⟩ specs hspecs => ?_⟩
    refine inferredType_of_resolveParams hspecs hplace ?_
    rcases h position with hagree | ⟨hnd, heven⟩
    · exact absurd (hagree a ha b hb) hne
    · rw [inferredType_eq]
      exact (hsame position).trans ((foldl_agree_nodup hnd).mpr heven)

def intTextInt : List (ℕ × UseSite) :=
  [(1, .column (.ok ("id", .int)) false), (1, .like), (1, .column (.ok ("id", .int)) false)]

/-- A third use hides the conflict of the first two, in this order only. -/
theorem conflict_overwritten :
    resolveParams intTextInt (fun _ => none) [1] = .ok [⟨1, "id", .int, false, false⟩] ∧
      inferredType (intTextInt.rotate 2) (fun _ => none) 1 = none :=
  ⟨rfl, rfl⟩

end Palimpsest.Sql.Prepared
