import Palimpsest.Foundation.DebugText
import Palimpsest.Permissions.User

/-! Permission rules, the errors of the permission layer and user contexts. -/
namespace Palimpsest.Permissions
open Sql List

inductive PermissionError where
  | unknownUserField (rule field : String)
  | unknownColumn (rule table column : String)
  | unknownTable (rule table : String)
  | duplicateRuleName (name : String)
  | ambiguousRule (first second table predicate : String)
  | malformedUserReference (rule fragment : String)
  | missingUserValue (field : String)
  | predicateTooDeep (rule : String) (depth limit : ℕ)
  | invalidUserValue (field reason : String)
  | userValueTypeMismatch (field : String) (expected actual : ColumnType)
  | invalidConfig (message : String)
  | ruleSql (rule table source : String)
deriving Repr, DecidableEq

/-- A name in an error message; its characters are taken to be printable. -/
def debugString (s : String) : String := String.ofList (DebugText.string (fun _ => true) s)

inductive Mode where
  | rowVisibility
  | subscribe
  | both
deriving Repr, DecidableEq

def Mode.affectsVisibility : Mode → Bool
  | .rowVisibility | .both => true
  | .subscribe => false

def Mode.affectsSubscribe : Mode → Bool
  | .subscribe | .both => true
  | .rowVisibility => false

structure LatestBy where
  key : List String
  version : String
deriving Repr, DecidableEq

structure PermissionRule where
  name : String
  table : String
  predicate : String
  mode : Mode
  latest : Option LatestBy
deriving Repr, DecidableEq

/-- A predicate text with its `$user` references encoded as sentinels. -/
structure CompiledPredicate where
  canonical : String
  userFields : List String
deriving Repr, DecidableEq

structure CompiledRule where
  name : String
  table : String
  mode : Mode
  predicate : CompiledPredicate
  latest : Option LatestBy
deriving Repr, DecidableEq

structure UserContextSchema where
  fields : List (String × ColumnType)
deriving Repr, DecidableEq

namespace UserContextSchema

def field (s : UserContextSchema) (name : String) : Option ColumnType := s.fields.lookup name

def contains (s : UserContextSchema) (name : String) : Bool := (s.field name).isSome

end UserContextSchema

/-- Field values in key order, one for each key. -/
structure UserContext where
  values : List (String × UserValue)
  sorted : (values.map Prod.fst).Pairwise (· < ·)

namespace UserContext

def get (c : UserContext) (field : String) : Option UserValue := c.values.lookup field

def empty : UserContext := ⟨[], List.Pairwise.nil⟩

def insertEntry (field : String) (value : UserValue) :
    List (String × UserValue) → List (String × UserValue)
  | [] => [(field, value)]
  | entry :: entries =>
    if field < entry.1 then (field, value) :: entry :: entries
    else if field = entry.1 then (field, value) :: entries
    else entry :: insertEntry field value entries

theorem mem_insertEntry (h : entry ∈ insertEntry field value entries) :
    entry.1 = field ∨ entry ∈ entries := by
  induction entries with
  | nil => exact .inl (by rw [mem_singleton.mp h])
  | cons first entries ih =>
    unfold insertEntry at h
    split at h
    · rcases mem_cons.mp h with rfl | hrest
      · exact .inl rfl
      · exact .inr hrest
    · split at h
      · rcases mem_cons.mp h with rfl | hrest
        · exact .inl rfl
        · exact .inr (mem_cons_of_mem _ hrest)
      · rcases mem_cons.mp h with rfl | hrest
        · exact .inr mem_cons_self
        · exact (ih hrest).imp_right (mem_cons_of_mem _)

theorem insertEntry_sorted (field value) (h : (ents.map Prod.fst).Pairwise (· < ·)) :
    ((insertEntry field value ents).map Prod.fst).Pairwise (· < ·) := by
  induction ents with
  | nil => exact pairwise_singleton _ _
  | cons first ents ih =>
    rw [map_cons, pairwise_cons] at h
    unfold insertEntry
    split
    next hlt =>
      rw [map_cons, pairwise_cons]
      refine ⟨?_, pairwise_cons.mpr h⟩
      intro name hname
      rcases mem_cons.mp hname with rfl | hrest
      · exact hlt
      · exact hlt.trans (h.1 name hrest)
    next hge =>
      split
      next heq =>
        rw [map_cons, pairwise_cons, heq]
        exact h
      next hne =>
        rw [map_cons, pairwise_cons]
        refine ⟨?_, ih h.2⟩
        refine forall_mem_map.mpr fun entry hentry => ?_
        rcases mem_insertEntry hentry with heq | hold
        · rw [heq]
          exact lt_of_le_of_ne (not_lt.mp hge) (Ne.symm hne)
        · exact h.1 entry.1 (mem_map_of_mem hold)

def insert (c : UserContext) (field : String) (value : UserValue) : UserContext :=
  ⟨insertEntry field value c.values, insertEntry_sorted field value c.sorted⟩

theorem lookup_cons_ite (name) (entry : String × β) (ents) : (entry :: ents).lookup name =
      if name = entry.1 then some entry.2 else ents.lookup name := by
  rw [lookup_cons]
  by_cases hname : name = entry.1
  · simp [hname]
  · simp [beq_eq_false_iff_ne.mpr hname, hname]

theorem get_insert (c : UserContext) (field value name) :
    (c.insert field value).get name = if name = field then some value else c.get name := by
  obtain ⟨ents, hsort⟩ := c
  show (insertEntry field value ents).lookup name = if name = field then some value
    else ents.lookup name
  clear hsort
  induction ents with
  | nil => exact lookup_cons_ite name (field, value) []
  | cons first ents ih =>
    unfold insertEntry
    split
    next hlt => exact lookup_cons_ite name (field, value) (first :: ents)
    next hge =>
      split
      next heq =>
        rw [lookup_cons_ite, lookup_cons_ite, ← heq]
        split <;> rfl
      next hne =>
        rw [lookup_cons_ite, lookup_cons_ite, ih]
        by_cases hfirst : name = first.1
        · have hname : name ≠ field := fun h => hne (h.symm.trans hfirst)
          simp [hfirst, hfirst ▸ hname]
        · simp [hfirst]

def notAUuid (field raw : String) : PermissionError :=
  .invalidUserValue field ("'" ++ raw ++ "' is not a valid UUID")

def validateScalar (field : String) (value : UserValue) (expected : Option ColumnType) :
    Except PermissionError Unit := do
  if let .uuid raw := value then
    if (normalizedUuid raw).isNone then throw (notAUuid field raw)
  let some expected := expected | return
  if let .null := value then return
  let actual := value.columnType
  let isJsonb := match value with
    | .jsonb _ => true
    | _ => false
  if !expected.isCompatibleWith actual || (expected == .jsonb && !isJsonb) then
    throw (.userValueTypeMismatch field expected actual)
  if expected == .uuid then
    if let .text raw := value then
      if (normalizedUuid raw).isNone then throw (notAUuid field raw)

def validateItem (field : String) (expected : Option ColumnType) :
    UserValue → Except PermissionError Unit
  | .list _ => throw (.invalidUserValue field "nested lists are not supported")
  | .jsonb _ => throw (.invalidUserValue field "jsonb documents inside lists are not supported")
  | item => validateScalar field item expected

def validateField (schema : UserContextSchema) (field : String) (value : UserValue) :
    Except PermissionError Unit :=
  match value with
  | .list items => items.forM (validateItem field (schema.field field))
  | value => validateScalar field value (schema.field field)

def validate (c : UserContext) (schema : UserContextSchema) : Except PermissionError Unit :=
  c.values.forM fun p => validateField schema p.1 p.2

end UserContext

/-- The user of the small runs below: one declared field. -/
def userSeven : UserContext := ⟨[("id", .int 7)], pairwise_singleton _ _⟩

/-- The rule of the small runs below: users see the posts they wrote. -/
def ownPosts : List CompiledRule :=
  [⟨"own", "posts", .rowVisibility, ⟨"author_id = __palimpsest_user_id__", ["id"]⟩, none⟩]

end Palimpsest.Permissions
