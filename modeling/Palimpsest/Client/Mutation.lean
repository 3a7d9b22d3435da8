import Palimpsest.Foundation.Fallible

/-! Mirrored tables of the client, and the mutations an application stages on them. -/
namespace Palimpsest.Client
open Fallible

abbrev WireRow (δ : Type) := List δ

abbrev PrimaryKey (δ : Type) := List δ

structure Schema where
  columns : List String
  primaryKeyColumns : List ℕ
deriving Repr, DecidableEq

structure TableSpec where
  name : String
  schema : Schema
deriving Repr, DecidableEq

namespace TableSpec
variable {δ : Type}

/-- Without a primary key every column identifies the row. -/
def pkIndices (spec : TableSpec) : List ℕ :=
  if spec.schema.primaryKeyColumns = [] then List.range spec.schema.columns.length
  else spec.schema.primaryKeyColumns

def keyOf (spec : TableSpec) (row : WireRow δ) : PrimaryKey δ :=
  spec.pkIndices.filterMap fun index => row[index]?

def columnIndex (spec : TableSpec) (name : String) : Option ℕ := spec.schema.columns.idxOf? name

def columnName (spec : TableSpec) (index : ℕ) : String := (spec.schema.columns[index]?).getD ""

end TableSpec

inductive Mutation (δ : Type) where
  | insert (table : String) (values : List (String × δ))
  | update (table : String) (key set : List (String × δ))
  | delete (table : String) (key : List (String × δ))
deriving Repr, DecidableEq

def Mutation.table {δ : Type} : Mutation δ → String
  | .insert table _ => table
  | .update table _ _ => table
  | .delete table _ => table

/-- A staged mutation by column indices. Of an insert, `setColumns` are the columns the caller
gave. -/
inductive ResolvedKind (δ : Type) where
  | insert (row : WireRow δ) (setColumns : List ℕ)
  | update (set : List (ℕ × δ))
  | delete
deriving Repr, DecidableEq

inductive MutateError where
  | unknownColumn (name : String)
  | missingKeyColumn (name : String)
  | keyColumnUpdate (name : String)
deriving Repr, DecidableEq

section Resolve
variable {δ : Type} (spec : TableSpec)

/-- Columns not listed stay `NULL`. -/
def fillColumns : List (String × δ) → WireRow δ → List ℕ → Except MutateError (WireRow δ × List ℕ)
  | [], row, setColumns => .ok (row, setColumns)
  | (name, value) :: rest, row, setColumns =>
    match spec.columnIndex name with
    | none => .error (.unknownColumn name)
    | some index => fillColumns rest (row.set index value) (setColumns ++ [index])

def resolveSet : List (String × δ) → Except MutateError (List (ℕ × δ))
  | [] => .ok []
  | (name, value) :: rest =>
    match spec.columnIndex name with
    | none => .error (.unknownColumn name)
    | some index =>
      if index ∈ spec.pkIndices then .error (.keyColumnUpdate name)
      else (resolveSet rest).map ((index, value) :: ·)

def resolveKey (key : List (String × δ)) : Except MutateError (PrimaryKey δ) :=
  match key.find? fun entry => (spec.columnIndex entry.1).isNone with
  | some (name, _) => .error (.unknownColumn name)
  | none =>
    spec.pkIndices.mapM fun index =>
      match key.find? fun entry => entry.1 == spec.columnName index with
      | some (_, value) => .ok value
      | none => .error (.missingKeyColumn (spec.columnName index))

def resolveMutation (null : δ) : Mutation δ → Except MutateError (PrimaryKey δ × ResolvedKind δ)
  | .insert _ values => do
    let (row, setColumns) ← fillColumns spec values
      (List.replicate spec.schema.columns.length null) []
    match spec.pkIndices.find? fun index => index ∉ setColumns with
    | some index => .error (.missingKeyColumn (spec.columnName index))
    | none => .ok (spec.keyOf row, .insert row setColumns)
  | .update _ key set => do
    let key ← resolveKey spec key
    let set ← resolveSet spec set
    .ok (key, .update set)
  | .delete _ key => do
    let key ← resolveKey spec key
    .ok (key, .delete)

/-- What a resolved mutation does stays under its key. -/
def ResolvedKind.Fits (key : PrimaryKey δ) : ResolvedKind δ → Prop
  | .insert row _ => spec.keyOf row = key
  | .update set => ∀ entry ∈ set, entry.1 ∉ spec.pkIndices
  | .delete => True

variable {spec}

theorem resolveSet_ok {set : List (String × δ)} (h : resolveSet spec set = .ok resolved) :
    ∀ entry ∈ resolved, entry.1 ∉ spec.pkIndices := by
  induction set generalizing resolved with
  | nil =>
    cases h
    exact fun _ hmem => absurd hmem List.not_mem_nil
  | cons first rest ih =>
    unfold resolveSet at h
    split at h
    · cases h
    · next index hidx =>
      split at h
      · cases h
      · next hfree =>
        cases hrest : resolveSet spec rest with
        | error =>
          rw [hrest] at h
          cases h
        | ok =>
          rw [hrest] at h
          cases h
          exact List.forall_mem_cons.mpr ⟨hfree, ih hrest⟩

theorem resolveMutation_fits {null : δ} (h : resolveMutation spec null mutation = .ok (key, kind)) :
    kind.Fits spec key := by
  cases mutation with
  | insert =>
    obtain ⟨⟨row, setColumns⟩, -, h⟩ := bind_ok h
    dsimp only at h
    split at h
    · cases h
    · cases h
      rfl
  | update =>
    obtain ⟨resolvedKey, -, h⟩ := bind_ok h
    obtain ⟨resolved, hresolved, ⟨⟩⟩ := bind_ok h
    exact resolveSet_ok hresolved
  | delete =>
    obtain ⟨resolvedKey, -, ⟨⟩⟩ := bind_ok h
    trivial

theorem keyOf_set (h : index ∉ spec.pkIndices) (value : δ) :
    spec.keyOf (row.set index value) = spec.keyOf row := by
  refine List.filterMap_congr fun other hother => ?_
  have hne : index ≠ other := fun heq => h (heq ▸ hother)
  exact List.getElem?_set_ne hne

end Resolve

end Palimpsest.Client
