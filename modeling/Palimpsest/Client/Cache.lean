import Palimpsest.Client.Reconciler

/-! The rows a subscription holds on the client, by the key columns that its schema names. -/
namespace Palimpsest.Client
open Function List

variable {δ : Type}

/-- Key columns that a row does not have are left out. -/
def keyBy (pkColumns : List ℕ) (row : WireRow δ) : PrimaryKey δ :=
  pkColumns.filterMap fun index => row[index]?

structure LocalCache (δ : Type) where
  pkColumns : List ℕ
  rows : PrimaryKey δ → Option (WireRow δ)
  keyed : ∀ key, ∀ row ∈ rows key, keyBy pkColumns row = key

/-- The elementary changes of a cache: a row put under its key, or whatever is under the key of a
row taken out. -/
inductive CacheEdit (δ : Type) where
  | insert (row : WireRow δ)
  | remove (row : WireRow δ)
deriving Repr, DecidableEq

def CacheEdit.row : CacheEdit δ → WireRow δ
  | .insert row => row
  | .remove row => row

def WireRowChange.edits (change : WireRowChange δ) : List (CacheEdit δ) :=
  match change.op with
  | .initial | .insert => change.new.toList.map .insert
  | .update => change.old.toList.map .remove ++ change.new.toList.map .insert
  | .delete => change.old.toList.map .remove
  | .unspecified => []

namespace LocalCache

def empty (pkColumns : List ℕ) : LocalCache δ := ⟨pkColumns, fun _ => none, nofun⟩

/-- The cache of a subscription that has not been accepted has no key columns. -/
def default : LocalCache δ := empty []

def forSchema (schema : Schema) : LocalCache δ := empty schema.primaryKeyColumns

def key (cache : LocalCache δ) (row : WireRow δ) : PrimaryKey δ := keyBy cache.pkColumns row

section Apply
variable [DecidableEq δ]
variable {key : PrimaryKey δ} {cache : LocalCache δ}

def edit (cache : LocalCache δ) (change : CacheEdit δ) : LocalCache δ where
  pkColumns := cache.pkColumns
  rows := update cache.rows (cache.key change.row)
    (match change with
    | .insert row => some row
    | .remove _ => none)
  keyed key row hrow := by
    rcases eq_or_ne key (cache.key change.row) with rfl | hkey
    · rw [update_self] at hrow
      cases change with
      | insert =>
        cases hrow
        rfl
      | remove => cases hrow
    · rw [update_of_ne hkey] at hrow
      exact cache.keyed key row hrow

def editAll (cache : LocalCache δ) (edits : List (CacheEdit δ)) : LocalCache δ :=
  edits.foldl edit cache

def apply (cache : LocalCache δ) (op : DiffOp) (rows : List (WireRow δ)) : LocalCache δ :=
  match op with
  | .initial | .insert | .update => cache.editAll (rows.map .insert)
  | .delete => cache.editAll (rows.map .remove)
  | .unspecified => cache

def applyTransaction (cache : LocalCache δ) (changes : List (WireRowChange δ)) : LocalCache δ :=
  changes.foldl (fun cache change => cache.editAll change.edits) cache

theorem applyTransaction_eq (cache : LocalCache δ) (changes) :
    cache.applyTransaction changes = cache.editAll (changes.flatMap WireRowChange.edits) := by
  unfold applyTransaction editAll
  rw [foldl_flatMap]

theorem editAll_append (cache : LocalCache δ) (edits edits') :
    cache.editAll (edits ++ edits') = (cache.editAll edits).editAll edits' :=
  foldl_append

@[simp]
theorem pkColumns_editAll (cache : LocalCache δ) (edits) :
    (cache.editAll edits).pkColumns = cache.pkColumns := by
  induction edits generalizing cache with
  | nil => rfl
  | cons first rest ih => exact ih (cache.edit first)

@[simp]
theorem key_editAll (cache : LocalCache δ) (edits row) :
    (cache.editAll edits).key row = cache.key row := by
  simp [key]

@[simp]
theorem pkColumns_applyTransaction (cache : LocalCache δ) (changes) :
    (cache.applyTransaction changes).pkColumns = cache.pkColumns := by
  rw [applyTransaction_eq, pkColumns_editAll]

theorem rows_editAll_of_untouched (h : ∀ change ∈ edits, cache.key change.row ≠ key) :
    (cache.editAll edits).rows key = cache.rows key := by
  induction edits generalizing cache with
  | nil => rfl
  | cons first rest ih =>
    obtain ⟨hfirst, hrest⟩ := forall_mem_cons.mp h
    exact (@ih (cache.edit first) hrest).trans (update_of_ne hfirst.symm ..)

theorem rows_editAll_congr {cache' : LocalCache δ} (hcols : cache.pkColumns = cache'.pkColumns)
    (hrows : cache.rows key = cache'.rows key) (edits) :
    (cache.editAll edits).rows key = (cache'.editAll edits).rows key := by
  induction edits generalizing cache cache' with
  | nil => exact hrows
  | cons first rest ih =>
    refine @ih (cache.edit first) (cache'.edit first) hcols ?_
    have hkey : cache.key first.row = cache'.key first.row := by simp [LocalCache.key, hcols]
    simp only [edit]
    rw [hkey]
    by_cases hself : key = cache'.key first.row
    · rw [hself, update_self, update_self]
    · rw [update_of_ne hself, update_of_ne hself, hrows]

/-- What is under an edited key afterwards does not depend on what was there before. -/
theorem rows_editAll_of_touched {cache' : LocalCache δ} (hcols : cache.pkColumns = cache'.pkColumns)
    (h : ∃ change ∈ edits, cache.key change.row = key) :
    (cache.editAll edits).rows key = (cache'.editAll edits).rows key := by
  induction edits generalizing cache cache' with
  | nil => exact absurd h (by simp)
  | cons first rest ih =>
    have hkey : cache.key first.row = cache'.key first.row := by simp [LocalCache.key, hcols]
    by_cases hrest : ∃ change ∈ rest, cache.key change.row = key
    · exact @ih (cache.edit first) (cache'.edit first) hcols hrest
    · obtain ⟨change, hchange, hself⟩ := h
      obtain rfl : change = first := by
        exact (mem_cons.mp hchange).elim id fun hlater => absurd ⟨change, hlater, hself⟩ hrest
      have hrows : (cache.edit change).rows key = (cache'.edit change).rows key := by
        rw [← hself]
        simp only [edit]
        rw [hkey, update_self, update_self]
      have hcols : (cache.edit change).pkColumns = (cache'.edit change).pkColumns := hcols
      exact rows_editAll_congr hcols hrows rest

theorem rows_editAll_insert {rows : List (WireRow δ)} (h : ∃ row ∈ rows, cache.key row = key) :
    ∃ row ∈ rows, cache.key row = key ∧ (cache.editAll (rows.map .insert)).rows key = some row := by
  induction rows generalizing cache with
  | nil => exact absurd h (by simp)
  | cons first rest ih =>
    by_cases hrest : ∃ row ∈ rest, cache.key row = key
    · obtain ⟨row, hrow, hkey, hget⟩ := @ih (cache.edit (.insert first)) hrest
      exact ⟨row, mem_cons_of_mem _ hrow, hkey, hget⟩
    · obtain ⟨row, hrow, hkey⟩ := h
      obtain rfl : row = first := by
        exact (mem_cons.mp hrow).elim id fun hlater => absurd ⟨row, hlater, hkey⟩ hrest
      refine ⟨row, hrow, hkey, ?_⟩
      have huntouched : ((cache.edit (.insert row)).editAll (rest.map .insert)).rows key =
          (cache.edit (.insert row)).rows key := by
        refine rows_editAll_of_untouched fun change hchange heq => ?_
        obtain ⟨later, hlater, rfl⟩ := mem_map.mp hchange
        exact hrest ⟨later, hlater, heq⟩
      refine huntouched.trans ?_
      rw [← hkey]
      exact update_self ..

/-- After rows are taken out, there is nothing under the key of one of them, whatever was there. -/
theorem rows_editAll_remove {rows : List (WireRow δ)}
    (h : cache.rows key = none ∨ ∃ row ∈ rows, cache.key row = key) :
    (cache.editAll (rows.map .remove)).rows key = none := by
  induction rows generalizing cache with
  | nil =>
    rcases h with hnone | ⟨row, hrow, -⟩
    · exact hnone
    · cases hrow
  | cons first rest ih =>
    refine @ih (cache.edit (.remove first)) ?_
    by_cases hfirst : cache.key first = key
    · left
      rw [← hfirst]
      exact update_self ..
    · rcases h with hnone | ⟨row, hrow, hkey⟩
      · left
        exact (update_of_ne (Ne.symm hfirst) ..).trans hnone
      · right
        rcases mem_cons.mp hrow with rfl | hlater
        · exact absurd hkey hfirst
        · exact ⟨row, hlater, hkey⟩

end Apply
variable {cache : LocalCache δ}

/-- The cache shows exactly the rows of a bag. -/
def Holds (cache : LocalCache δ) (bag : List (WireRow δ)) : Prop :=
  ∀ row, (∃ key, cache.rows key = some row) ↔ row ∈ bag

theorem holds_iff : cache.Holds bag ↔ ∀ row, cache.rows (cache.key row) = some row ↔ row ∈ bag := by
  have hown : ∀ row, (∃ key, cache.rows key = some row) ↔
      cache.rows (cache.key row) = some row := by
    refine fun row => ⟨?_, fun h => ⟨_, h⟩⟩
    rintro ⟨key, hkey⟩
    rw [LocalCache.key, cache.keyed key row hkey]
    exact hkey
  exact forall_congr' fun row => iff_congr (hown row) .rfl

def KeysApart (pkColumns : List ℕ) (bag : List (WireRow δ)) : Prop :=
  ∀ row ∈ bag, ∀ row' ∈ bag, keyBy pkColumns row = keyBy pkColumns row' → row = row'

theorem Holds.keysApart (h : cache.Holds bag) : KeysApart cache.pkColumns bag := by
  intro row hrow row' hrow' heq
  have hget := (holds_iff.mp h row).mpr hrow
  have hkey : cache.key row = cache.key row' := heq
  rw [hkey, (holds_iff.mp h row').mpr hrow'] at hget
  exact (Option.some.inj hget).symm

theorem Holds.rows_eq {cache' : LocalCache δ} (hcols : cache.pkColumns = cache'.pkColumns)
    (h : cache.Holds bag) (h' : cache'.Holds bag) (key) : cache.rows key = cache'.rows key := by
  have hget : ∀ {cache cache' : LocalCache δ}, cache.pkColumns = cache'.pkColumns →
      cache.Holds bag → cache'.Holds bag → ∀ row, cache.rows key = some row →
        cache'.rows key = some row := by
    intro cache cache' hcols h h' row hrow
    have hmem := (h row).mp ⟨key, hrow⟩
    have hkey : cache'.key row = key := by
      rw [LocalCache.key, ← hcols]
      exact cache.keyed key row hrow
    rw [← hkey]
    exact (holds_iff.mp h' row).mpr hmem
  cases hrow : cache.rows key with
  | some row => exact (hget hcols h h' row hrow).symm
  | none =>
    cases hrow' : cache'.rows key with
    | none => rfl
    | some row => exact absurd (hrow.symm.trans (hget hcols.symm h' h row hrow')) nofun

theorem Holds.of_rows_eq {cache' : LocalCache δ} (h : cache.Holds bag)
    (hrows : ∀ key, cache'.rows key = cache.rows key) : cache'.Holds bag := by
  intro row
  simp only [hrows]
  exact h row

theorem pkColumns_initial [DecidableEq δ] (schema) (rows : List (WireRow δ)) :
    ((forSchema schema).apply .initial rows).pkColumns = schema.primaryKeyColumns :=
  pkColumns_editAll _ _

/-- A fresh cache shows the rows of an initial message exactly when their keys tell them apart. -/
theorem holds_initial_iff [DecidableEq δ] (schema) (bag : List (WireRow δ)) :
    ((forSchema schema).apply .initial bag).Holds bag ↔ KeysApart schema.primaryKeyColumns bag := by
  refine ⟨fun h => pkColumns_initial schema bag ▸ h.keysApart, fun h => holds_iff.mpr fun row => ?_⟩
  rw [apply, key_editAll]
  by_cases hkey : ∃ other ∈ bag, (forSchema schema).key other = (forSchema schema).key row
  · obtain ⟨found, hfound, hsame, hget⟩ := rows_editAll_insert hkey
    rw [hget, Option.some.injEq]
    constructor
    · rintro rfl
      exact hfound
    · exact fun hrow => h _ hfound _ hrow hsame
  · have huntouched : ((forSchema schema).editAll (bag.map .insert)).rows
        ((forSchema schema).key row) = none := by
      refine rows_editAll_of_untouched fun edit hedit heq => hkey ?_
      obtain ⟨other, hother, rfl⟩ := mem_map.mp hedit
      exact ⟨other, hother, heq⟩
    rw [huntouched]
    exact ⟨nofun, fun hrow => absurd ⟨row, hrow, rfl⟩ hkey⟩

end LocalCache

end Palimpsest.Client
