import Palimpsest.Client.Cache
import Palimpsest.Server.Pairing

/-! What a client's cache holds when the output of a query evolves on the server: every transaction
arrives as the paired changes of the output. -/
namespace Palimpsest.Client
open Dataflow Server List LocalCache

variable {δ : Type}

/-- The schema advertised for a compiled plan. Its key is the first column, whatever the plan
computes. -/
def schemaDefinitionFromPlan (outputColumns : List String) : Schema := ⟨outputColumns, [0]⟩

section

def encodeOp : Server.DiffOp → DiffOp
  | .initial => .initial
  | .insert => .insert
  | .update => .update
  | .delete => .delete

def encodeChange (change : RowChange δ) : WireRowChange δ :=
  ⟨encodeOp change.op, change.old, change.new⟩

def editsOf (change : RowChange δ) : List (CacheEdit δ) := (encodeChange change).edits

theorem row_mem_of_editsOf {edit : CacheEdit δ} (h : edit ∈ editsOf change) :
    edit.row ∈ change.rows := by
  obtain ⟨op, old, new⟩ := change
  have hold : edit ∈ old.toList.map CacheEdit.remove → edit.row ∈ old.toList ++ new.toList := by
    intro h
    obtain ⟨row, hrow, rfl⟩ := mem_map.mp h
    exact mem_append_left _ hrow
  have hnew : edit ∈ new.toList.map CacheEdit.insert → edit.row ∈ old.toList ++ new.toList := by
    intro h
    obtain ⟨row, hrow, rfl⟩ := mem_map.mp h
    exact mem_append_right _ hrow
  cases op with
  | initial | insert => exact hnew h
  | update => exact (mem_append.mp h).elim hold hnew
  | delete => exact hold h

theorem editsOf_inserts (diffs : List (RawDiff δ)) :
    (diffs.map insertOf).flatMap editsOf = (diffs.map RawDiff.row).map .insert := by
  rw [flatMap_map, map_map, map_eq_flatMap]
  rfl

theorem editsOf_deletes (diffs : List (RawDiff δ)) :
    (diffs.map deleteOf).flatMap editsOf = (diffs.map RawDiff.row).map .remove := by
  rw [flatMap_map, map_map, map_eq_flatMap]
  rfl

end

section Blocks
variable (key : Row δ → List (List ℕ))
variable {diffs : List (RawDiff δ)}

def pairedBlock (ins outs : List (RawDiff δ)) : List (RowChange δ) :=
  if ins = [] then outs.map deleteOf else pairBin ins outs

theorem key_pairBin (hins : ∀ diff ∈ ins, key diff.row = k)
    (houts : ∀ diff ∈ outs, key diff.row = k) (hchange : change ∈ pairBin ins outs)
    (hrow : row ∈ change.rows) : key row = k := by
  obtain ⟨diff, hdiff, rfl⟩ := rows_pairBin hchange hrow
  exact (mem_append.mp hdiff).elim (hins diff) (houts diff)

theorem key_bin (h : diff ∈ bin key diffs k) : key diff.row = k :=
  eq_of_beq (mem_filter.mp h).2

theorem bin_eq_nil (h : k ∉ binKeys key diffs) : bin key diffs k = [] := by
  rw [eq_nil_iff_forall_not_mem]
  intro diff hdiff
  exact h ((mem_binKeys key).mpr ⟨diff, mem_of_mem_filter hdiff, key_bin key hdiff⟩)

theorem flatMap_split {f : List (List ℕ) → List (RowChange δ)} {ks : List (List (List ℕ))}
    (hnd : ks.Nodup) (hf : ∀ k ∈ ks, ∀ change ∈ f k, ∀ row ∈ change.rows, key row = k) (k) :
    ∃ before after, ks.flatMap f = before ++ (if k ∈ ks then f k else []) ++ after ∧
      ∀ change ∈ before ++ after, ∀ row ∈ change.rows, key row ≠ k := by
  by_cases hk : k ∈ ks
  · obtain ⟨ks₁, ks₂, rfl⟩ := append_of_mem hk
    refine ⟨ks₁.flatMap f, ks₂.flatMap f, by simp, ?_⟩
    have hnot : k ∉ ks₁ ++ ks₂ := (nodup_middle.mp hnd).notMem
    intro change hchange row hrow heq
    rw [← flatMap_append, mem_flatMap] at hchange
    obtain ⟨k', hk', hchange⟩ := hchange
    have hmem : k' ∈ ks₁ ++ k :: ks₂ := by
      rcases mem_append.mp hk' with h | h
      · exact mem_append_left _ h
      · exact mem_append_right _ (mem_cons_of_mem _ h)
    exact hnot (heq ▸ hf k' hmem change hchange row hrow ▸ hk')
  · refine ⟨ks.flatMap f, [], by simp [hk], fun change hchange row hrow heq => ?_⟩
    rw [append_nil] at hchange
    obtain ⟨k', hk', hchange⟩ := mem_flatMap.mp hchange
    exact hk (heq ▸ hf k' hk' change hchange row hrow ▸ hk')

def inserted (diffs : List (RawDiff δ)) : List (RawDiff δ) := diffs.filter fun diff => 0 < diff.diff

def deleted (diffs : List (RawDiff δ)) : List (RawDiff δ) :=
  diffs.filter fun diff => ¬ 0 < diff.diff

theorem mem_inserted : diff ∈ inserted diffs ↔ diff ∈ diffs ∧ 0 < diff.diff := by
  simp [inserted]

theorem mem_deleted : diff ∈ deleted diffs ↔ diff ∈ diffs ∧ ¬ 0 < diff.diff := by
  simp [deleted]

theorem pairChanges_split (diffs k) : ∃ before after, pairChanges key diffs =
        before ++ pairedBlock (bin key (inserted diffs) k) (bin key (deleted diffs) k) ++ after ∧
      ∀ change ∈ before ++ after, ∀ row ∈ change.rows, key row ≠ k := by
  have hpair : ∀ k ∈ binKeys key (inserted diffs),
      ∀ change ∈ pairBin (bin key (inserted diffs) k) (bin key (deleted diffs) k),
        ∀ row ∈ change.rows, key row = k := fun k _ change hchange row hrow =>
    key_pairBin key (fun _ => key_bin key) (fun _ => key_bin key) hchange hrow
  have hunpaired : ∀ k ∈ (binKeys key (deleted diffs)).filter fun k =>
      k ∉ binKeys key (inserted diffs),
      ∀ change ∈ (bin key (deleted diffs) k).map deleteOf, ∀ row ∈ change.rows, key row = k := by
    intro k _ change hchange row hrow
    obtain ⟨diff, hdiff, rfl⟩ := mem_map.mp hchange
    rw [mem_singleton.mp hrow]
    exact key_bin key hdiff
  obtain ⟨before, after, hleft, hothers⟩ :=
    flatMap_split key (nodup_binKeys key (inserted diffs)) hpair k
  obtain ⟨before', after', hright, hothers'⟩ :=
    flatMap_split key ((nodup_binKeys key (deleted diffs)).filter _) hunpaired k
  have hsplit : pairChanges key diffs = _ ++ _ := congrArg₂ (· ++ ·) hleft hright
  have hnone : ∀ change ∈ before ++ after ++ (before' ++ after'), ∀ row ∈ change.rows,
      key row ≠ k :=
    fun change hchange => (mem_append.mp hchange).elim (hothers change) (hothers' change)
  by_cases hins : k ∈ binKeys key (inserted diffs)
  · have hout : k ∉ (binKeys key (deleted diffs)).filter fun k =>
        k ∉ binKeys key (inserted diffs) :=
      fun hk => of_decide_eq_true (mem_filter.mp hk).2 hins
    refine ⟨before, after ++ (before' ++ after'), ?_, ?_⟩
    · rw [hsplit, if_pos hins, if_neg hout, pairedBlock, if_neg (bin_ne_nil key hins)]
      simp
    · rw [← append_assoc]
      exact hnone
  · refine ⟨before ++ after ++ before', after', ?_, ?_⟩
    · rw [hsplit, if_neg hins, pairedBlock, if_pos (bin_eq_nil key hins)]
      by_cases hout : k ∈ binKeys key (deleted diffs)
      · rw [if_pos (mem_filter.mpr ⟨hout, decide_eq_true hins⟩)]
        simp
      · simp [bin_eq_nil key hout]
    · rw [append_assoc]
      exact hnone

/-- The edits of a block: some deletions, the insertions, and the other deletions. Deletions are
only late when there are insertions, and then all but the last one are. -/
theorem editsOf_pairedBlock (ins outs) : ∃ first put late : List (WireRow δ),
      (pairedBlock ins outs).flatMap editsOf =
        first.map .remove ++ put.map .insert ++ late.map .remove ∧
      (∀ row, row ∈ put ↔ row ∈ ins.map RawDiff.row) ∧
      (∀ row, row ∈ first ++ late ↔ row ∈ outs.map RawDiff.row) ∧
      (late = [] ∨ late = outs.dropLast.map RawDiff.row) ∧
      (ins = [] ∨ late = outs.dropLast.map RawDiff.row) := by
  rcases eq_nil_or_concat' ins with rfl | ⟨ins, new, rfl⟩
  · refine ⟨outs.map RawDiff.row, [], [], ?_, by simp, by simp, .inl rfl, .inl rfl⟩
    rw [pairedBlock, if_pos rfl, editsOf_deletes]
    simp
  · rw [pairedBlock, if_neg (by simp)]
    rcases eq_nil_or_concat' outs with rfl | ⟨outs, old, rfl⟩
    · refine ⟨[], (ins ++ [new]).map RawDiff.row, [], ?_, by simp, by simp, .inl rfl, .inr rfl⟩
      rw [pairBin_nil, editsOf_inserts]
      simp
    · have hlate : outs.map RawDiff.row = (outs ++ [old]).dropLast.map RawDiff.row := by simp
      refine ⟨[old.row], new.row :: ins.map RawDiff.row, outs.map RawDiff.row, ?_, ?_, ?_,
        .inr hlate, .inr hlate⟩
      · rw [pairBin_concat, flatMap_cons, flatMap_append, editsOf_inserts, editsOf_deletes]
        rfl
      · intro row
        simp [or_comm]
      · intro row
        simp [or_comm]

end Blocks

section Update
variable [DecidableEq δ]

def LocalCache.receive (bytes : δ → List ℕ) (cache : LocalCache δ) (diffs : List (RawDiff δ)) :
    LocalCache δ :=
  cache.applyTransaction
    ((pairChanges (primaryKeyBytes bytes cache.pkColumns) diffs).map encodeChange)

namespace LocalCache
variable {cache : LocalCache δ}

/-- A transaction changes a cache at a key as the block of its encoding does. -/
theorem rows_editAll_block {key : Row δ → List (List ℕ)}
    (hkey : ∀ row, cache.key row = k → key row = b) :
    (cache.applyTransaction ((pairChanges key diffs).map encodeChange)).rows k =
      (cache.editAll ((pairedBlock (bin key (inserted diffs) b)
        (bin key (deleted diffs) b)).flatMap editsOf)).rows k := by
  obtain ⟨before, after, hsplit, hothers⟩ := pairChanges_split key diffs b
  have huntouched : ∀ {part : List (RowChange δ)}, (∀ change ∈ part, change ∈ before ++ after) →
      ∀ (cache' : LocalCache δ), cache'.pkColumns = cache.pkColumns →
        (cache'.editAll (part.flatMap editsOf)).rows k = cache'.rows k := by
    intro part hpart cache' hcols
    refine rows_editAll_of_untouched fun edit hedit heq => ?_
    obtain ⟨change, hchange, hedit⟩ := mem_flatMap.mp hedit
    refine hothers change (hpart change hchange) _ (row_mem_of_editsOf hedit) (hkey _ ?_)
    rw [← heq, LocalCache.key, LocalCache.key, hcols]
  have hedits : ((pairChanges key diffs).map encodeChange).flatMap WireRowChange.edits =
      (pairChanges key diffs).flatMap editsOf := flatMap_map ..
  rw [applyTransaction_eq, hedits, hsplit, flatMap_append, flatMap_append, editAll_append,
    editAll_append, huntouched (fun _ => mem_append_right _) _ (by simp)]
  exact rows_editAll_congr (by simp) (huntouched (fun _ => mem_append_left _) cache rfl) _

theorem rows_block_untouched (h : ∀ diff ∈ ins ++ outs, cache.key diff.row ≠ k) :
    (cache.editAll ((pairedBlock ins outs).flatMap editsOf)).rows k = cache.rows k := by
  obtain ⟨first, put, late, hedits, hput, hout, -⟩ := editsOf_pairedBlock ins outs
  rw [hedits]
  refine rows_editAll_of_untouched fun edit hedit => ?_
  have hrow : edit.row ∈ put ∨ edit.row ∈ first ++ late := by
    rcases mem_append.mp hedit with hedit | hedit
    · rcases mem_append.mp hedit with hedit | hedit
      · obtain ⟨row, hrow, rfl⟩ := mem_map.mp hedit
        exact .inr (mem_append_left _ hrow)
      · obtain ⟨row, hrow, rfl⟩ := mem_map.mp hedit
        exact .inl hrow
    · obtain ⟨row, hrow, rfl⟩ := mem_map.mp hedit
      exact .inr (mem_append_right _ hrow)
  rw [hput, hout] at hrow
  rcases hrow with hrow | hrow
  · obtain ⟨diff, hdiff, heq⟩ := mem_map.mp hrow
    exact heq ▸ h diff (mem_append_left _ hdiff)
  · obtain ⟨diff, hdiff, heq⟩ := mem_map.mp hrow
    exact heq ▸ h diff (mem_append_right _ hdiff)

/-- A deletion before the last one empties its key, even if the transaction also puts a row
there. -/
theorem rows_block_late (h : ∃ diff ∈ outs.dropLast, cache.key diff.row = k) :
    (cache.editAll ((pairedBlock ins outs).flatMap editsOf)).rows k = none := by
  obtain ⟨diff, hdiff, hkey⟩ := h
  obtain ⟨first, put, late, hedits, hput, hout, -, hlate⟩ := editsOf_pairedBlock ins outs
  rw [hedits, editAll_append]
  rcases hlate with rfl | rfl
  · obtain rfl : put = [] :=
      eq_nil_iff_forall_not_mem.mpr fun row hrow => by simpa using (hput row).mp hrow
    rw [map_nil, append_nil, ← editAll_append, ← map_append]
    exact rows_editAll_remove (.inr ⟨diff.row,
      (hout _).mpr (mem_map_of_mem (dropLast_subset _ hdiff)), hkey⟩)
  · exact rows_editAll_remove (.inr ⟨diff.row, mem_map_of_mem hdiff, by rw [key_editAll, hkey]⟩)

theorem rows_block_insert (h : ∃ diff ∈ ins, cache.key diff.row = k)
    (hlate : ∀ diff ∈ outs.dropLast, cache.key diff.row ≠ k) :
    ∃ diff ∈ ins, cache.key diff.row = k ∧
      (cache.editAll ((pairedBlock ins outs).flatMap editsOf)).rows k = some diff.row := by
  obtain ⟨diff, hdiff, hkey⟩ := h
  obtain ⟨first, put, late, hedits, hput, -, hwhich, -⟩ := editsOf_pairedBlock ins outs
  have hhere : ∃ row ∈ put, (cache.editAll (first.map .remove)).key row = k :=
    ⟨diff.row, (hput _).mpr (mem_map_of_mem hdiff), by rw [key_editAll, hkey]⟩
  obtain ⟨row, hrow, hown, hget⟩ := rows_editAll_insert hhere
  obtain ⟨found, hfound, rfl⟩ := mem_map.mp ((hput row).mp hrow)
  rw [key_editAll] at hown
  refine ⟨found, hfound, hown, ?_⟩
  rw [hedits, editAll_append, editAll_append, ← hget]
  refine rows_editAll_of_untouched fun edit hedit heq => ?_
  obtain ⟨gone, hgone, rfl⟩ := mem_map.mp hedit
  rcases hwhich with rfl | rfl
  · cases hgone
  · obtain ⟨out, hout, rfl⟩ := mem_map.mp hgone
    rw [key_editAll, key_editAll] at heq
    exact hlate out hout heq

theorem rows_block_delete (hins : ∀ diff ∈ ins, cache.key diff.row ≠ k)
    (h : ∃ diff ∈ outs, cache.key diff.row = k) :
    (cache.editAll ((pairedBlock ins outs).flatMap editsOf)).rows k = none := by
  obtain ⟨diff, hdiff, hkey⟩ := h
  obtain ⟨first, put, late, hedits, hput, hout, -⟩ := editsOf_pairedBlock ins outs
  have hput : ((cache.editAll (first.map .remove)).editAll (put.map .insert)).rows k =
      (cache.editAll (first.map .remove)).rows k := by
    refine rows_editAll_of_untouched fun edit hedit heq => ?_
    obtain ⟨row, hrow, rfl⟩ := mem_map.mp hedit
    obtain ⟨found, hfound, rfl⟩ := mem_map.mp ((hput row).mp hrow)
    rw [key_editAll] at heq
    exact hins found hfound heq
  rw [hedits, editAll_append, editAll_append]
  rcases mem_append.mp ((hout _).mpr (mem_map_of_mem hdiff)) with hfirst | hlate
  · exact rows_editAll_remove (.inl (hput.trans (rows_editAll_remove (.inr ⟨_, hfirst, hkey⟩))))
  · exact rows_editAll_remove (.inr ⟨_, hlate, by rw [key_editAll, key_editAll, hkey]⟩)

end LocalCache

end Update

/-- A transaction of a query's output: the differences the plan emits, and the bag after it. -/
structure OutputStep (δ : Type) where
  diffs : List (RawDiff δ)
  after : List (Row δ)
deriving Repr, DecidableEq

section Output
variable [DecidableEq δ]

/-- The consolidated difference of two bags lists each row whose multiplicity changes, once. -/
structure Consolidates (before after : List (Row δ)) (diffs : List (RawDiff δ)) : Prop where
  nodup : (diffs.map RawDiff.row).Nodup
  weight : ∀ diff ∈ diffs, diff.diff = (after.count diff.row : ℤ) - before.count diff.row
  nonzero : ∀ diff ∈ diffs, diff.diff ≠ 0
  complete : ∀ row, before.count row ≠ after.count row → row ∈ diffs.map RawDiff.row

def Evolves : List (Row δ) → List (OutputStep δ) → Prop
  | _, [] => True
  | before, step :: steps => Consolidates before step.after step.diffs ∧ Evolves step.after steps

/-- The cache shows the server's output, now and after every transaction. -/
def Mirrors (bytes : δ → List ℕ) : LocalCache δ → List (Row δ) → List (OutputStep δ) → Prop
  | cache, bag, [] => cache.Holds bag
  | cache, bag, step :: steps =>
    cache.Holds bag ∧ Mirrors bytes (cache.receive bytes step.diffs) step.after steps

def initialCache (outputColumns : List String) (bag : List (Row δ)) : LocalCache δ :=
  (forSchema (schemaDefinitionFromPlan outputColumns)).apply .initial bag

def LeadsApart (bag : List (Row δ)) : Prop :=
  ∀ row ∈ bag, ∀ row' ∈ bag, row[0]? = row'[0]? → row = row'

/-- A row that loses copies is gone altogether. A row that is replaced under its first column is the
last one deleted among those with the same key bytes. -/
structure CleanStep (bytes : δ → List ℕ) (step : OutputStep δ) : Prop where
  gone : ∀ diff ∈ deleted step.diffs, diff.row ∉ step.after
  inOrder : ∀ new ∈ inserted step.diffs, ∀ old ∈ (bin (primaryKeyBytes bytes [0])
    (deleted step.diffs) (primaryKeyBytes bytes [0] new.row)).dropLast, old.row[0]? ≠ new.row[0]?

instance (bag : List (Row δ)) : Decidable (LeadsApart bag) :=
  inferInstanceAs (Decidable (∀ row ∈ bag, ∀ row' ∈ bag, row[0]? = row'[0]? → row = row'))

local instance : LawfulBEq (Row δ) := inferInstance

instance (bytes : δ → List ℕ) (step : OutputStep δ) : Decidable (CleanStep bytes step) :=
  decidable_of_iff ((∀ diff ∈ deleted step.diffs, diff.row ∉ step.after) ∧
    ∀ new ∈ inserted step.diffs, ∀ old ∈ (bin (primaryKeyBytes bytes [0]) (deleted step.diffs)
      (primaryKeyBytes bytes [0] new.row)).dropLast, old.row[0]? ≠ new.row[0]?)
    ⟨fun h => ⟨h.1, h.2⟩, fun h => ⟨h.gone, h.inOrder⟩⟩

namespace Consolidates
variable {before after : List (Row δ)} {diffs : List (RawDiff δ)}

variable (h : Consolidates before after diffs)
include h

theorem mem_after (hdiff : diff ∈ inserted diffs) : diff.row ∈ after := by
  obtain ⟨hmem, hpos⟩ := mem_inserted.mp hdiff
  have hwt := h.weight diff hmem
  exact count_pos_iff.mp (by omega)

theorem mem_before (hdiff : diff ∈ deleted diffs) : diff.row ∈ before := by
  obtain ⟨hmem, hnot⟩ := mem_deleted.mp hdiff
  have hwt := h.weight diff hmem
  have hnonzero := h.nonzero diff hmem
  exact count_pos_iff.mp (by omega)

theorem row_ne (hnew : new ∈ inserted diffs) (hold : old ∈ deleted diffs) : new.row ≠ old.row := by
  obtain ⟨hnew, hpos⟩ := mem_inserted.mp hnew
  obtain ⟨hold, hnot⟩ := mem_deleted.mp hold
  intro heq
  exact hnot (inj_on_of_nodup_map h.nodup hnew hold heq ▸ hpos)

theorem mem_iff_of_not_mem (hrow : ∀ diff ∈ diffs, diff.row ≠ row) :
    row ∈ before ↔ row ∈ after := by
  have hcount : before.count row = after.count row := by
    by_contra hne
    obtain ⟨diff, hdiff, heq⟩ := mem_map.mp (h.complete row hne)
    exact hrow diff hdiff heq
  rw [← count_pos_iff, ← count_pos_iff, hcount]

end Consolidates
variable {row row' : Row δ}

omit [DecidableEq δ] in
theorem keyBy_leading : keyBy [0] row = keyBy [0] row' ↔ row[0]? = row'[0]? := by
  have hkey : ∀ row : Row δ, keyBy [0] row = row[0]?.toList := by
    intro row
    cases row <;> rfl
  rw [hkey, hkey]
  cases row[0]? <;> cases row'[0]? <;> simp

variable {cache : LocalCache δ} {bag : List (Row δ)}

section
omit [DecidableEq δ]

theorem LocalCache.key_eq_iff (h : cache.pkColumns = [0]) :
    cache.key row = cache.key row' ↔ row[0]? = row'[0]? := by
  rw [key, key, h, keyBy_leading]

theorem keysApart_leading : KeysApart [0] bag ↔ LeadsApart bag := by
  simp [KeysApart, LeadsApart, keyBy_leading]

theorem LocalCache.Holds.leadsApart (hpk : cache.pkColumns = [0])
    (h : cache.Holds bag) : LeadsApart bag :=
  keysApart_leading.mp (hpk ▸ h.keysApart)

theorem primaryKeyBytes_leading (bytes : δ → List ℕ) (h : row[0]? = row'[0]?) :
    primaryKeyBytes bytes [0] row = primaryKeyBytes bytes [0] row' := by
  rw [primaryKeyBytes, primaryKeyBytes, map_singleton, map_singleton, h]

end

section Step
variable {bytes : δ → List ℕ} {before : List (Row δ)} {step : OutputStep δ}
variable {row : Row δ}

theorem rows_receive (hpk : cache.pkColumns = [0]) (row : Row δ) :
    (cache.receive bytes step.diffs).rows (cache.key row) = (cache.editAll ((pairedBlock
        (bin (primaryKeyBytes bytes [0]) (inserted step.diffs) (primaryKeyBytes bytes [0] row))
        (bin (primaryKeyBytes bytes [0]) (deleted step.diffs)
          (primaryKeyBytes bytes [0] row))).flatMap
          editsOf)).rows (cache.key row) := by
  rw [receive, hpk]
  exact rows_editAll_block fun other hother =>
    primaryKeyBytes_leading bytes ((key_eq_iff hpk).mp hother)

omit [DecidableEq δ] in
theorem mem_bin_of_leading {diffs : List (RawDiff δ)} {diff : RawDiff δ} (hdiff : diff ∈ diffs)
    (h : diff.row[0]? = row[0]?) :
    diff ∈ bin (primaryKeyBytes bytes [0]) diffs (primaryKeyBytes bytes [0] row) :=
  mem_filter.mpr ⟨hdiff, beq_iff_eq.mpr (primaryKeyBytes_leading bytes h)⟩

theorem rows_receive_late (hpk : cache.pkColumns = [0])
    (hold : old ∈ (bin (primaryKeyBytes bytes [0]) (deleted step.diffs)
      (primaryKeyBytes bytes [0] row)).dropLast) (h : old.row[0]? = row[0]?) :
    (cache.receive bytes step.diffs).rows (cache.key row) = none := by
  rw [rows_receive hpk]
  exact rows_block_late ⟨old, hold, (key_eq_iff hpk).mpr h⟩

theorem rows_receive_delete (bytes) (hpk : cache.pkColumns = [0])
    (hnone : ∀ new ∈ inserted step.diffs, new.row[0]? ≠ row[0]?) (hold : old ∈ deleted step.diffs)
    (h : old.row[0]? = row[0]?) : (cache.receive bytes step.diffs).rows (cache.key row) = none := by
  rw [rows_receive hpk]
  refine rows_block_delete (fun new hnew hkey => ?_)
    ⟨old, mem_bin_of_leading hold h, (key_eq_iff hpk).mpr h⟩
  exact hnone new (mem_of_mem_filter hnew) ((key_eq_iff hpk).mp hkey)

theorem rows_receive_insert (bytes) (hpk : cache.pkColumns = [0]) (hclean : CleanStep bytes step)
    (hnew : new ∈ inserted step.diffs) :
    ∃ found ∈ inserted step.diffs, found.row[0]? = new.row[0]? ∧
      (cache.receive bytes step.diffs).rows (cache.key new.row) = some found.row := by
  have hlate : ∀ old ∈ (bin (primaryKeyBytes bytes [0]) (deleted step.diffs)
      (primaryKeyBytes bytes [0] new.row)).dropLast, cache.key old.row ≠ cache.key new.row :=
    fun old hold hkey => hclean.inOrder new hnew old hold ((key_eq_iff hpk).mp hkey)
  obtain ⟨found, hfound, hkey, hget⟩ :=
    rows_block_insert ⟨new, mem_bin_of_leading hnew rfl, rfl⟩ hlate
  rw [← rows_receive hpk] at hget
  exact ⟨found, mem_of_mem_filter hfound, (key_eq_iff hpk).mp hkey, hget⟩

theorem rows_receive_untouched (hpk : cache.pkColumns = [0])
    (h : ∀ diff ∈ step.diffs, diff.row[0]? ≠ row[0]?) :
    (cache.receive bytes step.diffs).rows (cache.key row) = cache.rows (cache.key row) := by
  rw [rows_receive hpk]
  refine rows_block_untouched fun diff hdiff hkey => ?_
  refine h diff ?_ ((key_eq_iff hpk).mp hkey)
  rcases mem_append.mp hdiff with hin | hout
  · exact (mem_inserted.mp (mem_of_mem_filter hin)).1
  · exact (mem_deleted.mp (mem_of_mem_filter hout)).1

/-- One transaction keeps the cache in step exactly when it is clean and the rows after it differ in
the first column. -/
theorem holds_receive_iff (hpk : cache.pkColumns = [0]) (hwas : cache.Holds before)
    (h : Consolidates before step.after step.diffs) :
    (cache.receive bytes step.diffs).Holds step.after ↔
      LeadsApart step.after ∧ CleanStep bytes step := by
  have hpk' : (cache.receive bytes step.diffs).pkColumns = [0] := by
    rw [receive, pkColumns_applyTransaction, hpk]
  have hown : ∀ row, (cache.receive bytes step.diffs).key row = cache.key row := by
    intro row
    rw [key, key, hpk, hpk']
  constructor
  · intro hnow
    have hapart := hnow.leadsApart hpk'
    have hget : ∀ row ∈ step.after,
        (cache.receive bytes step.diffs).rows (cache.key row) = some row := fun row hrow =>
      hown row ▸ (holds_iff.mp hnow row).mpr hrow
    refine ⟨hapart, fun old hold hstays => ?_, fun new hnew old hold hsame => ?_⟩
    · have hnone : ∀ new ∈ inserted step.diffs, new.row[0]? ≠ old.row[0]? := fun new hnew heq =>
        h.row_ne hnew hold (hapart _ (h.mem_after hnew) _ hstays heq)
      have hempty := rows_receive_delete bytes hpk hnone hold rfl
      simp [hget _ hstays] at hempty
    · have hempty := rows_receive_late hpk hold hsame
      simp [hget _ (h.mem_after hnew)] at hempty
  · rintro ⟨hapart, hclean⟩
    have hwas' := hwas.leadsApart hpk
    refine holds_iff.mpr fun row => ?_
    rw [hown]
    by_cases hins : ∃ new ∈ inserted step.diffs, new.row[0]? = row[0]?
    · obtain ⟨new, hnew, hlead⟩ := hins
      obtain ⟨found, hfound, hsame, hget⟩ := rows_receive_insert bytes hpk hclean hnew
      rw [(key_eq_iff hpk).mpr hlead] at hget
      rw [hget, Option.some.injEq]
      constructor
      · rintro rfl
        exact h.mem_after hfound
      · exact fun hrow => hapart _ (h.mem_after hfound) _ hrow (hsame.trans hlead)
    · have hnone : ∀ new ∈ inserted step.diffs, new.row[0]? ≠ row[0]? := fun new hnew heq =>
        hins ⟨new, hnew, heq⟩
      by_cases hout : ∃ old ∈ deleted step.diffs, old.row[0]? = row[0]?
      · obtain ⟨old, hold, hlead⟩ := hout
        rw [rows_receive_delete bytes hpk hnone hold hlead]
        refine ⟨by rintro ⟨⟩, fun hrow => ?_⟩
        -- the row was there before, so it is the one that is deleted
        have hstays : row ∈ before := by
          refine (h.mem_iff_of_not_mem fun diff hdiff heq => ?_).mpr hrow
          by_cases hpos : 0 < diff.diff
          · exact hnone diff (mem_inserted.mpr ⟨hdiff, hpos⟩) (heq ▸ rfl)
          · exact hclean.gone diff (mem_deleted.mpr ⟨hdiff, hpos⟩) (heq ▸ hrow)
        have hsame := hwas' _ (h.mem_before hold) _ hstays hlead
        exact absurd (hsame ▸ hrow) (hclean.gone old hold)
      · have huntouched : ∀ diff ∈ step.diffs, diff.row[0]? ≠ row[0]? := by
          intro diff hdiff heq
          by_cases hpos : 0 < diff.diff
          · exact hnone diff (mem_inserted.mpr ⟨hdiff, hpos⟩) heq
          · exact hout ⟨diff, mem_deleted.mpr ⟨hdiff, hpos⟩, heq⟩
        rw [rows_receive_untouched hpk huntouched, holds_iff.mp hwas row]
        exact h.mem_iff_of_not_mem fun diff hdiff heq => huntouched diff hdiff (heq ▸ rfl)

end Step

theorem mirrors_iff (bytes) (hpk : cache.pkColumns = [0]) (h : Evolves bag steps) :
    Mirrors bytes cache bag steps ↔
      cache.Holds bag ∧ ∀ step ∈ steps, LeadsApart step.after ∧ CleanStep bytes step := by
  induction steps generalizing cache bag with
  | nil => simp [Mirrors]
  | cons step steps ih =>
    obtain ⟨hstep, hrest⟩ := h
    have hpk' : (cache.receive bytes step.diffs).pkColumns = [0] := by
      rw [receive, pkColumns_applyTransaction, hpk]
    rw [Mirrors, ih hpk' hrest, forall_mem_cons]
    exact and_congr_right fun hholds => and_congr_left' (holds_receive_iff hpk hholds hstep)

/-- The client mirrors the output exactly when, in every bag, different rows differ in the first
column, and every transaction is clean. -/
theorem mirrors_iff_separable (bytes : δ → List ℕ) (outputColumns : List String)
    {bag : List (Row δ)} {steps : List (OutputStep δ)} (h : Evolves bag steps) :
    Mirrors bytes (initialCache outputColumns bag) bag steps ↔
      LeadsApart bag ∧ ∀ step ∈ steps, LeadsApart step.after ∧ CleanStep bytes step := by
  rw [mirrors_iff bytes (pkColumns_initial _ _) h, initialCache,
    holds_initial_iff, ← keysApart_leading]
  rfl

end Output

section

/-- A row replaced under its first column. -/
def replacement : OutputStep ℕ :=
  ⟨[⟨none, [1, 10], 5, -1⟩, ⟨none, [1, 11], 5, 1⟩], [[2, 20], [1, 11]]⟩

theorem replacement_evolves : Evolves [[1, 10], [2, 20]] [replacement] := by
  refine ⟨⟨by decide, by decide, by decide, fun row hcount => ?_⟩, trivial⟩
  by_contra hnot
  have hold : row ≠ [1, 10] := fun h => hnot (h ▸ by decide)
  have hnew : row ≠ [1, 11] := fun h => hnot (h ▸ by decide)
  refine hcount ?_
  simp [replacement, count_cons, hold.symm, hnew.symm]

theorem replacement_mirrored :
    Mirrors (fun n => [n]) (initialCache ["id", "n"] [[1, 10], [2, 20]]) [[1, 10], [2, 20]]
      [replacement] :=
  (mirrors_iff_separable _ _ replacement_evolves).mpr ⟨by decide, by decide⟩

/-- A second row with the same first column comes and goes. -/
def visit : List (OutputStep ℕ) :=
  [⟨[⟨none, [1, 20], 5, 1⟩], [[1, 10], [1, 20]]⟩, ⟨[⟨none, [1, 20], 6, -1⟩], [[1, 10]]⟩]

/-- The visitor takes the place of the row that stays, which the client never sees again. -/
theorem visit_evicts : Evolves [[1, 10]] visit ∧
    ¬ Mirrors (fun n => [n]) (initialCache ["id", "n"] [[1, 10]]) [[1, 10]] visit ∧
    (visit.foldl (fun cache step => cache.receive (fun n => [n]) step.diffs)
      (initialCache ["id", "n"] [[1, 10]])).rows [1] = none := by
  have hgone : (visit.foldl (fun cache step => cache.receive (fun n => [n]) step.diffs)
      (initialCache ["id", "n"] [[1, 10]])).rows [1] = none := by decide +kernel
  refine ⟨⟨⟨by decide, by decide, by decide, fun row hcount => ?_⟩,
    ⟨by decide, by decide, by decide, fun row hcount => ?_⟩, trivial⟩, fun h => ?_, hgone⟩
  · by_contra hnot
    have hrow : row ≠ [1, 20] := by
      rintro rfl
      exact hnot (by decide)
    exact hcount (by simp [count_cons, hrow.symm])
  · by_contra hnot
    have hrow : row ≠ [1, 20] := by
      rintro rfl
      exact hnot (by decide)
    exact hcount (by simp [count_cons, hrow.symm])
  · obtain ⟨-, -, hlast⟩ := h
    have hstays := (holds_iff.mp hlast [1, 10]).mpr (by decide)
    exact absurd (hgone.symm.trans hstays) nofun

end

end Palimpsest.Client
