import Palimpsest.Client.Reconciler
import Palimpsest.Foundation.Runs
import Mathlib.Data.List.Perm.Subperm

/-! The local replica: its database holds the server's rows with the pending mutations replayed on
top. -/
namespace Palimpsest.Client
open Function List TableLedger Reconciler

/-- Contents of a mirrored table. Each row is stored under its own key. -/
structure TableRows (spec : TableSpec) (δ : Type) where
  get : PrimaryKey δ → Option (WireRow δ)
  keyed : ∀ key, ∀ row ∈ get key, spec.keyOf row = key

namespace TableRows
variable {spec : TableSpec} {δ : Type}

@[ext]
theorem ext {rows' : TableRows spec δ} (h : ∀ key, rows.get key = rows'.get key) :
    rows = rows' := by
  cases rows
  congr
  funext key
  exact h key

variable [DecidableEq δ]

def upsert (rows : TableRows spec δ) (row : WireRow δ) : TableRows spec δ where
  get := update rows.get (spec.keyOf row) (some row)
  keyed key found hfound := by
    rcases eq_or_ne key (spec.keyOf row) with rfl | hkey
    · rw [update_self] at hfound
      cases hfound
      rfl
    · rw [update_of_ne hkey] at hfound
      exact rows.keyed key found hfound

def remove (rows : TableRows spec δ) (key : PrimaryKey δ) : TableRows spec δ where
  get := update rows.get key none
  keyed other found hfound := by
    rcases eq_or_ne other key with rfl | hkey
    · simp at hfound
    · rw [update_of_ne hkey] at hfound
      exact rows.keyed other found hfound

def applyWrite (rows : TableRows spec δ) : LocalWrite δ → TableRows spec δ
  | .upsert row => rows.upsert row
  | .delete key => rows.remove key

def applyWrites (rows : TableRows spec δ) (writes : List (LocalWrite δ)) : TableRows spec δ :=
  writes.foldl applyWrite rows

/-- Of several rows under one key the last one stays. -/
def replaceRows (spec : TableSpec) (rows : List (WireRow δ)) : TableRows spec δ where
  get := snapshotImage spec.keyOf rows
  keyed key found hfound := by simpa using find?_some hfound

def applyImage (rows : TableRows spec δ) (change : PrimaryKey δ × Option (WireRow δ)) :
    TableRows spec δ :=
  match change.2 with
  | some row => rows.upsert row
  | none => rows.remove change.1

/-- What a change of the server's means. The new row is stored under its own key, and nothing is
left under the old row's. A delete leaves nothing under the key it names; with rows of two keys it
is read as the move of a row. -/
def applyChange (rows : TableRows spec δ) (change : WireRowChange δ) : TableRows spec δ where
  get key :=
    let names (row : WireRow δ) := decide (key = spec.keyOf row)
    if change.new.any names ∧ (change.op = .delete → change.old.any fun row => !names row) then
      change.new
    else if change.old.any names ∨ change.new.any names then none
    else rows.get key
  keyed key row hrow := by
    simp only at hrow
    split at hrow
    next hnew =>
      obtain ⟨hnames, -⟩ := hnew
      rw [Option.mem_def.mp hrow] at hnames
      simpa using (of_decide_eq_true hnames).symm
    next =>
      split at hrow
      · cases hrow
      · exact rows.keyed key row hrow

variable (rows : TableRows spec δ)

theorem applyWrite_ofImage (key image) :
    rows.applyWrite (.ofImage key image) = rows.applyImage (key, image) := by
  cases image <;> rfl

theorem get_applyImage_self (h : ∀ row ∈ image, spec.keyOf row = key) :
    (rows.applyImage (key, image)).get key = image := by
  cases image with
  | none => exact update_self ..
  | some row =>
    obtain rfl := h row rfl
    exact update_self ..

theorem get_applyImage_of_ne (h : ∀ row ∈ image, spec.keyOf row = key) (hne : other ≠ key) :
    (rows.applyImage (key, image)).get other = rows.get other := by
  cases image with
  | none => exact update_of_ne hne ..
  | some row =>
    obtain rfl := h row rfl
    exact update_of_ne hne ..

theorem applyChange_eq (change : WireRowChange δ) :
    rows.applyChange change = (images spec.keyOf change).foldl applyImage rows := by
  obtain ⟨op, old, new⟩ := change
  ext1 key
  cases old with
  | none =>
    cases new with
    | none => simp [applyChange, images]
    | some new =>
      by_cases hop : op = .delete <;>
        by_cases hkey : key = spec.keyOf new <;>
          simp [applyChange, images, applyImage, upsert, remove, hop, hkey, update_of_ne]
  | some old =>
    cases new with
    | none =>
      by_cases hkey : key = spec.keyOf old <;>
        simp [applyChange, images, applyImage, remove, hkey, update_of_ne]
    | some new =>
      rcases eq_or_ne (spec.keyOf old) (spec.keyOf new) with hsame | hmove
      · by_cases hop : op = .delete <;>
          by_cases hkey : key = spec.keyOf new <;>
            simp [applyChange, images, applyImage, upsert, remove, hsame, hop, hkey, update_of_ne]
      · by_cases hnew : key = spec.keyOf new
        · simp [applyChange, images, applyImage, upsert, remove, hnew, hmove, hmove.symm]
        · by_cases hold : key = spec.keyOf old <;>
            simp [applyChange, images, applyImage, upsert, remove, hold, hnew, hmove, update_of_ne]

theorem foldl_applyChange (changes : List (WireRowChange δ)) :
    changes.foldl applyChange rows =
      (changes.flatMap (images spec.keyOf)).foldl applyImage rows := by
  simp only [foldl_flatMap, ← applyChange_eq]

end TableRows
open TableRows

theorem keyed_of_mem_images [DecidableEq δ] {keyOf : WireRow δ → PrimaryKey δ}
    (h : entry ∈ images keyOf change) : ∀ row ∈ entry.2, keyOf row = entry.1 := by
  obtain ⟨op, old, new⟩ := change
  cases old with
  | none =>
    cases new with
    | none => cases h
    | some =>
      simp only [images, Option.map_none, Option.map_some] at h
      split at h <;> (cases mem_singleton.mp h; intro row hrow; cases hrow)
      rfl
  | some =>
    cases new with
    | none =>
      cases mem_singleton.mp h
      exact fun _ hrow => nomatch hrow
    | some =>
      simp only [images, Option.map_some] at h
      split at h
      · rcases mem_cons.mp h with rfl | h
        · exact fun _ hrow => nomatch hrow
        · cases mem_singleton.mp h
          intro row hrow
          cases hrow
          rfl
      · split at h <;> (cases mem_singleton.mp h; intro row hrow; cases hrow)
        rfl

section Ledger
variable {δ : Type} [DecidableEq δ]

theorem keyed_flatMap_images (spec : TableSpec) (changes : List (WireRowChange δ)) :
    ∀ change ∈ changes.flatMap (images spec.keyOf), ∀ row ∈ change.2,
      spec.keyOf row = change.1 := by
  intro change hchange
  obtain ⟨src, -, hsrc⟩ := mem_flatMap.mp hchange
  exact keyed_of_mem_images hsrc

theorem TableLedger.hasPending_iff {ledger : TableLedger δ} :
    ledger.hasPending key = true ↔ ledger.on key ≠ [] := by
  simp [hasPending, TableLedger.on]

theorem TableLedger.on_eq_nil {ledger : TableLedger δ} (h : ¬ ledger.hasPending key = true) :
    ledger.on key = [] := by
  rwa [hasPending_iff, not_ne_iff] at h

/-- The stored rows are the server's with the pending mutations replayed, and the ledger keeps the
server's image of exactly the keys that have some. -/
structure Rebased (ledger : TableLedger δ) (db server : TableRows spec δ) : Prop where
  visible : ∀ key, db.get key = replayOver (server.get key) (ledger.on key)
  base : ∀ key, ledger.base key = if ledger.hasPending key then some (server.get key) else none
  fits : ∀ op ∈ ledger.pending, op.kind.Fits spec op.key

variable {ledger ledger' : TableLedger δ} {db server : TableRows spec δ}
variable {key : PrimaryKey δ}

theorem TableLedger.fits_on (h : ∀ op ∈ ledger.pending, op.kind.Fits spec op.key) (key) :
    ∀ op ∈ ledger.on key, op.kind.Fits spec key := by
  intro op hop
  obtain ⟨hmem, hkey⟩ := mem_filter.mp hop
  rw [decide_eq_true_eq] at hkey
  exact hkey ▸ h op hmem

variable (h : Rebased ledger db server)
include h

/-- Writing one key back brings it in line when nothing has changed for the other keys. -/
theorem Rebased.write (hon : ∀ other, other ≠ key → ledger'.on other = ledger.on other)
    (hbase : ∀ other, other ≠ key → ledger'.base other = ledger.base other)
    (hserver : ∀ other, other ≠ key → server'.get other = server.get other)
    (hkey : ledger'.base key = some (server'.get key))
    (hfits : ∀ op ∈ ledger'.pending, op.kind.Fits spec op.key) :
    Rebased (ledger'.writeFor key).2 (db.applyWrite (ledger'.writeFor key).1) server' := by
  have hrep : ledger'.replay key = replayOver (server'.get key) (ledger'.on key) := by
    simp [replay, hkey]
  have hkeyed : ∀ row ∈ ledger'.replay key, spec.keyOf row = key := by
    rw [hrep]
    exact replayOver_keyed (fits_on hfits key) (server'.keyed key)
  have hwrite : db.applyWrite (ledger'.writeFor key).1 = db.applyImage (key, ledger'.replay key) :=
    applyWrite_ofImage db key _
  have hpend := ledger'.writeFor_pending key
  have hsame : ∀ other, (ledger'.writeFor key).2.on other = ledger'.on other := fun other => by
    rw [TableLedger.on, hpend]
    rfl
  have hhas : ∀ other, (ledger'.writeFor key).2.hasPending other = ledger'.hasPending other :=
    fun other => by
      rw [hasPending, hpend]
      rfl
  refine ⟨fun other => ?_, fun other => ?_, fun op hop => hfits op (hpend ▸ hop)⟩
  · rw [hwrite, hsame]
    rcases eq_or_ne other key with rfl | hne
    · rw [get_applyImage_self _ hkeyed, hrep]
    · rw [get_applyImage_of_ne _ hkeyed hne, hon other hne, hserver other hne]
      exact h.visible other
  · rw [hhas]
    rcases eq_or_ne other key with rfl | hne
    · unfold writeFor
      split
      · exact hkey
      · exact update_self ..
    · have hkept : (ledger'.writeFor key).2.base other = ledger'.base other := by
        unfold writeFor
        split
        · rfl
        · exact update_of_ne hne ..
      have hiff : ledger'.hasPending other = ledger.hasPending other := by
        rw [Bool.eq_iff_iff, hasPending_iff, hasPending_iff, hon other hne]
      rw [hkept, hbase other hne, hiff, hserver other hne]
      exact h.base other

theorem Rebased.base_of_pending (hkey : ledger.hasPending key = true) :
    ledger.base key = some (server.get key) := by
  rw [h.base, if_pos hkey]

theorem Rebased.stage (token) (hfits : kind.Fits spec key) {staged : TableLedger δ}
    (hpend : staged.pending = ledger.pending ++ [⟨token, key, kind, false⟩])
    (hbase : staged.base = if ledger.hasPending key then ledger.base else update
      ledger.base key (some (db.get key))) :
    Rebased (staged.writeFor key).2 (db.applyWrite (staged.writeFor key).1) server := by
  refine h.write (fun other hne => ?_) (fun other hne => ?_) (fun _ _ => rfl) ?_ ?_
  · have hkey : ¬ key = other := fun heq => hne heq.symm
    simp [TableLedger.on, hpend, hkey]
  · rw [hbase]
    split
    · rfl
    · exact update_of_ne hne ..
  · rw [hbase]
    split
    next hhas => exact h.base_of_pending hhas
    next hnone =>
      -- nothing is pending, so the stored row is the server's
      rw [update_self, h.visible, on_eq_nil hnone]
      rfl
  · rw [hpend]
    exact forall_mem_append.mpr ⟨h.fits, forall_mem_singleton.mpr hfits⟩

omit h

theorem settle_on_of_ne (h : other ≠ key) (image ops) :
    (settle key image ops).1.filter (fun op => op.key = other) =
      ops.filter fun op => op.key = other := by
  induction ops with
  | nil => rfl
  | cons op ops ih =>
    unfold settle
    split
    next hkey =>
      have hother : ¬ op.key = other := fun heq => h (heq.symm.trans hkey)
      split
      · simpa [hother] using ih
      · split
        · simpa [hother] using ih
        · rfl
    next => simp [filter_cons, ih]

theorem settle_sublist (key : PrimaryKey δ) (image ops) : (settle key image ops).1.Sublist ops := by
  induction ops with
  | nil => exact .slnil
  | cons op ops ih =>
    unfold settle
    split
    · split
      · exact ih.cons op
      · split
        · exact ih.cons op
        · exact .refl _
    · exact ih.cons_cons op

theorem settle_tokens (key : PrimaryKey δ) (image) (ops : List (PendingOp δ)) :
    (ops.map PendingOp.token).Perm ((settle key image ops).1.map PendingOp.token ++
      ((settle key image ops).2.1 ++ (settle key image ops).2.2)) := by
  induction ops with
  | nil => exact .refl _
  | cons op ops ih =>
    unfold settle
    split
    · split
      · exact (ih.cons op.token).trans perm_middle.symm
      · split
        · refine (ih.cons op.token).trans ?_
          rw [← append_assoc, ← append_assoc]
          exact perm_middle.symm
        · exact .of_eq (append_nil _).symm
    · exact ih.cons op.token

/-- The mutations reported as settled or conflicted. -/
def ServerApply.reported (out : ServerApply δ) : List MutationToken := out.settled ++ out.conflicted

theorem foldChange_kept (ledger : TableLedger δ) (out change) :
    (Client.foldChange (ledger, out) change).1.pending.Sublist ledger.pending ∧
      (ledger.pending.map PendingOp.token ++ out.reported).Perm
        ((Client.foldChange (ledger, out) change).1.pending.map PendingOp.token ++
          (Client.foldChange (ledger, out) change).2.reported) := by
  obtain ⟨key, image⟩ := change
  simp only [Client.foldChange]
  split
  · rw [writeFor_pending]
    refine ⟨settle_sublist key image ledger.pending, ?_⟩
    refine ((settle_tokens key image ledger.pending).append_right _).trans ?_
    rw [append_assoc]
    refine .append_left _ ?_
    simp only [ServerApply.reported]
    rw [perm_iff_count]
    intro token
    simp only [count_append]
    omega
  · exact ⟨.refl _, .refl _⟩

theorem foldChanges_kept (changes : List (PrimaryKey δ × Option (WireRow δ)))
    (ledger : TableLedger δ) (out) :
    (changes.foldl Client.foldChange (ledger, out)).1.pending.Sublist ledger.pending ∧
      (ledger.pending.map PendingOp.token ++ out.reported).Perm
        ((changes.foldl Client.foldChange (ledger, out)).1.pending.map PendingOp.token ++
          (changes.foldl Client.foldChange (ledger, out)).2.reported) := by
  induction changes generalizing ledger out with
  | nil => exact ⟨.refl _, .refl _⟩
  | cons change changes ih =>
    obtain ⟨hsub, hperm⟩ := foldChange_kept ledger out change
    obtain ⟨hsubs, hperms⟩ := ih (Client.foldChange (ledger, out) change).1
      (Client.foldChange (ledger, out) change).2
    exact ⟨hsubs.trans hsub, hperm.trans hperms⟩

theorem Rebased.foldChange (h : Rebased ledger db server) (out)
    (hkeyed : ∀ row ∈ change.2, spec.keyOf row = change.1) :
    ∃ write, (Client.foldChange (ledger, out) change).2.writes = out.writes ++ [write] ∧
      Rebased (Client.foldChange (ledger, out) change).1 (db.applyWrite write)
        (server.applyImage change) := by
  obtain ⟨key, image⟩ := change
  simp only [Client.foldChange]
  split
  next hhas =>
    refine ⟨_, rfl, h.write (fun other hne => ?_) (fun other hne => ?_)
      (fun other hne => get_applyImage_of_ne server hkeyed hne) ?_ ?_⟩
    · exact settle_on_of_ne hne image ledger.pending
    · exact update_of_ne hne ..
    · rw [get_applyImage_self server hkeyed]
      exact update_self ..
    · exact fun op hop => h.fits op ((settle_sublist key image ledger.pending).subset hop)
  next hnone =>
    refine ⟨_, rfl, fun other => ?_, fun other => ?_, h.fits⟩
    · rw [applyWrite_ofImage]
      rcases eq_or_ne other key with rfl | hne
      · rw [get_applyImage_self db hkeyed, get_applyImage_self server hkeyed, on_eq_nil hnone]
        rfl
      · rw [get_applyImage_of_ne db hkeyed hne, get_applyImage_of_ne server hkeyed hne]
        exact h.visible other
    · rw [h.base]
      rcases eq_or_ne other key with rfl | hne
      · rw [if_neg hnone, if_neg hnone]
      · rw [get_applyImage_of_ne server hkeyed hne]

theorem Rebased.foldChanges (changes : List (PrimaryKey δ × Option (WireRow δ)))
    (hkeyed : ∀ change ∈ changes, ∀ row ∈ change.2, spec.keyOf row = change.1)
    (h : Rebased ledger db server) (out) :
    ∃ writes, (changes.foldl Client.foldChange (ledger, out)).2.writes = out.writes ++ writes ∧
      Rebased (changes.foldl Client.foldChange (ledger, out)).1 (db.applyWrites writes)
        (changes.foldl applyImage server) := by
  induction changes generalizing ledger db server out with
  | nil => exact ⟨[], (append_nil _).symm, h⟩
  | cons change changes ih =>
    obtain ⟨hchange, hchanges⟩ := forall_mem_cons.mp hkeyed
    obtain ⟨write, hwrite, hnext⟩ := h.foldChange out hchange
    obtain ⟨writes, hwr, hlast⟩ := ih hchanges hnext (Client.foldChange (ledger, out) change).2
    refine ⟨write :: writes, ?_, hlast⟩
    simp [hwr, hwrite]

theorem TableLedger.mem_pendingKeys :
    key ∈ (ledger.pending.map (·.key)).dedup ↔ ledger.hasPending key = true := by
  simp [hasPending]

theorem snapshotImage_eq (honly : ∀ row ∈ rows, keyOf row = key → image = some row)
    (hin : ∀ row ∈ image, row ∈ rows ∧ keyOf row = key) : snapshotImage keyOf rows key = image := by
  cases hfind : snapshotImage keyOf rows key with
  | none =>
    cases image with
    | none => rfl
    | some row =>
      obtain ⟨hmem, hkey⟩ := hin row rfl
      exact absurd (decide_eq_true hkey)
        (find?_eq_none.mp hfind row (mem_reverse.mpr hmem))
  | some row =>
    exact (honly row (mem_reverse.mp (mem_of_find?_eq_some hfind))
      (by simpa using find?_some hfind)).symm

theorem snapshotImage_append (h : ∀ row ∈ others, keyOf row ≠ key) :
    snapshotImage keyOf (rows ++ others) key = snapshotImage keyOf rows key := by
  have hnone : others.reverse.find? (fun row => decide (keyOf row = key)) = none := by
    rw [find?_eq_none]
    intro row hrow
    simpa using h row (mem_reverse.mp hrow)
  simp [snapshotImage, hnone]

theorem snapshotImage_filter (h : ∀ row, keyOf row = key → keep row = true) :
    snapshotImage keyOf (rows.filter keep) key = snapshotImage keyOf rows key := by
  rw [snapshotImage, ← filter_reverse, find?_filter]
  congr 1
  funext row
  by_cases hrow : keyOf row = key
  · simp [h row hrow]
  · simp [hrow]

/-- A snapshot brings a table in line with its ledger, whatever it held before. -/
theorem Rebased.initial (h : ∀ op ∈ ledger.pending, op.kind.Fits spec op.key) (rows)
    (hpend : fresh.pending = ledger.pending)
    (hbase : fresh.base = fun key => if key ∈ (ledger.pending.map (·.key)).dedup then
      some (snapshotImage spec.keyOf rows key) else none) : Rebased fresh (replaceRows spec
        (rows.filter (fun row => spec.keyOf row ∉ (ledger.pending.map (·.key)).dedup) ++
          (ledger.pending.map (·.key)).dedup.filterMap fresh.replay)) (replaceRows spec rows) := by
  have hhas : ∀ key, fresh.hasPending key = ledger.hasPending key := fun key => by
    rw [hasPending, hpend]
    rfl
  have hfits := hpend ▸ h
  have hrep : ∀ key, key ∈ (ledger.pending.map (·.key)).dedup → fresh.replay key =
      replayOver (snapshotImage spec.keyOf rows key) (fresh.on key) := by
    intro key hkey
    rw [replay, hbase]
    simp only [if_pos hkey]
    rfl
  have hkeyed : ∀ key, key ∈ (ledger.pending.map (·.key)).dedup →
      ∀ row ∈ fresh.replay key, spec.keyOf row = key := by
    intro key hkey
    rw [hrep key hkey]
    exact replayOver_keyed (fits_on hfits key)
      ((replaceRows spec rows).keyed key)
  refine ⟨fun key => ?_, fun key => ?_, hfits⟩
  · show snapshotImage spec.keyOf _ key = replayOver (snapshotImage spec.keyOf rows key) _
    by_cases hkey : key ∈ (ledger.pending.map (·.key)).dedup
    · rw [← hrep key hkey]
      refine snapshotImage_eq (fun row hrow hrowKey => ?_) fun row hrow => ?_
      · rcases mem_append.mp hrow with hold | hnew
        · have hfree := (mem_filter.mp hold).2
          rw [decide_eq_true_eq, hrowKey] at hfree
          exact absurd hkey hfree
        · obtain ⟨other, hother, hothers⟩ := mem_filterMap.mp hnew
          have hsame := hkeyed other hother row hothers
          rw [← hrowKey, hsame]
          exact hothers
      · exact ⟨mem_append_right _ (mem_filterMap.mpr ⟨key, hkey, hrow⟩), hkeyed key hkey row hrow⟩
    · have hempty : fresh.on key = [] := by
        rw [mem_pendingKeys, ← hhas] at hkey
        exact on_eq_nil hkey
      rw [snapshotImage_append, snapshotImage_filter, hempty]
      · rfl
      · rintro row rfl
        exact decide_eq_true hkey
      · rintro row hrow rfl
        obtain ⟨other, hother, hothers⟩ := mem_filterMap.mp hrow
        exact hkey (hkeyed other hother row hothers ▸ hother)
  · rw [hbase, hhas]
    by_cases hkey : ledger.hasPending key = true
    · simp only [if_pos hkey, if_pos (mem_pendingKeys.mpr hkey)]
      rfl
    · simp only [if_neg hkey, if_neg (fun hmem => hkey (mem_pendingKeys.mp hmem))]

theorem replayOver_modify (index : ℕ) (key) (ops : List (PendingOp δ)) (row) :
    replayOver row ((ops.modify index fun op => { op with writerDone := true }).filter
        fun op => op.key = key) =
      replayOver row (ops.filter fun op => op.key = key) := by
  induction ops generalizing index row with
  | nil => cases index <;> rfl
  | cons op ops ih =>
    cases index with
    | zero =>
      by_cases hkey : op.key = key
      · simp [hkey, replayOver]
      · simp [hkey]
    | succ index =>
      by_cases hkey : op.key = key
      · simpa [hkey, replayOver] using ih index (applyKind row op.kind)
      · simpa [hkey] using ih index row

omit [DecidableEq δ] in
theorem map_modify {f : PendingOp δ → β} (hf : ∀ op, f { op with writerDone := true } = f op)
    (index : ℕ) (ops : List (PendingOp δ)) :
    (ops.modify index fun op => { op with writerDone := true }).map f = ops.map f := by
  induction ops generalizing index with
  | nil => cases index <;> rfl
  | cons op ops ih =>
    cases index with
    | zero => simp [hf]
    | succ index => simp [ih index]

theorem any_key_modify (index : ℕ) (key) (ops : List (PendingOp δ)) :
    (ops.modify index fun op => { op with writerDone := true }).any (fun op => op.key = key) =
      ops.any fun op => op.key = key := by
  have hkeys := congrArg (·.any (decide <| · = key))
    (map_modify (f := PendingOp.key) (fun _ => rfl) index ops)
  rw [any_map, any_map] at hkeys
  exact hkeys

omit [DecidableEq δ] in
theorem forall_mem_modify {p : PendingOp δ → Prop}
    (hp : ∀ op, p op → p { op with writerDone := true })
    (index : ℕ) {ops : List (PendingOp δ)} (h : ∀ op ∈ ops, p op) :
    ∀ op ∈ ops.modify index fun op => { op with writerDone := true }, p op := by
  induction ops generalizing index with
  | nil => cases index <;> exact h
  | cons op ops ih =>
    obtain ⟨hop, hops⟩ := forall_mem_cons.mp h
    cases index with
    | zero => exact forall_mem_cons.mpr ⟨hp op hop, hops⟩
    | succ index => exact forall_mem_cons.mpr ⟨hop, ih index hops⟩

theorem Rebased.acknowledge (h : Rebased ledger db server) (index : ℕ) : Rebased { ledger with
      pending := ledger.pending.modify index fun op => { op with writerDone := true } } db
        server where
  visible key := by
    rw [h.visible, TableLedger.on, TableLedger.on, replayOver_modify]
  base key := by
    rw [hasPending, any_key_modify]
    exact h.base key
  fits := forall_mem_modify (fun _ hop => hop) index h.fits

theorem filter_eraseIdx {α : Type} {p : α → Bool} {l : List α} {a : α} (hget : l[index]? = some a)
    (ha : p a = false) : (l.eraseIdx index).filter p = l.filter p := by
  induction l generalizing index with
  | nil => rfl
  | cons b l ih =>
    cases index with
    | zero =>
      obtain rfl : b = a := by simpa using hget
      simp [ha]
    | succ => rw [eraseIdx_cons_succ, filter_cons, filter_cons, ih (by simpa using hget)]

theorem Rebased.rollBack (h : Rebased ledger db server) (hget : ledger.pending[index]? = some op)
    (herase : erased = { ledger with pending := ledger.pending.eraseIdx index }) :
    Rebased (erased.writeFor op.key).2 (db.applyWrite (erased.writeFor op.key).1) server := by
  subst herase
  have hmem : op ∈ ledger.pending := mem_of_getElem? hget
  refine h.write (fun other hother => ?_) (fun _ _ => rfl) (fun _ _ => rfl) ?_ ?_
  · exact filter_eraseIdx hget (decide_eq_false fun heq => hother heq.symm)
  · exact h.base_of_pending (any_eq_true.mpr ⟨op, hmem, decide_eq_true rfl⟩)
  · exact fun other hother => h.fits other (mem_of_mem_eraseIdx hother)

end Ledger

structure StagedMutation (δ : Type) where
  token : MutationToken
  table : String
  key : PrimaryKey δ
  kind : ResolvedKind δ
deriving Repr, DecidableEq

/-- The replica. Two history variables stand beside it: the server's rows, as the client has been
told of them, and the mutations that have been staged and not been reported as settled, conflicted
or failed since. -/
structure Replica (specs : String → TableSpec) (δ : Type) where
  reconciler : Reconciler δ
  db : ∀ table, TableRows (specs table) δ
  server : ∀ table, TableRows (specs table) δ
  unsettled : List (StagedMutation δ)

inductive ReplicaAction (δ : Type) where
  | stage (token : MutationToken) (mutation : Mutation δ)
  | serverChanges (table : String) (changes : List (WireRowChange δ))
  | initial (table : String) (rows : List (WireRow δ))
  | writerFinished (token : MutationToken) (ok : Bool) (order : List String)
deriving Repr, DecidableEq

namespace Replica
variable {δ : Type} [DecidableEq δ]
variable {s : Replica specs δ}

def start (db : ∀ table, TableRows (specs table) δ) : Replica specs δ := ⟨.empty, db, db, []⟩

def write (s : Replica specs δ) (table : String) (writes : List (LocalWrite δ))
    (reconciler : Reconciler δ) : Replica specs δ :=
  { s with
    reconciler := reconciler
    db := update s.db table ((s.db table).applyWrites writes) }

/-- The row currently stored is handed to the ledger. A mutation that does not resolve is
refused. -/
def stage (null : δ) (s : Replica specs δ) (token : MutationToken) (mutation : Mutation δ) :
    Replica specs δ :=
  match resolveMutation (specs mutation.table) null mutation with
  | .error _ => s
  | .ok (key, kind) =>
    let staged := s.reconciler.stage mutation.table token key kind ((s.db mutation.table).get key)
    { s.write mutation.table staged.1 staged.2 with
      unsettled := s.unsettled ++ [⟨token, mutation.table, key, kind⟩] }

def applyChanges (s : Replica specs δ) (table : String) (changes : List (WireRowChange δ)) :
    Replica specs δ :=
  let outcome := s.reconciler.applyServerChanges table changes (specs table).keyOf
  { s.write table outcome.1.writes outcome.2 with
    server := update s.server table (changes.foldl applyChange (s.server table))
    unsettled := s.unsettled.filter fun mutation => mutation.token ∉ outcome.1.reported }

def applyInitial (s : Replica specs δ) (table : String) (rows : List (WireRow δ)) :
    Replica specs δ :=
  let visible := s.reconciler.applyInitial table rows (specs table).keyOf
  { s with
    reconciler := visible.2
    db := update s.db table (replaceRows (specs table) visible.1)
    server := update s.server table (replaceRows (specs table) rows) }

def writerFinished (s : Replica specs δ) (token : MutationToken) (ok : Bool) (order : List String) :
    Replica specs δ :=
  let apply := s.reconciler.writerFinished token ok order
  { match apply.1.table with
    | none => { s with reconciler := apply.2 }
    | some table => s.write table apply.1.writes apply.2 with
    unsettled :=
      if ok then s.unsettled else s.unsettled.filter fun mutation => mutation.token ≠ token }

def step (null : δ) (s : Replica specs δ) : ReplicaAction δ → Replica specs δ
  | .stage token mutation => s.stage null token mutation
  | .serverChanges table changes => s.applyChanges table changes
  | .initial table rows => s.applyInitial table rows
  | .writerFinished token ok order => s.writerFinished token ok order

def Rebased (s : Replica specs δ) : Prop :=
  ∀ table, Client.Rebased (s.reconciler.tables table) (s.db table) (s.server table)

theorem Rebased.update {s' : Replica specs δ} (h : s.Rebased)
    {db server : TableRows (specs table) δ}
    (hled : s'.reconciler.tables = update s.reconciler.tables table ledger)
    (hdb : s'.db = update s.db table db) (hserver : s'.server = update s.server table server)
    (htab : Client.Rebased ledger db server) : s'.Rebased := by
  intro other
  rw [hled, hdb, hserver]
  rcases eq_or_ne other table with rfl | hne
  · rw [update_self, update_self, update_self]
    exact htab
  · rw [update_of_ne hne, update_of_ne hne, update_of_ne hne]
    exact h other

theorem rebased_start (db : ∀ table, TableRows (specs table) δ) : (start db).Rebased :=
  fun _ => ⟨fun _ => rfl, fun _ => rfl, fun _ hop => absurd hop not_mem_nil⟩

variable (h : s.Rebased)
include h

theorem Rebased.stage (null : δ) (token mutation) : (s.stage null token mutation).Rebased := by
  unfold Replica.stage
  split
  · exact h
  next key kind hresolved =>
    exact h.update rfl rfl (update_eq_self ..).symm
      ((h mutation.table).stage token (resolveMutation_fits hresolved) rfl rfl)

theorem Rebased.applyChanges (table changes) : (s.applyChanges table changes).Rebased := by
  obtain ⟨writes, hwr, hnext⟩ := Rebased.foldChanges _
    (keyed_flatMap_images (specs table) changes) (h table) ⟨[], [], []⟩
  refine h.update rfl ?_ (congrArg (Function.update _ _) (foldl_applyChange ..)) hnext
  have hsame : (s.reconciler.applyServerChanges table changes (specs table).keyOf).1.writes =
      writes := hwr
  rw [← hsame]
  rfl

theorem Rebased.applyInitial (table rows) : (s.applyInitial table rows).Rebased :=
  h.update rfl rfl rfl (Client.Rebased.initial (h table).fits rows rfl rfl)

theorem Rebased.writerFinished (token) (ok : Bool) (order) :
    (s.writerFinished token ok order).Rebased := by
  unfold Replica.writerFinished
  rcases s.reconciler.writerFinished_cases token ok order with ⟨hnone, -⟩ |
    ⟨table, -, index, op, hget, -, ⟨-, hdone⟩ | ⟨erased, herase, -, hback⟩⟩
  · rw [hnone]
    exact h
  · rw [hdone]
    exact h.update rfl rfl (update_eq_self ..).symm ((h table).acknowledge index)
  · rw [hback]
    exact h.update rfl rfl (update_eq_self ..).symm ((h table).rollBack hget herase)

theorem Rebased.step (null : δ) (action) : (s.step null action).Rebased := by
  cases action with
  | stage token mutation => exact h.stage null token mutation
  | serverChanges table changes => exact h.applyChanges table changes
  | initial table rows => exact h.applyInitial table rows
  | writerFinished token ok order => exact h.writerFinished token ok order

omit h

/-- What a run may do: a token is not given out again while its mutation is under way, and the
result of a write is looked up in every table that has a mutation under way. -/
def Admits (s : Replica specs δ) : ReplicaAction δ → Prop
  | .stage token _ => token ∉ s.unsettled.map StagedMutation.token
  | .writerFinished _ _ order => ∀ mutation ∈ s.unsettled, mutation.table ∈ order
  | _ => True

def staged (table : String) (op : PendingOp δ) : StagedMutation δ :=
  ⟨op.token, table, op.key, op.kind⟩

/-- The queue of a table is what has been staged on it and not been reported since. -/
structure Recorded (s : Replica specs δ) : Prop where
  queues : ∀ table, (s.reconciler.tables table).pending.map (staged table) =
    s.unsettled.filter fun mutation => mutation.table = table
  tokens : (s.unsettled.map StagedMutation.token).Nodup

theorem eq_filter_of_sublist {α : Type} {f : α → ℕ} {kept all : List α} (hsub : kept.Sublist all)
    (hnodup : (all.map f).Nodup) (hperm : (all.map f).Perm (kept.map f ++ taken)) :
    kept = all.filter fun a => f a ∉ taken := by
  have hdisj := (nodup_append.mp (hperm.nodup_iff.mp hnodup)).2.2
  have hkept : kept.filter (fun a => f a ∉ taken) = kept := by
    rw [filter_eq_self]
    intro a ha
    exact decide_eq_true fun htaken => hdisj _ (mem_map_of_mem ha) _ htaken rfl
  have hle := hsub.filter fun a => decide (f a ∉ taken)
  rw [hkept] at hle
  have hall : (all.filter fun a => decide (f a ∉ taken)) ⊆ kept := by
    intro a ha
    obtain ⟨hall, htaken⟩ := mem_filter.mp ha
    rcases mem_append.mp (hperm.subset (mem_map_of_mem hall)) with hin | hin
    · obtain ⟨b, hb, hsame⟩ := mem_map.mp hin
      exact inj_on_of_nodup_map hnodup (hsub.subset hb) hall hsame ▸ hb
    · exact absurd hin (of_decide_eq_true htaken)
  exact hle.eq_of_length_le (subperm_of_subset ((Nodup.of_map f hnodup).filter _) hall).length_le

omit [DecidableEq δ] in
/-- A call that takes mutations of one table out of its queue and reports them. -/
theorem Recorded.remove {s' : Replica specs δ} (h : s.Recorded) {ledger : TableLedger δ} (gone)
    (htables : s'.reconciler.tables = update s.reconciler.tables table ledger)
    (hunsettled : s'.unsettled = s.unsettled.filter fun mutation => mutation.token ∉ gone)
    (hsub : (ledger.pending.map (staged table)).Sublist
      ((s.reconciler.tables table).pending.map (staged table)))
    (hperm : ((s.reconciler.tables table).pending.map PendingOp.token).Perm
      (ledger.pending.map PendingOp.token ++ gone)) : s'.Recorded := by
  have htoken : ∀ ops : List (PendingOp δ), ops.map PendingOp.token =
      (ops.map (staged table)).map StagedMutation.token := fun ops => by
    rw [map_map]
    rfl
  rw [htoken, htoken, h.queues] at hperm
  rw [h.queues] at hsub
  have htokens := fun keep => h.tokens.sublist
    ((filter_sublist (p := keep)).map StagedMutation.token)
  refine ⟨fun other => ?_, ?_⟩
  · rw [htables, hunsettled, filter_filter]
    rcases eq_or_ne other table with rfl | hother
    · rw [update_self, eq_filter_of_sublist hsub (htokens _) hperm, filter_filter]
      exact filter_congr fun _ _ => Bool.and_comm ..
    · rw [update_of_ne hother, h.queues]
      refine filter_congr fun mutation hmem => ?_
      by_cases htable : mutation.table = other
      · -- a token of the other table is none of those taken
        have hkept : mutation.token ∉ gone := by
          intro hgone
          obtain ⟨found, hfound, hsame⟩ := mem_map.mp (hperm.symm.subset (mem_append_right _ hgone))
          obtain ⟨hin, htab⟩ := mem_filter.mp hfound
          have heq := inj_on_of_nodup_map h.tokens hin hmem hsame
          rw [heq, htable] at htab
          exact hother (of_decide_eq_true htab)
        simp [htable, hkept]
      · simp [htable]
  · rw [hunsettled]
    exact htokens _

omit [DecidableEq δ] in
theorem recorded_start (db : ∀ table, TableRows (specs table) δ) : (start db).Recorded :=
  ⟨fun _ => rfl, .nil⟩

theorem Recorded.stage (h : s.Recorded) (null : δ) (mutation)
    (hfresh : token ∉ s.unsettled.map StagedMutation.token) :
    (s.stage null token mutation).Recorded := by
  unfold Replica.stage
  split
  · exact h
  next key kind _ =>
    refine ⟨fun table => ?_, ?_⟩
    · simp only [Replica.write]
      rw [pending_stage, map_append, h.queues, filter_append]
      rcases eq_or_ne table mutation.table with rfl | hother
      · simp [staged]
      · simp [hother, hother.symm]
    · rw [map_append]
      exact h.tokens.append (nodup_singleton _) (disjoint_singleton.mpr hfresh)

theorem Recorded.applyChanges (h : s.Recorded) (table changes) :
    (s.applyChanges table changes).Recorded := by
  obtain ⟨hsub, hperm⟩ := foldChanges_kept (changes.flatMap (images (specs table).keyOf))
    (s.reconciler.tables table) ⟨[], [], []⟩
  exact h.remove _ rfl rfl (hsub.map _) ((Perm.of_eq (append_nil _).symm).trans hperm)

theorem Recorded.applyInitial (h : s.Recorded) (table rows) :
    (s.applyInitial table rows).Recorded := by
  refine h.remove [] rfl (by simp [Replica.applyInitial]) (.refl _) ?_
  rw [append_nil]

theorem Recorded.writerFinished (h : s.Recorded) (ok : Bool)
    (horder : ∀ mutation ∈ s.unsettled, mutation.table ∈ order) :
    (s.writerFinished token ok order).Recorded := by
  unfold Replica.writerFinished
  rcases s.reconciler.writerFinished_cases token ok order with ⟨hnone, habsent⟩ |
    ⟨table, -, index, op, hget, htoken, ⟨hok, hdone⟩ | ⟨erased, herase, hfailed, hback⟩⟩
  · rw [hnone]
    have hkept : (s.unsettled.filter fun mutation => mutation.token ≠ token) = s.unsettled := by
      rw [filter_eq_self]
      intro mutation hmem
      have hqueued : mutation ∈
          (s.reconciler.tables mutation.table).pending.map (staged mutation.table) := by
        rw [h.queues]
        exact mem_filter.mpr ⟨hmem, decide_eq_true rfl⟩
      obtain ⟨op, hop, hsame⟩ := mem_map.mp hqueued
      rw [← hsame]
      exact decide_eq_true (habsent _ (horder mutation hmem) op hop)
    simp only [hkept, ite_self]
    exact h
  · rw [hdone]
    refine h.remove [] rfl (by simp [hok]) ?_ ?_
    · rw [map_modify fun _ => rfl]
    · rw [map_modify fun _ => rfl, append_nil]
  · rw [hback]
    subst herase
    refine h.remove [token] rfl (by simp [hfailed]) ?_ ?_
    · rw [writeFor_pending]
      exact (eraseIdx_sublist _ _).map _
    · rw [writeFor_pending, ← htoken]
      obtain ⟨hlt, hop⟩ := List.getElem?_eq_some_iff.mp hget
      have hperm := (getElem_cons_eraseIdx_perm hlt).symm.map PendingOp.token
      rw [hop] at hperm
      exact hperm.trans (perm_append_singleton _ _).symm

theorem Recorded.step (h : s.Recorded) (null : δ) {action} (hadmits : s.Admits action) :
    (s.step null action).Recorded := by
  cases action with
  | stage token mutation => exact h.stage null mutation hadmits
  | serverChanges table changes => exact h.applyChanges table changes
  | initial table rows => exact h.applyInitial table rows
  | writerFinished token ok order => exact h.writerFinished ok hadmits

def underWay (s : Replica specs δ) (table : String) (key : PrimaryKey δ) : List (ResolvedKind δ) :=
  (s.unsettled.filter fun mutation => mutation.table = table ∧ mutation.key = key).map
    StagedMutation.kind

theorem Recorded.underWay_eq (h : s.Recorded) (table key) :
    s.underWay table key = ((s.reconciler.tables table).on key).map PendingOp.kind := by
  have hsplit : (s.unsettled.filter fun mutation => mutation.table = table ∧ mutation.key = key) =
      ((s.reconciler.tables table).pending.map (staged table)).filter
        fun mutation => mutation.key = key := by
    rw [h.queues, filter_filter]
    simp [Bool.and_comm]
  rw [underWay, hsplit, filter_map, map_map]
  rfl

/-- Whatever is staged, and in whatever order the server's changes, snapshots and write results come
in, the stored rows are the server's with the mutations under way on top, and the ledger holds the
server's image of exactly the keys that have some. -/
theorem stored_rows_rebased (null : δ) (db : ∀ table, TableRows (specs table) δ)
    (h : Runs.Reached (step null) Admits (start db) s) (table : String) (key : PrimaryKey δ) :
    (s.db table).get key = (s.underWay table key).foldl applyKind ((s.server table).get key) ∧
      (s.reconciler.tables table).base key =
        if s.underWay table key = [] then none else some ((s.server table).get key) := by
  obtain ⟨hrebased, hrecorded⟩ := h.invariant (P := fun s => s.Rebased ∧ s.Recorded)
    ⟨rebased_start db, recorded_start db⟩
    fun _ _ ⟨hrebased, hrecorded⟩ hadmits => ⟨hrebased.step null _, hrecorded.step null hadmits⟩
  rw [hrecorded.underWay_eq, foldl_map]
  refine ⟨(hrebased table).visible key, ?_⟩
  rw [(hrebased table).base]
  by_cases hpending : (s.reconciler.tables table).hasPending key = true
  · rw [if_pos hpending, if_neg (map_eq_nil_iff.not.mpr (hasPending_iff.mp hpending))]
  · rw [if_neg hpending, if_pos (map_eq_nil_iff.mpr (on_eq_nil hpending))]

def notes (_ : String) : TableSpec := ⟨"notes", ⟨["id", "length"], [0]⟩⟩

/-- Two mutations of one note, a change of it by someone else in between, and a write that fails. -/
def edits : List (ReplicaAction ℕ) :=
  [.stage 1 (.update "notes" [("id", 1)] [("length", 5)]),
    .serverChanges "notes" [⟨.update, some [1, 0], some [1, 7]⟩],
    .stage 2 (.delete "notes" [("id", 1)]), .writerFinished 2 false ["notes"]]

def edited : Replica notes ℕ :=
  edits.foldl (step 0) (start fun table => .replaceRows (notes table) [[1, 0]])

theorem edited_rebased : (edited.server "notes").get [1] = some [1, 7] ∧
    edited.underWay "notes" [1] = [.update [(1, 5)]] ∧ (edited.db "notes").get [1] =
      (edited.underWay "notes" [1]).foldl applyKind ((edited.server "notes").get [1]) ∧
    (edited.reconciler.tables "notes").base [1] =
      if edited.underWay "notes" [1] = [] then none
      else some ((edited.server "notes").get [1]) := by
  have hrun : Runs.Schedule (step 0) Admits (start fun table => .replaceRows (notes table) [[1, 0]])
      edits := by
    refine .cons ?_ (.cons trivial (.cons ?_ (.cons ?_ (.nil _))))
    · exact not_mem_nil
    · show 2 ∉ _
      decide +kernel
    · show ∀ mutation ∈ _, _
      decide +kernel
  exact ⟨by decide +kernel, by decide +kernel,
    stored_rows_rebased 0 _ (hrun.reached .start) "notes" [1]⟩

end Replica

end Palimpsest.Client
