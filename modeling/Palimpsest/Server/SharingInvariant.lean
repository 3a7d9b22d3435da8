import Palimpsest.Server.Sharing

/-! What holds of the subscribers of a shared query in between steps: the plan has seen everything
up to its LSN, and every subscriber has been told, or is about to be told, what the plan holds. -/
namespace Palimpsest.Server
open Sql Dataflow List Sharing

@[simp] def SharingPhase.stamp {δ : Type} : SharingPhase δ → Option Lsn
  | .looked (some view) => some view.2
  | .opened prepared => some prepared.snapshotLsn
  | .registered snapshotLsn _ | .seeded _ snapshotLsn | .accepted snapshotLsn => some snapshotLsn
  | _ => none

@[simp] def SharingPhase.toSeed {δ : Type} : SharingPhase δ → Option (Inputs δ × Lsn)
  | .opened prepared =>
    if prepared.seedUpdates = [] then none
    else some (groupSeed prepared.seedUpdates, prepared.snapshotLsn)
  | .registered snapshotLsn seedUpdates =>
    if seedUpdates = [] then none else some (groupSeed seedUpdates, snapshotLsn)
  | .seeded inputs snapshotLsn => some (inputs, snapshotLsn)
  | _ => none

namespace Sharing
variable {δ : Type}

def opening : List (DiffEvent δ) → Option (Lsn × List (Row δ) × List (DiffEvent δ))
  | .initial lsn rows :: rest => some (lsn, rows, rest)
  | _ => none

/-- The first rows a subscriber was given, and the events queued since. -/
@[simp] def account (s : Sharing δ) (id : SubscriptionId) :
    Option (Lsn × List (Row δ) × List (DiffEvent δ)) :=
  match s.calls id with
  | .idle | .looked none | .rejected => none
  | .looked (some (rows, lsn)) => some (lsn, rows, [])
  | _ => opening (s.log id)

theorem opening_concat {log : List (DiffEvent δ)} (hev : event.updateLsn.isSome)
    (h : opening (log ++ [event]) = some (lsn, rows, events)) :
    ∃ prev, events = prev ++ [event] ∧ opening log = some (lsn, rows, prev) := by
  cases log with
  | nil =>
    cases event with
    | initial | resync => cases hev
    | transactionUpdate => cases h
  | cons first rest =>
    cases first with
    | initial =>
      cases h
      exact ⟨rest, rfl, rfl⟩
    | resync | transactionUpdate => cases h

section
variable {wal : List (QueryTransactionDelta δ)}

theorem upTo_concat (h : lsn < delta.commitLsn) : upTo (wal ++ [delta]) lsn = upTo wal lsn := by
  rw [upTo, filter_append, filter_cons_of_neg (by simpa using h), filter_nil, append_nil]
  rfl

theorem upTo_eq_self (h : ∀ delta ∈ wal, delta.commitLsn ≤ lsn) : upTo wal lsn = wal :=
  filter_eq_self.mpr fun delta hdelta => decide_eq_true (h delta hdelta)

theorem mem_upTo : delta ∈ upTo wal lsn ↔ delta ∈ wal ∧ delta.commitLsn ≤ lsn := by
  simp [upTo]

theorem upTo_prefix (hsort : wal.Pairwise fun a b => a.commitLsn < b.commitLsn) (lsn : Lsn) :
    upTo wal lsn <+: wal := by
  induction wal with
  | nil => exact prefix_refl _
  | cons first rest ih =>
    rw [pairwise_cons] at hsort
    by_cases hfirst : first.commitLsn ≤ lsn
    · rw [upTo, filter_cons_of_pos (by simpa using hfirst)]
      exact cons_prefix_cons.mpr ⟨rfl, ih hsort.2⟩
    · have hnil : upTo (first :: rest) lsn = [] := by
        rw [upTo, filter_eq_nil_iff]
        intro delta hdelta
        rw [decide_eq_true_eq]
        rcases mem_cons.mp hdelta with rfl | hrest
        · exact hfirst
        · have := hsort.1 delta hrest
          lia
      rw [hnil]
      exact nil_prefix

theorem upTo_next {s : Sharing δ} (hsort : s.wal.Pairwise fun a b => a.commitLsn < b.commitLsn)
    (h : s.next cursorLsn = some delta) :
    upTo s.wal delta.commitLsn = upTo s.wal cursorLsn ++ [delta] ∧ cursorLsn < delta.commitLsn ∧
      delta ∈ s.wal := by
  obtain ⟨hlt, before, after, hwal, hwas⟩ := find?_eq_some_iff_append.mp h
  have hlt : cursorLsn < delta.commitLsn := of_decide_eq_true hlt
  have hle : ∀ earlier ∈ before, earlier.commitLsn ≤ cursorLsn := fun earlier hearly => by
    simpa using hwas earlier hearly
  rw [hwal, pairwise_append, pairwise_cons] at hsort
  have hnow : ∀ lsn, lsn ≤ delta.commitLsn → upTo after lsn = [] := by
    intro lsn hlsn
    rw [upTo, filter_eq_nil_iff]
    intro later hlater
    have := hsort.2.1.1 later hlater
    lia
  have hfront : ∀ lsn, cursorLsn ≤ lsn → upTo before lsn = before := fun lsn hlsn =>
    upTo_eq_self fun earlier hearly => (hle earlier hearly).trans hlsn
  have hsplit : ∀ lsn, upTo (before ++ delta :: after) lsn =
      upTo before lsn ++ (upTo [delta] lsn ++ upTo after lsn) := by
    intro lsn
    simp [upTo, filter_cons]
    split <;> rfl
  refine ⟨?_, hlt, hwal ▸ mem_append_right _ mem_cons_self⟩
  rw [hwal, hsplit, hsplit, hfront _ hlt.le, hfront _ le_rfl, hnow _ le_rfl, hnow _ hlt.le]
  have hin : upTo [delta] delta.commitLsn = [delta] := by simp [upTo]
  have hout : upTo [delta] cursorLsn = [] := by simpa [upTo] using hlt
  simp [hin, hout]

end

end Sharing

namespace SharedQuery
variable {δ : Type} [DecidableEq δ] (q : SharedQuery δ)

structure Sound (s : Sharing δ) : Prop where
  sorted : s.wal.Pairwise fun a b => a.commitLsn < b.commitLsn
  range : ∀ delta ∈ s.wal, 0 < delta.commitLsn ∧ delta.commitLsn < maxLsn ∧
    delta.commitLsn ≤ s.clock
  base : ∀ before, before <+: s.wal → IsBase q.base (before.map q.batchOf)
    (accumulated q.base (before.map q.batchOf))
  outputs : ∀ before, before <+: s.wal → (q.outputAfter before).isSome

/-- Inputs that hold the tables after some transactions. -/
def SeedOf (transactions : List (QueryTransactionDelta δ)) (inputs : Inputs δ) : Prop :=
  ∀ table ∈ q.plan.tables, (inputs table : Multiset (Row δ)) =
    accumulated q.base (transactions.map q.batchOf) table

/-- The plan in the host has seen everything up to its LSN. -/
structure Planned (s : Sharing δ) (state : PlanState δ) : Prop where
  known : state.lastLsn ≤ s.clock
  nodup : state.subscribers.Nodup
  serves : ∃ inputs before after, upTo s.wal state.lastLsn = before ++ after ∧
    q.SeedOf before inputs ∧ Serves q.runtime q.graph q.plan q.canonical inputs
      (after.map q.batchOf) s.host state
  inStep : ∀ pump, s.pump = some pump → upTo s.wal pump.cursorLsn = upTo s.wal state.lastLsn

structure Kept (s : Sharing δ) (id : SubscriptionId) : Prop where
  stamped : ∀ lsn, (s.calls id).stamp = some lsn → lsn ≤ s.clock
  queued : ∀ lsn rows rest, s.account id = some (lsn, rows, rest) → q.Ledger s lsn rows rest
  pending : ∀ lsn rows rest, s.account id = some (lsn, rows, rest) → s.Listening id →
    q.Ledger s lsn rows (rest ++ s.pendingFor id)
  attached : ∀ lsn rows rest state, s.account id = some (lsn, rows, rest) → s.Listening id →
    s.host.plans q.canonical = some state → id ∈ state.subscribers →
      (∀ row, tally rows (rest ++ s.pendingFor id) row =
        (state.lastOutput : Multiset (Row δ)).count row) ∧
      ∀ known ∈ lsn :: (rest ++ s.pendingFor id).filterMap DiffEvent.updateLsn,
        ∀ delta ∈ s.wal, delta.commitLsn ≤ known → delta.commitLsn ≤ state.lastLsn
  detached : s.calls id = .idle ∨ s.calls id = .looked none ∨ ((s.calls id).toSeed).isSome →
    (∀ state, s.host.plans q.canonical = some state → id ∉ state.subscribers) ∧ s.pendingFor id = []
  cold : ∀ inputs lsn, (s.calls id).toSeed = some (inputs, lsn) →
    (s.calls id).stamp = some lsn ∧ q.SeedOf (upTo s.wal lsn) inputs ∧
      (∀ out, q.outputAt s lsn = some out → out.Nodup) ∧
      ∀ first rows rest, s.account id = some (first, rows, rest) →
        first = lsn ∧ rest = [] ∧ q.outputAt s lsn = some (rows : Multiset (Row δ))

structure Tracked (s : Sharing δ) : Prop where
  sound : q.Sound s
  planned : ∀ state, s.host.plans q.canonical = some state → q.Planned s state
  cursor : ∀ pump, s.pump = some pump → pump.cursorLsn ≤ s.clock
  targets : ∀ cursorLsn event targets, s.pump = some ⟨cursorLsn, some (event, targets)⟩ →
    targets.Nodup ∧ event.updateLsn.isSome
  kept : ∀ id, q.Kept s id

/-- The call has not come to where it joins a plan or starts its own. -/
@[simp] def Apart (s : Sharing δ) (id : SubscriptionId) : Prop :=
  s.calls id = .idle ∨ s.calls id = .looked none ∨ ((s.calls id).toSeed).isSome

/-- A subscriber of the plan was one before, and the plan has not moved. -/
def Carried (s s' : Sharing δ) (id : SubscriptionId) : Prop :=
  ∀ state', s'.host.plans q.canonical = some state' → id ∈ state'.subscribers →
    ∃ state, s.host.plans q.canonical = some state ∧ id ∈ state.subscribers ∧
      state'.lastOutput = state.lastOutput ∧ state'.lastLsn = state.lastLsn

variable {q}
variable {id : SubscriptionId}

theorem carried_same (h : s'.host = s.host) : q.Carried s s' id :=
  fun state hst hmem => ⟨state, h ▸ hst, hmem, rfl, rfl⟩

theorem tracked_start : q.Tracked .start where
  sound :=
    { sorted := .nil
      range := fun _ h => absurd h not_mem_nil
      base := by
        intro prev hwas table row
        rw [prefix_nil.mp hwas]
        refine Changes.count_total ?_
        simp only [map_nil, changesOf, flatMap_nil, append_nil]
        rw [SignedBag.net_map_const]
        positivity
      outputs := fun prev hwas => by
        rw [prefix_nil.mp hwas]
        exact q.starts }
  planned := fun _ h => nomatch h
  cursor := fun _ h => nomatch h
  targets := fun _ _ _ h => nomatch h
  kept := fun id =>
    { stamped := fun _ h => nomatch (h : none = some _)
      queued := fun _ _ _ h => nomatch h
      pending := fun _ _ _ h => nomatch h
      attached := fun _ _ _ _ h => nomatch h
      detached := fun _ => ⟨(fun _ h => nomatch (h : none = some _)), rfl⟩
      cold := fun _ _ h => nomatch (h : none = some _) }

theorem Ledger.congr (h : q.Ledger s lsn rows events) (hclock : s.clock ≤ s'.clock)
    (hupTo : ∀ lsn ≤ s.clock, upTo s'.wal lsn = upTo s.wal lsn) : q.Ledger s' lsn rows events := by
  refine ⟨h.rising, fun known hknown => (h.known known hknown).trans hclock, ?_⟩
  rintro done event later rfl
  obtain ⟨pos, out, hpos, hout, hsum⟩ := h.sums done event later rfl
  have hmem : pos ∈ lsn :: (done ++ event :: later).filterMap DiffEvent.updateLsn :=
    mem_cons_of_mem _ (mem_filterMap.mpr
      ⟨event, mem_append_right _ mem_cons_self, hpos⟩)
  refine ⟨pos, out, hpos, ?_, hsum⟩
  rw [outputAt, hupTo pos (h.known pos hmem)]
  exact hout

theorem ledger_nil (rows) (h : lsn ≤ s.clock) : q.Ledger s lsn rows [] where
  rising := pairwise_singleton _ _
  known known hknown := by
    rw [filterMap_nil, mem_singleton] at hknown
    exact hknown ▸ h
  sums done event later hsplit := by
    cases done <;> cases hsplit

theorem Ledger.concat (h : q.Ledger s lsn rows events) (hpos : event.updateLsn = some pos)
    (hclock : pos ≤ s.clock)
    (hlater : ∀ known ∈ lsn :: events.filterMap DiffEvent.updateLsn, known < pos)
    (hout : q.outputAt s pos = some out)
    (hsum : ∀ row, tally rows (events ++ [event]) row = out.count row) :
    q.Ledger s lsn rows (events ++ [event]) := by
  have hlsns : lsn :: (events ++ [event]).filterMap DiffEvent.updateLsn =
      (lsn :: events.filterMap DiffEvent.updateLsn) ++ [pos] := by
    simp [hpos]
  refine ⟨?_, ?_, ?_⟩
  · rw [hlsns, pairwise_append]
    refine ⟨h.rising, pairwise_singleton _ _, fun known hknown last hlast => ?_⟩
    rw [mem_singleton.mp hlast]
    exact hlater known hknown
  · rw [hlsns]
    intro known hknown
    rcases mem_append.mp hknown with hold | hnew
    · exact h.known known hold
    · rw [mem_singleton.mp hnew]
      exact hclock
  · intro done other later hsplit
    rcases eq_nil_or_concat' later with rfl | ⟨later, last, rfl⟩
    · obtain ⟨rfl, ⟨⟩⟩ := append_inj' hsplit rfl
      exact ⟨pos, out, hpos, hout, hsum⟩
    · rw [← cons_append, ← append_assoc] at hsplit
      exact h.sums done other later (append_inj' hsplit rfl).1

/-- A step that leaves a subscriber's part of the state alone. The server may have gone on. -/
theorem Kept.frame (h : q.Kept s id) (hclock : s.clock ≤ s'.clock)
    (hupTo : ∀ lsn ≤ s.clock, upTo s'.wal lsn = upTo s.wal lsn)
    (hstamp : ∀ lsn, (s'.calls id).stamp = some lsn → (s.calls id).stamp = some lsn)
    (haccount : ∀ told, s'.account id = some told → s.account id = some told)
    (hidle : s'.calls id = .idle ∨ s'.calls id = .looked none →
      s.calls id = .idle ∨ s.calls id = .looked none)
    (hseed : ∀ due, (s'.calls id).toSeed = some due → (s.calls id).toSeed = some due ∧
      (s'.calls id).stamp = (s.calls id).stamp) (hpend : s'.pendingFor id = s.pendingFor id)
    (hlistens : s'.Listening id → s.Listening id) (hplans : q.Carried s s' id) : q.Kept s' id := by
  have hled : ∀ lsn rows events, q.Ledger s lsn rows events → q.Ledger s' lsn rows events :=
    fun lsn rows events hl => hl.congr hclock hupTo
  refine ⟨?_, ?_, ?_, ?_, ?_, ?_⟩
  · intro lsn hlsn
    exact (h.stamped lsn (hstamp lsn hlsn)).trans hclock
  · intro lsn rows rest hrest
    exact hled _ _ _ (h.queued lsn rows rest (haccount _ hrest))
  · intro lsn rows rest hrest hl
    rw [hpend]
    exact hled _ _ _ (h.pending lsn rows rest (haccount _ hrest) (hlistens hl))
  · intro lsn rows rest state' hrest hl hst' hmem
    obtain ⟨state, hst, hmem, hout, hlast⟩ := hplans state' hst' hmem
    rw [hpend, hout, hlast]
    obtain ⟨hsum, hknown⟩ :=
      h.attached lsn rows rest state (haccount _ hrest) (hlistens hl) hst hmem
    refine ⟨hsum, fun known hmem delta hdelta hle => ?_⟩
    have hclock := (h.pending lsn rows rest (haccount _ hrest) (hlistens hl)).known known hmem
    -- a transaction no later than a known LSN was there before
    have hold : delta ∈ upTo s.wal known := by
      rw [← hupTo known hclock]
      exact mem_upTo.mpr ⟨hdelta, hle⟩
    exact hknown known hmem delta (mem_upTo.mp hold).1 hle
  · intro hphase
    have hwas : Apart s id := by
      rcases hphase with hphase | hphase | hphase
      · exact (hidle (.inl hphase)).imp_right .inl
      · exact (hidle (.inr hphase)).imp_right .inl
      · obtain ⟨due, hdue⟩ := Option.isSome_iff_exists.mp hphase
        exact .inr (.inr (Option.isSome_iff_exists.mpr ⟨due, (hseed due hdue).1⟩))
    obtain ⟨hnone, hnil⟩ := h.detached hwas
    refine ⟨fun state' hst' hmem => ?_, hpend.trans hnil⟩
    obtain ⟨state, hst, hmem, -⟩ := hplans state' hst' hmem
    exact hnone state hst hmem
  · intro inputs lsn hdue
    obtain ⟨hdue, hsame⟩ := hseed _ hdue
    obtain ⟨hlsn, hins, hnd, htold⟩ := h.cold inputs lsn hdue
    rw [outputAt, hupTo lsn (h.stamped lsn hlsn)]
    exact ⟨hsame.trans hlsn, hins, hnd, fun first rows rest hrest =>
      htold first rows rest (haccount _ hrest)⟩

theorem Kept.frame_same (h : q.Kept s id) (hclock : s.clock ≤ s'.clock)
    (hupTo : ∀ lsn ≤ s.clock, upTo s'.wal lsn = upTo s.wal lsn)
    (hcalls : s'.calls id = s.calls id) (hlog : s'.log id = s.log id)
    (hpend : s'.pendingFor id = s.pendingFor id)
    (hlistens : s'.Listening id → s.Listening id) (hplans : q.Carried s s' id) : q.Kept s' id := by
  refine h.frame hclock hupTo ?_ ?_ ?_ ?_ hpend hlistens hplans
  · exact fun lsn hlsn => hcalls ▸ hlsn
  · intro told htold
    rwa [account, hcalls, hlog] at htold
  · exact fun hphase => hcalls ▸ hphase
  · exact fun due hdue => ⟨hcalls ▸ hdue, by rw [hcalls]⟩

section

theorem Sound.upTo_prefix (h : q.Sound s) (lsn : Lsn) : Sharing.upTo s.wal lsn <+: s.wal :=
  Sharing.upTo_prefix h.sorted lsn

theorem Sound.upTo_clock (h : q.Sound s) : upTo s.wal s.clock = s.wal :=
  upTo_eq_self fun delta hdelta => (h.range delta hdelta).2.2

/-- A plan seeded after some transactions and fed the later ones. -/
theorem Sound.value_seeded (h : q.Sound s) {after : List (QueryTransactionDelta δ)}
    (hpre : past ++ after <+: s.wal) (hseed : q.SeedOf past inputs) :
    value q.runtime q.plan inputs (after.map q.batchOf) = q.outputAfter (past ++ after) := by
  refine eval_congr q.runtime.values q.runtime.rounds q.plan fun table htab => ?_
  ext row
  have hwas := h.base past ((prefix_append past after).trans hpre) table row
  have hall := h.base (past ++ after) hpre table row
  rw [← hseed table htab, Multiset.coe_count] at hwas
  have hsplit : SignedBag.net (changesOf q.base ((past ++ after).map q.batchOf) table) row =
      SignedBag.net (changesOf inputs (after.map q.batchOf) table) row := by
    have happ : changesOf q.base ((past ++ after).map q.batchOf) table =
        changesOf q.base (past.map q.batchOf) table ++
          (after.map q.batchOf).flatMap fun batch => batch.changes table := by
      simp [changesOf]
    rw [happ, SignedBag.net_append, ← hwas, changesOf, SignedBag.net_append,
      SignedBag.net_map_const, mul_one]
  rw [hsplit] at hall
  have hcount := Changes.count_total (hall ▸ Int.natCast_nonneg _)
  exact_mod_cast hcount.trans hall.symm

theorem Planned.output (hsound : q.Sound s) (h : q.Planned s state) :
    q.outputAt s state.lastLsn = some (state.lastOutput : Multiset (Row δ)) := by
  obtain ⟨inputs, prev, after, hupTo, hseed, hserves⟩ := h.serves
  have hpre : prev ++ after <+: s.wal := hupTo ▸ hsound.upTo_prefix _
  rw [outputAt, hupTo, ← hsound.value_seeded hpre hseed, hserves.view]

theorem Planned.resubscribe (h : q.Planned s state) (hwal : s'.wal = s.wal)
    (hclock : s'.clock = s.clock) (hpump : s'.pump = s.pump)
    (hplans : s'.host.plans q.canonical = some { state with subscribers := subscribers })
    (hnd : subscribers.Nodup) : q.Planned s' { state with subscribers := subscribers } := by
  obtain ⟨inputs, prev, after, hupTo, hseed, hserves⟩ := h.serves
  refine ⟨hclock ▸ h.known, hnd, ⟨inputs, prev, after, hwal ▸ hupTo, hseed, ?_⟩, ?_⟩
  · exact ⟨hplans, hserves.graph_eq, hserves.commands, hserves.view, hserves.fed⟩
  · rw [hwal, hpump]
    exact h.inStep

theorem Sound.congr (h : q.Sound s) (hwal : s'.wal = s.wal) (hclock : s'.clock = s.clock) :
    q.Sound s' := by
  refine ⟨hwal ▸ h.sorted, ?_, hwal ▸ h.base, hwal ▸ h.outputs⟩
  rw [hwal, hclock]
  exact h.range

theorem Planned.congr (h : q.Planned s state) (hwal : s'.wal = s.wal)
    (hclock : s'.clock = s.clock) (hhost : s'.host = s.host)
    (hpump : ∀ pump, s'.pump = some pump → ∃ pump', s.pump = some pump' ∧
      pump'.cursorLsn = pump.cursorLsn) : q.Planned s' state := by
  obtain ⟨inputs, prev, after, hupTo, hseed, hserves⟩ := h.serves
  refine ⟨hclock ▸ h.known, h.nodup, ⟨inputs, prev, after, hwal ▸ hupTo, hseed, hhost ▸ hserves⟩,
    fun pump hsome => ?_⟩
  obtain ⟨pump', hpump', hcursor⟩ := hpump pump hsome
  rw [hwal, ← hcursor]
  exact h.inStep pump' hpump'

end

section

theorem tracked_pass (h : q.Tracked s) (hlsn : s.clock ≤ lsn) :
    q.Tracked { s with clock := lsn } where
  sound :=
    { sorted := h.sound.sorted
      range := fun delta hdelta =>
        have hrange := h.sound.range delta hdelta
        ⟨hrange.1, hrange.2.1, hrange.2.2.trans hlsn⟩
      base := h.sound.base
      outputs := h.sound.outputs }
  planned state hst :=
    have hplanned := h.planned state hst
    ⟨hplanned.known.trans hlsn, hplanned.nodup, hplanned.serves, hplanned.inStep⟩
  cursor pump hpump := (h.cursor pump hpump).trans hlsn
  targets := h.targets
  kept id :=
    (h.kept id).frame_same hlsn (fun _ _ => rfl) rfl rfl rfl (fun hl => hl) (carried_same rfl)

theorem tracked_commit (h : q.Tracked s) (henv : q.Environment s (.commit delta))
    (hmax : delta.commitLsn ≠ maxLsn) :
    q.Tracked { s with wal := s.wal ++ [delta], clock := delta.commitLsn } := by
  obtain ⟨hclock, hle, -, hbase, houtput⟩ := henv
  have hupTo : ∀ lsn ≤ s.clock, upTo (s.wal ++ [delta]) lsn = upTo s.wal lsn :=
    fun lsn hlsn => upTo_concat (Nat.lt_of_le_of_lt hlsn hclock)
  have hpre : ∀ prev, prev <+: s.wal ++ [delta] → prev = s.wal ++ [delta] ∨
      prev <+: s.wal := fun prev hwas => prefix_concat_iff.mp hwas
  refine ⟨⟨?_, ?_, ?_, ?_⟩, ?_, ?_, h.targets, fun id => (h.kept id).frame_same hclock.le hupTo rfl
    rfl rfl (fun hl => hl) (carried_same rfl)⟩
  · rw [pairwise_append]
    refine ⟨h.sound.sorted, pairwise_singleton _ _, fun earlier hearly last hlast => ?_⟩
    rw [mem_singleton.mp hlast]
    exact lt_of_le_of_lt (h.sound.range earlier hearly).2.2 hclock
  · intro txn hmem
    rcases mem_append.mp hmem with hold | hnew
    · have hrange := h.sound.range txn hold
      exact ⟨hrange.1, hrange.2.1, hrange.2.2.trans hclock.le⟩
    · rw [mem_singleton.mp hnew]
      exact ⟨Nat.zero_lt_of_lt hclock, lt_of_le_of_ne hle hmax, le_rfl⟩
  · intro prev hwas
    rcases hpre prev hwas with rfl | hold
    · exact hbase
    · exact h.sound.base prev hold
  · intro prev hwas
    rcases hpre prev hwas with rfl | hold
    · exact houtput
    · exact h.sound.outputs prev hold
  · intro state hst
    have hplanned := h.planned state hst
    obtain ⟨inputs, prev, after, hsplit, hseed, hserves⟩ := hplanned.serves
    refine ⟨hplanned.known.trans hclock.le, hplanned.nodup,
      ⟨inputs, prev, after, (hupTo _ hplanned.known).trans hsplit, hseed, hserves⟩,
      fun pump hpump => ?_⟩
    rw [hupTo _ hplanned.known, hupTo _ (h.cursor pump hpump)]
    exact hplanned.inStep pump hpump
  · exact fun pump hpump => (h.cursor pump hpump).trans hclock.le

end

end SharedQuery

end Palimpsest.Server
