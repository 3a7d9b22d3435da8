import Palimpsest.Server.SharingCalls

/-! The pump hands every change of the shared plan to every subscriber, and with it every run that
keeps the order conditions keeps its subscribers coherent. -/
namespace Palimpsest.Server
open Sql Dataflow Function List Sharing

namespace SharedQuery
variable {δ : Type} [DecidableEq δ] {q : SharedQuery δ} {s : Sharing δ}

section Pump

variable {new : Multiset (Row δ)} {delta : QueryTransactionDelta δ} {state : PlanState δ}

theorem unit_of_between
    (h : ∀ row, new.count row ≤ old.count row + 1 ∧ old.count row ≤ new.count row + 1)
    (hchange : change ∈ Changes.between listing old new) : change.2 = 1 ∨ change.2 = -1 := by
  obtain ⟨hdiff, hne⟩ := Changes.mem_between hchange
  have := h change.1
  omega

/-- What the pump hands out is the difference of the plan's outputs. -/
theorem net_event (keyOf delta) (lsn : Lsn)
    (h : ∀ row, new.count row ≤ old.count row + 1 ∧ old.count row ≤ new.count row + 1) (row) :
    SignedBag.net (pairTransaction keyOf (outputDelta delta
      ((Changes.between listing old new).map fun change => ⟨change.1, lsn, change.2⟩))).signed row =
      new.count row - old.count row := by
  have hunit : ∀ diff ∈ (outputDelta delta ((Changes.between listing old new).map fun change =>
      ⟨change.1, lsn, change.2⟩)).diffs, diff.diff = 1 ∨ diff.diff = -1 := by
    refine forall_mem_map.mpr fun aggregate haggregate => ?_
    obtain ⟨change, hchange, rfl⟩ := mem_map.mp haggregate
    exact unit_of_between h hchange
  have hpair := net_pairChanges_of_unit keyOf hunit row
  have hdiffs : ((outputDelta delta ((Changes.between listing old new).map fun change =>
      (⟨change.1, lsn, change.2⟩ : AggregateDelta δ))).diffs.map fun diff =>
        (diff.row, diff.diff)) = Changes.between listing old new := by
    simp only [outputDelta, map_map]
    exact map_id _
  rwa [hdiffs, Changes.net_between] at hpair

variable (q s) in
/-- The plan has been fed a transaction, and the pump has its changes to hand out. -/
def fed (state : PlanState δ) (delta : QueryTransactionDelta δ) (deltas : List (AggregateDelta δ)) :
    Sharing δ :=
  { s with
    host := s.host.put q.canonical (state.folded (q.batchOf delta) deltas)
    pump := some ⟨delta.commitLsn,
      if deltas = [] then none
      else some (pairTransaction q.keyOf (outputDelta delta deltas), state.subscribers)⟩ }

/-- The next transaction is fed to a plan that is in step with the pump. -/
theorem Tracked.feed (h : q.Tracked s) (hpump : s.pump = some ⟨cursorLsn, none⟩)
    (hnext : s.next cursorLsn = some delta) (hst : s.host.plans q.canonical = some state) :
    ∃ new, q.outputAt s delta.commitLsn = some new ∧
      ∀ deltas, deltas = ((Changes.between q.runtime.listing state.lastOutput new).map fun change =>
          (⟨change.1, delta.commitLsn, change.2⟩ : AggregateDelta δ)) →
        s.host.applyAndFanout q.engine q.canonical (q.batchOf delta).diffs delta.commitLsn =
          some ((deltas, state.subscribers), (q.fed s state delta deltas).host) ∧
        q.Planned (q.fed s state delta deltas) (state.folded (q.batchOf delta) deltas) := by
  have hplanned := h.planned state hst
  obtain ⟨hupTo, hlt, hdelta⟩ := upTo_next h.sound.sorted hnext
  obtain ⟨hpos, hmax, hclock⟩ := h.sound.range delta hdelta
  obtain ⟨inputs, prev, after, hsplit, hseed, hserves⟩ := hplanned.serves
  have hcursor : upTo s.wal cursorLsn = prev ++ after :=
    (hplanned.inStep _ hpump).trans hsplit
  rw [hcursor, append_assoc] at hupTo
  have hpre : prev ++ (after ++ [delta]) <+: s.wal := hupTo ▸ h.sound.upTo_prefix _
  obtain ⟨new, hnew⟩ := Option.isSome_iff_exists.mp (h.sound.outputs _ hpre)
  have hval : value q.runtime q.plan inputs (after.map q.batchOf ++ [q.batchOf delta]) =
      some new := by
    simp [← hnew, ← h.sound.value_seeded hpre hseed]
  have hlater : ∀ earlier ∈ after.map q.batchOf, earlier.lsn < (q.batchOf delta).lsn := by
    refine forall_mem_map.mpr fun earlier hearly => ?_
    have hmem : earlier ∈ upTo s.wal cursorLsn :=
      hcursor ▸ mem_append_right _ hearly
    exact lt_of_le_of_lt (mem_upTo.mp hmem).2 hlt
  refine ⟨new, ?_, fun deltas hdeltas => ?_⟩
  · rw [outputAt, hupTo, hnew]
  · obtain ⟨happly, hnow⟩ := hserves.folds q.lowers hpos hlater hmax hval hdeltas
    refine ⟨happly, hclock, hplanned.nodup,
      ⟨inputs, prev, after ++ [delta], hupTo, hseed, ?_⟩, fun pump hsome => ?_⟩
    · rw [map_append]
      exact hnow
    · cases hsome
      rfl

theorem tally_append (rows : List (Row δ)) (events later row) : tally rows (events ++ later) row =
      tally rows events row + SignedBag.net (later.flatMap DiffEvent.signed) row := by
  rw [tally, flatMap_append, SignedBag.net_append, tally]
  ring

/-- A subscriber past the point where it could still start a plan of its own. -/
theorem kept_busy {id : SubscriptionId} (hbusy : ¬ Apart s' id)
    (hstamp : ∀ lsn, (s'.calls id).stamp = some lsn → lsn ≤ s'.clock)
    (hqueued : ∀ lsn rows rest, s'.account id = some (lsn, rows, rest) → q.Ledger s' lsn rows rest)
    (hlistens : ∀ lsn rows rest, s'.account id = some (lsn, rows, rest) → s'.Listening id →
      q.Ledger s' lsn rows (rest ++ s'.pendingFor id) ∧
      ∀ state, s'.host.plans q.canonical = some state → id ∈ state.subscribers →
        (∀ row, tally rows (rest ++ s'.pendingFor id) row =
          (state.lastOutput : Multiset (Row δ)).count row) ∧
        ∀ known ∈ lsn :: (rest ++ s'.pendingFor id).filterMap DiffEvent.updateLsn,
          ∀ delta ∈ s'.wal, delta.commitLsn ≤ known → delta.commitLsn ≤ state.lastLsn) :
    q.Kept s' id where
  stamped := hstamp
  queued := hqueued
  pending lsn rows rest hrest hl := (hlistens lsn rows rest hrest hl).1
  attached lsn rows rest state hrest hl := (hlistens lsn rows rest hrest hl).2 state
  detached hphase := absurd hphase hbusy
  cold _ _ hdue := absurd (.inr (.inr (hdue ▸ rfl))) hbusy

/-- What a subscriber of the plan is told next brings it to the plan's new output. -/
theorem Kept.told {id : SubscriptionId} (h : q.Kept s id)
    (hst : s.host.plans q.canonical = some state) (hmem : id ∈ state.subscribers)
    (hpending : s.pendingFor id = []) (hdelta : delta ∈ s.wal) (hknown : delta.commitLsn ≤ s.clock)
    (hlater : state.lastLsn < delta.commitLsn) (hnew : q.outputAt s delta.commitLsn = some new)
    (houtput : ((state.folded (q.batchOf delta) deltas).lastOutput : Multiset (Row δ)) = new)
    (hevents : (q.fed s state delta deltas).pendingFor id = [] ∨
      ∃ event, (q.fed s state delta deltas).pendingFor id = [event] ∧
        event.updateLsn = some delta.commitLsn) (hnet : ∀ row,
      SignedBag.net (((q.fed s state delta deltas).pendingFor id).flatMap DiffEvent.signed) row =
        new.count row - (state.lastOutput : Multiset (Row δ)).count row) :
    q.Kept (q.fed s state delta deltas) id := by
  have hled : ∀ lsn rows events, q.Ledger s lsn rows events →
      q.Ledger (q.fed s state delta deltas) lsn rows events :=
    fun lsn rows events hl => hl.congr le_rfl fun _ _ => rfl
  have hsum : ∀ lsn rows rest, s.account id = some (lsn, rows, rest) → s.Listening id →
      (∀ row, tally rows (rest ++ (q.fed s state delta deltas).pendingFor id) row = new.count row) ∧
        ∀ known ∈ lsn :: rest.filterMap DiffEvent.updateLsn, known < delta.commitLsn := by
    intro lsn rows rest hrest hl
    obtain ⟨htally, hbound⟩ := h.attached lsn rows rest state hrest hl hst hmem
    rw [hpending, append_nil] at htally hbound
    refine ⟨fun row => ?_, fun known hknown => ?_⟩
    · rw [tally_append, htally, hnet]
      ring
    · by_contra hle
      have := hbound known hknown delta hdelta (Nat.le_of_not_lt hle)
      lia
  refine kept_busy (fun hapart => (h.detached hapart).1 state hst hmem) h.stamped ?_
    fun lsn rows rest hrest hl => ?_
  · exact fun lsn rows rest hrest => hled _ _ _ (h.queued lsn rows rest hrest)
  · obtain ⟨htally, hwas⟩ := hsum lsn rows rest hrest hl
    constructor
    · rcases hevents with hnil | ⟨event, hone, hplace⟩
      · rw [hnil, append_nil]
        exact hled _ _ _ (h.queued lsn rows rest hrest)
      · rw [hone] at htally ⊢
        exact hled _ _ _
          ((h.queued lsn rows rest hrest).concat hplace hknown hwas hnew htally)
    · intro after hnow _
      cases (update_self ..).symm.trans hnow
      rw [houtput]
      refine ⟨htally, fun known hknown other _ hle => hle.trans ?_⟩
      rw [filterMap_append, ← cons_append] at hknown
      rcases mem_append.mp hknown with hold | hpend
      · exact (hwas known hold).le
      · obtain ⟨event, hev, hplace⟩ := mem_filterMap.mp hpend
        rcases hevents with hnil | ⟨only, hone, hat⟩
        · simp [hnil] at hev
        · rw [hone, mem_singleton] at hev
          rw [hev, hat] at hplace
          exact (Option.some.inj hplace).ge

/-- The event a subscriber is owed after a transaction, if any. -/
theorem pendingFor_fed (deltas id) : (q.fed s state delta deltas).pendingFor id =
      if deltas ≠ [] ∧ id ∈ state.subscribers then
        [pairTransaction q.keyOf (outputDelta delta deltas)] else [] := by
  by_cases hdeltas : deltas = [] <;> simp [fed, pendingFor, hdeltas]

omit [DecidableEq δ] in
theorem pendingFor_of_pump {cursorLsn : Lsn} (hpump : s.pump = some ⟨cursorLsn, none⟩)
    (id : SubscriptionId) : s.pendingFor id = [] := by
  simp [pendingFor, hpump]

theorem Tracked.tracked_fed (h : q.Tracked s) (hpump : s.pump = some ⟨cursorLsn, none⟩)
    (hnext : s.next cursorLsn = some delta) (hst : s.host.plans q.canonical = some state)
    (hnew : q.outputAt s delta.commitLsn = some new)
    (hunit : ∀ row, new.count row ≤ (state.lastOutput : Multiset (Row δ)).count row + 1 ∧
      (state.lastOutput : Multiset (Row δ)).count row ≤ new.count row + 1)
    (hdeltas : deltas = (Changes.between q.runtime.listing state.lastOutput new).map fun change =>
      ⟨change.1, delta.commitLsn, change.2⟩)
    (hplanned : q.Planned (q.fed s state delta deltas) (state.folded (q.batchOf delta) deltas)) :
    q.Tracked (q.fed s state delta deltas) := by
  obtain ⟨-, hlt, hdelta⟩ := upTo_next h.sound.sorted hnext
  have hclock := (h.sound.range delta hdelta).2.2
  have hput : (q.fed s state delta deltas).host.plans q.canonical =
      some (state.folded (q.batchOf delta) deltas) := update_self ..
  have hlater : state.lastLsn < delta.commitLsn := by
    by_contra hle
    have hmem : delta ∈ upTo s.wal state.lastLsn :=
      mem_upTo.mpr ⟨hdelta, Nat.le_of_not_lt hle⟩
    rw [← (h.planned state hst).inStep _ hpump] at hmem
    exact absurd (mem_upTo.mp hmem).2 (not_le.mpr hlt)
  refine ⟨h.sound.congr rfl rfl, ?_, ?_, ?_, fun id => ?_⟩
  · intro state' hst'
    cases hput.symm.trans hst'
    exact hplanned
  · intro pump hsome
    cases hsome
    exact hclock
  · intro lsn event targets hsome
    simp only [fed, Option.some.injEq, CanonicalPump.mk.injEq] at hsome
    obtain ⟨-, hdeliver⟩ := hsome
    split at hdeliver
    · cases hdeliver
    · cases hdeliver
      exact ⟨(h.planned state hst).nodup, rfl⟩
  · by_cases hmem : id ∈ state.subscribers
    · refine (h.kept id).told hst hmem (pendingFor_of_pump hpump id) hdelta hclock hlater hnew
        ?_ ?_ fun row => ?_
      · rw [hdeltas]
        exact coe_applyDeltasToCache ..
      · rw [pendingFor_fed]
        split
        · exact .inr ⟨_, rfl, rfl⟩
        · exact .inl rfl
      · rw [pendingFor_fed]
        by_cases hnil : deltas = []
        · rw [if_neg fun hboth => hboth.1 hnil, ← Changes.net_between q.runtime.listing]
          rw [hnil] at hdeltas
          simp [map_eq_nil_iff.mp hdeltas.symm]
        · rw [if_pos ⟨hnil, hmem⟩, flatMap_singleton, hdeltas]
          exact net_event q.keyOf delta delta.commitLsn hunit row
    · refine (h.kept id).frame_same le_rfl (fun _ _ => rfl) rfl rfl ?_ (fun hl => hl)
        fun state' hst' hmem' => ?_
      · rw [pendingFor_fed, if_neg fun hboth => hmem hboth.2, pendingFor_of_pump hpump]
      · cases hput.symm.trans hst'
        exact absurd hmem' hmem

theorem tracked_runPump (h : q.Tracked s) (hord : q.Orderly s .pump) : q.Tracked (q.runPump s) := by
  unfold runPump
  split
  next cursorLsn hpump =>
    split
    next => exact h
    next delta hnext =>
      cases hplans : s.host.plans q.canonical with
      | none =>
        have hgone : s.host.applyAndFanout q.engine q.canonical (q.batchOf delta).diffs
            delta.commitLsn = none := by
          simp [PersistentHost.applyAndFanout, hplans]
        rw [hgone]
        exact h.quiet rfl rfl rfl rfl rfl (fun id => (pendingFor_of_pump hpump id).symm)
          (by rintro _ ⟨⟩) (by rintro _ _ _ ⟨⟩)
          fun _ chan hchan hrecv => ⟨chan, hchan, hrecv⟩
      | some state =>
        obtain ⟨new, hnew, hfeed⟩ := h.feed hpump hnext hplans
        obtain ⟨happly, hplanned⟩ := hfeed _ rfl
        have hold := (h.planned state hplans).output h.sound
        rw [outputAt, ← (h.planned state hplans).inStep _ hpump] at hold
        have hunit := hord cursorLsn delta _ new hpump hnext hold hnew
        rw [happly]
        exact h.tracked_fed hpump hnext hplans hnew hunit rfl hplanned
  next => exact h

end Pump

section Deliver
variable {cursorLsn : Lsn} {event : DiffEvent δ} {target : SubscriptionId}
  {rest : List SubscriptionId}

omit [DecidableEq δ] in
theorem deliver_eq (hpump : s.pump = some ⟨cursorLsn, some (event, target :: rest)⟩) : s.deliver =
      { s with
        router := (s.router.pumpEvent target event).2
        log := if s.sends target then update s.log target (s.log target ++ [event])
          else s.log
        pump := some ⟨cursorLsn, some (event, rest)⟩ } := by
  rw [Sharing.deliver, hpump]

/-- Only the subscriber whose turn it is hears of it. -/
theorem Tracked.kept_others (h : q.Tracked s)
    (hpump : s.pump = some ⟨cursorLsn, some (event, target :: rest)⟩) {id : SubscriptionId}
    (hid : id ≠ target) : q.Kept s.deliver id := by
  have hchannels : (s.router.pumpEvent target event).2.channels id = s.router.channels id := by
    cases hchan : s.router.channels target with
    | none => rw [RouterInner.pumpEvent_of_none event hchan]
    | some =>
      obtain ⟨channel', hupdate, -⟩ := RouterInner.pumpEvent_channels event hchan
      rw [hupdate, update_of_ne hid]
  rw [deliver_eq hpump]
  refine (h.kept id).frame_same le_rfl (fun _ _ => rfl) rfl ?_ ?_ (listening_congr rfl hchannels)
    (carried_same rfl)
  · split
    · exact update_of_ne hid ..
    · rfl
  · simp [pendingFor, hpump, hid]

section Target
variable (h : q.Tracked s) (hpump : s.pump = some ⟨cursorLsn, some (event, target :: rest)⟩)
include h hpump

theorem pendingFor_target : s.pendingFor target = [event] ∧ s.deliver.pendingFor target = [] := by
  have hnd := (h.targets _ _ _ hpump).1
  rw [deliver_eq hpump]
  constructor <;> simp [pendingFor, hpump, (nodup_cons.mp hnd).1]

theorem busy_target : ¬ Apart s.deliver target := fun hphase => by
  rw [deliver_eq hpump] at hphase
  have hnil := ((h.kept target).detached hphase).2
  simp [(pendingFor_target h hpump).1] at hnil

omit h in
theorem Ledger.deliver {lsn : Lsn} {rows : List (Row δ)} {events : List (DiffEvent δ)}
    (hl : q.Ledger s lsn rows events) : q.Ledger s.deliver lsn rows events := by
  rw [deliver_eq hpump]
  exact hl.congr le_rfl fun _ _ => rfl

/-- The channel takes the event: it moves from the pump's list to the log. -/
theorem kept_reached (hawait : s.awaiting target = false) (hsends : s.sends target = true) :
    q.Kept s.deliver target := by
  have hkept := h.kept target
  obtain ⟨hpending, hpending'⟩ := pendingFor_target h hpump
  have hcalls : s.deliver.calls = s.calls := by rw [deliver_eq hpump]
  have hlistens : s.Listening target := by
    unfold sends at hsends
    split at hsends
    next chan hchan => exact .inr ⟨chan, hchan, (of_decide_eq_true hsends).1⟩
    next => cases hsends
  have hlog : s.deliver.log target = s.log target ++ [event] := by
    simp [deliver_eq hpump, hsends]
  have haccount : ∀ lsn rows events, s.deliver.account target = some (lsn, rows, events) →
      ∃ prev, events = prev ++ [event] ∧ s.account target = some (lsn, rows, prev) := by
    intro lsn rows events htold
    have hupdate := (h.targets _ _ _ hpump).2
    rw [account, hcalls, hlog] at htold
    rw [account]
    rw [awaiting] at hawait
    cases hphase : s.calls target with
    | idle => simp [hphase] at htold
    | looked | opened => simp [hphase] at hawait
    | rejected => simp [hphase] at htold
    | registered | seeded | accepted =>
      rw [hphase] at htold
      exact opening_concat hupdate htold
  refine kept_busy (busy_target h hpump) ?_ ?_ fun lsn rows events htold _ => ?_
  · rw [deliver_eq hpump]
    exact hkept.stamped
  · intro lsn rows events htold
    obtain ⟨prev, rfl, hwas⟩ := haccount lsn rows events htold
    exact (hpending ▸ hkept.pending lsn rows prev hwas hlistens).deliver hpump
  · obtain ⟨prev, rfl, hwas⟩ := haccount lsn rows events htold
    rw [hpending', append_nil, ← hpending]
    refine ⟨(hkept.pending lsn rows prev hwas hlistens).deliver hpump, ?_⟩
    rw [deliver_eq hpump]
    exact fun state => hkept.attached lsn rows prev state hwas hlistens

/-- The channel is closed or gone, and the subscriber hears nothing more. -/
theorem kept_unreached (hawait : s.awaiting target = false)
    (hroom : ∀ chan, s.router.channels target = some chan →
      chan.sender.receiving = true → chan.sender.hasRoom) (hsends : ¬ s.sends target = true) :
    q.Kept s.deliver target := by
  have hkept := h.kept target
  have hcalls : s.deliver.calls = s.calls := by rw [deliver_eq hpump]
  have hlog : s.deliver.log target = s.log target := by
    simp [deliver_eq hpump, hsends]
  have haccount : s.deliver.account target = s.account target := by
    simp [hcalls, hlog]
  have hdeaf : ¬ s.deliver.Listening target := by
    rw [deliver_eq hpump]
    rintro (hwaits | ⟨channel', hchan', hrecv⟩)
    · exact absurd (hawait.symm.trans hwaits) Bool.false_ne_true
    · cases hchan : s.router.channels target with
      | none =>
        rw [RouterInner.pumpEvent_of_none event hchan] at hchan'
        cases hchan.symm.trans hchan'
      | some chan =>
        obtain ⟨after, hupdate, hsend⟩ := RouterInner.pumpEvent_channels event hchan
        rw [hupdate, update_self, Option.some.injEq] at hchan'
        rw [← hchan', hsend, Mpsc.trySend_receiving] at hrecv
        refine hsends ?_
        rw [sends, hchan]
        exact decide_eq_true (hroom chan hchan hrecv)
  refine kept_busy (busy_target h hpump) ?_ ?_ fun _ _ _ _ hl => absurd hl hdeaf
  · rw [deliver_eq hpump]
    exact hkept.stamped
  · exact fun lsn rows events htold =>
      (hkept.queued lsn rows events (haccount ▸ htold)).deliver hpump

end Target

theorem tracked_deliver (h : q.Tracked s) (hord : q.Orderly s .deliver) : q.Tracked s.deliver := by
  cases hpump : s.pump with
  | none =>
    have hsame : s.deliver = s := by rw [Sharing.deliver, hpump]
    rw [hsame]
    exact h
  | some pump =>
    obtain ⟨cursorLsn, delivering⟩ := pump
    match delivering with
    | none =>
      have hsame : s.deliver = s := by rw [Sharing.deliver, hpump]
      rw [hsame]
      exact h
    | some (event, []) =>
      have hdone : s.deliver = { s with pump := some ⟨cursorLsn, none⟩ } := by
        rw [Sharing.deliver, hpump]
      rw [hdone]
      refine h.quiet rfl rfl rfl rfl rfl (fun id => ?_) (fun pump hsome => ?_) nofun
        fun _ chan hchan hrecv => ⟨chan, hchan, hrecv⟩
      · simp [pendingFor, hpump]
      · cases hsome
        exact ⟨_, hpump, rfl⟩
    | some (event, target :: rest) =>
      obtain ⟨hawait, hroom⟩ := hord cursorLsn event target rest hpump
      have hkept : ∀ id, q.Kept s.deliver id := by
        intro id
        by_cases hid : id = target
        · rw [hid]
          by_cases hsends : s.sends target = true
          · exact kept_reached h hpump hawait hsends
          · exact kept_unreached h hpump hawait hroom hsends
        · exact h.kept_others hpump hid
      obtain ⟨hnd, hupdate⟩ := h.targets _ _ _ hpump
      rw [deliver_eq hpump] at hkept ⊢
      refine ⟨h.sound.congr rfl rfl, fun state hst => ?_, fun pump hsome => ?_,
        fun lsn other targets hsome => ?_, hkept⟩
      · refine (h.planned state hst).congr rfl rfl rfl fun pump hsome => ?_
        cases hsome
        exact ⟨_, hpump, rfl⟩
      · have hcursor := h.cursor _ hpump
        cases hsome
        exact hcursor
      · cases hsome
        exact ⟨(nodup_cons.mp hnd).2, hupdate⟩

end Deliver

theorem tracked_step (h : q.Tracked s) (henv : q.Environment s action) (hord : q.Orderly s action) :
    q.Tracked (q.step s action) := by
  cases action with
  | commit => exact tracked_commit h henv hord
  | pass => exact tracked_pass h henv
  | look id => exact tracked_look h id
  | refuse id => exact tracked_refuse h id
  | openUp => exact tracked_openUp h henv hord
  | register id req => exact tracked_register h req
  | seed => exact tracked_seed h hord
  | insert => exact tracked_insert h hord
  | ensurePump => exact tracked_ensurePump h hord
  | pump => exact tracked_runPump h hord
  | deliver => exact tracked_deliver h hord
  | tick => exact tracked_tick h
  | unsubscribe id => exact tracked_unsubscribe h id
  | release id => exact tracked_release h id
  | receive id => exact tracked_updateSender h id fun _ hrecv => hrecv
  | hangUp id => exact tracked_updateSender h id fun _ hrecv => nomatch hrecv

/-- In every interleaving of subscribes, unsubscribes and pump steps on one canonical query that
keeps the order conditions, every accepted subscriber stays coherent with the shared plan. -/
theorem coherent_of_orderly (q : SharedQuery δ)
    (h : Runs.Reached q.step (fun s action => q.Environment s action ∧ q.Orderly s action) .start s)
    (id : SubscriptionId) : q.Coherent s id := by
  have htracked : q.Tracked s := h.invariant tracked_start
    fun s action hs hmeets => tracked_step hs hmeets.1 hmeets.2
  have haccount : ∀ snapshotLsn lsn rows rest, s.calls id = .accepted snapshotLsn →
      s.log id = .initial lsn rows :: rest → s.account id = some (lsn, rows, rest) := by
    intro snapshotLsn lsn rows rest hphase hlog
    rw [account, hphase]
    exact congrArg opening hlog
  refine ⟨fun snapshotLsn lsn rows rest hphase hlog => ?_,
    fun snapshotLsn lsn rows rest state hphase hlog hst hmem hlistens hpending row => ?_⟩
  · exact (htracked.kept id).queued lsn rows rest (haccount snapshotLsn lsn rows rest hphase hlog)
  · have hatt := ((htracked.kept id).attached lsn rows rest state
      (haccount snapshotLsn lsn rows rest hphase hlog) hlistens hst hmem).1 row
    rwa [hpending, append_nil] at hatt

end SharedQuery

/-! A scan of a table that starts with one row. -/
section Example

def oneRow : SharedQuery ℕ where
  runtime := ⟨numbers, 0, byRow⟩
  lowered := scanTable
  graph := readAll "t"
  plan := .baseTable 0
  lowers := rfl
  canonical := "k"
  config := ⟨8, .dropAndResync, 0, Nat.ofNat_pos⟩
  keyOf row := [row]
  base table := if table = 0 then [[1]] else []
  starts := rfl

def requestOf (client : ClientSubscriptionId) : SubscribeRequest :=
  ⟨1, client, "SELECT * FROM t", readAll "t", .empty, none⟩

def insertAt (row : Row ℕ) (lsn : Lsn) : QueryTransactionDelta ℕ :=
  ⟨none, none, lsn, none, [⟨some 0, row, lsn, 1⟩]⟩

def firstSnapshot : SnapshotBatch ℕ := ⟨0, [(0, [[1]])]⟩

def servedOnce : List (SharingAction ℕ) :=
  [.look 1, .openUp 1 none (.ok firstSnapshot), .register 1 (requestOf "a"), .seed 1, .insert 1,
    .ensurePump 1, .commit (insertAt [2] 5), .pump, .deliver]

/-- A second subscriber takes the cached view; the pump runs before its channel is registered. -/
def overtaken : List (SharingAction ℕ) :=
  [.look 1, .openUp 1 none (.ok firstSnapshot), .register 1 (requestOf "a"), .seed 1, .insert 1,
    .ensurePump 1, .look 2, .commit (insertAt [2] 5), .pump, .deliver, .deliver, .deliver,
    .openUp 2 none (.error ""), .register 2 (requestOf "b"), .seed 2,
    .commit (insertAt [3] 6), .pump, .deliver, .deliver]

theorem isBase_of_inserts {wal : List (QueryTransactionDelta ℕ)}
    (h : ∀ delta ∈ wal, ∀ diff ∈ delta.diffs, 0 ≤ diff.diff) :
    IsBase oneRow.base (wal.map oneRow.batchOf)
      (accumulated oneRow.base (wal.map oneRow.batchOf)) := by
  intro table row
  refine Changes.count_total (sum_nonneg fun weight hwt => ?_)
  obtain ⟨change, hchange, rfl⟩ := mem_map.mp hwt
  split
  · rcases mem_append.mp hchange with hseed | hbatch
    · obtain ⟨row, -, rfl⟩ := mem_map.mp hseed
      exact Int.one_nonneg
    · obtain ⟨batch, hbatch, hmem⟩ := mem_flatMap.mp hbatch
      obtain ⟨delta, hdelta, rfl⟩ := mem_map.mp hbatch
      obtain ⟨diff, hdiff, rfl⟩ := mem_map.mp hmem
      obtain ⟨raw, hraw, hsome⟩ := mem_filterMap.mp (mem_of_mem_filter hdiff)
      obtain ⟨table, -, rfl⟩ := Option.map_eq_some_iff.mp hsome
      exact h delta hdelta raw hraw
  · exact le_rfl

theorem firstSnapshot_ok (hwal : s.wal = []) (hclock : s.clock = 0) (id) :
    oneRow.Environment s (.openUp id none (.ok firstSnapshot)) := by
  refine ⟨hclock.symm, nodup_singleton _, fun table htab => ?_⟩
  rw [mem_singleton.mp htab, hwal]
  decide

theorem insertAt_ok (hclock : s.clock < lsn) (hlsn : lsn ≤ maxLsn)
    (hwal : ∀ delta ∈ s.wal, ∀ diff ∈ delta.diffs, 0 ≤ diff.diff) :
    oneRow.Environment s (.commit (insertAt row lsn)) := by
  refine ⟨hclock, hlsn, ?_, isBase_of_inserts fun delta hdelta => ?_, rfl⟩
  · intro diff hdiff
    simp [mem_singleton.mp hdiff]
  · rcases mem_append.mp hdelta with hold | hnew
    · exact hwal delta hold
    · rw [mem_singleton.mp hnew]
      intro diff hdiff
      rw [mem_singleton.mp hdiff]
      exact Int.one_nonneg

theorem served_coherent : oneRow.Coherent (servedOnce.foldl oneRow.step .start) 1 ∧
    (servedOnce.foldl oneRow.step .start).log 1 = [.initial 0 [[1]],
      .transactionUpdate none none 5 none [⟨.insert, none, some [2]⟩]] := by
  refine ⟨oneRow.coherent_of_orderly (Runs.Schedule.reached ?_ .start) 1, by decide +kernel⟩
  refine .cons ⟨trivial, trivial⟩ (.cons ⟨firstSnapshot_ok rfl rfl 1, fun _ out hout => ?_⟩
    (.cons ⟨trivial, trivial⟩ (.cons ⟨trivial, fun _ _ _ _ _ h => nomatch h⟩
    (.cons ⟨trivial, fun _ _ _ => ⟨(fun _ h => nomatch h), fun _ _ h => nomatch h⟩⟩
    (.cons ⟨trivial, fun _ _ _ _ _ => rfl⟩
    (.cons ⟨insertAt_ok (by decide) (by decide) (by decide), (by decide : (5 : Lsn) ≠ maxLsn)⟩
    (.cons ⟨trivial, ?_⟩ (.cons ⟨trivial, ?_⟩ (.nil _)))))))))
  · cases hout
    decide
  · intro cursorLsn delta old new hpump hnext hold hnew row
    cases hpump
    cases hnext
    obtain rfl : {[1]} = old := Option.some.inj ((by decide +kernel : some {[1]} = _).trans hold)
    obtain rfl : [2] ::ₘ {[1]} = new :=
      Option.some.inj ((by decide +kernel : some ([2] ::ₘ {[1]}) = _).trans hnew)
    rw [Multiset.count_cons]
    split <;> omega
  · intro cursorLsn event target rest hpump
    have htarget := (by decide +kernel : some (some [1]) = _).trans
        (congrArg (Option.map fun pump => pump.delivering.map Prod.snd) hpump)
    cases htarget
    refine ⟨by decide +kernel, fun channel hchan _ => ?_⟩
    cases hchan
    decide +kernel

/-- The insert committed in between never reaches the second subscriber, and the next update
does. -/
theorem overtaken_incoherent :
    Runs.Reached oneRow.step oneRow.Environment .start (overtaken.foldl oneRow.step .start) ∧
      ¬ oneRow.Coherent (overtaken.foldl oneRow.step .start) 2 := by
  constructor
  · refine Runs.Schedule.reached ?_ .start
    exact .cons trivial (.cons (firstSnapshot_ok rfl rfl 1) (.cons trivial (.cons trivial
      (.cons trivial (.cons trivial (.cons trivial
      (.cons (insertAt_ok (by decide) (by decide) (by decide)) (.cons trivial (.cons trivial
      (.cons trivial (.cons trivial (.cons trivial (.cons trivial (.cons trivial
      (.cons (insertAt_ok (by decide +kernel) (by decide) (by decide +kernel)) (.cons trivial
      (.cons trivial (.cons trivial (.nil _)))))))))))))))))))
  · intro h
    have hlog : (overtaken.foldl oneRow.step .start).log 2 = [.initial 0 [[1]],
        .transactionUpdate none none 6 none [⟨.insert, none, some [3]⟩]] := by decide +kernel
    obtain ⟨position, out, hplace, hout, hsum⟩ :=
      (h.queued 0 0 [[1]] _ rfl hlog).sums [] _ [] rfl
    cases hplace
    have hrow := hsum [2]
    obtain rfl : {[1], [2], [3]} = out :=
      Option.some.inj ((by decide +kernel : some {[1], [2], [3]} = _).trans hout)
    revert hrow
    decide +kernel

end Example

end Palimpsest.Server
