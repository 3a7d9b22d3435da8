import Palimpsest.Server.SharingInvariant

/-! Subscribe calls, one section at a time, and subscribers that leave. -/
namespace Palimpsest.Server
open Sql Dataflow Function PersistentHost List Sharing

namespace SharedQuery
variable {δ : Type} [DecidableEq δ] {q : SharedQuery δ} {s s' : Sharing δ}

section Calls
variable {id : SubscriptionId}

section
omit [DecidableEq δ]

theorem pendingFor_congr (h : s'.pump = s.pump) (id : SubscriptionId) :
    s'.pendingFor id = s.pendingFor id := by
  simp [pendingFor, h]

theorem listening_congr (hcalls : s'.calls id = s.calls id)
    (hchannels : s'.router.channels id = s.router.channels id) : s'.Listening id →
      s.Listening id := by
  intro h
  rwa [Listening, awaiting, hcalls, hchannels] at h

end

variable {phase : SharingPhase δ} {state : PlanState δ} {inputs : Inputs δ}

omit [DecidableEq δ] in
theorem listening_of_awaiting (hphase : s.calls id = phase)
    (h : (∃ view, phase = .looked view) ∨ ∃ prepared, phase = .opened prepared) :
    s.Listening id := by
  refine .inl ?_
  rw [awaiting, hphase]
  rcases h with ⟨view, rfl⟩ | ⟨prepared, rfl⟩ <;> rfl

/-- Besides the host, only the call `id` has moved. -/
structure Beside (s s' : Sharing δ) (id : SubscriptionId) : Prop where
  wal : s'.wal = s.wal
  clock : s'.clock = s.clock
  pump : s'.pump = s.pump
  calls : ∀ other, other ≠ id → s'.calls other = s.calls other
  log : ∀ other, other ≠ id → s'.log other = s.log other
  channels : ∀ other, other ≠ id → s'.router.channels other = s.router.channels other

section
omit [DecidableEq δ]

theorem Beside.setPhase {host : PersistentHost δ} :
    Beside s { s.setPhase id phase with host := host } id :=
  ⟨rfl, rfl, rfl, fun _ hne => update_of_ne hne .., fun _ _ => rfl, fun _ _ => rfl⟩

theorem Beside.opened {queue : List (DiffEvent δ)} :
    Beside s { s.setPhase id phase with log := update s.log id queue } id :=
  { (Beside.setPhase : Beside s (s.setPhase id phase) id) with
    log := fun _ hne => update_of_ne hne .. }

end

variable (h : q.Tracked s)
include h

theorem Tracked.move (hbeside : Beside s s' id)
    (hplanned : ∀ state, s'.host.plans q.canonical = some state → q.Planned s' state)
    (hplans : ∀ other, other ≠ id → q.Carried s s' other) (hkept : q.Kept s' id) :
    q.Tracked s' := by
  obtain ⟨hwal, hclock, hpump, hcalls, hlog, hchannels⟩ := hbeside
  refine ⟨h.sound.congr hwal hclock, hplanned, ?_, ?_, fun other => ?_⟩
  · rw [hpump, hclock]
    exact h.cursor
  · rw [hpump]
    exact h.targets
  · by_cases hother : other = id
    · exact hother ▸ hkept
    · exact (h.kept other).frame_same hclock.ge (fun _ _ => by rw [hwal]) (hcalls other hother)
        (hlog other hother)
        (pendingFor_congr hpump other) (listening_congr (hcalls other hother)
          (hchannels other hother)) (hplans other hother)

theorem Tracked.move_phase (hbeside : Beside s s' id) (hhost : s'.host = s.host)
    (hkept : q.Kept s' id) : q.Tracked s' := by
  refine h.move hbeside ?_ ?_ hkept
  · intro state hst
    rw [hhost] at hst
    refine (h.planned state hst).congr hbeside.wal hbeside.clock hhost fun pump hsome =>
      ⟨pump, ?_, rfl⟩
    rw [← hbeside.pump, hsome]
  · exact fun _ _ => carried_same hhost

theorem Tracked.join (hst : s.host.plans q.canonical = some state) (hid : id ∉ state.subscribers)
    (hbeside : Beside s s' id) (hhost : s'.host = s.host.attach q.canonical state id)
    (hkept : q.Kept s' id) : q.Tracked s' := by
  have hplans : s'.host.plans q.canonical =
      some { state with subscribers := state.subscribers ++ [id] } := by
    rw [hhost]
    exact update_self ..
  refine h.move hbeside ?_ ?_ hkept
  · intro state' hst'
    rw [hplans, Option.some.injEq] at hst'
    subst hst'
    refine (h.planned state hst).resubscribe hbeside.wal hbeside.clock hbeside.pump hplans ?_
    exact (h.planned state hst).nodup.append (nodup_singleton id)
      (disjoint_singleton.mpr hid)
  · intro other hother state' hst' hmem
    rw [hplans, Option.some.injEq] at hst'
    subst hst'
    rcases mem_append.mp hmem with hold | hnew
    · exact ⟨state, hst, hold, rfl, rfl⟩
    · exact absurd (mem_singleton.mp hnew) hother

theorem Tracked.reject : q.Tracked (s.setPhase id .rejected) := by
  refine h.move_phase .setPhase rfl ⟨?_, ?_, ?_, ?_, ?_, ?_⟩
  all_goals simp

omit h in
theorem kept_fresh (lsn : Lsn) (rows : List (Row δ))
    (hstamp : ∀ known, (s'.calls id).stamp = some known → known ≤ s'.clock)
    (haccount : ∀ told, s'.account id = some told → told = (lsn, rows, []))
    (hlsn : lsn ≤ s'.clock) (hpend : s'.pendingFor id = [])
    (hatt : s'.account id = some (lsn, rows, []) → ∀ state,
      s'.host.plans q.canonical = some state → id ∈ state.subscribers →
        (rows : Multiset (Row δ)) = state.lastOutput ∧
          ∀ delta ∈ s'.wal, delta.commitLsn ≤ lsn → delta.commitLsn ≤ state.lastLsn)
    (hdetached : Apart s' id → ∀ state, s'.host.plans q.canonical = some state →
      id ∉ state.subscribers)
    (hcold : ∀ inputs known, (s'.calls id).toSeed = some (inputs, known) →
      (s'.calls id).stamp = some known ∧ known = lsn ∧ q.SeedOf (upTo s'.wal known) inputs ∧
        (∀ out, q.outputAt s' known = some out → out.Nodup) ∧
        q.outputAt s' known = some (rows : Multiset (Row δ))) : q.Kept s' id where
  stamped := hstamp
  queued first told rest hrest := by
    cases haccount _ hrest
    exact ledger_nil rows hlsn
  pending first told rest hrest _ := by
    cases haccount _ hrest
    rw [hpend]
    exact ledger_nil rows hlsn
  attached first told rest state hrest _ hst hmem := by
    cases haccount _ hrest
    obtain ⟨hrows, hknown⟩ := hatt hrest state hst hmem
    rw [hpend]
    refine ⟨fun row => ?_, fun known hmem => ?_⟩
    · rw [tally, hrows]
      exact add_zero _
    · rw [append_nil, filterMap_nil, mem_singleton] at hmem
      exact hmem ▸ hknown
  detached hphase := ⟨hdetached hphase, hpend⟩
  cold inputs known hdue := by
    obtain ⟨hknown, hlsn, hins, hnd, hout⟩ := hcold inputs known hdue
    refine ⟨hknown, hins, hnd, fun first told rest hrest => ?_⟩
    cases haccount _ hrest
    exact ⟨hlsn.symm, rfl, hout⟩

theorem tracked_look (id) : q.Tracked (q.look s id) := by
  unfold look
  split
  next hidle =>
    obtain ⟨hnone, hnil⟩ := (h.kept id).detached (.inl hidle)
    split
    next view host hview =>
      obtain ⟨state, hst, hpair⟩ := Option.map_eq_some_iff.mp hview
      obtain ⟨rfl, rfl⟩ := Prod.mk.inj hpair
      have hknown := (h.planned state hst).known
      refine h.join hst (hnone state hst) .setPhase rfl ?_
      -- the view and the list it joins are of one moment
      refine kept_fresh state.lastLsn state.lastOutput ?_ ?_ hknown
        ((pendingFor_congr rfl id).trans hnil) ?_ ?_ ?_
      · simp [hknown]
      · simp
      · intro _ state' hst' _
        have hplans : (s.host.attach q.canonical state id).plans q.canonical =
            some { state with subscribers := state.subscribers ++ [id] } := update_self ..
        cases hplans.symm.trans hst'
        exact ⟨rfl, fun _ _ hle => hle⟩
      · simp
      · simp
    next =>
      refine h.move_phase .setPhase rfl ?_
      refine kept_fresh 0 [] ?_ ?_ (Nat.zero_le _)
        ((pendingFor_congr rfl id).trans hnil) ?_ (fun _ => hnone) ?_
      · simp
      · simp
      · exact fun _ state hst hmem => absurd hmem (hnone state hst)
      · simp
  next => exact h

theorem tracked_refuse (id) : q.Tracked (s.refuse id) := by
  unfold refuse
  split
  · exact h.reject
  · exact h

omit h

omit [DecidableEq δ] in
theorem groupSeed_snapshot {batch : SnapshotBatch δ} (h : (batch.rows.map Prod.fst).Nodup)
    (table : TableId) : groupSeed (snapshotToSeedUpdates batch) table = batch.inputs table := by
  unfold groupSeed snapshotToSeedUpdates SnapshotBatch.inputs
  generalize batch.rows = ents at h
  induction ents with
  | nil => rfl
  | cons entry rest ih =>
    rw [map_cons, nodup_cons] at h
    rw [flatMap_cons, filter_append, map_append, ih h.2, reverse_cons, find?_append]
    by_cases htab : entry.1 = table
    · have hrest : rest.reverse.find? (fun other => other.1 == table) = none := by
        rw [find?_eq_none]
        intro other hother heq
        have hmem : other.1 ∈ rest.map Prod.fst :=
          mem_map_of_mem (mem_reverse.mp hother)
        exact h.1 (htab ▸ eq_of_beq heq ▸ hmem)
      have hfirst : (entry.2.map fun row => (entry.1, row, (1 : ℤ))).filter
          (fun update => update.1 == table && decide (0 < update.2.2)) =
            entry.2.map fun row => (entry.1, row, 1) := by
        simp [htab]
      rw [hrest, hfirst, map_map]
      simp [htab, comp_def]
    · have hne : (entry.1 == table) = false := by simpa using htab
      simp [hne, htab]

/-- Without duplicates, what the snapshot run and the seed report is the query's result. -/
theorem Sound.seed_reply (h : q.Sound s) (hpre : transactions <+: s.wal)
    (hseed : q.SeedOf transactions inputs) (hout : q.outputAfter transactions = some out)
    (hnd : out.Nodup) :
    (((Worker.spawn q.plan).seed q.runtime inputs).1 : Multiset (Row δ)) = out := by
  have hval : value q.runtime q.plan inputs [] = some out := by
    rw [← hout, ← append_nil transactions]
    exact h.value_seeded (by rwa [append_nil]) hseed
  rw [Worker.seed_reply hval, hnd.dedup]

theorem snapshotRun_eq (inputs) :
    q.engine.snapshotRun q.compiled inputs = ((Worker.spawn q.plan).seed q.runtime inputs).1 := by
  simp [engine, engineOf, compiled, q.lowers]

variable (h : q.Tracked s)
include h

theorem Tracked.open_cold (hphase : s.calls id = .looked none)
    (henv : q.Environment s (.openUp id resumeLsn (.ok batch)))
    (hord : ∀ out, q.outputAfter s.wal = some out → out.Nodup)
    (hq : chan.sender.queue = [] ∨ chan.sender.queue = [.initial batch.snapshotLsn
        (initialRows q.engine (some q.compiled) batch)]) :
    q.Tracked { s.setPhase id (.opened ⟨batch.snapshotLsn, snapshotToSeedUpdates batch, chan⟩) with
      log := update s.log id chan.sender.queue } := by
  obtain ⟨hlsn, hentries, hins⟩ := henv
  obtain ⟨hnone, hnil⟩ := (h.kept id).detached (.inr (.inl hphase))
  obtain ⟨out, hout⟩ := Option.isSome_iff_exists.mp (h.sound.outputs s.wal (prefix_refl _))
  have hnd := hord out hout
  have hseed : q.SeedOf s.wal (groupSeed (snapshotToSeedUpdates batch)) := fun table htab => by
    rw [groupSeed_snapshot hentries table]
    exact hins table htab
  have hrows : (initialRows q.engine (some q.compiled) batch : Multiset (Row δ)) = out := by
    rw [initialRows, snapshotRun_eq]
    exact h.sound.seed_reply (prefix_refl _) hins hout hnd
  refine h.move_phase .opened rfl ?_
  refine kept_fresh batch.snapshotLsn (initialRows q.engine (some q.compiled) batch) ?_ ?_ hlsn.le
    ((pendingFor_congr rfl id).trans hnil)
    (fun _ state hst hmem => absurd hmem (hnone state hst)) (fun _ => hnone) ?_
  · simp [hlsn]
  · rcases hq with hq | hq <;> simp [opening, hq]
  · intro inputs known hdue
    simp only [setPhase, update_self, SharingPhase.toSeed] at hdue
    split at hdue
    · cases hdue
    · cases hdue
      have hwal : upTo s.wal batch.snapshotLsn = s.wal := by
        rw [hlsn]
        exact h.sound.upTo_clock
      refine ⟨?_, rfl, ?_, ?_, ?_⟩
      · simp
      · change q.SeedOf (upTo s.wal batch.snapshotLsn) _
        rw [hwal]
        exact hseed
      · change ∀ out, q.outputAfter (upTo s.wal batch.snapshotLsn) = some out → out.Nodup
        rw [hwal]
        exact hord
      · change q.outputAfter (upTo s.wal batch.snapshotLsn) = _
        rw [hwal, hout, hrows]

theorem tracked_openUp (henv : q.Environment s (.openUp id resumeLsn fetched))
    (hord : q.Orderly s (.openUp id resumeLsn fetched)) :
    q.Tracked (q.openUp s id resumeLsn fetched) := by
  unfold openUp
  split
  next prerunInitial hphase =>
    cases prerunInitial with
    | some view =>
      obtain ⟨rows, lsn⟩ := view
      obtain ⟨chan, hopen, hq⟩ := openChannel_ok q.config resumeLsn (lsn, rows, [])
      simp only [takeSnapshot, hopen]
      refine h.move_phase .opened rfl ?_
      have hwas : s.account id = some (lsn, rows, []) := by
        simp [hphase]
      refine (h.kept id).frame le_rfl (fun _ _ => rfl) ?_ ?_ ?_ ?_ (pendingFor_congr rfl id)
        (fun _ => listening_of_awaiting hphase (.inl ⟨_, rfl⟩)) (carried_same rfl)
      · simp [hphase]
      · rw [hwas]
        rcases hq with hq | hq <;> simp [opening, hq]
      · simp
      · simp
    | none =>
      cases fetched with
      | error => exact h.reject
      | ok batch =>
        obtain ⟨chan, hopen, hq⟩ := openChannel_ok q.config resumeLsn
          (batch.snapshotLsn, initialRows q.engine (some q.compiled) batch,
            snapshotToSeedUpdates batch)
        simp only [takeSnapshot, hopen]
        exact h.open_cold hphase henv (hord hphase) hq
  next => exact h

theorem tracked_register (req) : q.Tracked (s.register id req) := by
  unfold register
  split
  next prepared hphase =>
    split
    next =>
      exact h.reject
    next router hrouter =>
      have hchannels := (RouterInner.register_channels hrouter).1
      refine h.move_phase { (Beside.setPhase : Beside s (s.setPhase id _) id) with
        channels := fun other hne => ?_ } rfl ?_
      · rw [hchannels]
        exact update_of_ne hne ..
      · refine (h.kept id).frame le_rfl (fun _ _ => rfl) ?_ ?_ ?_ ?_ (pendingFor_congr rfl id)
          (fun _ => listening_of_awaiting hphase (.inr ⟨_, rfl⟩)) (carried_same rfl)
        · simp [hphase]
        · simp [hphase]
        · simp
        · simp [hphase]
  next => exact h

/-- A call that is registered or has seeded goes on without touching the host. -/
theorem Tracked.move_on (hphase : s.calls id = phase) (hstamp : phase'.stamp = phase.stamp)
    (haccount : (s.setPhase id phase').account id = s.account id)
    (hawait : (s.setPhase id phase').awaiting id = s.awaiting id)
    (hidle : phase' ≠ .idle ∧ phase' ≠ .looked none)
    (hseed : ∀ due, phase'.toSeed = some due → phase.toSeed = some due) :
    q.Tracked (s.setPhase id phase') := by
  have hphase' : (s.setPhase id phase').calls id = phase' := update_self ..
  refine h.move_phase .setPhase rfl ?_
  refine (h.kept id).frame le_rfl (fun _ _ => rfl) ?_ ?_ ?_ ?_ (pendingFor_congr rfl id) ?_
    (carried_same rfl)
  · intro lsn hlsn
    rw [hphase', hstamp] at hlsn
    rw [hphase, hlsn]
  · exact fun told htold => haccount ▸ htold
  · rw [hphase']
    exact fun hor => hor.elim (fun hbad => absurd hbad hidle.1) fun hbad => absurd hbad hidle.2
  · intro due hdue
    rw [hphase'] at hdue ⊢
    rw [hphase]
    exact ⟨hseed due hdue, hstamp⟩
  · intro hlistens
    rwa [Listening, hawait] at hlistens

/-- A call with a snapshot of its own ends on a plan that stands where the snapshot was taken. -/
theorem Tracked.kept_cold (hseed : (s.calls id).toSeed = some (inputs, lsn)) (hwal : s'.wal = s.wal)
    (hclock : s'.clock = s.clock) (hpump : s'.pump = s.pump) (hphase : s'.calls id = .accepted lsn)
    (haccount : s'.account id = s.account id) (hst : s'.host.plans q.canonical = some state)
    (houtput : q.outputAt s lsn = some (state.lastOutput : Multiset (Row δ)))
    (hplace : ∀ delta ∈ s.wal, delta.commitLsn ≤ lsn → delta.commitLsn ≤ state.lastLsn) :
    q.Kept s' id := by
  obtain ⟨-, hnil⟩ := (h.kept id).detached (.inr (.inr (hseed ▸ rfl)))
  obtain ⟨hstamp, -, -, htold⟩ := (h.kept id).cold inputs lsn hseed
  have hlsn : lsn ≤ s'.clock := hclock ▸ (h.kept id).stamped lsn hstamp
  refine kept_fresh lsn (((s.account id).map fun told => told.2.1).getD []) ?_ ?_ hlsn
    ((pendingFor_congr hpump id).trans hnil) ?_ ?_ ?_
  · simp [hphase, hlsn]
  · rintro ⟨first, rows, rest⟩ hrest
    rw [haccount] at hrest
    obtain ⟨rfl, rfl, -⟩ := htold first rows rest hrest
    rw [hrest]
    rfl
  · intro hrest state' hst' _
    cases hst.symm.trans hst'
    obtain ⟨-, -, hrows⟩ := htold _ _ _ (haccount.symm.trans hrest)
    rw [hwal]
    exact ⟨Option.mem_unique hrows houtput, hplace⟩
  · simp [hphase]
  · simp [hphase]

theorem Tracked.join_cold (hseed : (s.calls id).toSeed = some (inputs, lsn))
    (haccount : (s.setPhase id (.accepted lsn)).account id = s.account id)
    (hst : s.host.plans q.canonical = some state)
    (hplace : upTo s.wal lsn = upTo s.wal state.lastLsn) :
    q.Tracked
      { s.setPhase id (.accepted lsn) with host := s.host.attach q.canonical state id } := by
  obtain ⟨hnone, -⟩ := (h.kept id).detached (.inr (.inr (hseed ▸ rfl)))
  have houtput := (h.planned state hst).output h.sound
  rw [outputAt, ← hplace] at houtput
  refine h.join hst (hnone state hst) .setPhase rfl ?_
  refine h.kept_cold hseed rfl rfl rfl (update_self ..) haccount (update_self ..)
    houtput fun delta hdelta hle => ?_
  have hmem := mem_upTo.mpr ⟨hdelta, hle⟩
  rw [hplace] at hmem
  exact (mem_upTo.mp hmem).2

theorem tracked_seed (hord : q.Orderly s (.seed id)) : q.Tracked (q.seed s id) := by
  unfold seed
  split
  next lsn updates hphase =>
    have haccount : ∀ phase', (phase' = .accepted lsn ∨ ∃ inputs, phase' = .seeded inputs lsn) →
        (s.setPhase id phase').account id = s.account id := by
      rintro phase' (rfl | ⟨inputs, rfl⟩) <;> simp [hphase]
    split
    next hnil =>
      refine h.move_on hphase rfl (haccount _ (.inl rfl)) ?_ ⟨nofun, nofun⟩ nofun
      simp [awaiting, hphase]
    next hne =>
      have hdue : (s.calls id).toSeed = some (groupSeed updates, lsn) := by
        rw [hphase, SharingPhase.toSeed, if_neg hne]
      split
      next state hst =>
        exact h.join_cold hdue (haccount _ (.inl rfl)) hst
          (hord lsn updates state hphase hne hst)
      next =>
        refine h.move_on hphase rfl (haccount _ (.inr ⟨_, rfl⟩)) ?_ ⟨nofun, nofun⟩ ?_
        · simp [awaiting, hphase]
        · intro due hsome
          rw [← hphase, hdue]
          exact hsome
  next => exact h

theorem tracked_insert (hord : q.Orderly s (.insert id)) : q.Tracked (q.insert s id) := by
  unfold insert
  split
  next inputs lsn hphase =>
    obtain ⟨hjoin, hstart⟩ := hord inputs lsn hphase
    have hdue : (s.calls id).toSeed = some (inputs, lsn) := by
      rw [hphase, SharingPhase.toSeed]
    have haccount : (s.setPhase id (.accepted lsn)).account id = s.account id := by
      simp [hphase]
    cases hplans : s.host.plans q.canonical with
    | some state =>
      have hhost : s.host.seeded q.engine q.canonical q.compiled inputs lsn id =
          s.host.attach q.canonical state id := by
        simp [seeded, insertSeeded, hplans]
      rw [hhost]
      exact h.join_cold hdue haccount hplans (hjoin state hplans)
    | none =>
      obtain ⟨hstamp, hseed, hnd, -⟩ := (h.kept id).cold inputs lsn hdue
      have hclock := (h.kept id).stamped lsn hstamp
      have hpre := h.sound.upTo_prefix lsn
      obtain ⟨out, hout⟩ := Option.isSome_iff_exists.mp (h.sound.outputs _ hpre)
      have hval : value q.runtime q.plan inputs [] = some out := by
        rw [← hout, ← append_nil (upTo s.wal lsn)]
        exact h.sound.value_seeded (by rwa [append_nil]) hseed
      obtain ⟨state, hserves, hsubscribers, hlast⟩ :=
        serves_seeded q.lowers hplans lsn id hval (hnd out hout)
      have hst := hserves.registered
      refine h.move .setPhase ?_ ?_ ?_
      · intro state' hst'
        cases hst.symm.trans hst'
        refine ⟨hlast ▸ hclock, hsubscribers ▸ nodup_singleton id,
          ⟨inputs, _, [], ?_, hseed, hserves⟩, fun pump hpump => ?_⟩
        · simp [hlast]
        · rw [hlast]
          exact hstart hplans pump hpump
      · intro other hother state' hst' hmem
        cases hst.symm.trans hst'
        rw [hsubscribers] at hmem
        exact absurd (mem_singleton.mp hmem) hother
      · refine h.kept_cold hdue rfl rfl rfl (update_self ..) haccount hst
          (hout.trans (hval.symm.trans hserves.view)) fun _ _ hle => ?_
        rw [hlast]
        exact hle
  next => exact h

end Calls

section Leaving
variable {id : SubscriptionId}

variable (h : q.Tracked s)
include h

/-- Neither the calls nor the log nor what the pump holds changes; channels may close. -/
theorem Tracked.quiet (hwal : s'.wal = s.wal) (hclock : s'.clock = s.clock)
    (hhost : s'.host = s.host) (hcalls : s'.calls = s.calls) (hlog : s'.log = s.log)
    (hpend : ∀ id, s'.pendingFor id = s.pendingFor id)
    (hpump : ∀ pump, s'.pump = some pump → ∃ pump', s.pump = some pump' ∧
      pump'.cursorLsn = pump.cursorLsn)
    (htargets : ∀ cursorLsn event targets, s'.pump = some ⟨cursorLsn, some (event, targets)⟩ →
      targets.Nodup ∧ event.updateLsn.isSome)
        (hchannels : ∀ id chan, s'.router.channels id = some chan →
      chan.sender.receiving = true → ∃ channel', s.router.channels id = some channel' ∧
        channel'.sender.receiving = true) : q.Tracked s' := by
  refine ⟨h.sound.congr hwal hclock, fun state hst => ?_, fun pump hsome => ?_, htargets,
    fun id => ?_⟩
  · exact (h.planned state (hhost ▸ hst)).congr hwal hclock hhost hpump
  · obtain ⟨pump', hpump', hcursor⟩ := hpump pump hsome
    rw [hclock, ← hcursor]
    exact h.cursor pump' hpump'
  · refine (h.kept id).frame_same hclock.ge (fun _ _ => by rw [hwal]) (congrFun hcalls id)
      (congrFun hlog id) (hpend id) ?_ (carried_same hhost)
    rintro (hawait | ⟨chan, hchan, hrecv⟩)
    · left
      rwa [awaiting, hcalls] at hawait
    · exact .inr (hchannels id chan hchan hrecv)

theorem tracked_ensurePump (hord : q.Orderly s (.ensurePump id)) : q.Tracked (s.ensurePump id) := by
  unfold Sharing.ensurePump
  split
  next lsn hphase hpump =>
    have hlsn : lsn ≤ s.clock := (h.kept id).stamped lsn (by simp [hphase])
    refine ⟨h.sound.congr rfl rfl, fun state hst => ?_, ?_, nofun, fun other => ?_⟩
    · have hplanned := h.planned state hst
      refine ⟨hplanned.known, hplanned.nodup, hplanned.serves, fun pump hsome => ?_⟩
      cases hsome
      exact hord lsn state hphase hpump hst
    · intro pump hsome
      cases hsome
      exact hlsn
    · refine (h.kept other).frame_same le_rfl (fun _ _ => rfl) rfl rfl ?_ (fun hl => hl)
        (carried_same rfl)
      simp [pendingFor, hpump]
  next => exact h

theorem tracked_tick : q.Tracked (q.tick s) := by
  unfold tick
  split
  next cursorLsn hpump hplans =>
    refine h.quiet rfl rfl rfl rfl rfl (fun id => ?_) nofun nofun
      fun _ chan hchan hrecv => ⟨chan, hchan, hrecv⟩
    simp [pendingFor, hpump]
  next => exact h

theorem tracked_unsubscribe (id) : q.Tracked { s with router := (s.router.unsubscribe id).2 } :=
  h.quiet rfl rfl rfl rfl rfl (fun _ => rfl) (fun pump hpump => ⟨pump, hpump, rfl⟩) h.targets
    fun _ chan hchan hrecv =>
      ⟨chan, RouterInner.unsubscribe_channels hchan, hrecv⟩

theorem tracked_updateSender (id)
    (hf : ∀ sender, (f sender).receiving = true → sender.receiving = true) :
    q.Tracked (s.updateSender id f) := by
  refine h.quiet rfl rfl rfl rfl rfl (fun _ => rfl) (fun pump hpump => ⟨pump, hpump, rfl⟩) h.targets
    fun other chan hchan hrecv => ?_
  rcases eq_or_ne other id with rfl | hne
  · simp only [updateSender, update_self] at hchan
    obtain ⟨prev, hwas, rfl⟩ := Option.map_eq_some_iff.mp hchan
    exact ⟨prev, hwas, hf _ hrecv⟩
  · simp only [updateSender, update_of_ne hne] at hchan
    exact ⟨chan, hchan, hrecv⟩

omit h

omit [DecidableEq δ] in
theorem release_plans_self {host : PersistentHost δ} {canonical : String} {sub : ℕ}
    {state : PlanState δ} (h : (host.release canonical sub).plans canonical = some state) :
    ∃ prev, host.plans canonical = some prev ∧ state = { prev with
      subscribers := dropSubscriber prev.subscribers sub } := by
  unfold release at h
  split at h
  next hnone => simp [hnone] at h
  next prev hwas =>
    split at h
    · simp at h
    · simp only [put, update_self, Option.some.injEq] at h
      exact ⟨prev, hwas, h.symm⟩

theorem tracked_release (h : q.Tracked s) (id : SubscriptionId) :
    q.Tracked { s with host := s.host.release q.canonical id } := by
  refine ⟨h.sound.congr rfl rfl, fun state hst => ?_, h.cursor, h.targets, fun other => ?_⟩
  · obtain ⟨prev, hwas, rfl⟩ := release_plans_self hst
    have hplanned := h.planned prev hwas
    exact hplanned.resubscribe rfl rfl rfl hst
      (nodup_dropSubscriber hplanned.nodup id)
  · refine (h.kept other).frame_same le_rfl (fun _ _ => rfl) rfl rfl rfl (fun hl => hl)
      fun state hst hmem => ?_
    obtain ⟨prev, hwas, rfl⟩ := release_plans_self hst
    exact ⟨prev, hwas, dropSubscriber_subset _ _ hmem, rfl, rfl⟩

end Leaving

end SharedQuery

end Palimpsest.Server
