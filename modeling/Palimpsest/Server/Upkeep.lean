import Palimpsest.Server.Books

/-! What keeps an accepted subscription fed: it stands on the subscriber list of the plan registered
under its key, and the key has a pump. The invariant is about one fixed subscription, whatever the
others do. -/
namespace Palimpsest.Server
open Sql Dataflow Permissions Function PersistentHost Option

variable {δ : Type}

section
variable {s : State δ} {key : String}

variable [DecidableEq δ]

theorem step_pumps (h : (s.pumps key).isSome) (hplan : (s.host.plans key).isSome) (b) :
    ((step d s b).pumps key).isSome := by
  have hput {key' : String} {pump : Pump δ} : (update s.pumps key' (some pump) key).isSome := by
    by_cases hkey : key = key'
    · simp [hkey]
    · rwa [update_of_ne hkey]
  have hdrop {key' : String} (hgone : s.host.plans key' = none) :
      (update s.pumps key' none key).isSome := by
    have hkey : key ≠ key' := by
      rintro rfl
      simp [hgone] at hplan
    rwa [update_of_ne hkey]
  have heffect := step_effect d s b
  generalize step d s b = s' at heffect ⊢
  cases heffect with
  | advance hcall hsection =>
    cases hsection with
    | fill =>
      show ((s.note ..).pumps key).isSome
      rwa [State.note_pumps]
    | _ => exact h
  | startPump => exact hput
  | exitPump hgone => exact hdrop hgone
  | transaction | deliver => exact hput
  | cursor =>
    show ((s.note ..).pumps key).isSome
    rwa [State.note_pumps]
  | _ => exact h

omit [DecidableEq δ] in
theorem ensurePump_pumps {id : SubscriptionId} {call : Call δ} (hcall : s.calls id = some call)
    (hstage : call.stage = .accepted) (hkey : call.canonicalKey = some key) :
    ((ensurePump s id).pumps key).isSome := by
  obtain ⟨req, plan, stage, generation, checkedAt, registeredAt, servedBy⟩ := call
  cases plan with
  | none => cases hkey
  | some plan =>
    cases hstage
    have hins : plan.inputs ≠ [] := by
      intro hnil
      simp [Call.canonicalKey, hnil] at hkey
    obtain rfl : canonicalSubgraphKey req.query req.userCtx = key := by
      simpa [Call.canonicalKey, hins] using hkey
    rw [ensurePump, hcall]
    dsimp only
    split
    next hpres => exact hpres.resolve_left hins
    next => simp

/-- An idle pump hands what it takes next to everyone on the list. -/
theorem pumpTransaction_targets {id : SubscriptionId} (hlists : s.host.Lists key id)
    (hidle : (s.pumps key).bind Pump.delivering = none) (delta)
    (h : ((pumpTransaction d s key delta).pumps key).bind Pump.delivering = some (event, targets)) :
    id ∈ targets := by
  obtain ⟨list, hlist, hid⟩ := hlists
  unfold pumpTransaction at h
  split at h
  next defaultTable hpump =>
    split at h
    · simp at h
    next deltas subscribers host hfan =>
      have hsame : list = subscribers := some.inj
        (hlist.symm.trans (subscribers_applyAndFanout hfan).2)
      split at h
      · simp [show (s.pumps key).bind Pump.delivering = none from hidle] at h
      · simp only [update_self, bind_some, some.injEq, Prod.mk.injEq] at h
        rw [← h.2]
        exact hsame ▸ hid
  next =>
    simp [hidle] at h

end

namespace Service

/-- The subscription was accepted and its handler has returned; it has not been unsubscribed and its
connection is not being torn down. -/
structure Established (v : Service δ) (id : SubscriptionId) (call : Call δ) : Prop where
  known : v.system.calls id = some call
  accepted : call.stage = .accepted
  registered : (v.system.router.registry.byId id).isSome
  serving : (v.connections call.request.connection).stage.serving = true
  returned : id ∉ (v.connections call.request.connection).blocking ∧
    id ∉ (v.connections call.request.connection).recorded

/-- The subscriber is on the list of the plan under the key, the key has a pump, and the pump will
hand the next transaction that changes the query's result to the subscriber. -/
structure Served [DecidableEq δ] (d : Deployment δ) (s : State δ) (key : String)
    (id : SubscriptionId) : Prop where
  listed : s.host.Lists key id
  pumped : (s.pumps key).isSome
  reached : ∀ delta event targets, (s.pumps key).bind Pump.delivering = none →
    ((pumpTransaction d s key delta).pumps key).bind Pump.delivering = some (event, targets) →
    id ∈ targets

/-- What a step has to grant one subscription: when it finds no plan, the snapshot has a row; and
when the client is told, the message is sent, no pump of its key is on the way out, and a new pump's
cursor opens. -/
def Attentive (id : SubscriptionId) (v : Service δ) : ServiceAction δ → Prop
  | .advance id' fetched => id' = id → ∀ call batch, v.system.calls id = some call →
      call.stage = .checked none → fetched = .ok batch → snapshotToSeedUpdates batch ≠ []
  | .announce _ id' sent cursorOpens => id' = id → sent = true ∧
      ∀ call key, v.system.calls id = some call → call.canonicalKey = some key →
        v.exiting key = false ∧ (cursorOpens = true ∨ (v.system.pumps key).isSome)
  | _ => True

/-- The subscription is in the router's tables and its connection serves. -/
def Alive (v : Service δ) (id : SubscriptionId) (call : Call δ) : Prop :=
  (v.system.router.registry.byId id).isSome ∧
    (v.connections call.request.connection).stage.serving = true

structure Attended (v : Service δ) (id : SubscriptionId) : Prop where
  listed : ∀ call key, v.system.calls id = some call → call.canonicalKey = some key →
    call.stage.standing = .attached → (call.stage = .accepted → Alive v id call) →
    v.system.host.Lists key id
  pumped : ∀ call key, v.system.calls id = some call → call.canonicalKey = some key →
    call.stage = .accepted → Alive v id call →
    id ∉ (v.connections call.request.connection).blocking →
    id ∉ (v.connections call.request.connection).recorded → (v.system.pumps key).isSome

variable [DecidableEq δ] {d : Deployment δ} {v : Service δ} {c : ConnectionId} {a : ServiceAction δ}
  {id : SubscriptionId} {call : Call δ} {key : String}

theorem Alive.of_step (halive : Alive (step d v a) id call')
    (hcall : v.system.calls id = some call) (hsettled : call.stage.settled = true)
    (hkeep : Keeps call call') : Alive v id call := by
  obtain ⟨hreg, hserves⟩ := halive
  rw [hkeep.request] at hserves
  constructor
  · by_contra hnone
    rw [not_isSome_iff_eq_none] at hnone
    have hnow : (step d v a).system.router.registry.byId id = none := by
      rcases step_moves d v a with ⟨b, -, hsys, -⟩ | ⟨c, -, hmove⟩
      · rw [hsys]
        exact step_absent hcall hsettled hnone b
      · rcases hmove.onward with hsame | ⟨b, hsys⟩
        · rw [hsame]
          exact hnone
        · rw [hsys]
          exact step_absent hcall hsettled hnone b
    simp [hnow] at hreg
  · rcases step_moves d v a with ⟨b, -, -, hstill⟩ | ⟨c, hothers, hmove⟩
    · rwa [hstill] at hserves
    · by_cases hc : call.request.connection = c
      · rw [hc] at hserves ⊢
        exact hmove.serving hserves
      · rwa [hothers _ hc] at hserves

theorem step_onward (d : Deployment δ) (v a) : Onward d v.system (step d v a).system := by
  rcases step_moves d v a with ⟨b, -, hsys, -⟩ | ⟨c, -, hmove⟩
  · exact .inr ⟨b, hsys⟩
  · exact hmove.onward

theorem Onward.not_attached (h : Onward d s s') (hnone : s.calls id = none)
    (hcall' : s'.calls id = some call') : call'.stage.standing ≠ .attached := by
  rcases h with rfl | ⟨b, rfl⟩
  · simp [hnone] at hcall'
  · rcases step_call hcall' with ⟨call, hcall, -⟩ | ⟨req, schema, -, -, rfl⟩
    · simp [hnone] at hcall
    · exact firstStage_elim (P := (·.standing ≠ .attached)) nofun nofun _ schema

/-- The loops take only subscriptions off the lists that have left the router or whose connection is
being torn down. -/
theorem Moves.still_listed (h : Moves d v c a s' conn) (hbooks : Books d v)
    (hcall : v.system.calls id = some call) (halive : call.stage = .accepted → Alive v id call)
    (hlists : v.system.host.Lists key id) : s'.host.Lists key id := by
  have hstep {b : Action δ} (hb : ∀ key id, b ≠ .release key id) :
      (Server.step d v.system b).host.Lists key id := by
    cases step_lists hbooks.provenance b with
    | same hhost => exact (lists_congr hhost).mpr hlists
    | join _ _ _ _ _ hhost => exact (lists_enlist hhost).mpr (.inl hlists)
    | part => exact absurd rfl (hb _ _)
  have hmentioned {key' : Option String} (hmention : (v.connections c).Mentions id key') :
      Alive v id call ∧ call.request.connection = c := by
    obtain ⟨call', hcall', hconn, hstage, -⟩ := hbooks.mentioned c id key' hmention
    cases mem_unique hcall hcall'
    exact ⟨halive hstage, hconn⟩
  cases h with
  | begin | pump | leave | disconnect => exact hstep nofun
  | @detach id' key' index limiter hstage =>
    refine lists_release_of_ne hlists (.inl ?_)
    rintro rfl
    have hentered := (hmentioned (.of_detaching hstage)).1.1
    rw [hbooks.detached c id _ hstage] at hentered
    cases hentered
  | @drain attachments index id' key' hstage hentry =>
    refine lists_release_of_ne hlists (.inl ?_)
    rintro rfl
    obtain ⟨⟨-, hserves⟩, rfl⟩ :=
      hmentioned (.of_draining hstage (List.mem_of_getElem? hentry))
    rw [hstage] at hserves
    cases hserves
  | _ => exact hlists

theorem step_listed (hbooks : Books d v) (h : Attended v id) (hattentive : Attentive id v a)
    (hcall' : (step d v a).system.calls id = some call') (hkey' : call'.canonicalKey = some key)
    (hatt : call'.stage.standing = .attached)
    (halive : call'.stage = .accepted → Alive (step d v a) id call') :
    (step d v a).system.host.Lists key id := by
  rcases eq_none_or_eq_some (v.system.calls id) with hnone | ⟨call, hcall⟩
  · exact absurd hatt ((step_onward d v a).not_attached hnone hcall')
  · obtain ⟨after, hnow, hkeep, hsettled⟩ := (step_onward d v a).call hbooks.provenance hcall
    cases mem_unique hcall' hnow
    have hkey : call.canonicalKey = some key := hkeep.canonicalKey.symm.trans hkey'
    have hwas (hacc : call.stage = .accepted) : Alive v id call := by
      have hover : call.stage.settled = true := by rw [hacc]; rfl
      exact (halive ((hsettled hover).trans hacc)).of_step hcall hover hkeep
    have hold (hstand : call.stage.standing = .attached) : v.system.host.Lists key id :=
      h.listed call key hcall hkey hstand hwas
    rcases step_moves d v a with ⟨b, hinner, hsys, -⟩ | ⟨c, -, hmoves⟩
    · rw [hsys] at hcall' ⊢
      cases step_lists hbooks.provenance b with
      | same hhost hmove =>
        refine (lists_congr hhost).mpr ?_
        cases hmove id call call' hcall hcall' with
        | keep hsame => exact hold (hsame ▸ hatt)
        | refuse hrefused => rw [hrefused] at hatt; cases hatt
        | bypass _ hnone => rw [hnone] at hkey; cases hkey
        | empty _ hcheck hadvance hempty =>
          subst hadvance
          cases hinner
          exact absurd hempty (hattentive rfl call _ hcall hcheck rfl)
      | @join id' fetched prev moved key'' hjoining hcalls hjoin hapart hjoins hhost =>
        refine (lists_enlist hhost).mpr ?_
        rcases eq_or_ne id id' with rfl | hid
        · cases mem_unique hcall hjoining
          exact .inr ⟨mem_unique hkey hjoin, rfl⟩
        · rw [hcalls, update_of_ne hid] at hcall'
          cases mem_unique hcall hcall'
          exact .inl (hold hatt)
      | part => cases hinner
    · obtain ⟨moved, hmoved, -, hstage⟩ := hmoves.call hbooks.provenance hcall
      cases mem_unique hcall' hmoved
      exact hmoves.still_listed hbooks hcall hwas (hold (hstage ▸ hatt))

omit [DecidableEq δ] in
/-- Told in order, the client's subscription has a pump. -/
theorem announce_pumps {sent cursorOpens : Bool} (hrec : id ∈ (v.connections c).recorded)
    (hcall : v.system.calls id = some call) (hkey : call.canonicalKey = some key)
    (hacc : call.stage = .accepted) (hsent : sent = true) (hexiting : v.exiting key = false)
    (hopens : cursorOpens = true ∨ (v.system.pumps key).isSome) :
    ((announce v c id sent cursorOpens).system.pumps key).isSome := by
  have hbind : (v.system.calls id).bind Call.canonicalKey = some key := by rw [hcall]; exact hkey
  unfold announce
  simp only [hrec, if_true, hsent, hbind, hexiting, Bool.false_eq_true, if_false, hopens]
  exact ensurePump_pumps hcall hacc hkey

/-- A task leaves the connection by recording an accepted call or by telling the client. -/
theorem Moves.returned (h : Moves d v c a s' conn)
    (hcall : v.system.calls id = some call) (hacc : call.stage = .accepted)
    (hblock : id ∉ conn.blocking) (hrec : id ∉ conn.recorded) :
    (id ∉ (v.connections c).blocking ∧ id ∉ (v.connections c).recorded) ∨
      id ∈ (v.connections c).recorded ∧
        ∃ sent cursorOpens, a = .announce c id sent cursorOpens := by
  have hleft {ids : List SubscriptionId} {id' : SubscriptionId} (hne : id ≠ id')
      (hnot : id ∉ ids.filter (· ≠ id')) : id ∉ ids :=
    fun hmem => hnot (List.mem_filter.mpr ⟨hmem, by simpa using hne⟩)
  have hannounced {id' : SubscriptionId} {sent cursorOpens : Bool}
      (ha : a = .announce c id' sent cursorOpens) (hblock : id ∉ (v.connections c).blocking)
      (hrec : id ∉ (v.connections c).recorded.filter (· ≠ id')) :
      (id ∉ (v.connections c).blocking ∧ id ∉ (v.connections c).recorded) ∨
        id ∈ (v.connections c).recorded ∧
          ∃ sent cursorOpens, a = .announce c id sent cursorOpens := by
    rcases eq_or_ne id id' with rfl | hid
    · by_cases hmem : id ∈ (v.connections c).recorded
      · exact .inr ⟨hmem, sent, cursorOpens, ha⟩
      · exact .inl ⟨hblock, hmem⟩
    · exact .inl ⟨hblock, hleft hid hrec⟩
  cases h with
  | begin => exact .inl ⟨fun hmem => hblock (List.mem_append_left _ hmem), hrec⟩
  | @accept id' =>
    have hne : id ≠ id' := by
      rintro rfl
      exact hrec (List.mem_append_right _ List.mem_cons_self)
    exact .inl ⟨hleft hne hblock, fun hmem => hrec (List.mem_append_left _ hmem)⟩
  | @reject id' call' error limiter hcall' hrejected =>
    have hne : id ≠ id' := by
      rintro rfl
      cases mem_unique hcall hcall'
      simp [hacc] at hrejected
    exact .inl ⟨hleft hne hblock, hrec⟩
  | announce | pump => exact hannounced rfl hblock hrec
  | _ => exact .inl ⟨hblock, hrec⟩

theorem step_pumped (hbooks : Books d v) (h : Attended v id) (hattentive : Attentive id v a)
    (hcall' : (step d v a).system.calls id = some call') (hkey' : call'.canonicalKey = some key)
    (hacc' : call'.stage = .accepted) (halive : Alive (step d v a) id call')
    (hblock : id ∉ ((step d v a).connections call'.request.connection).blocking)
    (hrec : id ∉ ((step d v a).connections call'.request.connection).recorded) :
    ((step d v a).system.pumps key).isSome := by
  rcases eq_none_or_eq_some (v.system.calls id) with hnone | ⟨call, hcall⟩
  · exact absurd (by rw [hacc']; rfl) ((step_onward d v a).not_attached hnone hcall')
  · obtain ⟨after, hnow, hkeep, hsettled⟩ := (step_onward d v a).call hbooks.provenance hcall
    cases mem_unique hcall' hnow
    have hkey : call.canonicalKey = some key := hkeep.canonicalKey.symm.trans hkey'
    rw [hkeep.request] at hblock hrec
    -- the pump of a subscription that had returned before stays
    have hstays (hacc : call.stage = .accepted)
        (hret : id ∉ (v.connections call.request.connection).blocking ∧
          id ∉ (v.connections call.request.connection).recorded) :
        ((step d v a).system.pumps key).isSome := by
      have hwas := halive.of_step hcall (by rw [hacc]; rfl) hkeep
      have hpump := h.pumped call key hcall hkey hacc hwas hret.1 hret.2
      obtain ⟨list, hlist, -⟩ :=
        h.listed call key hcall hkey (by rw [hacc]; rfl) (fun _ => hwas)
      obtain ⟨state, hst, -⟩ := map_eq_some_iff.mp hlist
      rcases step_onward d v a with hsame | ⟨b, hsys⟩
      · rwa [hsame]
      · rw [hsys]
        exact step_pumps hpump (by simp [hst]) b
    rcases step_moves d v a with ⟨b, -, -, hstill⟩ | ⟨c, hothers, hmove⟩
    · rw [hstill] at hblock hrec
      have hover : call.stage.settled = true := by
        by_contra hopen
        exact hblock (hbooks.unsettled id call hcall (by simpa using hopen))
      exact hstays ((hsettled hover).symm.trans hacc') ⟨hblock, hrec⟩
    · obtain ⟨moved, hmoved, -, hstage⟩ := hmove.call hbooks.provenance hcall
      cases mem_unique hcall' hmoved
      have hacc : call.stage = .accepted := hstage.symm.trans hacc'
      by_cases hc : call.request.connection = c
      · rw [hc] at hblock hrec
        rcases hmove.returned hcall hacc hblock hrec with
          hret | ⟨hmem, sent, cursorOpens, rfl⟩
        · exact hstays hacc (hc ▸ hret)
        · obtain ⟨hsent, hready⟩ := hattentive rfl
          obtain ⟨hexiting, hopens⟩ := hready call key hcall hkey
          exact announce_pumps hmem hcall hkey hacc hsent hexiting hopens
      · rw [hothers _ hc] at hblock hrec
        exact hstays hacc ⟨hblock, hrec⟩

/-- Every established subscription that runs on the host is served, in every run that grants it a
snapshot with a row when it finds no plan and a pump when the client is told. -/
theorem established_served (d : Deployment δ) (maxSubscriptions : ℕ) {v : Service δ}
    (id : SubscriptionId)
    (h : Runs.Reached (step d) (Attentive id) (start maxSubscriptions) v) {call : Call δ}
    (hestablished : Established v id call) {key : String} (hkey : call.canonicalKey = some key) :
    Served d v.system key id := by
  have hinv : Books d v ∧ Attended v id := by
    refine h.invariant (P := fun v => Books d v ∧ Attended v id)
      ⟨start_books d maxSubscriptions, ⟨fun _ _ h => (nomatch h), fun _ _ h => (nomatch h)⟩⟩ ?_
    rintro v a ⟨hbooks, hattended⟩ hattentive
    exact ⟨step_books hbooks a,
      fun _ _ hcall hkey => step_listed hbooks hattended hattentive hcall hkey,
      fun _ _ hcall hkey => step_pumped hbooks hattended hattentive hcall hkey⟩
  have halive : Alive v id call := ⟨hestablished.registered, hestablished.serving⟩
  have hlists := hinv.2.listed call key hestablished.known hkey
    (by rw [hestablished.accepted]; rfl) (fun _ => halive)
  refine ⟨hlists, ?_, fun delta event targets hidle htaken => ?_⟩
  · exact hinv.2.pumped call key hestablished.known hkey hestablished.accepted halive
      hestablished.returned.1 hestablished.returned.2
  · exact pumpTransaction_targets hlists hidle delta htaken

section

def postsKey : String := canonicalSubgraphKey "SELECT * FROM posts" userSeven

/-- A subscription to the posts that is told of its acceptance. -/
def establishedPosts (batch : SnapshotBatch ℕ) : List (ServiceAction ℕ) :=
  postsTask "a" 1 batch ++ [.settle 1 1, .announce 1 1 true true, .pumpTick postsKey]

theorem posts_served : Served postsDeployment (postsService (establishedPosts twoPosts)).system
    postsKey 1 := by
  have hfetch {v : Service ℕ} : Attentive 1 v (.advance 1 (.ok twoPosts)) := by
    rintro - call batch - - ⟨⟩
    decide
  refine established_served postsDeployment 8 1 (Runs.Schedule.reached ?_ .start)
    ⟨rfl, rfl, rfl, rfl, by decide, by decide⟩ (by decide +kernel)
  refine .cons trivial (.cons trivial ?_)
  refine .cons hfetch (.cons hfetch (.cons hfetch ?_))
  refine .cons hfetch (.cons hfetch (.cons hfetch ?_))
  exact .cons trivial (.cons (fun _ => ⟨rfl, fun _ _ _ _ => ⟨rfl, .inl rfl⟩⟩)
    (.cons trivial (.nil _)))

def noPosts : SnapshotBatch ℕ := ⟨5, [(1, [])]⟩

/-- With no rows to seed a plan from, the accepted subscription is on no list, and the pump exits at
its next tick. -/
theorem empty_table_unserved : Runs.Reached (step postsDeployment) (fun _ _ => True) (start 8)
        (postsService (establishedPosts noPosts)) ∧
      (∃ call, Established (postsService (establishedPosts noPosts)) 1 call ∧
        call.canonicalKey = some postsKey) ∧
      (postsService (establishedPosts noPosts)).system.host.subscribers postsKey = none ∧
      ((postsService (establishedPosts noPosts)).system.pumps postsKey).isNone ∧
      ¬ Served postsDeployment (postsService (establishedPosts noPosts)).system postsKey 1 := by
  have hunlisted : (postsService (establishedPosts noPosts)).system.host.subscribers postsKey =
      none := by
    decide +kernel
  refine ⟨(Runs.Schedule.free _ _ _).reached .start,
    ⟨_, ⟨rfl, rfl, rfl, rfl, by decide, by decide⟩, by decide +kernel⟩, hunlisted,
    by decide +kernel, fun h => ?_⟩
  obtain ⟨list, ⟨⟩, -⟩ := h.listed

end

end Service

end Palimpsest.Server
