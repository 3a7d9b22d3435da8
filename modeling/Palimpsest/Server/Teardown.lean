import Palimpsest.Server.Books

/-! What a connection leaves behind. Its teardown removes everything it knows of, so that nothing
is left when no task is still on its way and no call was refused after it had attached to a plan. -/
namespace Palimpsest.Server
open Sql Dataflow Permissions Function PersistentHost List Option

variable {δ : Type}

/-- The call is in the router's tables unless it was taken out. -/
def Stage.entered : Stage δ → Bool
  | .registered _ _ | .seeded _ _ _ | .accepted => true
  | _ => false

section
variable [DecidableEq δ] {id : SubscriptionId}

variable {b : Action δ}

theorem step_entered (hcall' : (step d s b).calls id = some call')
    (hstage : call'.stage.entered = true) :
    (∃ call, s.calls id = some call ∧ call.stage.entered = true) ∨
      ((step d s b).router.registry.byId id).isSome := by
  rcases step_call hcall' with ⟨call, hcall, -, ⟨fetched, rfl⟩ | hrests⟩ |
    ⟨req, schema, rfl, rfl, rfl⟩
  · have hsection : SectionEffect d s id call fetched (step d s (.advance id fetched)) :=
      advance_effect hcall
    generalize step d s (.advance id fetched) = s' at hsection hcall' ⊢
    have hwas (h : call.stage.entered = true) :
        (∃ call, s.calls id = some call ∧ call.stage.entered = true) ∨
          (s'.router.registry.byId id).isSome :=
      .inl ⟨call, hcall, h⟩
    cases hsection with
    | stay => exact .inl ⟨call', hcall', hstage⟩
    | enter _ hrouter =>
      obtain ⟨sub, -, hbyId, -⟩ := RouterInner.register_tables hrouter
      exact .inr (by simp [hbyId])
    | spawn hreg | own hreg => exact hwas (by rw [hreg]; rfl)
    | join hjoin =>
      rcases hjoin with ⟨_, _, hreg, -⟩ | ⟨_, _, _, hreg⟩ <;> exact hwas (by rw [hreg]; rfl)
    | done hcomplete =>
      rcases hcomplete with ⟨_, _, hreg, -⟩ | ⟨_, _, _, hreg, -⟩ <;> exact hwas (by rw [hreg]; rfl)
    | _ =>
      cases (update_self ..).symm.trans hcall'
      cases hstage
  · exact .inl ⟨call, hcall, hrests.stage ▸ hstage⟩
  · exact absurd hstage (firstStage_elim (P := (·.entered ≠ true)) nofun nofun _ schema)

theorem step_still_entered (h : (s.router.registry.byId id).isSome)
    (hb : b ≠ .unsubscribe id) : ((step d s b).router.registry.byId id).isSome := by
  cases step_tables d s b with
  | same hsame => rw [← isSome_map, hsame.byId id, isSome_map, h]
  | @enter id' fetched call call' opened hcall hstage hcalls hkeep hpast hregister =>
    obtain ⟨sub, -, hbyId, -⟩ := RouterInner.register_tables hregister
    rw [hbyId]
    by_cases hid : id = id'
    · simp [hid]
    · rwa [update_of_ne hid]
  | @leave id' hrouter =>
    have hid : id ≠ id' := fun hid => hb (hid ▸ rfl)
    rwa [hrouter, RouterInner.unsubscribe_byId, update_of_ne hid]

/-- A connection gets a new entry only from a call of its own that was about to register. -/
theorem step_byConnection (h : id ∈ (step d s b).router.registry.byConnection c) :
    id ∈ s.router.registry.byConnection c ∨
      ∃ call, s.calls id = some call ∧ call.request.connection = c ∧
        call.stage.settled = false := by
  cases step_tables d s b with
  | same hsame =>
    rw [hsame.byConnection] at h
    exact .inl h
  | @enter id' fetched call call' opened hcall hstage hcalls hkeep hpast hregister =>
    obtain ⟨sub, -, -, hbyConn, -⟩ := RouterInner.register_tables hregister
    refine ((hbyConn ..).mp h).imp_right ?_
    rintro ⟨rfl, rfl⟩
    exact ⟨call, hcall, rfl, by rw [hstage]; rfl⟩
  | @leave id' hrouter =>
    left
    rcases eq_none_or_eq_some (s.router.registry.byId id') with hnone | ⟨gone, hgone⟩
    · rwa [hrouter, RouterInner.unsubscribe_of_none hnone] at h
    · rw [hrouter, (RouterInner.unsubscribe_tables hgone).2.2.1] at h
      exact h.1

end

/-- What the teardown still has to take out of the router. -/
def LoopStage.remaining : LoopStage → Option (List SubscriptionId)
  | .disconnecting ids => some ids
  | .ended => some []
  | _ => none

theorem LoopStage.not_serving_of_remaining {stage : LoopStage} (h : stage.remaining = some ids) :
    stage.serving = false := by
  cases stage <;> first | rfl | cases h

namespace Service

/-- A teardown begins when every task of the connection has recorded its outcome, and no call that
is on a subscriber list is refused. -/
def Careful (v : Service δ) : ServiceAction δ → Prop
  | .hangUp c => (v.connections c).spawned = [] ∧ (v.connections c).blocking = []
  | .advance id _ => ∀ call, v.system.calls id = some call → (∃ key, v.system.host.Lists key id) →
      ¬ RefusedNext v.system call
  | _ => True

end Service

namespace Connection

/-- The connection counts on the subscription being in the router's tables. -/
inductive Expects (connection : Connection) (s : State δ) (id : SubscriptionId) : Prop
  | task {call : Call δ} : s.calls id = some call → id ∈ connection.blocking →
      call.stage.entered = true → Expects connection s id
  | label {clientId : ClientSubscriptionId} : connection.byClientId clientId = some id →
      Expects connection s id
  | leaving {hostCanonical : Option String} :
      connection.stage = .unsubscribing id hostCanonical → Expects connection s id

/-- The names a connection has for its subscriptions. While it serves, what it has a name for is in
the router's tables. -/
structure Labelled (connection : Connection) (s : State δ) : Prop where
  named : ∀ clientId id, connection.byClientId clientId = some id → id ∉ connection.blocking ∧
    ∃ call, s.calls id = some call ∧ call.request.clientId = clientId
  leaving : ∀ id hostCanonical, connection.stage = .unsubscribing id hostCanonical →
    id ∉ connection.blocking ∧ ∀ clientId, connection.byClientId clientId ≠ some id
  entered : connection.stage.serving = true → ∀ id, connection.Expects s id →
    (s.router.registry.byId id).isSome

/-- Once the teardown has begun, nothing comes in any more and the router's list runs down. -/
structure Closing (connection : Connection) (s : State δ) (c : ConnectionId) : Prop where
  quiet : connection.stage.serving = false → connection.spawned = [] ∧ connection.blocking = [] ∧
    connection.hostCanonicals = []
  swept : ∀ ids, connection.stage.remaining = some ids → s.router.registry.byConnection c ⊆ ids

end Connection

namespace Service
variable [DecidableEq δ] {d : Deployment δ} {v : Service δ} {c : ConnectionId}
  {a : ServiceAction δ} {s' : State δ} {connection : Connection} {id : SubscriptionId}

section Labels

omit [DecidableEq δ] in
theorem Books.not_begun (h : Books d v) {call : Call δ} (hcall : v.system.calls id = some call) :
    id ≠ v.system.nextId := by
  rintro rfl
  simp [h.provenance.fresh _ le_rfl] at hcall

variable (h : Moves d v c a s' connection)
include h

theorem Moves.not_blocking (hbooks : Books d v) {call : Call δ}
    (hcall : v.system.calls id = some call) (hid : id ∉ (v.connections c).blocking) :
    id ∉ connection.blocking := by
  intro hmem
  rcases h.blocking hmem with hold | ⟨_, -, _, -, hnew⟩
  · exact hid hold
  · exact hbooks.not_begun hcall hnew

theorem Moves.named (hbooks : Books d v) (hlabelled : (v.connections c).Labelled v.system)
    (hlabel : connection.byClientId clientId = some id) : id ∉ connection.blocking ∧
      ∃ call, s'.calls id = some call ∧ call.request.clientId = clientId := by
  have hold (hlabel : (v.connections c).byClientId clientId = some id) : id ∉ connection.blocking ∧
      ∃ call, s'.calls id = some call ∧ call.request.clientId = clientId := by
    obtain ⟨hblock, call, hcall, hcli⟩ := hlabelled.named clientId id hlabel
    obtain ⟨call', hcall', hkeep, -⟩ := h.onward.call hbooks.provenance hcall
    exact ⟨h.not_blocking hbooks hcall hblock, call', hcall', by rw [hkeep.request, hcli]⟩
  cases h with
  | accept hblock hcall =>
    rcases update_some hlabel with hwas | ⟨rfl, rfl⟩
    · exact hold hwas
    · exact ⟨fun hmem => by simpa using (mem_filter.mp hmem).2, _, hcall, rfl⟩
  | @forget clientId' id' hrun hlabel' => exact hold (update_none hlabel).2
  | _ => exact hold hlabel

theorem Moves.leaving (hbooks : Books d v) (hlabelled : (v.connections c).Labelled v.system)
    (hstage : connection.stage = .unsubscribing id hostCanonical) :
    id ∉ connection.blocking ∧ ∀ clientId, connection.byClientId clientId ≠ some id := by
  have hold (hwas : (v.connections c).stage = .unsubscribing id hostCanonical) :
      id ∉ connection.blocking ∧ ∀ clientId, (v.connections c).byClientId clientId ≠ some id := by
    obtain ⟨hblock, hlabels⟩ := hlabelled.leaving id hostCanonical hwas
    obtain ⟨call, hcall, -⟩ := hbooks.mentioned c id _ (.of_unsubscribing hwas)
    exact ⟨h.not_blocking hbooks hcall hblock, hlabels⟩
  cases h with
  | pace | admission | refuse | begin | reject | announce | pump => exact hold hstage
  | @accept id' call hblock hcall hacc =>
    refine ⟨(hold hstage).1, fun clientId hlabel => ?_⟩
    rcases update_some hlabel with hwas | ⟨-, rfl⟩
    · exact (hold hstage).2 clientId hwas
    · exact (hlabelled.leaving _ _ hstage).1 hblock
  | @forget clientId id' hrun hlabel =>
    cases hstage
    obtain ⟨hblock, call, hcall, hcli⟩ := hlabelled.named clientId id hlabel
    refine ⟨hblock, fun clientId' hlabel' => ?_⟩
    obtain ⟨hother, hwas⟩ := update_none hlabel'
    obtain ⟨-, call', hcall', hcli'⟩ := hlabelled.named clientId' id hwas
    cases mem_unique hcall hcall'
    exact hother (hcli'.symm.trans hcli)
  | _ => cases hstage

omit h

theorem Onward.entered (h : Onward d s s') (hcall' : s'.calls id = some call')
    (hstage : call'.stage.entered = true) :
    (∃ call, s.calls id = some call ∧ call.stage.entered = true) ∨
      (s'.router.registry.byId id).isSome := by
  rcases h with rfl | ⟨b, rfl⟩
  · exact .inl ⟨call', hcall', hstage⟩
  · exact step_entered hcall' hstage

variable (h : Moves d v c a s' connection)
include h

/-- What the connection counts on, it counted on before, or it has just been entered. -/
theorem Moves.expects (hbooks : Books d v) (hexp : connection.Expects s' id) :
    (v.connections c).Expects v.system id ∨ (s'.router.registry.byId id).isSome := by
  cases hexp with
  | task hcall' hblock hstage =>
    rcases h.onward.entered hcall' hstage with ⟨call, hcall, hentered⟩ | hnow
    · rcases h.blocking hblock with hold | ⟨_, -, _, -, hnew⟩
      · exact .inl (.task hcall hold hentered)
      · exact absurd hnew (hbooks.not_begun hcall)
    · exact .inr hnow
  | @label clientId hlabel =>
    left
    cases h with
    | accept hblock hcall hacc =>
      rcases update_some hlabel with hold | ⟨-, rfl⟩
      · exact .label hold
      · exact .task hcall hblock (by rw [hacc]; rfl)
    | forget => exact .label (update_none hlabel).2
    | _ => exact .label hlabel
  | leaving hstage =>
    left
    cases h with
    | forget hrun hlabel =>
      cases hstage
      exact .label hlabel
    | pace | admission | refuse | begin | accept | reject | announce | pump => exact .leaving hstage
    | _ => cases hstage

theorem Moves.still_entered (hentered : (v.system.router.registry.byId id).isSome) :
    (s'.router.registry.byId id).isSome ∨
      (∃ hostCanonical, (v.connections c).stage = .unsubscribing id hostCanonical ∧
        connection.byClientId = (v.connections c).byClientId ∧
        connection.blocking = (v.connections c).blocking ∧
        connection.stage = .detaching id hostCanonical) ∨
      ∃ ids, (v.connections c).stage = .disconnecting (id :: ids) := by
  have hstep {b : Action δ} (hb : b ≠ .unsubscribe id) :
      ((Server.step d v.system b).router.registry.byId id).isSome :=
    step_still_entered hentered hb
  cases h with
  | begin | pump | detach | drain => exact .inl (hstep (fun h => by cases h))
  | @leave id' hostCanonical index hstage =>
    rcases eq_or_ne id id' with rfl | hid
    · exact .inr (.inl ⟨hostCanonical, hstage, rfl, rfl, rfl⟩)
    · exact .inl (hstep fun h => by cases h; exact hid rfl)
  | @disconnect id' ids index hstage =>
    rcases eq_or_ne id id' with rfl | hid
    · exact .inr (.inr ⟨ids, hstage⟩)
    · exact .inl (hstep fun h => by cases h; exact hid rfl)
  | _ => exact .inl hentered

theorem Moves.labelled (hbooks : Books d v)
    (hlabelled : (v.connections c).Labelled v.system) : connection.Labelled s' := by
  refine ⟨fun clientId id => h.named hbooks hlabelled,
    fun id hostCanonical => h.leaving hbooks hlabelled, fun hserves id hexp => ?_⟩
  rcases h.expects hbooks hexp with hwas | hnow
  · have hentered := hlabelled.entered (h.serving hserves) id hwas
    rcases h.still_entered hentered with hstill | ⟨hostCanonical, hstage, hlabels, hblock, hnext⟩ |
      ⟨ids, hstage⟩
    · exact hstill
    · -- nothing of the subscription is left at the connection when the loop takes it out
      obtain ⟨hnot, hnone⟩ := hlabelled.leaving id hostCanonical hstage
      cases hexp with
      | task _ hmem => exact absurd (hblock ▸ hmem) hnot
      | label hlabel => exact absurd (hlabels ▸ hlabel) (hnone _)
      | leaving hleaving => rw [hnext] at hleaving; cases hleaving
    · have hwas := h.serving hserves
      rw [hstage] at hwas
      cases hwas
  · exact hnow

omit h in
omit [DecidableEq δ] in
theorem Books.calledOn_of_expects (h : Books d v)
    (hexp : (v.connections c).Expects v.system id) : CalledOn v.system c id := by
  cases hexp with
  | task _ hmem => exact h.blocking c id hmem
  | label hlabel =>
    obtain ⟨call, hcall, hconn, -⟩ := h.mentioned c id _ (.label hlabel)
    exact ⟨call, hcall, hconn⟩
  | leaving hstage =>
    obtain ⟨call, hcall, hconn, -⟩ := h.mentioned c id _ (.of_unsubscribing hstage)
    exact ⟨call, hcall, hconn⟩

omit h in
theorem Onward.expects {s : State δ} (h : Onward d s s') (hexp : connection.Expects s' id) :
    connection.Expects s id ∨ (s'.router.registry.byId id).isSome := by
  cases hexp with
  | task hcall' hblock hstage =>
    rcases h.entered hcall' hstage with ⟨call, hcall, hentered⟩ | hnow
    · exact .inl (.task hcall hblock hentered)
    · exact .inr hnow
  | label hlabel => exact .inl (.label hlabel)
  | leaving hstage => exact .inl (.leaving hstage)

omit h in
theorem Onward.labelled (h : Onward d v.system s') (hbooks : Books d v)
    (hlabelled : (v.connections c).Labelled v.system)
    (hstill : ∀ id, (v.connections c).Expects v.system id →
      (v.system.router.registry.byId id).isSome → (s'.router.registry.byId id).isSome) :
    (v.connections c).Labelled s' := by
  refine ⟨fun clientId id hlabel => ?_, hlabelled.leaving, fun hserves id hexp => ?_⟩
  · obtain ⟨hblock, call, hcall, hcli⟩ := hlabelled.named clientId id hlabel
    obtain ⟨call', hcall', hkeep, -⟩ := h.call hbooks.provenance hcall
    exact ⟨hblock, call', hcall', by rw [hkeep.request, hcli]⟩
  · rcases h.expects hexp with hwas | hnow
    · exact hstill id hwas (hlabelled.entered hserves id hwas)
    · exact hnow

theorem Moves.still_entered_elsewhere (hbooks : Books d v) (hc : c' ≠ c)
    (hcalled : CalledOn v.system c' id) (hentered : (v.system.router.registry.byId id).isSome) :
    (s'.router.registry.byId id).isSome := by
  rcases h.still_entered hentered with hstill | ⟨hostCanonical, hstage, -⟩ | ⟨ids, hstage⟩
  · exact hstill
  · obtain ⟨call, hcall, hconn, -⟩ := hbooks.mentioned c id _ (.of_unsubscribing hstage)
    exact absurd (hcalled.unique ⟨call, hcall, hconn⟩) hc
  · exact absurd (hcalled.unique (hbooks.disconnecting c _ hstage id mem_cons_self)) hc

omit h

theorem step_labelled (hbooks : Books d v) (h : ∀ c, (v.connections c).Labelled v.system) (a c) :
    ((step d v a).connections c).Labelled (step d v a).system := by
  rcases step_moves d v a with ⟨b, hinner, hsys, hstill⟩ | ⟨c', hothers, hmove⟩
  · rw [hstill]
    refine Onward.labelled (.inr ⟨b, hsys⟩) hbooks (h c) fun id _ hentered => ?_
    rw [hsys]
    exact step_still_entered hentered (by cases hinner <;> exact nofun)
  · rcases eq_or_ne c c' with rfl | hc
    · exact hmove.labelled hbooks (h c)
    · rw [hothers c hc]
      refine hmove.onward.labelled hbooks (h c) fun id hexp hentered => ?_
      exact hmove.still_entered_elsewhere hbooks hc (hbooks.calledOn_of_expects hexp) hentered

end Labels

section

theorem Onward.byConnection (h : Onward d s s')
    (hid : id ∈ s'.router.registry.byConnection c) : id ∈ s.router.registry.byConnection c ∨
      ∃ call, s.calls id = some call ∧ call.request.connection = c ∧
        call.stage.settled = false := by
  rcases h with rfl | ⟨b, rfl⟩
  · exact .inl hid
  · exact step_byConnection hid

theorem Onward.closing (h : Onward d v.system s') (hbooks : Books d v)
    (hclose : (v.connections c).Closing v.system c) : (v.connections c).Closing s' c := by
  refine ⟨hclose.quiet, fun ids hids id hid => ?_⟩
  rcases h.byConnection hid with hold | ⟨call, hcall, rfl, hunset⟩
  · exact hclose.swept ids hids hold
  · have hblock := hbooks.unsettled id call hcall hunset
    simp [(hclose.quiet (LoopStage.not_serving_of_remaining hids)).2.1] at hblock

theorem Moves.quiet (h : Moves d v c a s' connection)
    (hclose : (v.connections c).Closing v.system c) (hcareful : Careful v a)
    (hserves : connection.stage.serving = false) : connection.spawned = [] ∧
      connection.blocking = [] ∧ connection.hostCanonicals = [] := by
  cases h with
  | pace | announce | pump => exact hclose.quiet hserves
  | refuse | reject =>
    obtain ⟨hspawned, hblock, hatt⟩ := hclose.quiet hserves
    simp [hspawned, hblock, hatt]
  | admission _ hrun =>
    simp [show (v.connections c).stage.serving = true by rw [hrun]; rfl] at hserves
  | begin hreq =>
    simp [(hclose.quiet hserves).1] at hreq
  | accept hblock =>
    simp [(hclose.quiet hserves).2.1] at hblock
  | hangUp => exact ⟨hcareful.1, hcareful.2, rfl⟩
  | drain hstage | enumerate hstage | disconnect hstage | finish hstage =>
    exact hclose.quiet (by rw [hstage]; rfl)
  | _ => cases hserves

theorem Moves.swept (h : Moves d v c a s' connection) (hbooks : Books d v) (henrolled : Enrolled s')
    (hclose : (v.connections c).Closing v.system c) (hids : connection.stage.remaining = some ids) :
    s'.router.registry.byConnection c ⊆ ids := by
  have hold := (h.onward.closing hbooks hclose).swept
  cases h with
  | pace | admission | refuse | begin | accept | reject | announce | pump => exact hold ids hids
  | enumerate =>
    cases hids
    exact .refl _
  | @disconnect id' ids' index hstage =>
    cases hids
    intro id hid
    refine (mem_cons.mp (hold (id' :: ids) (by rw [hstage]; rfl) hid)).resolve_left ?_
    rintro rfl
    -- the subscription just taken out is listed nowhere
    obtain ⟨entry, hentry, -⟩ := henrolled.listed c id hid
    have hentry : (v.system.router.unsubscribe id).2.registry.byId id = some entry := hentry
    simp [RouterInner.unsubscribe_byId] at hentry
  | finish hstage => exact hold ids (by rw [hstage]; exact hids)
  | _ => cases hids

theorem step_closing (hbooks : Books d v) (h : ∀ c, (v.connections c).Closing v.system c)
    (hcareful : Careful v a) (c) : ((step d v a).connections c).Closing (step d v a).system c := by
  have henrolled := (step_books hbooks a).enrolled
  rcases step_moves d v a with ⟨b, -, hsys, hstill⟩ | ⟨c', hothers, hmove⟩
  · rw [hstill]
    exact Onward.closing (.inr ⟨b, hsys⟩) hbooks (h c)
  · rcases eq_or_ne c c' with rfl | hc
    · exact ⟨hmove.quiet (h c) hcareful, fun ids => hmove.swept hbooks henrolled (h c)⟩
    · rw [hothers c hc]
      exact hmove.onward.closing hbooks (h c)

end

section Custody

/-- Every listing of a subscriber is in somebody's hands: the task's, or the connection's. -/
def InCustody (v : Service δ) (key : String) (id : SubscriptionId) : Prop :=
  ∃ call, v.system.calls id = some call ∧ call.stage.standing ≠ .refused ∧
    (id ∈ (v.connections call.request.connection).blocking ∨
      (v.connections call.request.connection).Mentions id (some key))

theorem mem_eraseIdx_of_ne {ents : List (SubscriptionId × String)} (h : entry ∈ ents)
    (hgone : ents[index]? = some gone) (hne : entry ≠ gone) : entry ∈ ents.eraseIdx index := by
  obtain ⟨i, hi⟩ := mem_iff_getElem?.mp h
  refine mem_eraseIdx_iff_getElem?.mpr ⟨i, ?_, hi⟩
  rintro rfl
  exact hne (mem_unique hi hgone)

theorem lookup_of_mem {ents : List (SubscriptionId × String)} (h : (id, canonical) ∈ ents) :
    ∃ key, ents.lookup id = some key := by
  induction ents with
  | nil => cases h
  | cons entry ents ih =>
    rw [lookup_cons]
    split
    · exact ⟨_, rfl⟩
    next hother =>
      refine ih ((mem_cons.mp h).resolve_left ?_)
      rintro rfl
      simp at hother

variable (h : Moves d v c a s' connection)
include h

/-- What a connection holds of a subscriber that stays listed, it still holds after the step. -/
theorem Moves.holds (hbooks : Books d v)
    (hlabelled : (v.connections c).Labelled v.system) {call : Call δ}
    (hcall : v.system.calls id = some call) (hkey : call.canonicalKey = some key)
    (hlists : s'.host.Lists key id) (hmention : (v.connections c).Mentions id (some key)) :
    connection.Mentions id (some key) := by
  have hunlisted {id' : SubscriptionId} {key' : String}
      (hlists : (v.system.host.release key' id').Lists key id) : ¬ (id = id' ∧ key = key') := by
    rintro ⟨rfl, rfl⟩
    exact not_lists_release (hbooks.attachments.nodup key) hlists
  cases hmention with
  | attached hmem =>
    cases h with
    | @accept id' call' hblock hcall' hstage =>
      rcases eq_or_ne id id' with rfl | hid
      · cases mem_unique hcall hcall'
        refine .attached ?_
        simp [record, hkey]
      · refine .attached ?_
        unfold record
        split
        · exact mem_cons_of_mem _ (mem_filter.mpr ⟨hmem, by simpa using hid⟩)
        · exact hmem
    | @forget clientId id' hrun hlabel =>
      rcases eq_or_ne id id' with rfl | hid
      · obtain ⟨canonical, hlook⟩ := lookup_of_mem hmem
        obtain ⟨call', hcall', -, -, hcan⟩ :=
          hbooks.mentioned c id _ (.attached (lookup_mem hlook))
        cases mem_unique hcall hcall'
        obtain rfl : key = canonical := some.inj (hkey.symm.trans (hcan _ rfl))
        refine .stage ?_
        rw [hlook]
        exact .unsubscribing
      · exact .attached (mem_filter.mpr ⟨hmem, by simpa using hid⟩)
    | hangUp => exact .stage (.draining hmem)
    | _ => exact .attached hmem
  | stage hstage =>
    cases h with
    | pace | admission | refuse | begin | accept | reject | announce | pump => exact .stage hstage
    | unknown hwas hnone =>
      -- the router knows what the loop unsubscribes
      rw [hwas] at hstage
      cases hstage
      have hentered := hlabelled.entered (by rw [hwas]; rfl) id (.leaving hwas)
      rw [hnone] at hentered
      cases hentered
    | leave hwas =>
      rw [hwas] at hstage
      cases hstage
      exact .stage .detaching
    | detach _ hwas =>
      rw [hwas] at hstage
      cases hstage
      exact absurd ⟨rfl, rfl⟩ (hunlisted hlists)
    | drain hwas hentry =>
      rw [hwas] at hstage
      cases hstage with
      | draining hmem =>
        refine .stage (.draining (mem_eraseIdx_of_ne hmem hentry fun hsame => ?_))
        cases hsame
        exact hunlisted hlists ⟨rfl, rfl⟩
    | enumerate hwas =>
      rw [hwas] at hstage
      cases hstage with
      | draining hmem => cases hmem
    | forget hwas | hangUp hwas | keep _ hwas | disconnect hwas | finish hwas =>
      rw [hwas] at hstage
      cases hstage

theorem Moves.still_held (hbooks : Books d v)
    (hlabel : (v.connections c).Labelled v.system) {call : Call δ}
    (hcall : v.system.calls id = some call) (hkey : call.canonicalKey = some key)
    (hstand : call.stage.standing ≠ .refused) (hlists : s'.host.Lists key id)
    (hheld : id ∈ (v.connections c).blocking ∨ (v.connections c).Mentions id (some key)) :
    id ∈ connection.blocking ∨ connection.Mentions id (some key) := by
  rcases hheld with hblock | hmention
  · have hstays {id' : SubscriptionId} (hid : id ≠ id') :
        id ∈ (v.connections c).blocking.filter (· ≠ id') :=
      mem_filter.mpr ⟨hblock, by simpa using hid⟩
    cases h with
    | begin => exact .inl (mem_append_left _ hblock)
    | @accept id' call' hblock' hcall' hstage =>
      rcases eq_or_ne id id' with rfl | hid
      · cases mem_unique hcall hcall'
        refine .inr (.attached ?_)
        simp [record, hkey]
      · exact .inl (hstays hid)
    | @reject id' call' error limiter hcall' hstage =>
      refine .inl (hstays ?_)
      rintro rfl
      cases mem_unique hcall hcall'
      exact hstand (by rw [hstage]; rfl)
    | _ => exact .inl hblock
  · exact .inr (h.holds hbooks hlabel hcall hkey hlists hmention)

theorem Moves.lists (hprov : Provenance d.engine v.system)
    (hlists : s'.host.Lists key id) : v.system.host.Lists key id := by
  have hstep {b : Action δ} (hb : ∀ fetched, b ≠ .advance id fetched)
      (hlists : (Server.step d v.system b).host.Lists key id) : v.system.host.Lists key id := by
    cases step_lists hprov b with
    | same hhost => exact (lists_congr hhost).mp hlists
    | @join id' fetched call call' key' _ _ _ _ _ hhost =>
      rcases (lists_enlist hhost).mp hlists with hold | ⟨-, rfl⟩
      · exact hold
      · exact absurd rfl (hb fetched)
    | part => exact lists_of_release hlists
  cases h with
  | begin | pump | leave | detach | drain | disconnect => exact hstep (fun _ h => by cases h) hlists
  | _ => exact hlists

omit h

/-- A step of the server alone lists a call that is one of the tasks, and refuses none that is
listed. -/
theorem Inner.custody (h : Inner a b) (hbooks : Books d v) (hcareful : Careful v a)
    (hcustody : ∀ key id, v.system.host.Lists key id → InCustody v key id)
    (hlists : (Server.step d v.system b).host.Lists key id) :
    ∃ call, (Server.step d v.system b).calls id = some call ∧ call.stage.standing ≠ .refused ∧
      (id ∈ (v.connections call.request.connection).blocking ∨
        (v.connections call.request.connection).Mentions id (some key)) := by
  cases step_lists hbooks.provenance b with
  | same hhost hmove =>
    have hwas := (lists_congr hhost).mp hlists
    obtain ⟨call, hcall, hstand, hheld⟩ := hcustody key id hwas
    obtain ⟨call', hcall', hkeep⟩ := step_grows hbooks.provenance b id call hcall
    refine ⟨call', hcall', ?_, by rwa [hkeep.request]⟩
    cases hmove id call call' hcall hcall' with
    | keep hsame => rwa [hsame]
    | bypass hatt | empty hatt => rw [hatt]; exact nofun
    | refuse _ hadvance hwhy =>
      subst hadvance
      cases h
      rcases hwhy with hapart | hnext
      · obtain ⟨owner, howner, -, hnot⟩ := hbooks.attachments.owner key id hwas
        cases mem_unique hcall howner
        exact absurd hapart hnot
      · exact absurd hnext (hcareful call hcall ⟨key, hwas⟩)
  | @join id' fetched call call' key' hcall hcalls hkey hapart hatt hhost =>
    rcases eq_or_ne id id' with rfl | hid
    · have hunset : call.stage.settled = false := by
        cases hstage : call.stage <;> first | rfl | (rw [hstage] at hapart; cases hapart)
      have hcall' : (Server.step d v.system (.advance id fetched)).calls id = some call' := by
        rw [hcalls, update_self]
      obtain ⟨moved, hmoved, hkeep⟩ :=
        step_grows hbooks.provenance (.advance id fetched) id call hcall
      cases mem_unique hcall' hmoved
      refine ⟨call', hcall', by simp [hatt], .inl ?_⟩
      rw [hkeep.request]
      exact hbooks.unsettled id call hcall hunset
    · have hwas := ((lists_enlist hhost).mp hlists).resolve_right fun h => hid h.2
      obtain ⟨other, hother, hstand, hheld⟩ := hcustody key id hwas
      exact ⟨other, by rwa [hcalls, update_of_ne hid], hstand, hheld⟩
  | part => cases h

theorem step_custody (hbooks : Books d v) (hlabel : ∀ c, (v.connections c).Labelled v.system)
    (hcustody : ∀ key id, v.system.host.Lists key id → InCustody v key id) (hcareful : Careful v a)
    (hlists : (step d v a).system.host.Lists key id) : InCustody (step d v a) key id := by
  unfold InCustody
  rcases step_moves d v a with ⟨b, hinner, hsys, hstill⟩ | ⟨c, hothers, hmove⟩
  · rw [hsys] at hlists ⊢
    rw [hstill]
    exact hinner.custody hbooks hcareful hcustody hlists
  · have hwas := hmove.lists hbooks.provenance hlists
    obtain ⟨call, hcall, hstand, hheld⟩ := hcustody key id hwas
    obtain ⟨owner, howner, hkey, -⟩ := hbooks.attachments.owner key id hwas
    cases mem_unique hcall howner
    obtain ⟨call', hcall', hkeep, hstage⟩ := hmove.call hbooks.provenance hcall
    refine ⟨call', hcall', by rwa [hstage], ?_⟩
    rw [hkeep.request]
    by_cases hc : call.request.connection = c
    · rw [hc] at hheld ⊢
      exact hmove.still_held hbooks (hlabel c) hcall hkey hstand hlists hheld
    · rwa [hothers _ hc]

end Custody

/-- Nothing of the connection is left in the router, on the host or in its limiter. -/
structure LeavesNothing (v : Service δ) (c : ConnectionId) : Prop where
  subscriptions : ∀ id subscription, v.system.router.registry.byId id = some subscription →
    subscription.connection ≠ c
  listing : v.system.router.registry.byConnection c = []
  tables : ∀ id call, v.system.calls id = some call → call.request.connection = c →
    v.system.router.channels id = none ∧ v.system.router.ack.watermarks id = none ∧
      v.system.router.subgraphHolders id = none
  host : ∀ id call key, v.system.calls id = some call → call.request.connection = c →
    ¬ v.system.host.Lists key id
  slots : (v.connections c).slots = 0

structure Tidy (v : Service δ) : Prop where
  labelled : ∀ c, (v.connections c).Labelled v.system
  closing : ∀ c, (v.connections c).Closing v.system c
  custody : ∀ key id, v.system.host.Lists key id → InCustody v key id

section
omit [DecidableEq δ]

theorem start_tidy (maxSubscriptions : ℕ) : Tidy (start maxSubscriptions : Service δ) where
  labelled c :=
    { named := nofun
      leaving := nofun
      entered := fun _ id h => by
        cases h with
        | task h | label h => cases h
        | leaving h => cases h }
  closing c := ⟨nofun, nofun⟩
  custody := by
    rintro key id ⟨list, hlist, -⟩
    cases hlist

theorem Tidy.leavesNothing (h : Tidy v) (hbooks : Books d v)
    (hended : (v.connections c).stage = .ended) (hidle : (v.connections c).idle = true) :
    LeavesNothing v c := by
  obtain ⟨-, hblock, hatt⟩ := (h.closing c).quiet (by rw [hended]; rfl)
  have hlisting : v.system.router.registry.byConnection c = [] :=
    eq_nil_of_subset_nil ((h.closing c).swept [] (by rw [hended]; rfl))
  have hsubscriptions : ∀ id sub,
      v.system.router.registry.byId id = some sub → sub.connection ≠ c := by
    rintro id sub hentry rfl
    simpa [hlisting] using (hbooks.enrolled.entry id sub hentry).1
  refine ⟨hsubscriptions, hlisting, fun id call hcall hconn => ?_,
    fun id call key hcall hconn hlists => ?_, by simp [Connection.slots, hended, hidle]⟩
  · apply hbooks.enrolled.absent
    by_contra hsome
    obtain ⟨sub, hentry⟩ := ne_none_iff_exists'.mp hsome
    obtain ⟨-, call', hcall', hreq, -⟩ := hbooks.enrolled.entry id sub hentry
    cases mem_unique hcall hcall'
    exact hsubscriptions id sub hentry (hreq.symm.trans hconn)
  · obtain ⟨call', hcall', -, hheld⟩ := h.custody key id hlists
    cases mem_unique hcall hcall'
    rw [hconn] at hheld
    rcases hheld with hmem | hmention
    · simp [hblock] at hmem
    · generalize hkey : some key = canonical at hmention
      cases hmention with
      | label | recorded => cases hkey
      | attached hmem => rw [hatt] at hmem; cases hmem
      | stage hstage => rw [hended] at hstage; cases hstage

end

/-- Once a connection has ended and all its tasks have finished nothing of it is left, in every run
in which teardowns wait for the tasks and no listed call is refused. -/
theorem teardown_leaves_nothing (d : Deployment δ) (maxSubscriptions : ℕ) {v : Service δ}
    (h : Runs.Reached (step d) Careful (start maxSubscriptions) v) (c : ConnectionId)
    (hended : (v.connections c).stage = .ended) (hidle : (v.connections c).idle = true) :
    LeavesNothing v c := by
  have hinv : Books d v ∧ Tidy v := by
    refine h.invariant (P := fun v => Books d v ∧ Tidy v)
      ⟨start_books d maxSubscriptions, start_tidy maxSubscriptions⟩ ?_
    rintro v a ⟨hbooks, htidy⟩ hcareful
    exact ⟨step_books hbooks a, step_labelled hbooks htidy.labelled a,
      step_closing hbooks htidy.closing hcareful,
      fun key id => step_custody hbooks htidy.labelled htidy.custody hcareful⟩
  exact hinv.2.leavesNothing hinv.1 hended hidle

section

/-- The stream of connection 1 ends and its teardown runs to the end. -/
def postsTeardown (sections : ℕ) : List (ServiceAction ℕ) :=
  .hangUp 1 :: replicate sections (.proceed 1 0)

theorem careful_of_no_plan {v : Service ℕ} (h : ∀ key, v.system.host.plans key = none) :
    Careful v (.advance id fetched) := by
  rintro call - ⟨key, list, hlist, -⟩
  simp [subscribers, h key] at hlist

/-- The task has told the client before the stream ends. -/
def finishedThenClosed : List (ServiceAction ℕ) :=
  postsTask "a" 1 twoPosts ++ .settle 1 1 :: .announce 1 1 true true :: postsTeardown 4

theorem finished_task_leaves_nothing : LeavesNothing (postsService finishedThenClosed) 1 := by
  refine teardown_leaves_nothing postsDeployment 8 (Runs.Schedule.reached ?_ .start) 1 rfl rfl
  refine .cons trivial (.cons trivial ?_)
  refine .cons ?_ (.cons ?_ (.cons ?_ (.cons ?_ (.cons ?_ (.cons ?_ ?_)))))
  all_goals try exact careful_of_no_plan fun _ => rfl
  refine .cons trivial (.cons trivial (.cons ⟨rfl, rfl⟩ ?_))
  exact .cons trivial (.cons trivial (.cons trivial (.cons trivial (.nil _))))

/-- The stream ends while the call is being made, and the call is accepted after the teardown. -/
def closedThenFinished : List (ServiceAction ℕ) :=
  .subscribe 1 (readPosts "a") true :: .begin 1 0 (.ok ()) :: postsTeardown 2 ++
    replicate 6 (.advance 1 (.ok twoPosts)) ++ [.settle 1 1, .announce 1 1 false true]

/-- The connection has ended and its task has finished, but the subscription stays in the router and
on the host. -/
theorem late_task_leaks : Runs.Reached (step postsDeployment) (fun _ _ => True) (start 8)
        (postsService closedThenFinished) ∧
      ((postsService closedThenFinished).connections 1).stage = .ended ∧
      ((postsService closedThenFinished).connections 1).idle = true ∧
      (postsService closedThenFinished).system.host.subscribers
        (canonicalSubgraphKey "SELECT * FROM posts" userSeven) = some [1] ∧
      ¬ LeavesNothing (postsService closedThenFinished) 1 := by
  refine ⟨(Runs.Schedule.free _ _ _).reached .start, rfl, rfl, by decide +kernel, fun h => ?_⟩
  have hlisting : (postsService closedThenFinished).system.router.registry.byConnection 1 =
      [1] := rfl
  simp [h.listing] at hlisting

end

end Service

end Palimpsest.Server
