import Palimpsest.Server.CurrentRules

/-! What subscribers learn of a rule change. Every event queued is on record with the number of
rule changes before it; a change is announced to a subscriber when a resync stands before
everything queued after the change. -/
namespace Palimpsest.Server
open Sql Dataflow Permissions Function Option

variable {δ : Type}

/-- The call has read its rules and is not registered yet. -/
@[simp] def Stage.unregistered : Stage δ → Bool
  | .compiled | .looked _ | .checked _ | .opened _ => true
  | .registered _ _ | .seeded _ _ _ | .accepted | .rejected _ => false

/-- The `k`-th rule change stands in the record before everything queued after it. -/
def Announced (record : List (ℕ × DiffEvent δ)) (k : ℕ) : Prop :=
  ∃ before after, record = before ++ (k, .resync .permissionsChanged) :: after ∧
    ∀ entry ∈ before, entry.1 < k

/-- What can happen to the channel and the record of one subscription in a step, and what its
consumer gets. -/
inductive ChannelMoves (s s' : State δ) (id : SubscriptionId) : List (DiffEvent δ) → Prop
  | quiet : s'.router.channels id = s.router.channels id → s'.log id = s.log id →
      ChannelMoves s s' id []
  | removed : s'.router.channels id = none → s'.log id = s.log id → ChannelMoves s s' id []
  | taken {got : List (DiffEvent δ)} {channel channel' : BoundedDiffChannel δ}
      (dropped : List (DiffEvent δ)) :
      s.router.channels id = some channel → s'.router.channels id = some channel' →
      s'.log id = s.log id → channel.sender.queue = dropped ++ channel'.sender.queue →
      (channel'.sender.receiving → channel.sender.receiving ∧ dropped = got) →
      ChannelMoves s s' id got
  | queued {channel channel' : BoundedDiffChannel δ} (event : DiffEvent δ) :
      s.router.channels id = some channel → s'.router.channels id = some channel' →
      s'.log id = s.log id ++ [(s'.generation, event)] →
      channel'.sender.queue = channel.sender.queue ++ [event] →
      (channel'.sender.receiving → channel.sender.receiving) → ChannelMoves s s' id []
  | filled {call call' : Call δ} {prerunInitial : Option (List (Row δ) × Lsn)} {opened : Opened δ} :
      s.calls id = some call → call.stage = .checked prerunInitial →
      s'.calls id = some call' → call'.stage = .opened opened →
      s'.router.channels id = s.router.channels id →
      s'.log id = s.log id ++
        (opened.channel.sender.queue.map fun event => (s'.generation, event)) →
      ChannelMoves s s' id []
  | entered {call call' : Call δ} {opened : Opened δ} :
      s.calls id = some call → call.stage = .opened opened →
      s'.calls id = some call' → call'.registeredAt = some s'.generation →
      s'.router.channels id = some opened.channel → s'.log id = s.log id → ChannelMoves s s' id []

/-- What the consumer of a subscription gets in a step. -/
def receipt (s : State δ) (id : SubscriptionId) : Action δ → List (DiffEvent δ)
  | .receive id' => if id = id' then
      (s.router.channels id').elim [] fun channel => channel.sender.queue.head?.toList
    else []
  | _ => []

section Moves
variable {s : State δ} {id : SubscriptionId}

theorem ChannelMoves.sent (event) (hsome : s.router.channels id = some chan)
    (hnow : s'.router.channels id = some channel')
    (hsend : channel'.sender = (chan.sender.trySend event).2)
    (hlog : s'.log id = if chan.sender.hasRoom then s.log id ++ [(s'.generation, event)]
      else s.log id) : ChannelMoves s s' id [] := by
  have hrecv : channel'.sender.receiving → chan.sender.receiving := by
    rw [hsend, Mpsc.trySend_receiving]
    exact fun h => h
  by_cases hroom : chan.sender.hasRoom
  · rw [if_pos hroom] at hlog
    refine .queued event hsome hnow hlog ?_ hrecv
    rw [hsend]
    exact (Mpsc.trySend_of_hasRoom hroom event).2
  · rw [if_neg hroom] at hlog
    refine .taken [] hsome hnow hlog ?_ fun h => ⟨hrecv h, rfl⟩
    simp [hsend, (Mpsc.trySend_of_not_hasRoom hroom event).2]

/-- Handing an event to a subscriber: it is queued and recorded, or neither. -/
theorem pumpEvent_moves (target event)
    (hchannels : s'.router.channels = (s.router.pumpEvent target event).2.channels)
    (hlog : s'.log = (s.note target event (sendsTo s target)).log) (hpast : s'.past = s.past) (id) :
    ChannelMoves s s' id [] := by
  unfold sendsTo at hlog
  rcases eq_none_or_eq_some (s.router.channels target) with hnone | ⟨chan, hsome⟩
  · rw [RouterInner.pumpEvent_of_none event hnone] at hchannels
    rw [hnone] at hlog
    exact .quiet (by rw [hchannels]) (by rw [hlog]; rfl)
  · obtain ⟨channel', hupdate, hsend⟩ := RouterInner.pumpEvent_channels event hsome
    rw [hupdate] at hchannels
    rw [hsome] at hlog
    rcases eq_or_ne id target with rfl | hid
    · refine .sent event hsome (by rw [hchannels, update_self]) hsend ?_
      by_cases hroom : chan.sender.hasRoom
      · simp [hlog, hroom, State.note, State.generation, hpast]
      · simp [hlog, hroom, State.note]
    · refine .quiet ?_ ?_
      · rw [hchannels, update_of_ne hid]
      · rw [hlog]
        by_cases hroom : chan.sender.hasRoom <;> simp [hroom, State.note, update_of_ne hid]

theorem SectionEffect.channel (hcall : s.calls id = some call)
    (h : SectionEffect d s id call fetched s') (id') : ChannelMoves s s' id' [] := by
  cases h with
  | @fill _ _ chan hstage _ hq =>
    rcases eq_or_ne id' id with rfl | hid
    · refine .filled hcall hstage (update_self ..) rfl ?_ ?_
      · simp [State.setCall]
      · rcases hq with hq | hq <;> simp [State.setCall, State.note, hq, State.generation]
    · refine .quiet ?_ ?_
      · simp [State.setCall]
      · by_cases hempty : chan.sender.queue = []
        · simp [State.setCall, State.note, hempty]
        · simp [State.setCall, State.note, hempty, update_of_ne hid]
  | @enter _ router hstage hrouter =>
    have hchannels := (RouterInner.register_channels hrouter).1
    rcases eq_or_ne id' id with rfl | hid
    · refine .entered hcall hstage (update_self ..) rfl ?_ rfl
      show router.channels id' = _
      rw [hchannels, update_self]
    · refine .quiet ?_ rfl
      show router.channels id' = _
      rw [hchannels, update_of_ne hid]
  | _ => exact .quiet rfl rfl

theorem setRules_moves (rules id) : ChannelMoves s (setRules s rules) id [] := by
  rcases eq_none_or_eq_some (s.router.channels id) with hnone | ⟨chan, hsome⟩
  · refine .quiet ?_ ?_
    · simp [setRules, RouterInner.setRules, hnone]
    · simp [setRules, sendsTo, hnone]
  · have hnow : (setRules s rules).router.channels id =
        some (chan.forceResync .permissionsChanged) := by
      simp [setRules, RouterInner.setRules, hsome]
    refine .sent (.resync .permissionsChanged) hsome hnow rfl ?_
    simp [setRules, sendsTo, hsome, State.generation]

theorem updateChannel_moves {g : Mpsc (DiffEvent δ) → List (DiffEvent δ)} (id)
    (hf : ∀ c, ∃ dropped, c.queue = dropped ++ (f c).queue ∧
      ((f c).receiving → c.receiving ∧ dropped = g c)) (id') :
    ChannelMoves s (updateChannel s id f) id'
      (if id' = id then (s.router.channels id).elim [] fun channel => g channel.sender
      else []) := by
  by_cases hid : id' = id
  · subst hid
    rw [if_pos rfl]
    rcases eq_none_or_eq_some (s.router.channels id') with hnone | ⟨chan, hsome⟩
    · rw [hnone]
      exact .quiet (by simp [updateChannel, hnone]) rfl
    · obtain ⟨dropped, hdrop, hrecv⟩ := hf chan.sender
      have hnow : (updateChannel s id' f).router.channels id' =
          some { chan with sender := f chan.sender } := by
        simp [updateChannel, hsome]
      rw [hsome]
      exact .taken dropped hsome hnow rfl hdrop hrecv
  · rw [if_neg hid]
    exact .quiet (by simp [updateChannel, update_of_ne hid]) rfl

theorem step_untaken [DecidableEq δ] (d : Deployment δ) (s id)
    (ha : ∀ id', a ≠ .receive id') : ChannelMoves s (step d s a) id [] := by
  have heffect := step_effect d s a
  generalize step d s a = s' at heffect ⊢
  cases heffect with
  | advance hcall hsection => exact hsection.channel hcall id
  | deliver | cursor =>
    apply pumpEvent_moves
    · rfl
    · rfl
    · exact State.note_past ..
  | setRules rules => exact setRules_moves rules id
  | unsubscribe id' =>
    rcases eq_none_or_eq_some ((s.router.unsubscribe id').2.channels id) with
      hnone | ⟨chan, hsome⟩
    · exact .removed hnone rfl
    · exact .quiet (hsome.trans (RouterInner.unsubscribe_channels hsome).symm) rfl
  | receive id' => exact absurd rfl (ha id')
  | hangUp id' =>
    have hmove : ChannelMoves s (updateChannel s id' Mpsc.hangUp) id _ :=
      updateChannel_moves (g := fun _ => []) id' (fun c =>
        ⟨c.queue, by simp [Mpsc.hangUp], fun h => by cases h⟩) id
    cases hchan : s.router.channels id' <;> simpa [hchan] using hmove
  | _ => exact .quiet rfl rfl

theorem step_channel [DecidableEq δ] (d : Deployment δ) (s a id) :
    ChannelMoves s (step d s a) id (receipt s id a) := by
  cases a with
  | receive id' =>
    exact updateChannel_moves id' (fun c => ⟨_, c.receive_takes, fun h => ⟨h, rfl⟩⟩) id
  | _ => exact step_untaken d s id nofun

end Moves

section Recorded

@[simp] def Stage.unopened : Stage δ → Bool
  | .compiled | .looked _ | .checked _ => true
  | _ => false

/-- The record of a subscription is what was ever queued for it, and its channel holds the end of
it. -/
structure Recorded (s : State δ) : Prop where
  bounded : ∀ id, ∀ entry ∈ s.log id, entry.1 ≤ s.generation
  silent : ∀ id, s.calls id = none → s.log id = []
  unopened : ∀ id call, s.calls id = some call → call.stage.unopened → s.log id = []
  opened : ∀ id call opened, s.calls id = some call → call.stage = .opened opened →
    (s.log id).map Prod.snd = opened.channel.sender.queue
  queue : ∀ id channel, s.router.channels id = some channel →
    ∃ seen, (s.log id).map Prod.snd = seen ++ channel.sender.queue
  entered : ∀ id channel, s.router.channels id = some channel →
    ∃ call, s.calls id = some call ∧ call.registeredAt.isSome
  unregistered : ∀ id call, s.calls id = some call → call.stage.unregistered →
    call.registeredAt = none

variable {s : State δ} {id : SubscriptionId}

theorem Stage.unregistered_of_unopened {stage : Stage δ} (h : stage.unopened) :
    stage.unregistered := by
  cases stage <;> first | rfl | cases h

theorem start_recorded : Recorded (State.start : State δ) where
  bounded _ _ h := by cases h
  silent _ _ := rfl
  unopened _ _ h := by cases h
  opened _ _ _ h := by cases h
  queue _ _ h := by cases h
  entered _ _ h := by cases h
  unregistered _ _ h := by cases h

theorem Recorded.no_channel (h : Recorded s) (hcall : s.calls id = some call)
    (hstage : call.stage.unregistered) : s.router.channels id = none := by
  by_contra hsome
  obtain ⟨chan, hchan⟩ := ne_none_iff_exists'.mp hsome
  obtain ⟨call', hcall', hreg⟩ := h.entered id chan hchan
  cases mem_unique hcall hcall'
  simp [h.unregistered id call hcall hstage] at hreg

theorem Recorded.no_channel_of_none (h : Recorded s) (hcall : s.calls id = none) :
    s.router.channels id = none := by
  by_contra hsome
  obtain ⟨chan, hchan⟩ := ne_none_iff_exists'.mp hsome
  obtain ⟨call, hcall', -⟩ := h.entered id chan hchan
  simp [hcall] at hcall'

/-- A step only adds to the record, under the number of rule changes so far. -/
theorem ChannelMoves.log (h : ChannelMoves s s' id got) : ∃ events : List (DiffEvent δ),
    s'.log id = s.log id ++ events.map fun event => (s'.generation, event) := by
  cases h with
  | quiet _ hlog | removed _ hlog | taken _ _ _ hlog | entered _ _ _ _ _ hlog =>
    exact ⟨[], hlog.trans (List.append_nil _).symm⟩
  | queued event _ _ hlog => exact ⟨[event], hlog⟩
  | filled _ _ _ _ _ hlog => exact ⟨_, hlog⟩

/-- A channel was there before, or the call has just registered with it. -/
theorem Recorded.channel (h : Recorded s) (hmove : ChannelMoves s s' id got)
    (hchan' : s'.router.channels id = some channel') :
    (∃ chan dropped, ∃ events : List (DiffEvent δ), s.router.channels id = some chan ∧
      (channel'.sender.receiving → chan.sender.receiving ∧ dropped = got) ∧
      s'.log id = s.log id ++ (events.map fun event => (s'.generation, event)) ∧
      chan.sender.queue ++ events = dropped ++ channel'.sender.queue) ∨
    ∃ call call' opened, s.calls id = some call ∧ call.stage = .opened opened ∧
      s'.calls id = some call' ∧ call'.registeredAt = some s'.generation ∧
      channel' = opened.channel ∧ s'.log id = s.log id ∧ got = [] := by
  cases hmove with
  | quiet hsame hlog =>
    rw [hsame] at hchan'
    exact .inl ⟨channel', [], [], hchan', fun h => ⟨h, rfl⟩, by simp [hlog], by simp⟩
  | removed hnone =>
    simp [hnone] at hchan'
  | taken dropped hwas hnow hlog hdrop hstill =>
    obtain rfl := mem_unique hnow hchan'
    exact .inl ⟨_, dropped, [], hwas, hstill, by simp [hlog], by simp [hdrop]⟩
  | queued event hwas hnow hlog hq hstill =>
    obtain rfl := mem_unique hnow hchan'
    exact .inl ⟨_, [], [event], hwas, fun h => ⟨hstill h, rfl⟩, hlog, by simp [hq]⟩
  | filled hcall hstage _ _ hsame =>
    simp [hsame, h.no_channel hcall (by simp [hstage])] at hchan'
  | entered hcall hstage hcall' hat hnow hlog =>
    obtain rfl := mem_unique hnow hchan'
    exact .inr ⟨_, _, _, hcall, hstage, hcall', hat, rfl, hlog, rfl⟩

theorem ChannelMoves.log_of_no_channel (h : ChannelMoves s s' id got)
    (hnone : s.router.channels id = none) :
    s'.log id = s.log id ∨ ∃ call call' opened, s.calls id = some call ∧ call.stage.unopened ∧
      s'.calls id = some call' ∧ call'.stage = .opened opened := by
  cases h with
  | quiet _ hlog | removed _ hlog => exact .inl hlog
  | taken _ hchan | queued _ hchan =>
    simp [hnone] at hchan
  | filled hcall hstage hcall' hstage' =>
    exact .inr ⟨_, _, _, hcall, by simp [hstage], hcall', hstage'⟩
  | entered _ _ _ _ _ hlog => exact .inl hlog

theorem Moves.unopened (h : Moves s id call call') (hstage : call'.stage.unopened) :
    call.stage.unopened := by
  cases h with
  | stay | raw => exact hstage
  | miss hwas | view hwas | pass hwas => simp [hwas]
  | fail | fill | enter | spawn | join | own | done => cases hstage

theorem Moves.unregistered (h : Moves s id call call') (hstage : call'.stage.unregistered) :
    call.stage.unregistered ∧ call'.registeredAt = call.registeredAt := by
  cases h with
  | stay | raw => exact ⟨hstage, rfl⟩
  | miss hwas | view hwas | pass hwas | fill _ hwas => exact ⟨by simp [hwas], rfl⟩
  | fail | enter | spawn | join | own | done => cases hstage

/-- A call registers once, when it leaves the opened stage. -/
theorem Moves.registeredAt (h : Moves s id call call') : call'.registeredAt = call.registeredAt ∨
      call'.registeredAt = some s.generation ∧ call.stage.unregistered := by
  cases h with
  | enter hwas => exact .inr ⟨rfl, by simp [hwas]⟩
  | _ => exact .inl rfl

variable [DecidableEq δ]

theorem step_opened (hcall' : (step d s a).calls id = some call')
    (hstage' : call'.stage = .opened opened) :
    (∃ call, s.calls id = some call ∧ call.stage = .opened opened) ∨
    ∃ call, s.calls id = some call ∧ call.stage.unopened ∧ (step d s a).log id = s.log id ++
        opened.channel.sender.queue.map fun event => (s.generation, event) := by
  rcases step_call hcall' with ⟨call, hcall, -, hkind⟩ | ⟨req, schema, -, -, rfl⟩
  · rcases hkind with ⟨fetched, rfl⟩ | hrests
    · have hsection : SectionEffect d s id call fetched (step d s (.advance id fetched)) :=
        advance_effect hcall
      generalize step d s (.advance id fetched) = s' at hsection hcall' ⊢
      cases hsection with
      | stay => exact .inl ⟨call', hcall', hstage'⟩
      | fill hstage _ hq =>
        cases (update_self ..).symm.trans hcall'
        cases hstage'
        refine .inr ⟨call, hcall, by simp [hstage], ?_⟩
        rcases hq with hq | hq <;> simp [State.setCall, State.note, hq]
      | _ =>
        cases (update_self ..).symm.trans hcall'
        cases hstage'
    · rw [hrests.stage] at hstage'
      exact .inl ⟨call, hcall, hstage'⟩
  · exact absurd hstage' (firstStage_elim (P := (· ≠ .opened opened))
      (by rintro ⟨⟩) (by rintro _ ⟨⟩) _ schema)

theorem step_registeredAt (hprov : Provenance d.engine s) (hcall : s.calls id = some call)
    (h : call.registeredAt.isSome) (a) :
    ∃ call', (step d s a).calls id = some call' ∧ call'.registeredAt.isSome := by
  obtain ⟨call', hcall', hmove, -⟩ := step_moved hprov hcall a
  refine ⟨call', hcall', ?_⟩
  rcases hmove.registeredAt with hsame | ⟨hnew, -⟩
  · rw [hsame]
    exact h
  · simp [hnew]

theorem step_recorded (hprov : Provenance d.engine s) (h : Recorded s) (a) :
    Recorded (step d s a) where
  bounded id entry hentry := by
    obtain ⟨events, hlog⟩ := (step_channel d s a id).log
    rw [hlog] at hentry
    rcases List.mem_append.mp hentry with hold | hnew
    · exact (h.bounded id entry hold).trans (step_generation_le d s a)
    · obtain ⟨event, -, rfl⟩ := List.mem_map.mp hnew
      exact le_rfl
  silent id hcall' := by
    have hcall : s.calls id = none := by
      by_contra hsome
      obtain ⟨call, hcall⟩ := ne_none_iff_exists'.mp hsome
      obtain ⟨call', hcall'', -⟩ := step_grows hprov a id call hcall
      simp [hcall'] at hcall''
    rcases (step_channel d s a id).log_of_no_channel (h.no_channel_of_none hcall) with
      hlog | ⟨call, -, -, hcall'', -⟩
    · rw [hlog]
      exact h.silent id hcall
    · simp [hcall] at hcall''
  unopened id call' hcall' hstage' := by
    have hwas : s.router.channels id = none ∧ s.log id = [] := by
      rcases step_call hcall' with ⟨call, hcall, hmove, -⟩ | ⟨req, schema, -, rfl, -⟩
      · have hstage := hmove.unopened hstage'
        exact ⟨h.no_channel hcall (Stage.unregistered_of_unopened hstage),
          h.unopened id call hcall hstage⟩
      · have hnone := hprov.fresh _ le_rfl
        exact ⟨h.no_channel_of_none hnone, h.silent _ hnone⟩
    rcases (step_channel d s a id).log_of_no_channel hwas.1 with
      hlog | ⟨call, call'', opened, -, -, hcall'', hopened⟩
    · rw [hlog]
      exact hwas.2
    · cases mem_unique hcall' hcall''
      simp [hopened] at hstage'
  opened id call' opened hcall' hstage' := by
    rcases step_opened hcall' hstage' with ⟨call, hcall, hstage⟩ | ⟨call, hcall, hstage, hlog⟩
    · have hnone := h.no_channel hcall (by simp [hstage])
      rcases (step_channel d s a id).log_of_no_channel hnone with
        hlog | ⟨call'', -, -, hcall'', hunopened, -⟩
      · rw [hlog]
        exact h.opened id call opened hcall hstage
      · cases mem_unique hcall hcall''
        simp [hstage] at hunopened
    · simp [hlog, h.unopened id call hcall hstage]
  queue id channel' hchan' := by
    rcases h.channel (step_channel d s a id) hchan' with
      ⟨chan, dropped, events, hchan, -, hlog, hq⟩ |
      ⟨call, -, opened, hcall, hstage, -, -, rfl, hlog, -⟩
    · obtain ⟨seen, hseen⟩ := h.queue id chan hchan
      refine ⟨seen ++ dropped, ?_⟩
      simp [hlog, hseen, ← hq]
    · rw [hlog]
      exact ⟨[], h.opened id call opened hcall hstage⟩
  entered id channel' hchan' := by
    rcases h.channel (step_channel d s a id) hchan' with
      ⟨chan, -, -, hchan, -⟩ | ⟨-, call', -, -, -, hcall', hat, -⟩
    · obtain ⟨call, hcall, hisSome⟩ := h.entered id chan hchan
      exact step_registeredAt hprov hcall hisSome a
    · exact ⟨call', hcall', by simp [hat]⟩
  unregistered id call' hcall' hstage' := by
    rcases step_call hcall' with ⟨call, hcall, hmove, -⟩ | ⟨req, schema, -, -, rfl⟩
    · obtain ⟨hstage, hsame⟩ := hmove.unregistered hstage'
      rw [hsame]
      exact h.unregistered id call hcall hstage
    · rfl

/-- The consumer has got all that was queued for it and does not wait, in order. Without a
registered call it has got nothing. -/
def Received (s : State δ) (id : SubscriptionId) (got : List (DiffEvent δ)) : Prop :=
  (got ≠ [] → ∃ call, s.calls id = some call ∧ call.registeredAt.isSome) ∧
    ∀ channel, s.router.channels id = some channel → channel.sender.receiving →
      (s.log id).map Prod.snd = got ++ channel.sender.queue

theorem step_received (hprov : Provenance d.engine s) (hrec : Recorded s)
    (h : Received s id got) (a) : Received (step d s a) id (got ++ receipt s id a) := by
  refine ⟨fun hne => ?_, fun channel' hchan' hrecv => ?_⟩
  · have hwas : ∃ call, s.calls id = some call ∧ call.registeredAt.isSome := by
      by_cases hgot : got = []
      · cases a with
        | receive id' =>
          by_cases hid : id = id'
          · cases hchan : s.router.channels id with
            | none => simp [receipt, hgot, ← hid, hchan] at hne
            | some chan => exact hrec.entered id chan hchan
          · simp [receipt, hgot, hid] at hne
        | _ => simp [receipt, hgot] at hne
      · exact h.1 hgot
    obtain ⟨call, hcall, hreg⟩ := hwas
    exact step_registeredAt hprov hcall hreg a
  · rcases hrec.channel (step_channel d s a id) hchan' with
      ⟨chan, dropped, events, hchan, hstill, hlog, hq⟩ |
      ⟨call, -, opened, hcall, hstage, -, -, rfl, hlog, hnone⟩
    · obtain ⟨hwas, rfl⟩ := hstill hrecv
      simp [hlog, h.2 chan hchan hwas, ← hq]
    · have hgot : got = [] := by
        by_contra hne
        obtain ⟨call', hcall', hreg⟩ := h.1 hne
        obtain rfl := mem_unique hcall hcall'
        simp [hrec.unregistered id call hcall (by simp [hstage])] at hreg
      simp [hlog, hgot, hnone, hrec.opened id call opened hcall hstage]

def received (d : Deployment δ) (id : SubscriptionId) :
    State δ → List (Action δ) → List (DiffEvent δ)
  | _, [] => []
  | s, a :: rest => receipt s id a ++ received d id (step d s a) rest

theorem foldl_received (actions : List (Action δ)) (hprov : Provenance d.engine s)
    (hrec : Recorded s) (h : Received s id got) :
    Received (actions.foldl (step d) s) id (got ++ received d id s actions) := by
  induction actions generalizing s got with
  | nil => simpa [received] using h
  | cons a rest ih =>
    rw [received, ← List.append_assoc]
    exact ih (step_provenance hprov a) (step_recorded hprov hrec a) (step_received hprov hrec h a)

end Recorded

section Notified

/-- The steps after which everyone concerned still knows of a rule change: rules are replaced
while every channel with a consumer has room, a call registers under the rules it compiled from,
and it only joins plans built from rules no older than those. -/
def KeepsAnnounced (s : State δ) : Action δ → Prop
  | .setRules _ => ∀ id channel, s.router.channels id = some channel → channel.sender.receiving →
    channel.sender.queue.length < channel.sender.capacity
  | .advance id _ => ∀ call, s.calls id = some call →
    (∀ opened, call.stage = .opened opened → call.generation = s.generation) ∧
    (call.joins → ∀ key state, call.canonicalKey = some key → s.host.plans key = some state →
      ∃ builder, s.calls state.builder = some builder ∧ call.generation ≤ builder.generation)
  | _ => True

structure Notified (s : State δ) : Prop where
  registered : ∀ id call m, s.calls id = some call → call.registeredAt = some m →
    m = call.generation
  sources : ∀ id call b, s.calls id = some call → .planOf b ∈ call.servedBy →
    ∃ builder, s.calls b = some builder ∧ call.generation ≤ builder.generation
  announced : ∀ id channel call m k, s.router.channels id = some channel →
    channel.sender.receiving → s.calls id = some call → call.registeredAt = some m → m < k →
    k ≤ s.generation → Announced (s.log id) k

/-- The plan of builder `b` was compiled before the `k`-th rule change. -/
def State.CompiledBefore (s : State δ) (b : SubscriptionId) (k : ℕ) : Prop :=
  ∃ builder, s.calls b = some builder ∧ builder.generation < k

/-- The consumer of a subscription sees what is on its record, in that order. Each rule change
after it registered, or after a plan that serves it was compiled, stands there before everything
queued after the change. -/
def AnnouncesRuleChanges (s : State δ) : Prop :=
  ∀ id channel call, s.router.channels id = some channel → channel.sender.receiving →
    s.calls id = some call →
    (∃ seen, (s.log id).map Prod.snd = seen ++ channel.sender.queue) ∧
    ∀ k ≤ s.generation, ((∃ m, call.registeredAt = some m ∧ m < k) ∨
        ∃ b, .planOf b ∈ call.servedBy ∧ s.CompiledBefore b k) → Announced (s.log id) k

variable {s : State δ} {id : SubscriptionId}

theorem Announced.append (h : Announced record k) (later : List (ℕ × DiffEvent δ)) :
    Announced (record ++ later) k := by
  obtain ⟨prev, after, rfl, hwas⟩ := h
  exact ⟨prev, after ++ later, by simp, hwas⟩

theorem start_notified : Notified (State.start : State δ) where
  registered _ _ _ h := by cases h
  sources _ _ _ h := by cases h
  announced _ _ _ _ _ h := by cases h

theorem Notified.announcesRuleChanges (hrec : Recorded s) (h : Notified s) :
    AnnouncesRuleChanges s := by
  intro id chan call hchan hrecv hcall
  refine ⟨hrec.queue id chan hchan, fun k hk hconcerned => ?_⟩
  obtain ⟨call', hcall', hisSome⟩ := hrec.entered id chan hchan
  cases mem_unique hcall hcall'
  obtain ⟨m, hm⟩ := isSome_iff_exists.mp hisSome
  have hgen := h.registered id call m hcall hm
  refine h.announced id chan call m k hchan hrecv hcall hm ?_ hk
  rcases hconcerned with ⟨m', hm', hlt⟩ | ⟨b, hmem, builder, hbuilt, hlt⟩
  · cases mem_unique hm hm'
    exact hlt
  · obtain ⟨builder', hbuilt', hle⟩ := h.sources id call b hcall hmem
    cases mem_unique hbuilt hbuilt'
    omega

theorem setRules_announced (hrec : Recorded s) (hmeets : KeepsAnnounced s (.setRules rules))
    (hchan' : (setRules s rules).router.channels id = some channel')
    (hrecv : channel'.sender.receiving) :
    Announced ((setRules s rules).log id) (s.generation + 1) := by
  rcases eq_none_or_eq_some (s.router.channels id) with hnone | ⟨chan, hsome⟩
  · simp [setRules, RouterInner.setRules, hnone] at hchan'
  · have hnow : (setRules s rules).router.channels id =
        some (chan.forceResync .permissionsChanged) := by
      simp [setRules, RouterInner.setRules, hsome]
    rw [hnow] at hchan'
    cases hchan'
    have hstill : chan.sender.receiving := (Mpsc.trySend_receiving _ _).symm.trans hrecv
    have hroom : chan.sender.hasRoom := ⟨hstill, hmeets id chan hsome hstill⟩
    have hlog : (setRules s rules).log id =
        s.log id ++ [(s.generation + 1, .resync .permissionsChanged)] := by
      simp [setRules, sendsTo, hsome, hroom]
    rw [hlog]
    refine ⟨s.log id, [], rfl, fun entry hentry => ?_⟩
    exact Nat.lt_succ_of_le (hrec.bounded id entry hentry)

variable [DecidableEq δ]

theorem step_registered (hcall' : (step d s a).calls id = some call')
    (hm : call'.registeredAt = some m) :
    (∃ call, s.calls id = some call ∧ call.registeredAt = some m) ∨ m = s.generation := by
  rcases step_call hcall' with ⟨call, hcall, hmove, -⟩ | ⟨req, schema, -, -, rfl⟩
  · rcases hmove.registeredAt with hsame | ⟨hnew, -⟩
    · exact .inl ⟨call, hcall, hsame ▸ hm⟩
    · exact .inr (mem_unique hm hnew)
  · cases hm

/-- An announced change stays announced, whatever the step does to the channel. -/
theorem step_announced (hrec : Recorded s) (h : Notified s)
    (hchan' : (step d s a).router.channels id = some channel')
    (hrecv : channel'.sender.receiving) (hcall' : (step d s a).calls id = some call')
    (hm : call'.registeredAt = some m) (hlt : m < k) (hk : k ≤ s.generation) :
    Announced ((step d s a).log id) k := by
  have hwas : ∃ call, s.calls id = some call ∧ call.registeredAt = some m := by
    rcases step_registered hcall' hm with hwas | rfl
    · exact hwas
    · omega
  obtain ⟨call, hcall, hm'⟩ := hwas
  rcases hrec.channel (step_channel d s a id) hchan' with
    ⟨chan, _, events, hchan, hstill, hlog, -⟩ | ⟨_, _, _, hopen, hstage, -⟩
  · rw [hlog]
    exact (h.announced id chan call m k hchan (hstill hrecv).1 hcall hm' hlt hk).append _
  · obtain rfl := mem_unique hcall hopen
    simp [hrec.unregistered id call hcall (by simp [hstage])] at hm'

theorem step_notified (hprov : Provenance d.engine s) (hrec : Recorded s) (h : Notified s)
    (hmeets : KeepsAnnounced s a) : Notified (step d s a) where
  registered id call' m hcall' hm := by
    rcases step_call hcall' with ⟨call, hcall, hmove, hkind⟩ | ⟨req, schema, -, -, rfl⟩
    · rw [hmove.keeps.generation]
      by_cases hsame : call'.registeredAt = call.registeredAt
      · exact h.registered id call m hcall (hsame ▸ hm)
      · rcases hkind with ⟨fetched, rfl⟩ | hrests
        · cases hmove with
          | enter hstage =>
            rw [(hmeets call hcall).1 _ hstage]
            exact (some.inj hm).symm
          | _ => exact absurd rfl hsame
        · exact absurd hrests.registeredAt hsame
    · cases hm
  sources id call' b hcall' hmem := by
    obtain ⟨call, hcall, hkeep, horig⟩ := step_sources hcall' hmem
    have hwas : ∃ builder, s.calls b = some builder ∧ call.generation ≤ builder.generation := by
      rcases horig with hold | ⟨fetched, key, state, rfl, hjoins, hkey, hst, hsrc⟩ |
        ⟨-, ⟨hsrc, -⟩ | ⟨hsrc, -⟩⟩
      · exact h.sources id call b hcall hold
      · cases hsrc
        exact (hmeets call hcall).2 hjoins key state hkey hst
      · cases hsrc
        exact ⟨call, hcall, le_rfl⟩
      · cases hsrc
    obtain ⟨builder, hbuilt, hle⟩ := hwas
    obtain ⟨builder', hbuilt', hkeep'⟩ := step_grows hprov a b builder hbuilt
    refine ⟨builder', hbuilt', ?_⟩
    rw [hkeep.generation, hkeep'.generation]
    exact hle
  announced id channel' call' m k hchan' hrecv hcall' hm hlt hk := by
    rcases lt_or_ge s.generation k with hnew | hold
    · rcases step_rules d s a with ⟨rules, rfl⟩ | ⟨-, hpast⟩
      · have hlast : k = s.generation + 1 := by
          have hgen : (setRules s rules).generation = s.generation + 1 := by
            simp [setRules, State.generation]
          exact le_antisymm (hk.trans hgen.le) hnew
        rw [hlast]
        exact setRules_announced hrec hmeets hchan' hrecv
      · unfold State.generation at hk hnew
        rw [hpast] at hk
        omega
    · exact step_announced hrec h hchan' hrecv hcall' hm hlt hold

/-- A channel holds the end of all that was queued for its subscriber, and its consumer has got
the rest. -/
theorem events_recorded (d : Deployment δ) (actions : List (Action δ)) :
    Recorded (actions.foldl (step d) .start) ∧
      ∀ id, Received (actions.foldl (step d) .start) id (received d id .start actions) := by
  refine ⟨(reached_traced d start_recorded (fun _ a hprov _ h _ => step_recorded hprov h a)
    ((Runs.Schedule.free _ _ actions).reached .start)).2.2, fun id => ?_⟩
  have hnone : Received (.start : State δ) id [] :=
    ⟨fun h => absurd rfl h, fun _ h => by cases h⟩
  exact foldl_received actions (start_provenance d.engine) start_recorded hnone

/-- In every run in which rules are only replaced while the channels have room, calls register
under the rules they compiled from and join no older plan, every consumer sees a resync for each
rule change that concerns it before anything queued after the change. -/
theorem reached_announcesRuleChanges (d : Deployment δ)
    (h : Runs.Reached (step d) KeepsAnnounced State.start s) : AnnouncesRuleChanges s := by
  have hinv : Provenance d.engine s ∧ Recorded s ∧ Notified s := by
    apply h.invariant (P := fun s => Provenance d.engine s ∧ Recorded s ∧ Notified s)
    · exact ⟨start_provenance d.engine, start_recorded, start_notified⟩
    · rintro s a ⟨hprov, hrec, hnotified⟩ hmeets
      exact ⟨step_provenance hprov a, step_recorded hprov hrec a,
        step_notified hprov hrec hnotified hmeets⟩
  exact hinv.2.2.announcesRuleChanges hinv.2.1

end Notified

section

theorem keepsAnnounced_of_no_plan {s : State ℕ} {id : SubscriptionId}
    (hcall : s.calls id = some call) (hplans : ∀ key, s.host.plans key = none)
    (hgen : call.generation = s.generation) : KeepsAnnounced s (.advance id fetched) := by
  intro call' hcall'
  cases mem_unique hcall hcall'
  refine ⟨fun _ _ => hgen, fun _ key state _ hst => ?_⟩
  simp [hplans key] at hst

theorem rules_changed_announced :
    AnnouncesRuleChanges (postsRun (subscribePosts "a" 1 ++ [.setRules ownPosts])) ∧
      (postsRun (subscribePosts "a" 1 ++ [.setRules ownPosts])).log 1 =
        [(0, .initial 5 [[1, 8], [2, 7]]), (1, .resync .permissionsChanged)] := by
  refine ⟨reached_announcesRuleChanges postsDeployment (Runs.Schedule.reached ?_ .start), rfl⟩
  refine .cons trivial ?_
  refine .cons ?_ (.cons ?_ (.cons ?_ (.cons ?_ (.cons ?_ (.cons ?_ (.cons ?_ (.nil _)))))))
  on_goal 7 =>
    intro id channel hchan _
    rcases eq_or_ne id 1 with rfl | hid
    · cases hchan
      decide
    · have hnone : (postsRun (subscribePosts "a" 1)).router.channels id = none :=
        update_of_ne hid _ _
      cases hnone.symm.trans hchan
  all_goals exact keepsAnnounced_of_no_plan rfl (fun _ => rfl) rfl

def narrowDeployment : Deployment ℕ :=
  ⟨postsEngine, ⟨1, .dropAndResync, 100, by decide⟩, fun n => [n]⟩

/-- The rules are replaced before the consumer has taken its first event. -/
def revokedRun : State ℕ :=
  (subscribePosts "a" 1 ++ [Action.setRules ownPosts]).foldl (step narrowDeployment) State.start

theorem resync_dropped :
    Runs.Reached (step narrowDeployment) (fun _ _ => True) State.start revokedRun ∧
      ¬ AnnouncesRuleChanges revokedRun := by
  refine ⟨(Runs.Schedule.free _ _ _).reached .start, fun h => ?_⟩
  obtain ⟨channel, call, hchan, hrecv, hcall, hat⟩ : ∃ channel call,
      revokedRun.router.channels 1 = some channel ∧ channel.sender.receiving ∧
      revokedRun.calls 1 = some call ∧ call.registeredAt = some 0 := ⟨_, _, rfl, rfl, rfl, rfl⟩
  obtain ⟨-, hannounced⟩ := h 1 channel call hchan hrecv hcall
  obtain ⟨before, after, hlog, -⟩ := hannounced 1 (by decide) (.inl ⟨0, hat, by decide⟩)
  have hrecord : revokedRun.log 1 = [(0, .initial 5 [[1, 8], [2, 7]])] := rfl
  have hmem : (1, DiffEvent.resync .permissionsChanged) ∈ revokedRun.log 1 := by
    simp [hlog]
  rw [hrecord] at hmem
  simp at hmem

end

end Palimpsest.Server
