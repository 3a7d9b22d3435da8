import Palimpsest.Foundation.Runs
import Palimpsest.Server.Router

/-! From the pump to the client: a bounded channel, the forwarder that encodes its events, and the
outbound queue of the connection. A pump call is two steps, between which the forwarder may run. -/
namespace Palimpsest.Server
open List hiding getElem?_eq_some_iff
open Dataflow

structure WireChange (ω : Type) where
  op : DiffOp
  old : Option (List ω)
  new : Option (List ω)
deriving Repr, DecidableEq

/-- A message to the client, without the ids that are the same in all messages of a subscription. -/
inductive Message (ω : Type) where
  | diff (lsn : Lsn) (rows : List (List ω))
  | transactionUpdate (transactionId : Option ℕ) (beginLsn : Option Lsn) (commitLsn : Lsn)
      (endLsn : Option Lsn) (changes : List (WireChange ω))
  | resync (reason : ResyncReason)
deriving Repr, DecidableEq

def Message.isResync {ω : Type} : Message ω → Bool
  | .resync _ => true
  | _ => false

section
variable {δ ω : Type} (datumToWire : δ → Option ω)

def encodeRow (row : Row δ) : Option (List ω) := row.mapM datumToWire

/-- An absent image stays absent; one that cannot be encoded fails the change. -/
def encodeImage : Option (Row δ) → Option (Option (List ω))
  | none => some none
  | some row => (encodeRow datumToWire row).map some

def encodeChange (change : RowChange δ) : Option (WireChange ω) := do
  let old ← encodeImage datumToWire change.old
  let new ← encodeImage datumToWire change.new
  some ⟨change.op, old, new⟩

def diffEventToMessage : DiffEvent δ → Option (Message ω)
  | .initial lsn rows => (rows.mapM (encodeRow datumToWire)).map (.diff lsn)
  | .transactionUpdate transactionId beginLsn commitLsn endLsn changes =>
    (changes.mapM (encodeChange datumToWire)).map
      (.transactionUpdate transactionId beginLsn commitLsn endLsn)
  | .resync reason => some (.resync reason)

end

/-- What became of an event at its send. -/
inductive Mark (δ : Type) where
  | queued (event : DiffEvent δ)
  | lost (event : DiffEvent δ)

/-- The message a mark leads to, if the forwarder gets to it. -/
def Mark.shown {δ ω : Type} (datumToWire : δ → Option ω) : Mark δ → Option (Message ω)
  | .queued event => diffEventToMessage datumToWire event
  | .lost _ => none

/-- One subscription. `forcing` says that a pump call has found the channel full and has still to
force its resync. The trace, in the order of the sends, is a history variable. -/
structure Delivery (δ ω : Type) where
  channel : BoundedDiffChannel δ
  forcing : Bool
  holding : Option (Message ω)
  outbound : Mpsc (Message ω)
  received : List (Message ω)
  trace : List (Mark δ)

inductive DeliveryAction (δ : Type) where
  /-- The two parts of `pump_event`. -/
  | offer (event : DiffEvent δ)
  | force
  /-- The resync of a change of rules. -/
  | reload
  /-- The forwarder takes an event and encodes it; it passes the message on when there is room. -/
  | take
  | deliver
  | receive
  /-- The forwarder is stopped; the client goes away. -/
  | stop
  | leave

namespace Delivery
variable {δ ω : Type}

def new (capacity : ℕ) (capacity_pos : 0 < capacity) (policy : BackpressurePolicy)
    (outboundCapacity : ℕ) (outbound_pos : 0 < outboundCapacity) : Delivery δ ω :=
  ⟨.new capacity capacity_pos policy, false, none, .new outboundCapacity outbound_pos, [], []⟩

/-- A forced resync is queued only if there is room. -/
def resync (s : Delivery δ ω) (reason : ResyncReason) : Delivery δ ω :=
  { s with
    channel := s.channel.forceResync reason
    trace := if s.channel.sender.hasRoom then s.trace ++ [.queued (.resync reason)] else s.trace }

def close (s : Delivery δ ω) : Delivery δ ω :=
  { s with channel := { s.channel with sender := s.channel.sender.hangUp }, holding := none }

def step (datumToWire : δ → Option ω) (s : Delivery δ ω) : DeliveryAction δ → Delivery δ ω
  | .offer event =>
    if s.forcing then s
    else
      match (s.channel.trySend event).1 with
      | .sent =>
        { s with channel := (s.channel.trySend event).2, trace := s.trace ++ [.queued event] }
      | .closed =>
        { s with channel := (s.channel.trySend event).2, trace := s.trace ++ [.lost event] }
      | _ =>
        { s with
          channel := (s.channel.trySend event).2
          trace := s.trace ++ [.lost event]
          forcing := true }
  | .force => if s.forcing then { s.resync .backpressure with forcing := false } else s
  | .reload => if s.forcing then s else s.resync .permissionsChanged
  | .take =>
    match s.holding, s.channel.sender.queue with
    | none, event :: _ =>
      { s with
        channel := { s.channel with sender := s.channel.sender.receive }
        holding := diffEventToMessage datumToWire event }
    | _, _ => s
  | .deliver =>
    match s.holding with
    | none => s
    | some message =>
      match (s.outbound.trySend message).1 with
      | .sent => { s with outbound := (s.outbound.trySend message).2, holding := none }
      | .full => s
      | .closed => s.close
  | .receive =>
    match s.outbound.queue with
    | [] => s
    | message :: _ => { s with outbound := s.outbound.receive, received := s.received ++ [message] }
  | .stop => s.close
  | .leave => { s with outbound := s.outbound.hangUp }

/-- After every event that was dropped, at its send or by the forwarder, the next message the client
receives is a resync. -/
def Announced (datumToWire : δ → Option ω) (s : Delivery δ ω) : Prop :=
  ∀ before mark after, s.trace = before ++ mark :: after → mark.shown datumToWire = none →
    ∀ message, s.received[(before.filterMap (Mark.shown datumToWire)).length]? = some message →
      message.isResync = true

/-- Every event can be encoded, and a forced resync finds room: the forwarder has taken an event
since the channel was found full, or it is gone. -/
def Heard (datumToWire : δ → Option ω) (s : Delivery δ ω) : DeliveryAction δ → Prop
  | .offer event => (diffEventToMessage datumToWire event).isSome = true
  | .force => s.forcing = true → s.channel.sender.receiving = true → s.channel.sender.hasRoom
  | _ => True

section Invariant
variable {datumToWire : δ → Option ω} {s : Delivery δ ω}

/-- Messages on their way, in the order the client will receive them. -/
def underway (datumToWire : δ → Option ω) (s : Delivery δ ω) : List (Message ω) :=
  s.received ++ s.outbound.queue ++
    (s.holding.toList ++ s.channel.sender.queue.filterMap (diffEventToMessage datumToWire))

/-- The messages shown after each lost event start with a resync, and there are some unless the
resync is still to be forced. -/
structure Tracked (datumToWire : δ → Option ω) (s : Delivery δ ω) : Prop where
  kept : s.outbound.receiving = true → s.channel.sender.receiving = true →
    s.underway datumToWire = s.trace.filterMap (Mark.shown datumToWire)
  passed : s.received ++ s.outbound.queue <+: s.trace.filterMap (Mark.shown datumToWire)
  open_of_pending : s.holding ≠ none ∨ s.channel.sender.queue ≠ [] →
    s.channel.sender.receiving = true
  encoded : ∀ event, .queued event ∈ s.trace → (diffEventToMessage datumToWire event).isSome = true
  announced : ∀ before event after, s.trace = before ++ .lost event :: after →
    ∀ message ∈ (after.filterMap (Mark.shown datumToWire)).head?, message.isResync = true
  settled : s.forcing = false → s.channel.sender.receiving = true →
    ∀ before event after, s.trace = before ++ .lost event :: after →
      after.filterMap (Mark.shown datumToWire) ≠ []

theorem append_singleton_split {α : Type} {l prev after : List α} {x y : α}
    (h : l ++ [x] = prev ++ y :: after) :
    (after = [] ∧ x = y) ∨ ∃ after', after = after' ++ [x] ∧ l = prev ++ y :: after' := by
  rcases eq_nil_or_concat after with rfl | ⟨after', z, rfl⟩
  · exact .inl ⟨rfl, (append_inj' h rfl).2 |> singleton_inj.mp⟩
  · rw [concat_eq_append, ← cons_append, ← append_assoc] at h
    obtain ⟨hl, hx⟩ := append_inj' h rfl
    rw [singleton_inj] at hx
    subst hx
    exact .inr ⟨after', concat_eq_append .., hl⟩

theorem tracked_new (datumToWire : δ → Option ω) (capacity_pos policy outbound_pos) :
    Tracked datumToWire (new capacity capacity_pos policy outboundCapacity outbound_pos) where
  kept := fun _ _ => rfl
  passed := nil_prefix
  open_of_pending := fun _ => rfl
  encoded := nofun
  announced := fun prev _ _ h => by cases prev <;> cases h
  settled := fun _ _ prev _ _ h => by cases prev <;> cases h

variable (h : Tracked datumToWire s)
include h

variable {channel : BoundedDiffChannel δ}

/-- An event goes into the channel. It must be a resync if one is owed. -/
theorem Tracked.queue (hmsg : diffEventToMessage datumToWire event = some msg)
    (hnext : s.forcing = false ∨ msg.isResync = true) (hroom : s.channel.sender.receiving = true)
    (hq : channel.sender.queue = s.channel.sender.queue ++ [event])
    (hrecv : channel.sender.receiving = s.channel.sender.receiving) (forcing : Bool) :
    Tracked datumToWire
      { s with channel := channel, trace := s.trace ++ [.queued event], forcing := forcing } := by
  have hlast : ∀ marks : List (Mark δ), (marks ++ [Mark.queued event]).filterMap
      (Mark.shown datumToWire) = marks.filterMap (Mark.shown datumToWire) ++ [msg] := by
    intro marks
    simp [Mark.shown, hmsg]
  refine ⟨?_, ?_, ?_, ?_, ?_, ?_⟩
  · intro hout _
    have hkept := h.kept hout hroom
    unfold underway at hkept ⊢
    rw [hlast, hq, ← hkept]
    simp [hmsg]
  · rw [hlast]
    exact h.passed.trans (prefix_append _ _)
  · intro _
    exact hrecv.trans hroom
  · intro other hother
    rcases mem_append.mp hother with hold | hnew
    · exact h.encoded other hold
    · cases mem_singleton.mp hnew
      rw [hmsg]
      rfl
  · intro prev lost after hsplit first hfirst
    rcases append_singleton_split hsplit with ⟨-, hmark⟩ | ⟨after', rfl, htraced⟩
    · cases hmark
    · rw [hlast] at hfirst
      cases hnow : after'.filterMap (Mark.shown datumToWire) with
      | nil =>
        rw [hnow] at hfirst
        cases hfirst
        -- nothing was shown since the loss, so a resync was owed
        exact hnext.resolve_left fun hforce => h.settled hforce hroom prev lost after' htraced hnow
      | cons =>
        rw [hnow] at hfirst
        refine h.announced prev lost after' htraced first ?_
        rw [hnow]
        exact hfirst
  · intro _ _ prev lost after hsplit
    rcases append_singleton_split hsplit with ⟨-, hmark⟩ | ⟨after', rfl, -⟩
    · cases hmark
    · rw [hlast]
      exact append_ne_nil_of_right_ne_nil _ (cons_ne_nil _ _)

/-- An event is lost, with a resync to be forced or nobody left to receive one. -/
theorem Tracked.lose (event) (hsend : channel.sender = s.channel.sender) {forcing : Bool}
    (howed : forcing = true ∨ s.channel.sender.receiving = false) : Tracked datumToWire
      { s with channel := channel, trace := s.trace ++ [.lost event], forcing := forcing } := by
  have hlast : ∀ marks : List (Mark δ), (marks ++ [Mark.lost event]).filterMap
      (Mark.shown datumToWire) = marks.filterMap (Mark.shown datumToWire) := by
    intro marks
    simp [Mark.shown]
  refine ⟨?_, ?_, ?_, ?_, ?_, ?_⟩
  · rw [underway, hlast, hsend]
    exact h.kept
  · rw [hlast]
    exact h.passed
  · rw [hsend]
    exact h.open_of_pending
  · intro other hother
    rcases mem_append.mp hother with hold | hnew
    · exact h.encoded other hold
    · cases mem_singleton.mp hnew
  · intro prev lost after hsplit first hfirst
    rcases append_singleton_split hsplit with ⟨rfl, -⟩ | ⟨after', rfl, htraced⟩
    · cases hfirst
    · rw [hlast] at hfirst
      exact h.announced prev lost after' htraced first hfirst
  · intro hforce hrecv
    rw [hsend] at hrecv
    rcases howed with howed | howed
    · simp [howed] at hforce
    · simp [howed] at hrecv

theorem Tracked.pass
    {holding : Option (Message ω)} {outbound : Mpsc (Message ω)} {received : List (Message ω)}
    (hkept : outbound.receiving = true → channel.sender.receiving = true →
      received ++ outbound.queue ++
        (holding.toList ++ channel.sender.queue.filterMap (diffEventToMessage datumToWire)) =
          s.trace.filterMap (Mark.shown datumToWire))
    (hpass : received ++ outbound.queue <+: s.trace.filterMap (Mark.shown datumToWire))
    (hpend : holding ≠ none ∨ channel.sender.queue ≠ [] → channel.sender.receiving = true)
    (hrecv : channel.sender.receiving = true → s.channel.sender.receiving = true) :
    Tracked datumToWire { s with
      channel := channel, holding := holding, outbound := outbound, received := received } :=
  ⟨hkept, hpass, hpend, h.encoded, h.announced,
    fun hforce hopen => h.settled hforce (hrecv hopen)⟩

theorem Tracked.close : Tracked datumToWire s.close :=
  h.pass nofun h.passed
    (fun hpend => by simp [Mpsc.hangUp] at hpend) nofun

/-- A forced resync leaves nothing owed: it is queued, or the channel is closed, or it was not
owed. -/
theorem Tracked.resync (reason)
    (howed : s.forcing = true → s.channel.sender.receiving = true → s.channel.sender.hasRoom) :
    Tracked datumToWire { s.resync reason with forcing := false } := by
  unfold Delivery.resync
  by_cases hroom : s.channel.sender.hasRoom
  · rw [if_pos hroom]
    exact h.queue rfl (.inr rfl) hroom.1 (Mpsc.trySend_of_hasRoom hroom _).2
      (Mpsc.trySend_receiving _ _) false
  · rw [if_neg hroom]
    have hsend : (s.channel.forceResync reason).sender = s.channel.sender :=
      (Mpsc.trySend_of_not_hasRoom hroom _).2
    refine ⟨?_, h.passed, ?_, h.encoded, h.announced, ?_⟩
    · rw [underway, hsend]
      exact h.kept
    · rw [hsend]
      exact h.open_of_pending
    · intro _ hopen
      rw [hsend] at hopen
      cases hforce : s.forcing with
      | true => exact absurd (howed hforce hopen) hroom
      | false => exact h.settled hforce hopen

theorem step_offer_tracked (hmeets : (diffEventToMessage datumToWire event).isSome = true) :
    Tracked datumToWire (step datumToWire s (.offer event)) := by
  obtain ⟨msg, hmsg⟩ := Option.isSome_iff_exists.mp hmeets
  simp only [step]
  split
  next => exact h
  next hforce =>
    rw [Bool.not_eq_true] at hforce
    have hsend := s.channel.sender_trySend event
    by_cases hroom : s.channel.sender.hasRoom
    · obtain ⟨hsent, hq⟩ := Mpsc.trySend_of_hasRoom hroom event
      rw [(s.channel.trySend_sent_iff event).mpr hsent]
      rw [← hsend] at hq
      have htracked := h.queue hmsg (.inl hforce) hroom.1 hq
        (by rw [hsend]; exact Mpsc.trySend_receiving _ _) s.forcing
      exact htracked
    · rw [(Mpsc.trySend_of_not_hasRoom hroom event).2] at hsend
      split
      next hsent =>
        exact absurd ((s.channel.trySend_sent_iff event).mp hsent)
          (Mpsc.trySend_of_not_hasRoom hroom event).1
      next hclosed =>
        have hgone : s.channel.sender.receiving = false :=
          BoundedDiffChannel.receiving_of_trySend_closed hclosed
        exact h.lose event hsend (.inr hgone)
      next => exact h.lose event hsend (.inl rfl)

theorem step_take_tracked : Tracked datumToWire (step datumToWire s .take) := by
  simp only [step]
  split
  next event rest hholding hq =>
    have hrecv : s.channel.sender.receiving = true := h.open_of_pending (.inr (by
      rw [hq]
      exact cons_ne_nil _ _))
    refine h.pass ?_ h.passed (fun _ => hrecv) id
    intro hout _
    rw [← h.kept hout hrecv, underway, hholding]
    simp only [Mpsc.receive, hq]
    cases hmsg : diffEventToMessage datumToWire event <;> simp [hmsg]
  next => exact h

theorem step_deliver_tracked : Tracked datumToWire (step datumToWire s .deliver) := by
  simp only [step]
  split
  next => exact h
  next msg hholding =>
    split
    next hsent =>
      have hroom : s.outbound.hasRoom := by
        by_contra hroom
        exact (Mpsc.trySend_of_not_hasRoom hroom msg).1 hsent
      have hq := (Mpsc.trySend_of_hasRoom hroom msg).2
      have hopen : s.channel.sender.receiving = true := h.open_of_pending (.inl (by
        rw [hholding]
        exact Option.some_ne_none _))
      have hkept := h.kept hroom.1 hopen
      unfold underway at hkept
      rw [hholding] at hkept
      refine h.pass ?_ ?_ (fun _ => hopen) id
      · intro _ _
        simp [hq, ← hkept]
      · simp [hq, ← hkept]
    next => exact h
    next => exact h.close

theorem step_receive_tracked : Tracked datumToWire (step datumToWire s .receive) := by
  simp only [step]
  split
  next => exact h
  next msg rest hq =>
    have hmoved : s.received ++ [msg] ++ s.outbound.receive.queue =
        s.received ++ s.outbound.queue := by
      simp [Mpsc.receive, hq]
    refine h.pass ?_ ?_ h.open_of_pending id
    · intro hout hopen
      rw [hmoved]
      exact h.kept hout hopen
    · rw [hmoved]
      exact h.passed

theorem step_tracked (hmeets : Heard datumToWire s action) :
    Tracked datumToWire (step datumToWire s action) := by
  cases action with
  | offer => exact step_offer_tracked h hmeets
  | force =>
    simp only [step]
    split
    · exact h.resync .backpressure hmeets
    · exact h
  | reload =>
    simp only [step]
    split
    next => exact h
    next hforce =>
      rw [Bool.not_eq_true] at hforce
      have htracked :=
        h.resync .permissionsChanged fun howed => by rw [hforce] at howed; cases howed
      rwa [← hforce] at htracked
  | take => exact step_take_tracked h
  | deliver => exact step_deliver_tracked h
  | receive => exact step_receive_tracked h
  | stop => exact h.close
  | leave =>
    refine h.pass nofun ?_ h.open_of_pending id
    refine List.IsPrefix.trans ?_ h.passed
    exact (prefix_append_right_inj _).mpr nil_prefix

theorem Tracked.heard : Announced datumToWire s := by
  intro prev mark after hsplit hnone message hmsg
  cases mark with
  | queued event =>
    have hsome := h.encoded event (by rw [hsplit]; simp)
    simp [show diffEventToMessage datumToWire event = none from hnone] at hsome
  | lost event =>
    -- what the client has received is a start of what was shown
    obtain ⟨rest, hrest⟩ := (prefix_append s.received s.outbound.queue).trans h.passed
    refine h.announced prev event after hsplit message ?_
    have hget : (s.trace.filterMap (Mark.shown datumToWire))[(prev.filterMap
        (Mark.shown datumToWire)).length]? = some message := by
      rw [← hrest]
      exact getElem?_append_left (getElem?_eq_some_iff.mp hmsg).1 ▸ hmsg
    rw [hsplit, filterMap_append, getElem?_append_right le_rfl, Nat.sub_self] at hget
    rw [head?_eq_getElem?]
    exact hget

omit h

/-- For every capacity and policy, in every interleaving of pump calls, forwarder and client in
which each event can be encoded and each forced resync finds room, every loss is announced. -/
theorem announced_of_heard {capacity outboundCapacity : ℕ} (capacity_pos : 0 < capacity)
    (policy : BackpressurePolicy) (outbound_pos : 0 < outboundCapacity)
    (h : Runs.Reached (step datumToWire) (Heard datumToWire)
      (new capacity capacity_pos policy outboundCapacity outbound_pos) s) :
    Announced datumToWire s := by
  have htracked : Tracked datumToWire s :=
    h.invariant (tracked_new datumToWire capacity_pos policy outbound_pos)
      fun _ _ htracked hmeets => step_tracked htracked hmeets
  exact htracked.heard

end Invariant

section

def update (n : ℕ) : DiffEvent ℕ := .transactionUpdate none none n none [⟨.insert, none, some [n]⟩]

def shownUpdate (n : ℕ) : Message ℕ :=
  .transactionUpdate none none n none [⟨.insert, none, some [n]⟩]

/-- Every datum but an unresolved placeholder, here 0. -/
def resolved (n : ℕ) : Option ℕ := if n = 0 then none else some n

def small (capacity : ℕ) (capacity_pos : 0 < capacity) : Delivery ℕ ℕ :=
  new capacity capacity_pos .dropAndResync 8 (Nat.succ_pos _)

/-- The forwarder takes an event between the loss and the forced resync. -/
def heardLoss : List (DeliveryAction ℕ) :=
  [.offer (update 1), .offer (update 2), .take, .force, .deliver, .take, .deliver,
    .receive, .receive]

theorem heard_loss_announced : (heardLoss.foldl (step resolved) (small 1 Nat.one_pos)).received =
      [shownUpdate 1, .resync .backpressure] ∧
    Announced resolved (heardLoss.foldl (step resolved) (small 1 Nat.one_pos)) := by
  refine ⟨by decide, announced_of_heard one_pos .dropAndResync (by decide)
    (Runs.Schedule.reached ?_ .start)⟩
  exact .cons rfl (.cons rfl (.cons trivial (.cons (fun _ _ => by decide)
    (.cons trivial (.cons trivial (.cons trivial (.cons trivial (.cons trivial (.nil _)))))))))

/-- The resync is forced into the channel that was just found full. -/
def swallowedResync : List (DeliveryAction ℕ) :=
  [.offer (update 1), .offer (update 2), .force, .take, .deliver, .offer (update 3),
    .take, .deliver,
    .receive, .receive]

def skippedEvent : List (DeliveryAction ℕ) :=
  [.offer (update 1), .offer (update 0), .offer (update 3), .take, .deliver, .take, .take, .deliver,
    .receive, .receive]

theorem dropped_without_resync :
    (∃ s, Runs.Reached (step resolved) (fun _ _ => True) (small 1 Nat.one_pos) s ∧
      s.received = [shownUpdate 1, shownUpdate 3] ∧ ¬ Announced resolved s) ∧
    ∃ s, Runs.Reached (step resolved) (fun _ _ => True) (small 8 (by decide)) s ∧
      s.received = [shownUpdate 1, shownUpdate 3] ∧ ¬ Announced resolved s := by
  refine ⟨⟨_, (Runs.Schedule.free (step resolved) (small 1 one_pos) swallowedResync).reached .start,
    by decide, ?_⟩, ⟨_, (Runs.Schedule.free (step resolved) (small 8 (by decide))
      skippedEvent).reached .start, by decide, ?_⟩⟩
  · intro h
    have hresync := h [.queued (update 1)] (.lost (update 2)) [.queued (update 3)] rfl rfl
      (shownUpdate 3) rfl
    cases hresync
  · intro h
    have hresync := h [.queued (update 1)] (.queued (update 0)) [.queued (update 3)] rfl rfl
      (shownUpdate 3) rfl
    cases hresync

end

end Delivery

end Palimpsest.Server
