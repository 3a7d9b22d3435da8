import Mathlib.Order.Bounds.Defs
import Palimpsest.Server.Tables

/-! The compaction watermark after any sequence of installs, acknowledgements and removals. -/
namespace Palimpsest.Server
open Dataflow Function List

variable {δ : Type}

inductive AckOutcome where
  | advanced (lsn : Lsn)
  | stale
deriving Repr, DecidableEq

def AckTracker.ack (tracker : AckTracker) (id : SubscriptionId) (previousCursor ackLsn : Lsn) :
    AckOutcome × AckTracker :=
  if ackLsn ≤ previousCursor then (.stale, tracker)
  else (.advanced ackLsn, tracker.install id ackLsn)

/-- What `min_subscriber_lsn` returns while there are subscribers. -/
def AckTracker.MinSubscriberLsn (tracker : AckTracker) (lsn : Lsn) : Prop :=
  IsLeast {l | ∃ id, tracker.watermarks id = some l} lsn

namespace SubscriptionRouter

def ack (router : RouterInner δ) (id : SubscriptionId) (lsn : Lsn) :
    Except RouterError AckOutcome × RouterInner δ :=
  match router.registry.byId id with
  | none => (.error (.unknownSubscription id), router)
  | some record =>
    match router.ack.ack id record.cursorLsn lsn with
    | (.stale, tracker) => (.ok .stale, { router with ack := tracker })
    | (.advanced new, tracker) =>
      (.ok (.advanced new), { router with
        ack := tracker
        registry := { router.registry with
          byId := update router.registry.byId id (some { record with cursorLsn := new }) } })

/-- A run from the empty router, and what was heard of each subscription: its snapshot LSN and the
LSNs acknowledged since. A new subscription has an id that is not in use. -/
inductive Run : RouterInner δ → (SubscriptionId → List Lsn) → Prop
  | start : Run .empty fun _ => []
  | subscribe {router router' : RouterInner δ} {heard : SubscriptionId → List Lsn}
      {id : SubscriptionId} {request : SubscribeRequest} {opened : Opened δ} : Run router heard →
      router.registry.byId id = none → router.register id request opened = .ok router' →
      Run router' (update heard id [opened.snapshotLsn])
  | ack {router : RouterInner δ} {heard : SubscriptionId → List Lsn} (id : SubscriptionId)
      (lsn : Lsn) : Run router heard →
      Run (SubscriptionRouter.ack router id lsn).2 (update heard id (lsn :: heard id))
  | unsubscribe {router : RouterInner δ} {heard : SubscriptionId → List Lsn}
      (id : SubscriptionId) : Run router heard → Run (router.unsubscribe id).2 heard

/-- Every subscription's cursor is its watermark, the highest LSN heard of it. -/
def Positioned (router : RouterInner δ) (heard : SubscriptionId → List Lsn) : Prop :=
  ∀ id, router.ack.watermarks id = (router.registry.byId id).map Subscription.cursorLsn ∧
    ∀ s ∈ router.registry.byId id, (heard id).max? = some s.cursorLsn

variable {router router' : RouterInner δ} {heard : SubscriptionId → List Lsn}
  {id : SubscriptionId} {lsn : Lsn} {news : List Lsn}

theorem Positioned.set (h : Positioned router heard) {s : Subscription}
    (hnews : news.max? = some s.cursorLsn)
    (hwas : ∀ prev ∈ router.registry.byId id, prev.cursorLsn ≤ s.cursorLsn)
    (hbyId : router'.registry.byId = update router.registry.byId id (some s))
    (hack : router'.ack = router.ack.install id s.cursorLsn) :
    Positioned router' (update heard id news) := by
  intro id'
  rw [hbyId, hack, AckTracker.install]
  by_cases hid : id' = id
  · subst hid
    simp only [update_self, (h id').1, Option.map_some]
    cases hs : router.registry.byId id' with
    | none => grind
    | some prev => grind [max_eq_right (hwas prev hs)]
  · simpa [update_of_ne hid] using h id'

theorem ack_stale (h : ∀ s ∈ router.registry.byId id, lsn ≤ s.cursorLsn) :
    (ack router id lsn).2 = router := by
  unfold ack
  split
  · rfl
  next record hs => simp [AckTracker.ack, h record hs]

theorem Positioned.ack (h : Positioned router heard) (id lsn) :
    Positioned (ack router id lsn).2 (update heard id (lsn :: heard id)) := by
  by_cases hstale : ∀ s ∈ router.registry.byId id, lsn ≤ s.cursorLsn
  · rw [ack_stale hstale]
    intro id'
    rcases eq_or_ne id' id with rfl | hid
    · refine ⟨(h id').1, fun s hs => ?_⟩
      simp [(h id').2 s hs, hstale s hs]
    · simpa [hid] using h id'
  · simp only [not_forall, not_le] at hstale
    obtain ⟨record, hs, hlt⟩ := hstale
    have hadvanced : router.ack.ack id record.cursorLsn lsn =
        (.advanced lsn, router.ack.install id lsn) := if_neg hlt.not_ge
    refine h.set (s := { record with cursorLsn := lsn }) ?_ ?_ ?_ ?_
    · simp [(h id).2 record hs, hlt.le]
    · simp [Option.mem_def.mp hs, hlt.le]
    · simp [SubscriptionRouter.ack, Option.mem_def.mp hs, hadvanced]
    · simp [SubscriptionRouter.ack, Option.mem_def.mp hs, hadvanced]

theorem Run.positioned (h : Run router heard) : Positioned router heard := by
  induction h with
  | start => exact fun _ => ⟨rfl, nofun⟩
  | subscribe _ hnew hreg ih =>
    obtain ⟨s, -, hbyId, -, hack, -, -, hcursor⟩ := RouterInner.register_tables hreg
    rw [← hcursor] at hack ⊢
    exact ih.set rfl (by simp [hnew]) hbyId hack
  | ack id lsn _ ih => exact ih.ack id lsn
  | @unsubscribe router heard id _ ih =>
    cases hgone : router.registry.byId id with
    | none => rwa [RouterInner.unsubscribe_of_none hgone]
    | some =>
      obtain ⟨-, hbyId, -, hack, -⟩ := RouterInner.unsubscribe_tables hgone
      intro id'
      rw [hbyId, hack]
      by_cases hid : id' = id
      · simp [hid]
      · simpa [hid] using ih id'

/-- The least of the live subscriptions' highest LSNs is reported, and a stale acknowledgement
changes nothing. -/
theorem Run.reports_minimum (h : Run router heard) : (∀ lsn, router.ack.MinSubscriberLsn lsn ↔
        IsLeast {l | ∃ id, (router.registry.byId id).isSome ∧ (heard id).max? = some l} lsn) ∧
      ∀ id lsn, (∀ s ∈ router.registry.byId id, lsn ≤ s.cursorLsn) →
        (SubscriptionRouter.ack router id lsn).2 = router := by
  refine ⟨fun lsn => iff_of_eq (congrArg (IsLeast · lsn) (Set.ext fun l => ?_)),
    fun _ _ => ack_stale⟩
  refine exists_congr fun id => ?_
  rw [(h.positioned id).1]
  cases hs : router.registry.byId id with
  | none => simp
  | some s => simp [(h.positioned id).2 s hs]

/-- Snapshot LSN 5, then an acknowledgement of LSN 3. -/
def lowAck : RouterInner ℕ :=
  (ack ((RouterInner.empty.register 1 (readPosts "a")
    ⟨5, [], freshChannel postsDeployment.config⟩).toOption.getD .empty) 1 3).2

theorem run_lowAck : Run lowAck (update (update (fun _ => []) 1 [5]) 1 [3, 5]) :=
  .ack 1 3 (.subscribe .start rfl rfl)

theorem lowAck_reported : lowAck.ack.MinSubscriberLsn 5 := by
  refine ⟨⟨1, rfl⟩, ?_⟩
  rintro l ⟨id, hid⟩
  have hwatermarks : lowAck.ack.watermarks = update (fun _ => none) 1 (some 5) := rfl
  rw [hwatermarks] at hid
  grind

theorem lowAck_minimum : IsLeast {l | ∃ id, (lowAck.registry.byId id).isSome ∧
    (update (update (fun _ => []) 1 [5]) 1 [3, 5] id).max? = some l} 5 :=
  (run_lowAck.reports_minimum.1 5).mp lowAck_reported

/-- The watermark is above the highest LSN the subscription has acknowledged. -/
theorem watermark_above_acks : ¬ ∀ (router : RouterInner ℕ) heard, Run router heard → ∀ lsn,
    router.ack.MinSubscriberLsn lsn → ∀ id, (router.registry.byId id).isSome → ∀ acked,
      (heard id).dropLast.max? = some acked → lsn ≤ acked :=
  fun h => absurd (h _ _ run_lowAck 5 lowAck_reported 1 rfl 3 rfl) (by decide)

end SubscriptionRouter

end Palimpsest.Server
