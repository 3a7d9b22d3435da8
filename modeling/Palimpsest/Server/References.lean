import Mathlib.Data.Set.Card
import Palimpsest.Server.Watermarks

/-! The reference counts of shared subgraphs after any sequence of router calls. -/
namespace Palimpsest.Server
open Function Set

def sharing (keys : SubscriptionId → Option String) (key : String) : Set SubscriptionId :=
  {id | keys id = some key}

/-- A subscription holds the subgraph of its key. A subgraph is kept as long as it is held, with the
number of its holders. -/
structure Counted (registry : SharedSubgraphRegistry)
    (holders : SubscriptionId → Option SharedSubgraphId) (keys : SubscriptionId → Option String) :
    Prop where
  finite : ∀ key, (sharing keys key).Finite
  held : ∀ id key, keys id = some key → holders id = registry.idsByKey key ∧ holders id ≠ none
  count : ∀ key gid, registry.idsByKey key = some gid → gid < registry.nextId ∧
    registry.entries gid = some ⟨key, (sharing keys key).ncard⟩ ∧ 0 < (sharing keys key).ncard
  owned : ∀ gid entry, registry.entries gid = some entry → registry.idsByKey entry.key = some gid

namespace Counted
variable (h : Counted registry holders keys) {id : SubscriptionId}
include h

theorem acquire (hnew : keys id = none) (key) : Counted (registry.acquire key).2
    (update holders id (some (registry.acquire key).1)) (update keys id (some key)) := by
  have hjoin other : sharing (update keys id (some key)) other =
      if other = key then insert id (sharing keys key) else sharing keys other := by
    ext id'
    by_cases hid : id' = id <;> by_cases hkey : other = key <;> simp_all [sharing, eq_comm]
  obtain ⟨hfin, hheld, hcount, howned⟩ := h
  have hadd := ncard_insert_of_notMem (by simp [sharing, hnew]) (hfin key) (a := id)
  have hfin' := (hfin key).insert id
  have hnone : registry.idsByKey key = none → (sharing keys key).ncard = 0 := fun hkey =>
    (ncard_eq_zero (hfin key)).mpr (eq_empty_of_forall_notMem fun id' hid =>
      (hheld id' key hid).2 ((hheld id' key hid).1.trans hkey))
  unfold SharedSubgraphRegistry.acquire
  cases hkey : registry.idsByKey key <;>
    refine ⟨fun other => ?_, fun other => ?_, fun other => ?_, fun other => ?_⟩ <;>
    simp only [hjoin] <;> grind

theorem release (hkey : keys id = some key) (hgid : holders id = some gid) :
    Counted (registry.release gid) (update holders id none) (update keys id none) := by
  have hleave other : sharing (update keys id none) other =
      if other = key then sharing keys key \ {id} else sharing keys other := by
    ext id'
    by_cases hid : id' = id <;> by_cases hother : other = key <;> simp_all [sharing, eq_comm]
  obtain ⟨hfin, hheld, hcount, howned⟩ := h
  have hsub := ncard_sdiff_singleton_of_mem (s := sharing keys key) (a := id) hkey
  have hfin' := (hfin key).sdiff (t := {id})
  have hlast : (sharing keys key \ {id}).ncard = 0 → ∀ id', keys id' = some key → id' = id :=
    fun hnone id' hid => by_contra fun hne =>
      eq_empty_iff_forall_notMem.mp ((ncard_eq_zero hfin').mp hnone) id' ⟨hid, hne⟩
  have hentry := hcount key gid (by grind)
  unfold SharedSubgraphRegistry.release
  simp only [hentry]
  split <;> refine ⟨fun other => ?_, fun other => ?_, fun other => ?_, fun other => ?_⟩ <;>
    simp only [hleave] <;> grind

end Counted

namespace SubscriptionRouter
variable {router : RouterInner δ}

def subgraphKeys (router : RouterInner δ) (id : SubscriptionId) : Option String :=
  (router.registry.byId id).map fun s => canonicalSubgraphKey s.query s.userCtx

theorem Run.references_counted (h : Run router heard) :
    Counted router.subgraphs router.subgraphHolders (subgraphKeys router) := by
  induction h with
  | start => exact ⟨fun _ => finite_empty.subset nofun, nofun, nofun, nofun⟩
  | @subscribe router _ _ id req _ _ hnew hreg ih =>
    obtain ⟨registry, hins, ⟨⟩⟩ := Fallible.bind_ok hreg
    simp only [SubscriptionRegistry.insert] at hins
    split at hins <;> cases hins
    have hkey : subgraphKeys router id = none := congrArg (Option.map _) hnew
    convert ih.acquire hkey _ using 1
    ext id'
    by_cases hid : id' = id <;> simp [subgraphKeys, hid]
  | @ack router _ id lsn _ ih =>
    unfold SubscriptionRouter.ack AckTracker.ack
    cases hrec : router.registry.byId id with
    | none => exact ih
    | some record =>
      by_cases hold : lsn ≤ record.cursorLsn <;> simp only [hold, ↓reduceIte]
      · exact ih
      · convert ih using 1
        ext id'
        by_cases hid : id' = id <;> simp [subgraphKeys, hid, hrec]
  | @unsubscribe router _ id _ ih =>
    cases hgone : router.registry.byId id with
    | none => rwa [RouterInner.unsubscribe_of_none hgone]
    | some s =>
      have hkey : subgraphKeys router id = some _ := congrArg (Option.map _) hgone
      obtain ⟨gid, hgid⟩ := Option.ne_none_iff_exists'.mp (ih.held id _ hkey).2
      simp only [RouterInner.unsubscribe, SubscriptionRegistry.remove, hgone, Option.map_some, hgid]
      convert ih.release hkey hgid using 1
      ext id'
      by_cases hid : id' = id <;> simp [subgraphKeys, hid]

theorem lowAck_referenced : lowAck.subgraphHolders 1 ≠ none :=
  (run_lowAck.references_counted.held 1 _ rfl).2

end SubscriptionRouter

end Palimpsest.Server
