import Palimpsest.Foundation.Mpsc
import Palimpsest.Foundation.Runs
import Mathlib.Algebra.Ring.Nat

/-! Stream segments that wait in a bounded channel or, when it is full, in a spill buffer. -/
namespace Palimpsest.Wal
open Function List

abbrev Segment := List ℕ

/-- A segment in the spill file: its length as four bytes, the highest first, and its bytes. -/
def frame (segment : Segment) : List ℕ :=
  let n := segment.length
  n / 2 ^ 24 % 256 :: n / 2 ^ 16 % 256 :: n / 2 ^ 8 % 256 :: n % 256 :: segment

/-- Reading stops where no length follows. -/
def readFrames : List ℕ → Except String (List Segment)
  | a :: b :: c :: d :: rest =>
    let length := a * 2 ^ 24 + b * 2 ^ 16 + c * 2 ^ 8 + d
    if rest.length < length then .error "unexpected end of file"
    else (readFrames (rest.drop length)).map (rest.take length :: ·)
  | _ => .ok []
termination_by file => file.length
decreasing_by simp only [length_drop, length_cons]; omega

theorem readFrames_frames {spilled : List Segment}
    (h : ∀ segment ∈ spilled, segment.length < 2 ^ 32) :
    readFrames (spilled.flatMap frame) = .ok spilled := by
  induction spilled with
  | nil => simp [readFrames]
  | cons first spilled ih =>
    rw [forall_mem_cons] at h
    have hlen : first.length / 2 ^ 24 % 256 * 2 ^ 24 + first.length / 2 ^ 16 % 256 * 2 ^ 16 +
        first.length / 2 ^ 8 % 256 * 2 ^ 8 + first.length % 256 = first.length := by omega
    simp only [flatMap_cons, frame, cons_append, readFrames]
    rw [hlen, if_neg (by simp), drop_left, take_left, ih h.2]
    rfl

/-- Segments go to the file once memory is full. -/
structure StreamSpillBuffer where
  capacity : ℕ
  memory : List Segment
  spilled : List Segment
  short : ∀ segment ∈ spilled, segment.length < 2 ^ 32
  full : memory.length < capacity → spilled = []

namespace StreamSpillBuffer

def new (capacity : ℕ) : StreamSpillBuffer := ⟨capacity, [], [], nofun, fun _ => rfl⟩

def push (buffer : StreamSpillBuffer) (segment : Segment) : Except String StreamSpillBuffer :=
  if hroom : buffer.memory.length < buffer.capacity then
    .ok { buffer with memory := buffer.memory ++ [segment], full := fun _ => buffer.full hroom }
  else if hshort : segment.length < 2 ^ 32 then
    .ok { buffer with
      spilled := buffer.spilled ++ [segment]
      short := forall_mem_append.mpr ⟨buffer.short, forall_mem_singleton.mpr hshort⟩
      full := fun h => absurd h hroom }
  else .error "spill segment too large"

def drain (buffer : StreamSpillBuffer) : Except String (List Segment) :=
  if 0 < buffer.spilled.length then
    (readFrames (buffer.spilled.flatMap frame)).map (buffer.memory ++ ·)
  else .ok buffer.memory

def held (buffer : StreamSpillBuffer) : List Segment := buffer.memory ++ buffer.spilled

variable {buffer : StreamSpillBuffer}

theorem push_held (h : buffer.push seg = .ok buffer') : buffer'.held = buffer.held ++ [seg] := by
  unfold push at h
  split at h
  next hroom =>
    cases h
    simp [held, buffer.full hroom]
  next =>
    split at h
    · cases h
      exact (append_assoc ..).symm
    · cases h

theorem drain_eq (buffer : StreamSpillBuffer) : buffer.drain = .ok buffer.held := by
  rw [drain, held, readFrames_frames buffer.short]
  split
  · rfl
  next hnone => rw [length_eq_zero_iff.mp (Nat.eq_zero_of_not_pos hnone), append_nil]

end StreamSpillBuffer

/-- The channel's segments carry the id of their transaction as a history variable. -/
structure BackpressureQueue where
  sender : Mpsc (ℕ × Segment)
  spillCapacity : ℕ
  spills : ℕ → Option StreamSpillBuffer

namespace BackpressureQueue

def buffer (queue : BackpressureQueue) (xid : ℕ) : StreamSpillBuffer :=
  (queue.spills xid).getD (.new queue.spillCapacity)

def pushStreamSegment (queue : BackpressureQueue) (xid : ℕ) (segment : Segment) :
    Except String Unit × BackpressureQueue :=
  match queue.sender.trySend (xid, segment) with
  | (.sent, sender) => (.ok (), { queue with sender := sender })
  | (.full, _) =>
    match (queue.buffer xid).push segment with
    | .ok spill => (.ok (), { queue with spills := update queue.spills xid (some spill) })
    | .error error =>
      (.error error, { queue with spills := update queue.spills xid (some (queue.buffer xid)) })
  | (.closed, _) => (.error "consumer disconnected", queue)

def drainSpilledOnCommit (queue : BackpressureQueue) (xid : ℕ) :
    Except String (List Segment) × BackpressureQueue :=
  (((queue.spills xid).map StreamSpillBuffer.drain).getD (.ok []),
    { queue with spills := update queue.spills xid none })

theorem drainSpilledOnCommit_fst (queue : BackpressureQueue) (xid : ℕ) :
    (queue.drainSpilledOnCommit xid).1 = .ok (queue.buffer xid).held := by
  unfold drainSpilledOnCommit buffer
  cases queue.spills xid with
  | none => rfl
  | some spill => exact spill.drain_eq

end BackpressureQueue

/-- The queue with what was pushed and received so far and what each commit drained. -/
structure Streaming where
  queue : BackpressureQueue
  pushed : ℕ → List Segment
  received : List (ℕ × Segment)
  drained : ℕ → Option (List Segment)

inductive StreamingAction where
  | push (xid : ℕ) (segment : Segment)
  | receive
  | commit (xid : ℕ)

namespace Streaming

/-- The channel library adds a place for each sender. -/
def start (channelCapacity spillCapacity : ℕ) : Streaming :=
  ⟨⟨.new (channelCapacity + 1) channelCapacity.succ_pos, spillCapacity, fun _ => none⟩,
    fun _ => [], [], fun _ => none⟩

def step (s : Streaming) : StreamingAction → Streaming
  | .push xid segment =>
    match s.queue.pushStreamSegment xid segment with
    | (.ok (), queue) =>
      { s with queue := queue, pushed := update s.pushed xid (s.pushed xid ++ [segment]) }
    | (.error _, queue) => { s with queue := queue }
  | .receive =>
    { s with
      queue := { s.queue with sender := s.queue.sender.receive }
      received := s.received ++ s.queue.sender.queue.take 1 }
  | .commit xid =>
    let (result, queue) := s.queue.drainSpilledOnCommit xid
    { s with queue := queue, drained := update s.drained xid result.toOption }

/-- A transaction commits once, after its last segment. -/
def Proper (s : Streaming) : StreamingAction → Prop
  | .push xid _ | .commit xid => s.drained xid = none
  | .receive => True

/-- Moreover no segment finds room in the channel once one of its transaction was spilled. -/
def InOrder (s : Streaming) (action : StreamingAction) : Prop :=
  s.Proper action ∧ ∀ xid segment, action = .push xid segment →
    (s.queue.spills xid).isSome → ¬ s.queue.sender.hasRoom

/-- The segments of a transaction that the consumer has received or finds in the channel. -/
def sent (s : Streaming) (xid : ℕ) : List Segment :=
  ((s.received ++ s.queue.sender.queue).filter (·.1 = xid)).map Prod.snd

/-- What the consumer gets, and what was or would be drained. -/
def Whole (s : Streaming) (xid : ℕ) : Prop :=
  s.sent xid ++ (s.drained xid).getD (s.queue.buffer xid).held = s.pushed xid

variable {s : Streaming}

theorem whole_push (h : s.Whole xid') (hopen : s.drained xid = none)
    (hlate : (s.queue.spills xid).isSome → ¬ s.queue.sender.hasRoom) (segment) :
    (s.step (.push xid segment)).Whole xid' := by
  unfold Whole BackpressureQueue.buffer at h ⊢
  rcases htry : s.queue.sender.trySend (xid, segment) with ⟨_ | _ | _, sender⟩ <;>
    simp [step, BackpressureQueue.pushStreamSegment, htry]
  · have hroom : s.queue.sender.hasRoom := by
      by_contra hfull
      exact (Mpsc.trySend_of_not_hasRoom hfull (xid, segment)).1 (by rw [htry])
    have hq : sender.queue = s.queue.sender.queue ++ [(xid, segment)] := by
      simpa [htry] using (Mpsc.trySend_of_hasRoom hroom (xid, segment)).2
    rcases eq_or_ne xid' xid with rfl | hxid
    · have hnone : s.queue.spills xid' = none := by simpa using fun h => hlate h hroom
      simp [← h, sent, hq, hopen, hnone, StreamSpillBuffer.new, StreamSpillBuffer.held]
    · simpa [sent, hq, hxid, Ne.symm hxid] using h
  · rcases hpush : (s.queue.buffer xid).push segment with _ | spill
    · by_cases hxid : xid' = xid <;> simpa [sent, hxid, BackpressureQueue.buffer] using h
    · rcases eq_or_ne xid' xid with rfl | hxid
      · simp [← h, sent, hopen, StreamSpillBuffer.push_held hpush, BackpressureQueue.buffer]
      · simpa [sent, hxid] using h
  · exact h

theorem drained_commit (s : Streaming) (xid : ℕ) : (s.step (.commit xid)).drained =
    update s.drained xid (some (s.queue.buffer xid).held) := by
  simp [step, s.queue.drainSpilledOnCommit_fst xid, Except.toOption]

theorem whole_step (h : ∀ xid, s.Whole xid) (hmeets : s.InOrder action) (xid' : ℕ) :
    (s.step action).Whole xid' := by
  cases action with
  | push xid segment => exact whole_push (h xid') hmeets.1 (hmeets.2 xid segment rfl) segment
  | receive =>
    have hwh := h xid'
    unfold Whole sent at hwh ⊢
    rwa [← take_append_drop 1 s.queue.sender.queue, drop_one, ← append_assoc] at hwh
  | commit xid =>
    have hwh := h xid'
    unfold Whole at hwh ⊢
    rw [drained_commit]
    rcases eq_or_ne xid' xid with rfl | hxid
    · have hopen : s.drained xid' = none := hmeets.1
      simpa [hopen, step, sent, BackpressureQueue.drainSpilledOnCommit] using hwh
    · simpa [hxid, step, sent, BackpressureQueue.drainSpilledOnCommit, BackpressureQueue.buffer]
        using hwh

/-- The consumer's segments and then the drained ones are those pushed, in order, and the drain
succeeds. -/
theorem segments_in_order {channelCapacity spillCapacity : ℕ}
    (h : Runs.Reached step InOrder (start channelCapacity spillCapacity) s) :
    (∀ xid segments, s.drained xid = some segments → s.sent xid ++ segments = s.pushed xid) ∧
      ∀ xid, s.drained xid = none → (s.step (.commit xid)).drained xid ≠ none := by
  have hwh : ∀ xid, s.Whole xid := h.invariant (fun _ => rfl) fun _ _ => whole_step
  refine ⟨fun xid segments hdrained => ?_, fun xid _ => by simp [drained_commit]⟩
  simpa [Whole, hdrained] using hwh xid

def spillOne : Streaming := [.push 7 [1], .push 7 [2], .commit 7].foldl step (start 0 8)

theorem spillOne_in_order : spillOne.sent 7 ++ [[2]] = spillOne.pushed 7 := by
  refine (segments_in_order
    (Runs.Schedule.reached ?_ .start : Runs.Reached _ _ _ spillOne)).1 7 _ rfl
  refine .cons ⟨rfl, by simp [start]⟩ (.cons ⟨rfl, ?_⟩ (.cons ⟨rfl, nofun⟩ (.nil _)))
  rintro xid segment ⟨⟩
  decide

/-- The third segment finds room while the second is in the spill buffer. -/
theorem segment_overtaken : ∃ s, Runs.Reached step Proper (start 0 8) s ∧
    s.pushed 7 = [[1], [2], [3]] ∧ s.sent 7 = [[1], [3]] ∧ s.drained 7 = some [[2]] := by
  refine ⟨[.push 7 [1], .push 7 [2], .receive, .push 7 [3], .commit 7].foldl step (start 0 8),
    Runs.Schedule.reached ?_ .start, rfl, rfl, rfl⟩
  exact .cons rfl (.cons rfl (.cons trivial (.cons rfl (.cons rfl (.nil _)))))

end Streaming

end Palimpsest.Wal
