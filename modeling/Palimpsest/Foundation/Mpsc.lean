import Mathlib.Data.List.Basic

/-! A bounded queue between one sender and one receiver, as a channel library provides it. -/

inductive SendResult where
  | sent
  | full
  | closed
deriving Repr, DecidableEq

structure Mpsc (α : Type*) where
  capacity : ℕ
  queue : List α
  receiving : Bool
  capacity_pos : 0 < capacity
  fits : queue.length ≤ capacity

namespace Mpsc

variable {α : Type*}

def new (capacity : ℕ) (capacity_pos : 0 < capacity) : Mpsc α :=
  ⟨capacity, [], true, capacity_pos, Nat.zero_le _⟩

def hasRoom (c : Mpsc α) : Prop := c.receiving = true ∧ c.queue.length < c.capacity

instance (c : Mpsc α) : Decidable c.hasRoom := inferInstanceAs (Decidable (_ ∧ _))

def trySend (c : Mpsc α) (x : α) : SendResult × Mpsc α :=
  if c.receiving then
    if h : c.queue.length < c.capacity then
      (.sent, { c with queue := c.queue ++ [x], fits := by rw [List.length_append]; exact h })
    else (.full, c)
  else (.closed, c)

def receive (c : Mpsc α) : Mpsc α :=
  { c with queue := c.queue.tail, fits := by have := c.fits; simp; omega }

/-- The receiver goes away, and what was queued with it. -/
def hangUp (c : Mpsc α) : Mpsc α :=
  { c with queue := [], receiving := false, fits := Nat.zero_le _ }

theorem trySend_of_hasRoom {c : Mpsc α} (h : c.hasRoom) (x : α) :
    (c.trySend x).1 = .sent ∧ (c.trySend x).2.queue = c.queue ++ [x] := by
  obtain ⟨hrecv, hroom⟩ := h
  simp [trySend, hrecv, hroom]

theorem trySend_of_not_hasRoom {c : Mpsc α} (h : ¬ c.hasRoom) (x : α) :
    (c.trySend x).1 ≠ .sent ∧ (c.trySend x).2 = c := by
  unfold trySend
  by_cases hrecv : c.receiving
  · have hroom : ¬ c.queue.length < c.capacity := fun hlt => h ⟨hrecv, hlt⟩
    simp [hrecv, hroom]
  · simp [hrecv]

theorem trySend_receiving (c : Mpsc α) (x : α) : (c.trySend x).2.receiving = c.receiving := by
  unfold trySend
  split
  · split <;> rfl
  · rfl

theorem mem_trySend {c : Mpsc α} (h : y ∈ (c.trySend x).2.queue) : y = x ∨ y ∈ c.queue := by
  by_cases hroom : c.hasRoom
  · rw [(trySend_of_hasRoom hroom x).2, List.mem_append, List.mem_singleton] at h
    exact h.symm
  · rw [(trySend_of_not_hasRoom hroom x).2] at h
    exact .inr h

theorem receive_takes (c : Mpsc α) : c.queue = c.queue.head?.toList ++ c.receive.queue := by
  cases hq : c.queue <;> simp [receive, hq]

end Mpsc
