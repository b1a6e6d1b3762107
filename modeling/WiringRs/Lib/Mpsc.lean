import Mathlib.Data.List.Basic

/-!
# Channels with a capacity

A channel of many senders and one receiver, with a capacity or without one. A send
waits for room, and fails once the receiver has closed the channel or is gone. What
is in the queue can still be received then; the receiver is told the end when the
queue is empty and the channel is closed or has no sender left.
-/

namespace WiringRs

structure Mpsc (T : Type) where
  /-- `none`: unbounded. -/
  capacity : Option Nat
  queue : List T := []
  closed : Bool := false
  senders : Nat

namespace Mpsc

variable {T : Type}

def full (c : Mpsc T) : Bool := c.capacity.any fun n => n ≤ c.queue.length

/-- Whether the item was accepted; `none` while there is no room. -/
def send (c : Mpsc T) (a : T) : Option (Bool × Mpsc T) :=
  if c.closed then some (false, c)
  else if c.full then none
  else some (true, { c with queue := c.queue ++ [a] })

/-- The next item, or the end; `none` while there is neither. -/
def recv (c : Mpsc T) : Option (Option T × Mpsc T) :=
  match c.queue with
  | a :: queue => some (some a, { c with queue := queue })
  | [] => if c.closed || c.senders == 0 then some (none, c) else none

def close (c : Mpsc T) : Mpsc T := { c with closed := true }

def dropSender (c : Mpsc T) : Mpsc T := { c with senders := c.senders - 1 }

def dropReceiver (c : Mpsc T) : Mpsc T := { c with closed := true, queue := [] }

/-! ## What the operations do -/

variable {c c' : Mpsc T} {a : T}

theorem send_accepted (h : c.send a = some (true, c')) :
    c.closed = false ∧ c' = { c with queue := c.queue ++ [a] } := by
  unfold send at h
  cases hclosed : c.closed with
  | true => simp [hclosed] at h
  | false =>
      simp only [hclosed, Bool.false_eq_true, if_false, Option.ite_none_left_eq_some,
        Option.some.injEq, Prod.mk.injEq, true_and] at h
      exact ⟨rfl, h.2.symm⟩

theorem send_refused (h : c.send a = some (false, c')) : c.closed = true ∧ c' = c := by
  unfold send at h
  cases hclosed : c.closed with
  | true =>
      simp only [hclosed, if_true, Option.some.injEq, Prod.mk.injEq, true_and] at h
      exact ⟨rfl, h.symm⟩
  | false => simp [hclosed] at h

/-- With room, and the receiver there, an item is accepted. -/
theorem send_of_room (hclosed : c.closed = false) (hroom : c.full = false) :
    c.send a = some (true, { c with queue := c.queue ++ [a] }) := by
  simp [send, hclosed, hroom]

theorem recv_item (h : c.recv = some (some a, c')) :
    c.queue = a :: c'.queue ∧ c' = { c with queue := c'.queue } := by
  unfold recv at h
  cases hqueue : c.queue with
  | nil => simp [hqueue] at h
  | cons b queue =>
      simp only [hqueue, Option.some.injEq, Prod.mk.injEq] at h
      obtain ⟨rfl, rfl⟩ := h
      exact ⟨rfl, rfl⟩

theorem recv_end (h : c.recv = some (none, c')) :
    c.queue = [] ∧ (c.closed = true ∨ c.senders = 0) ∧ c' = c := by
  unfold recv at h
  cases hqueue : c.queue with
  | cons b queue => simp [hqueue] at h
  | nil =>
      simp only [hqueue, Option.ite_none_right_eq_some, Bool.or_eq_true, beq_iff_eq,
        Option.some.injEq, Prod.mk.injEq, true_and] at h
      exact ⟨rfl, h.1, h.2.symm⟩

end Mpsc

end WiringRs
