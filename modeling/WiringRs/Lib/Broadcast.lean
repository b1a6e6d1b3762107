import Mathlib.Data.List.Basic

/-!
# Broadcast channels

Every receiver of the channel gets every item, in its own time. The channel keeps only the
last items, so many as it has capacity for: a receiver that is further behind is told how
many it has missed, and goes on with the oldest item that is kept. This is the channel as
one of its receivers sees it.
-/

namespace WiringRs

inductive RecvError where
  | closed
  | lagged (n : Nat)
deriving DecidableEq

structure Broadcast (T : Type) where
  capacity : Nat
  /-- The items behind the last one that the receiver has had. -/
  unseen : List T := []
  senders : Nat

namespace Broadcast

variable {T : Type}

def send (c : Broadcast T) (a : T) : Broadcast T := { c with unseen := c.unseen ++ [a] }

def dropSender (c : Broadcast T) : Broadcast T := { c with senders := c.senders - 1 }

/-- The next item, or an error; `none` while there is neither. -/
def recv (c : Broadcast T) : Option (Except RecvError T × Broadcast T) :=
  let missed := c.unseen.length - c.capacity
  if missed = 0 then
    match c.unseen with
    | a :: unseen => some (.ok a, { c with unseen := unseen })
    | [] => if c.senders = 0 then some (.error .closed, c) else none
  else some (.error (.lagged missed), { c with unseen := c.unseen.drop missed })

/-! ## What a receiver is told -/

variable {c c' : Broadcast T}

/-- A receiver that has missed nothing has the next item, is told that there will be none,
or waits. -/
theorem recv_of_le (h : c.unseen.length ≤ c.capacity) :
    c.recv = match c.unseen with
      | a :: unseen => some (.ok a, { c with unseen := unseen })
      | [] => if c.senders = 0 then some (.error .closed, c) else none :=
  if_pos (Nat.sub_eq_zero_of_le h)

theorem recv_of_lt (h : c.capacity < c.unseen.length) :
    c.recv = some (.error (.lagged (c.unseen.length - c.capacity)),
      { c with unseen := c.unseen.drop (c.unseen.length - c.capacity) }) :=
  if_neg (Nat.sub_ne_zero_of_lt h)

theorem recv_ok {a : T} (h : c.recv = some (.ok a, c')) :
    c.unseen = a :: c'.unseen ∧ c' = { c with unseen := c'.unseen } := by
  rcases Nat.lt_or_ge c.capacity c.unseen.length with hlt | hle
  · simp [recv_of_lt hlt] at h
  · rw [recv_of_le hle] at h
    cases hunseen : c.unseen with
    | nil => simp [hunseen] at h
    | cons b unseen =>
        simp only [hunseen, Option.some.injEq, Prod.mk.injEq, Except.ok.injEq] at h
        obtain ⟨rfl, rfl⟩ := h
        exact ⟨rfl, rfl⟩

/-- What an error says: there will be no more items, or some have been missed. -/
theorem recv_error {e : RecvError} (h : c.recv = some (.error e, c')) :
    e = .closed ∧ c.unseen = [] ∧ c.senders = 0 ∨
      ∃ n, e = .lagged n ∧ 0 < n ∧ c.unseen.length = c.capacity + n := by
  rcases Nat.lt_or_ge c.capacity c.unseen.length with hlt | hle
  · simp only [recv_of_lt hlt, Option.some.injEq, Prod.mk.injEq, Except.error.injEq] at h
    exact Or.inr ⟨_, h.1.symm, by omega, by omega⟩
  · rw [recv_of_le hle] at h
    cases hunseen : c.unseen with
    | nil =>
        simp only [hunseen, Option.ite_none_right_eq_some, Option.some.injEq, Prod.mk.injEq,
          Except.error.injEq] at h
        exact Or.inl ⟨h.2.1.symm, rfl, h.1⟩
    | cons b unseen => simp [hunseen] at h

/-- A receiver that waits has had every item, and there may be more. -/
theorem recv_none (h : c.recv = none) : c.unseen = [] ∧ c.senders ≠ 0 := by
  rcases Nat.lt_or_ge c.capacity c.unseen.length with hlt | hle
  · simp [recv_of_lt hlt] at h
  · rw [recv_of_le hle] at h
    cases hunseen : c.unseen with
    | nil => exact ⟨rfl, by simpa [hunseen] using h⟩
    | cons b unseen => simp [hunseen] at h

end Broadcast

end WiringRs
