import Mathlib.Data.List.Basic

/-!
# Unbounded channels

What has been sent on a channel and not received is a list. Once the receiver has
closed the channel a send fails, and what is in the list can still be received.
-/

namespace WiringRs

variable {α β : Type}

/-- Send, and ignore it if that fails. -/
def trySend (closed : Bool) (queue : List α) (a : α) : List α :=
  if closed then queue else queue ++ [a]

@[simp] theorem trySend_open (queue : List α) (a : α) :
    trySend false queue a = queue ++ [a] := rfl

@[simp] theorem trySend_closed (queue : List α) (a : α) :
    trySend true queue a = queue := rfl

theorem mem_trySend {closed : Bool} {queue : List α} {a b : α}
    (h : b ∈ trySend closed queue a) : b ∈ queue ∨ b = a := by
  cases closed with
  | false => simpa using h
  | true => exact Or.inl h

/-! ## The part of a channel that concerns one of several parties -/

variable {f : α → Option β} {a : α}

theorem filterMap_trySend_none (h : f a = none) (closed : Bool) (queue : List α) :
    (trySend closed queue a).filterMap f = queue.filterMap f := by
  cases closed <;> simp [h]

theorem filterMap_trySend_some {b : β} (h : f a = some b) (closed : Bool)
    (queue : List α) :
    (trySend closed queue a).filterMap f = trySend closed (queue.filterMap f) b := by
  cases closed <;> simp [h]

end WiringRs
