import Mathlib.Data.List.Basic

/-!
# Channels for one value

A send uses the sender up. It fails when the receiver is gone. The receiver is told the
end when the sender is gone and there is no value, and it is used up by what it is told.
-/

namespace WiringRs

structure Oneshot (T : Type) where
  value : Option T := none
  /-- The sender has sent, or has been dropped. -/
  senderGone : Bool := false
  /-- The receiver has received, or has been dropped. -/
  receiverGone : Bool := false

namespace Oneshot

variable {T : Type}

/-- Whether the value was taken. -/
def send (c : Oneshot T) (v : T) : Bool × Oneshot T :=
  if c.receiverGone then (false, { c with senderGone := true })
  else (true, { c with value := some v, senderGone := true })

def dropSender (c : Oneshot T) : Oneshot T := { c with senderGone := true }

def dropReceiver (c : Oneshot T) : Oneshot T := { c with value := none, receiverGone := true }

/-- The value, or the end; `none` while there is neither. -/
def recv (c : Oneshot T) : Option (Option T × Oneshot T) :=
  if c.receiverGone then none
  else match c.value with
    | some v => some (some v, c.dropReceiver)
    | none => if c.senderGone then some (none, c.dropReceiver) else none

variable {c c' : Oneshot T} {v : T}

theorem send_refused (h : c.receiverGone = true) : c.send v = (false, c.dropSender) := if_pos h

theorem send_accepted (h : c.receiverGone = false) :
    c.send v = (true, { c with value := some v, senderGone := true }) := by
  simp [send, h]

theorem recv_value (h : c.recv = some (some v, c')) :
    c.receiverGone = false ∧ c.value = some v ∧ c' = c.dropReceiver := by
  unfold recv at h
  cases hgone : c.receiverGone with
  | true => simp [hgone] at h
  | false =>
      cases hvalue : c.value with
      | some w =>
          simp only [hgone, hvalue, Bool.false_eq_true, if_false, Option.some.injEq,
            Prod.mk.injEq] at h
          obtain ⟨rfl, rfl⟩ := h
          exact ⟨rfl, rfl, rfl⟩
      | none => simp [hgone, hvalue] at h

theorem recv_end (h : c.recv = some (none, c')) :
    c.receiverGone = false ∧ c.value = none ∧ c.senderGone = true ∧ c' = c.dropReceiver := by
  unfold recv at h
  cases hgone : c.receiverGone with
  | true => simp [hgone] at h
  | false =>
      cases hvalue : c.value with
      | some w => simp [hgone, hvalue] at h
      | none =>
          simp only [hgone, hvalue, Bool.false_eq_true, if_false, Option.ite_none_right_eq_some,
            Option.some.injEq, Prod.mk.injEq, true_and] at h
          exact ⟨rfl, rfl, h.1, h.2.symm⟩

/-- The receiver waits only for a sender. -/
theorem recv_none (hgone : c.receiverGone = false) (h : c.recv = none) :
    c.value = none ∧ c.senderGone = false := by
  unfold recv at h
  cases hvalue : c.value with
  | some w => simp [hgone, hvalue] at h
  | none => simpa [hgone, hvalue] using h

end Oneshot

end WiringRs
