import Mathlib.Data.List.Induction
import WiringRs.Lib.Machine
import WiringRs.Lib.Mpsc

/-!
# An unwired receiver

`UnboundedReceiver::unwiring` and `mpsc::Receiver::unwiring` spawn a task that reads
items off the stream into a channel, and one that waits until the user has dropped
the receiver. The second one waits on a clone of the sender, so the channel has a
sender for as long as the user keeps the receiver.
-/

namespace WiringRs

/-- `wire.bounded_buffer()` is not zero. -/
abbrev NonZeroUsize := { n : Nat // 0 < n }

inductive ReadTask (T : Type) where
  /-- `r.unwire().await` -/
  | reading
  /-- `tx.send(item).await` -/
  | sending (item : T)
  | finished

inductive DetectShutdown where
  /-- `closed_handle.closed().await` -/
  | waiting
  /-- `w.shutdown().await` -/
  | shutting
  | finished

structure UnwiredReceiver (T : Type) where
  /-- The items still to be read; behind them the stream ends, or an item does not
  decode. -/
  stream : List T
  channel : Mpsc T
  task : ReadTask T := .reading
  detect : DetectShutdown := .waiting
  /-- What the user has received. -/
  received : List T := []
  /-- The user has received `None`. -/
  ended : Bool := false

inductive ReceiverAction where
  | read
  | detect
  /-- `receiver.recv().await` -/
  | recv
  /-- The user drops the receiver. -/
  | drop
deriving DecidableEq

namespace UnwiredReceiver

variable {T : Type}

/-- The task is left, and its sender dropped. -/
def leave (s : UnwiredReceiver T) : UnwiredReceiver T :=
  match s.task with
  | .finished => s
  | _ => { s with task := .finished, channel := s.channel.dropSender }

def step (s : UnwiredReceiver T) : ReceiverAction → Option (UnwiredReceiver T)
  | .read =>
      match s.task with
      | .reading =>
          match s.stream with
          | item :: stream => some { s with stream := stream, task := .sending item }
          | [] => some s.leave
      | .sending item =>
          match s.channel.send item with
          | some (true, channel) => some { s with channel := channel, task := .reading }
          | some (false, _) => some s.leave
          | none => none
      | .finished => none
  | .detect =>
      match s.detect with
      | .waiting => if s.channel.closed then some { s with detect := .shutting } else none
      | .shutting =>
          -- `j.abort()`, and `closed_handle` is dropped
          let s := s.leave
          some { s with detect := .finished, channel := s.channel.dropSender }
      | .finished => none
  | .recv =>
      match s.channel.recv with
      | some (some item, channel) =>
          some { s with channel := channel, received := s.received ++ [item] }
      | some (none, channel) => some { s with channel := channel, ended := true }
      | none => none
  | .drop => some { s with channel := s.channel.dropReceiver }

/-- The user keeps the receiver. -/
def Keeps (_ : UnwiredReceiver T) (a : ReceiverAction) : Prop := a ≠ .drop

/-- The items have been read, no task can do anything, and the channel has a sender. -/
structure Stuck (s : UnwiredReceiver T) : Prop where
  finished : s.task = .finished
  read : s.step .read = none
  detect : s.step .detect = none
  alive : 0 < s.channel.senders

end UnwiredReceiver

/-- One sender is the task's, the other one `closed_handle`. -/
def unwiredReceiver {T : Type} (capacity : Option NonZeroUsize) (items : List T) :
    Machine (UnwiredReceiver T) ReceiverAction :=
  ⟨{ stream := items, channel := { capacity := capacity.map Subtype.val, senders := 2 } },
    UnwiredReceiver.step⟩

/-- The end of the stream reaches the receiver. -/
def EndReaches {T : Type} (capacity : Option NonZeroUsize) (items : List T) : Prop :=
  ∀ s, (unwiredReceiver capacity items).ReachableBy UnwiredReceiver.Keeps s → ¬ s.Stuck

/-- The item that the task has read and not sent. -/
def ReadTask.held {T : Type} : ReadTask T → List T
  | .sending item => [item]
  | _ => []

/-- The senders that the task owns. -/
def ReadTask.senders {T : Type} : ReadTask T → Nat
  | .finished => 0
  | _ => 1

namespace UnwiredReceiver

variable {T : Type} {items : List T} {s s' : UnwiredReceiver T}

/-- While the user keeps the receiver the second task waits, with its sender, and no
item is lost. -/
structure Inv (items : List T) (s : UnwiredReceiver T) : Prop where
  closed : s.channel.closed = false
  detect : s.detect = .waiting
  senders : s.channel.senders = s.task.senders + 1
  ended : s.ended = false
  items : s.received ++ s.channel.queue ++ s.task.held ++ s.stream = items
  stream : s.task = .finished → s.stream = []

/-- The task ends at the end of the stream. -/
theorem Inv.leave (h : s.Inv items) (htask : s.task = .reading) (hstream : s.stream = []) :
    s.leave.Inv items := by
  have hleave : s.leave = { s with task := .finished, channel := s.channel.dropSender } := by
    simp only [UnwiredReceiver.leave, htask]
  have hitems := h.items
  have hsenders := h.senders
  rw [htask] at hitems hsenders
  rw [hleave]
  exact ⟨h.closed, h.detect, congrArg (· - 1) hsenders, h.ended, hitems, fun _ => hstream⟩

theorem step_inv {a : ReceiverAction} (h : s.Inv items) (hok : s.Keeps a)
    (hs : s.step a = some s') : s'.Inv items := by
  obtain ⟨hclosed, hdetect, hsenders, hended, hitems, hstream⟩ := h
  cases a with
  | drop => exact absurd rfl hok
  | detect => simp [step, hdetect, hclosed] at hs
  | recv =>
      rcases hrecv : s.channel.recv with _ | ⟨_ | item, channel⟩
      · simp [step, hrecv] at hs
      · obtain ⟨-, hend | hnone, -⟩ := Mpsc.recv_end hrecv
        · cases hclosed.symm.trans hend
        · omega
      · obtain ⟨hqueue, hchannel⟩ := Mpsc.recv_item hrecv
        simp only [step, hrecv, Option.some.injEq] at hs
        subst hs
        rw [hchannel]
        refine ⟨hclosed, hdetect, hsenders, hended, ?_, hstream⟩
        rw [← hitems, hqueue]
        simp
  | read =>
      cases htask : s.task with
      | reading =>
          rw [htask] at hsenders hitems
          cases hs' : s.stream with
          | nil =>
              simp only [step, htask, hs', Option.some.injEq] at hs
              subst hs
              exact Inv.leave ⟨hclosed, hdetect, htask ▸ hsenders, hended, htask ▸ hitems,
                hstream⟩ htask hs'
          | cons item stream =>
              simp only [step, htask, hs', Option.some.injEq] at hs
              subst hs
              refine ⟨hclosed, hdetect, hsenders, hended, ?_, nofun⟩
              rw [← hitems, hs']
              simp [ReadTask.held]
      | sending item =>
          rw [htask] at hsenders hitems
          rcases hsend : s.channel.send item with _ | ⟨_ | _, channel⟩
          · simp [step, htask, hsend] at hs
          · cases hclosed.symm.trans (Mpsc.send_refused hsend).1
          · obtain ⟨-, rfl⟩ := Mpsc.send_accepted hsend
            simp only [step, htask, hsend, Option.some.injEq] at hs
            subst hs
            refine ⟨hclosed, hdetect, hsenders, hended, ?_, nofun⟩
            rw [← hitems]
            simp [ReadTask.held]
      | finished => simp [step, htask] at hs

theorem reachable_inv {capacity : Option NonZeroUsize}
    (h : (unwiredReceiver capacity items).ReachableBy Keeps s) : s.Inv items :=
  h.invariant ⟨rfl, rfl, rfl, rfl, rfl, nofun⟩ fun _ _ _ h hok hs => step_inv h hok hs

/-- Once the items are read everything waits for the user to drop the receiver. -/
theorem Inv.stuck (h : s.Inv items) (htask : s.task = .finished) : s.Stuck where
  finished := htask
  read := by simp [step, htask]
  detect := by simp [step, h.detect, h.closed]
  alive := by
    rw [h.senders]
    exact Nat.succ_pos _

/-! ## A run to the end of the stream -/

/-- The user takes each item at once. -/
theorem reachable_received (capacity : Option NonZeroUsize) (got rest : List T) :
    (unwiredReceiver capacity (got ++ rest)).ReachableBy Keeps
      { stream := rest
        channel := { capacity := capacity.map Subtype.val, senders := 2 }
        received := got } := by
  induction got using List.reverseRecOn generalizing rest with
  | nil => exact .init
  | append_singleton got item ih =>
      have hroom : (Mpsc.mk (capacity.map Subtype.val) ([] : List T) false 2).full
          = false := by
        cases capacity with
        | none => rfl
        | some n => simpa [Mpsc.full] using Nat.ne_of_gt n.2
      rw [List.append_assoc, List.singleton_append]
      have hread := (ih (item :: rest)).step (a := .read) (by rintro ⟨⟩) rfl
      have hsend := hread.step (a := .read) (by rintro ⟨⟩)
        (by simp only [unwiredReceiver, step, Mpsc.send_of_room rfl hroom]; rfl)
      exact hsend.step (a := .recv) (by rintro ⟨⟩) rfl

theorem reachable_stuck (capacity : Option NonZeroUsize) (items : List T) :
    ∃ s, (unwiredReceiver capacity items).ReachableBy Keeps s ∧ s.received = items ∧
      s.Stuck := by
  have h := reachable_received capacity items []
  rw [List.append_nil] at h
  have hend := h.step (a := .read) (by rintro ⟨⟩) rfl
  exact ⟨_, hend, rfl, (reachable_inv hend).stuck rfl⟩

end UnwiredReceiver

/-- **The end of the stream.** It never reaches a receiver that the user keeps:
whatever the items and the capacity, a run gets stuck with a sender alive, and so does
every run in which the reading task finishes; the items are there and `None` is
not. -/
theorem end_never_reaches {T : Type} (capacity : Option NonZeroUsize) (items : List T) :
    ¬ EndReaches capacity items ∧
    ∀ s, (unwiredReceiver capacity items).ReachableBy UnwiredReceiver.Keeps s →
      s.ended = false ∧
      (s.task = .finished → s.Stuck ∧ s.received ++ s.channel.queue = items) := by
  refine ⟨?_, ?_⟩
  · intro h
    obtain ⟨s, hs, -, hstuck⟩ := UnwiredReceiver.reachable_stuck capacity items
    exact h s hs hstuck
  · intro s hs
    have hinv := UnwiredReceiver.reachable_inv hs
    refine ⟨hinv.ended, fun htask => ⟨hinv.stuck htask, ?_⟩⟩
    have hitems := hinv.items
    rw [htask, hinv.stream htask] at hitems
    simpa [ReadTask.held] using hitems

/-- A stream that ends at once. -/
theorem empty_stream_sticks : ¬ EndReaches (T := Unit) none [] := fun h =>
  h _ (.step (a := .read) .init (by rintro ⟨⟩) rfl) ⟨rfl, rfl, rfl, by decide⟩

end WiringRs
