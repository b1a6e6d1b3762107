import WiringRs.Lib.Broadcast
import WiringRs.WiredMpsc

/-!
# Broadcast channels across a stream

Wiring a `broadcast::Receiver` spawns a task that writes the items on a stream, and wiring a
`broadcast::Sender` one that sends the items on a stream to the channel. There is no
unwiring of either: the other end is taken to be that of any other channel, which reads, or
writes, and may go away at any time.

The first task ends at the first error, also if the error is that it has missed items. The
second one ends at the first item for which the channel has no receiver. A write on the
stream never pends: the stream takes any number of items, and a write fails only if the
remote is gone.
-/

namespace WiringRs

structure WiredBroadcast (T : Type) where
  /-- The channel, as the task's receiver sees it while the task has it. -/
  source : Broadcast T
  writer : WriteTask T := .receiving
  /-- The error at which the task has left its loop. -/
  failed : Option RecvError := none
  /-- `detect_shutdown` has come to the end of the other direction, and called `abort`. -/
  abortWriter : Bool := false
  /-- What is on the stream. -/
  stream : List T := []
  /-- The remote has dropped its end of the stream, or shut it down. -/
  gone : Bool := false
  /-- What the remote has read. -/
  arrived : List T := []
  /-- The items sent behind the last one that the receiver had had. -/
  sent : List T

inductive BroadcastAction (T : Type) where
  | send (item : T)
  | cloneSender
  | dropSender
  /-- The remote reads an item. -/
  | read
  | leave
  /-- The task goes on; `ok` is whether its write succeeds. -/
  | writer (ok : Bool)
  | detect
  /-- The abort takes effect. -/
  | cancelWriter

namespace WiredBroadcast

variable {T : Type}

def writerStep (s : WiredBroadcast T) (ok : Bool) : Option (WiredBroadcast T) :=
  match s.writer with
  | .receiving =>
      match s.source.recv with
      | some (.ok item, source) => some { s with source := source, writer := .writing item }
      | some (.error e, _) => some { s with writer := .finished, failed := some e }
      | none => none
  | .writing item =>
      if ok then some { s with stream := s.stream ++ [item], writer := .receiving }
      else if s.gone then some { s with writer := .finished }
      else none
  | .finished => none

def step (s : WiredBroadcast T) : BroadcastAction T → Option (WiredBroadcast T)
  | .send item =>
      if s.source.senders = 0 then none
      else some { s with source := s.source.send item, sent := s.sent ++ [item] }
  | .cloneSender =>
      if s.source.senders = 0 then none
      else some { s with source := { s.source with senders := s.source.senders + 1 } }
  | .dropSender => some { s with source := s.source.dropSender }
  | .read =>
      match s.stream with
      | item :: stream => some { s with stream := stream, arrived := s.arrived ++ [item] }
      | [] => none
  | .leave => some { s with gone := true }
  | .writer ok => s.writerStep ok
  | .detect => if s.gone ∧ s.abortWriter = false then some { s with abortWriter := true } else none
  | .cancelWriter =>
      match s.writer with
      | .finished => none
      | _ => if s.abortWriter then some { s with writer := .finished } else none

end WiredBroadcast

/-- A receiver is wired that has not seen these items. -/
def wiredBroadcast {T : Type} (capacity senders : Nat) (unseen : List T) :
    Machine (WiredBroadcast T) (BroadcastAction T) :=
  ⟨{ source := { capacity := capacity, unseen := unseen, senders := senders }, sent := unseen },
    WiredBroadcast.step⟩

/-- What the tasks do. -/
def BroadcastAction.Internal {T : Type} : BroadcastAction T → Prop
  | .writer _ | .detect | .cancelWriter => True
  | _ => False

namespace WiredBroadcast

variable {T : Type} {s s' : WiredBroadcast T}

/-- No more is sent than the channel has room for while the task has its receiver. -/
def KeepsUp (s : WiredBroadcast T) (a : BroadcastAction T) : Prop :=
  ∀ item, a = .send item → s.writer ≠ .finished → s.source.unseen.length < s.source.capacity

/-! ## The steps -/

/-- What a step does to the items and to the task. -/
inductive Moves (s : WiredBroadcast T) : BroadcastAction T → WiredBroadcast T → Prop
  | send {item : T} : s.source.senders ≠ 0 →
      Moves s (.send item)
        { s with source := s.source.send item, sent := s.sent ++ [item] }
  | cloneSender : s.source.senders ≠ 0 →
      Moves s .cloneSender
        { s with source := { s.source with senders := s.source.senders + 1 } }
  | dropSender : Moves s .dropSender { s with source := s.source.dropSender }
  | read {item : T} {stream : List T} : s.stream = item :: stream →
      Moves s .read { s with stream := stream, arrived := s.arrived ++ [item] }
  | leave : Moves s .leave { s with gone := true }
  | take {item : T} {unseen : List T} {ok : Bool} : s.writer = .receiving →
      s.source.unseen = item :: unseen →
      Moves s (.writer ok)
        { s with source := { s.source with unseen := unseen }, writer := .writing item }
  | takeEnd {ok : Bool} : s.writer = .receiving → s.source.unseen = [] →
      s.source.senders = 0 →
      Moves s (.writer ok) { s with writer := .finished, failed := some .closed }
  | takeLagged {n : Nat} {ok : Bool} : s.writer = .receiving → 0 < n →
      s.source.unseen.length = s.source.capacity + n →
      Moves s (.writer ok) { s with writer := .finished, failed := some (.lagged n) }
  | write {item : T} : s.writer = .writing item →
      Moves s (.writer true) { s with stream := s.stream ++ [item], writer := .receiving }
  | writeFails {item : T} : s.writer = .writing item → s.gone = true →
      Moves s (.writer false) { s with writer := .finished }
  | detect : s.gone = true → s.abortWriter = false →
      Moves s .detect { s with abortWriter := true }
  | cancelWriter : s.writer ≠ .finished → s.abortWriter = true →
      Moves s .cancelWriter { s with writer := .finished }

theorem writerStep_moves {ok : Bool} (hs : s.writerStep ok = some s') :
    s.Moves (.writer ok) s' := by
  cases hwriter : s.writer with
  | receiving =>
      rcases hrecv : s.source.recv with _ | ⟨e | item, source⟩
      · simp [writerStep, hwriter, hrecv] at hs
      · simp only [writerStep, hwriter, hrecv, Option.some.injEq] at hs
        subst hs
        rcases Broadcast.recv_error hrecv with ⟨rfl, hunseen, hsenders⟩ | ⟨n, rfl, hpos, hlen⟩
        · exact .takeEnd hwriter hunseen hsenders
        · exact .takeLagged hwriter hpos hlen
      · obtain ⟨hunseen, hsource⟩ := Broadcast.recv_ok hrecv
        simp only [writerStep, hwriter, hrecv, Option.some.injEq] at hs
        rw [hsource] at hs
        exact hs ▸ .take hwriter hunseen
  | writing item =>
      cases ok with
      | true =>
          simp only [writerStep, hwriter, if_true, Option.some.injEq] at hs
          exact hs ▸ .write hwriter
      | false =>
          simp only [writerStep, hwriter, Bool.false_eq_true, if_false,
            Option.ite_none_right_eq_some, Option.some.injEq] at hs
          exact hs.2 ▸ .writeFails hwriter hs.1
  | finished => simp [writerStep, hwriter] at hs

theorem step_moves {a : BroadcastAction T} (hs : s.step a = some s') : s.Moves a s' := by
  cases a with
  | send item =>
      simp only [step, Option.ite_none_left_eq_some, Option.some.injEq] at hs
      exact hs.2 ▸ .send hs.1
  | cloneSender =>
      simp only [step, Option.ite_none_left_eq_some, Option.some.injEq] at hs
      exact hs.2 ▸ .cloneSender hs.1
  | dropSender =>
      cases hs
      exact .dropSender
  | read =>
      cases hstream : s.stream with
      | nil => simp [step, hstream] at hs
      | cons item stream =>
          simp only [step, hstream, Option.some.injEq] at hs
          exact hs ▸ .read hstream
  | leave =>
      cases hs
      exact .leave
  | writer ok => exact writerStep_moves hs
  | detect =>
      simp only [step, Option.ite_none_right_eq_some, Option.some.injEq] at hs
      exact hs.2 ▸ .detect hs.1.1 hs.1.2
  | cancelWriter =>
      cases hwriter : s.writer with
      | finished => simp [step, hwriter] at hs
      | receiving | writing =>
          simp only [step, hwriter, Option.ite_none_right_eq_some, Option.some.injEq] at hs
          exact hs.2 ▸ .cancelWriter (by simp [hwriter]) hs.1

/-! ## What becomes of the items -/

/-- No item is passed over: one may be lost in a write that fails, and the task takes no
more of them then. -/
structure Inv (s : WiredBroadcast T) : Prop where
  items : ∃ lost, s.arrived ++ s.stream ++ s.writer.held ++ lost ++ s.source.unseen = s.sent ∧
    (s.writer ≠ .finished ∨ s.failed ≠ none → lost = [])
  failed : ∀ e, s.failed = some e → s.writer = .finished ∧
    (e = .closed ∧ s.source.unseen = [] ∧ s.source.senders = 0 ∨
      ∃ n, e = .lagged n ∧ 0 < n ∧ s.source.capacity + n ≤ s.source.unseen.length)
  finished : s.writer = .finished → s.failed = none → s.gone = true
  abort : s.abortWriter = true → s.gone = true

/-- The task has not failed while it has its receiver. -/
theorem Inv.failed_none (h : s.Inv) (hwriter : s.writer ≠ .finished) : s.failed = none := by
  cases hfailed : s.failed with
  | none => rfl
  | some e => exact absurd (h.failed e hfailed).1 hwriter

/-- The task ends with an item that has not been written, or without one. -/
theorem Inv.end (h : s.Inv) (hwriter : s.writer ≠ .finished) (hgone : s.gone = true) :
    Inv { s with writer := .finished } where
  items := by
    obtain ⟨lost, hitems, hlost⟩ := h.items
    refine ⟨s.writer.held ++ lost, ?_, ?_⟩
    · simpa [WriteTask.held] using hitems
    · simp [h.failed_none hwriter]
  failed e he := by simp [h.failed_none hwriter] at he
  finished _ _ := hgone
  abort := h.abort

/-- The loop ends with an error. -/
theorem Inv.fail (h : s.Inv) (hwriter : s.writer = .receiving) {e : RecvError}
    (he : e = .closed ∧ s.source.unseen = [] ∧ s.source.senders = 0 ∨
      ∃ n, e = .lagged n ∧ 0 < n ∧ s.source.capacity + n ≤ s.source.unseen.length) :
    Inv { s with writer := .finished, failed := some e } where
  items := by
    obtain ⟨lost, hitems, hlost⟩ := h.items
    rw [hwriter] at hitems
    exact ⟨lost, hitems, fun _ => hlost (by simp [hwriter])⟩
  failed e' he' := by
    cases he'
    exact ⟨rfl, he⟩
  finished _ hnone := by cases hnone
  abort := h.abort

theorem Moves.inv {a : BroadcastAction T} (hm : s.Moves a s') (h : s.Inv) : s'.Inv := by
  obtain ⟨lost, hitems, hlost⟩ := h.items
  cases hm with
  | send hsenders =>
      refine ⟨⟨lost, ?_, hlost⟩, fun e he => ?_, h.finished, h.abort⟩
      · simp [Broadcast.send, ← hitems]
      · obtain ⟨hwriter, ⟨-, -, hnone⟩ | ⟨n, rfl, hpos, hle⟩⟩ := h.failed e he
        · exact absurd hnone hsenders
        · refine ⟨hwriter, Or.inr ⟨n, rfl, hpos, ?_⟩⟩
          simp only [Broadcast.send, List.length_append]
          omega
  | cloneSender hsenders =>
      refine ⟨h.items, fun e he => ?_, h.finished, h.abort⟩
      obtain ⟨hwriter, ⟨-, -, hnone⟩ | hlagged⟩ := h.failed e he
      · exact absurd hnone hsenders
      · exact ⟨hwriter, Or.inr hlagged⟩
  | dropSender =>
      refine ⟨h.items, fun e he => ?_, h.finished, h.abort⟩
      obtain ⟨hwriter, ⟨rfl, hunseen, hnone⟩ | hlagged⟩ := h.failed e he
      · exact ⟨hwriter, Or.inl ⟨rfl, hunseen, by simp [Broadcast.dropSender, hnone]⟩⟩
      · exact ⟨hwriter, Or.inr hlagged⟩
  | read hstream =>
      refine ⟨⟨lost, ?_, hlost⟩, h.failed, h.finished, h.abort⟩
      simpa [hstream] using hitems
  | leave => exact ⟨h.items, h.failed, fun _ _ => rfl, fun _ => rfl⟩
  | take hwriter hunseen =>
      have hnone := h.failed_none (by simp [hwriter])
      have hnil : lost = [] := hlost (by simp [hwriter])
      refine ⟨⟨[], ?_, fun _ => rfl⟩, by simp [hnone], by simp, h.abort⟩
      simpa [hwriter, hunseen, hnil, WriteTask.held] using hitems
  | takeEnd hwriter hunseen hsenders => exact h.fail hwriter (Or.inl ⟨rfl, hunseen, hsenders⟩)
  | takeLagged hwriter hpos hlen => exact h.fail hwriter (Or.inr ⟨_, rfl, hpos, hlen.ge⟩)
  | write hwriter =>
      have hnone := h.failed_none (by simp [hwriter])
      have hnil : lost = [] := hlost (by simp [hwriter])
      refine ⟨⟨[], ?_, fun _ => rfl⟩, by simp [hnone], by simp, h.abort⟩
      simpa [hwriter, hnil, WriteTask.held] using hitems
  | writeFails hwriter hgone => exact h.end (by simp [hwriter]) hgone
  | detect hgone => exact ⟨h.items, h.failed, h.finished, fun _ => hgone⟩
  | cancelWriter hwriter habort => exact h.end hwriter (h.abort habort)

theorem reachable_inv {capacity senders : Nat} {unseen : List T}
    (h : (wiredBroadcast capacity senders unseen).Reachable s) : s.Inv := by
  refine h.invariant ⟨⟨[], ?_, fun _ => rfl⟩, by simp [wiredBroadcast],
    by simp [wiredBroadcast], by simp [wiredBroadcast]⟩
    fun _ _ _ hinv _ hs => (step_moves hs).inv hinv
  simp [wiredBroadcast, WriteTask.held]

/-! ## A task that keeps up -/

/-- It has not missed an item. -/
structure Close (s : WiredBroadcast T) : Prop where
  room : s.writer ≠ .finished → s.source.unseen.length ≤ s.source.capacity
  failed : ∀ n, s.failed ≠ some (.lagged n)

theorem Moves.close {a : BroadcastAction T} (hm : s.Moves a s') (hok : s.KeepsUp a)
    (h : s.Close) : s'.Close := by
  cases hm with
  | send =>
      refine ⟨fun hwriter => ?_, h.failed⟩
      simp only [Broadcast.send, List.length_append, List.length_singleton]
      exact hok _ rfl hwriter
  | cloneSender | dropSender | read | leave | detect => exact ⟨h.room, h.failed⟩
  | take hwriter hunseen =>
      have hroom := h.room (by simp [hwriter])
      rw [hunseen, List.length_cons] at hroom
      exact ⟨fun _ => Nat.le_of_succ_le hroom, h.failed⟩
  | takeEnd => exact ⟨by simp, by simp⟩
  | takeLagged hwriter hpos hlen =>
      have hroom := h.room (by simp [hwriter])
      omega
  | write hwriter => exact ⟨fun _ => h.room (by simp [hwriter]), h.failed⟩
  | writeFails | cancelWriter => exact ⟨by simp, h.failed⟩

/-! ## At rest -/

/-- What the tasks have left to do. -/
def left (s : WiredBroadcast T) : Nat :=
  2 * s.source.unseen.length +
  (match s.writer with
    | .writing _ => 2
    | .receiving => 1
    | .finished => 0) +
  (!s.abortWriter).toNat

theorem Moves.left {a : BroadcastAction T} (hm : s.Moves a s') (ha : a.Internal) :
    s'.left < s.left := by
  cases hm with
  | send | cloneSender | dropSender | read | leave => exact ha.elim
  | take hwriter hunseen =>
      simp only [WiredBroadcast.left, hwriter, hunseen, List.length_cons]
      omega
  | takeEnd hwriter | takeLagged hwriter | writeFails hwriter | write hwriter =>
      simp [WiredBroadcast.left, hwriter]
  | detect hgone habort => simp [WiredBroadcast.left, habort]
  | cancelWriter hwriter habort =>
      cases hw : s.writer with
      | finished => exact absurd hw hwriter
      | receiving | writing => simp [WiredBroadcast.left, hw]

/-- A task at rest waits for an item, or has ended. -/
theorem Inv.rest (h : s.Inv) (hrest : ∀ a, a.Internal → s.step a = none)
    (hgone : s.gone = false) :
    s.failed = none ∧ s.writer = .receiving ∧ s.source.unseen = [] ∨
      ∃ e, s.failed = some e ∧ s.writer = .finished := by
  have hwrite : s.writerStep true = none := hrest (.writer true) trivial
  cases hwriter : s.writer with
  | writing item => simp [writerStep, hwriter] at hwrite
  | receiving =>
      rcases hrecv : s.source.recv with _ | ⟨e | item, source⟩
      · exact Or.inl ⟨h.failed_none (by simp [hwriter]), rfl, (Broadcast.recv_none hrecv).1⟩
      · simp [writerStep, hwriter, hrecv] at hwrite
      · simp [writerStep, hwriter, hrecv] at hwrite
  | finished =>
      cases hfailed : s.failed with
      | none => cases hgone.symm.trans (h.finished hwriter hfailed)
      | some e => exact Or.inr ⟨e, rfl, rfl⟩

/-- With the remote there, every item is on the stream, or so many have been missed. -/
theorem Inv.complete (h : s.Inv) (hrest : ∀ a, a.Internal → s.step a = none)
    (hgone : s.gone = false) :
    s.arrived ++ s.stream = s.sent ∨ ∃ n, s.failed = some (.lagged n) ∧ 0 < n ∧
      (s.arrived ++ s.stream).length + s.source.capacity + n ≤ s.sent.length := by
  obtain ⟨lost, hitems, hlost⟩ := h.items
  rcases h.rest hrest hgone with ⟨hnone, hwriter, hunseen⟩ | ⟨e, hfailed, hwriter⟩
  · have hnil : lost = [] := hlost (by simp [hwriter])
    exact Or.inl (by simpa [hwriter, hunseen, hnil, WriteTask.held] using hitems)
  · have hnil : lost = [] := hlost (by simp [hfailed])
    have hitems : s.arrived ++ s.stream ++ s.source.unseen = s.sent := by
      simpa [hwriter, hnil, WriteTask.held] using hitems
    obtain ⟨-, ⟨rfl, hunseen, -⟩ | ⟨n, rfl, hpos, hle⟩⟩ := h.failed e hfailed
    · exact Or.inl (by simpa [hunseen] using hitems)
    · refine Or.inr ⟨n, hfailed, hpos, ?_⟩
      have hlen := congrArg List.length hitems
      rw [List.length_append] at hlen
      omega

end WiredBroadcast

/-- **A broadcast receiver across a stream.** Though the channel may pass over items, the
stream never does: what the remote reads is what was sent, without a gap. The task comes to
rest, and if the remote is there then every item is on the stream, or the task has ended
because it missed some, and of those that were still in the channel none is written either.
If the channel never has more items than it can keep for the task, every item is. -/
theorem broadcast_without_gap {T : Type} (capacity senders : Nat) (unseen : List T) :
    (wiredBroadcast capacity senders unseen).Settles BroadcastAction.Internal ∧
    (∀ s, (wiredBroadcast capacity senders unseen).Reachable s →
      s.arrived ++ s.stream <+: s.sent ∧
      ((wiredBroadcast capacity senders unseen).AtRest BroadcastAction.Internal s →
        s.gone = false → s.arrived ++ s.stream = s.sent ∨
          ∃ n, s.failed = some (.lagged n) ∧ 0 < n ∧
            (s.arrived ++ s.stream).length + s.source.capacity + n ≤ s.sent.length)) ∧
    (unseen.length ≤ capacity →
      ∀ s, (wiredBroadcast capacity senders unseen).ReachableBy WiredBroadcast.KeepsUp s →
        (wiredBroadcast capacity senders unseen).AtRest BroadcastAction.Internal s →
        s.gone = false → s.arrived ++ s.stream = s.sent) := by
  refine ⟨?_, fun s hreach => ⟨?_, fun hrest hgone => ?_⟩, fun hle s hreach hrest hgone => ?_⟩
  · exact Machine.settles_of_measure WiredBroadcast.left fun _ _ _ ha hs =>
      (WiredBroadcast.step_moves hs).left ha
  · obtain ⟨lost, hitems, -⟩ := (WiredBroadcast.reachable_inv hreach).items
    rw [← hitems, List.append_assoc, List.append_assoc]
    exact List.prefix_append ..
  · exact (WiredBroadcast.reachable_inv hreach).complete hrest hgone
  · have hclose : s.Close := hreach.invariant ⟨fun _ => hle, by simp [wiredBroadcast]⟩
      fun _ _ _ h hok hs => (WiredBroadcast.step_moves hs).close hok h
    have hinv := WiredBroadcast.reachable_inv (hreach.mono fun _ _ _ => trivial)
    refine (hinv.complete hrest hgone).resolve_right ?_
    intro hlagged
    obtain ⟨n, hfailed, -⟩ := hlagged
    exact hclose.failed n hfailed

/-! ## A wired sender -/

structure BroadcastSender (T : Type) where
  /-- What is on the stream. -/
  stream : List T := []
  /-- The remote has dropped its end of the stream, or what comes next does not decode. -/
  ended : Bool := false
  /-- The task has left its loop. -/
  finished : Bool := false
  /-- The receivers of the channel. -/
  receivers : Nat
  /-- What the remote has written. -/
  written : List T := []
  /-- The items that the channel has accepted. -/
  published : List T := []

inductive SenderAction (T : Type) where
  | write (item : T)
  | finish
  | subscribe
  | dropReceiver
  /-- The task goes on. -/
  | task
deriving DecidableEq

namespace BroadcastSender

variable {T : Type}

def step (s : BroadcastSender T) : SenderAction T → Option (BroadcastSender T)
  | .write item =>
      if s.ended then none
      else some { s with stream := s.stream ++ [item], written := s.written ++ [item] }
  | .finish => some { s with ended := true }
  | .subscribe => some { s with receivers := s.receivers + 1 }
  | .dropReceiver => some { s with receivers := s.receivers - 1 }
  | .task =>
      if s.finished then none
      else match s.stream with
        | item :: stream =>
            -- a send fails if there is no receiver
            if s.receivers = 0 then some { s with stream := stream, finished := true }
            else some { s with stream := stream, published := s.published ++ [item] }
        | [] => if s.ended then some { s with finished := true } else none

/-- The task finds a receiver. -/
def Subscribed (s : BroadcastSender T) (a : SenderAction T) : Prop :=
  a = .task → s.receivers ≠ 0

/-- Until the task ends, what is not published is on the stream. It ends at the end of the
stream, or at an item. -/
structure Inv (s : BroadcastSender T) : Prop where
  running : s.finished = false → s.published ++ s.stream = s.written
  ended : s.finished = true → s.ended = true ∧ s.published = s.written ∨
    ∃ item rest, s.written = s.published ++ item :: rest

variable {s s' : BroadcastSender T}

/-- What the task does. -/
theorem task_cases (hs : s.step .task = some s') : s.finished = false ∧
    ((∃ item stream, s.stream = item :: stream ∧ s.receivers = 0 ∧
      s' = { s with stream := stream, finished := true }) ∨
    (∃ item stream, s.stream = item :: stream ∧ s.receivers ≠ 0 ∧
      s' = { s with stream := stream, published := s.published ++ [item] }) ∨
    s.stream = [] ∧ s.ended = true ∧ s' = { s with finished := true }) := by
  simp only [step, Option.ite_none_left_eq_some, Bool.not_eq_true] at hs
  refine ⟨hs.1, ?_⟩
  rcases hstream : s.stream with _ | ⟨item, stream⟩
  · simp only [hstream, Option.ite_none_right_eq_some, Option.some.injEq] at hs
    exact Or.inr (Or.inr ⟨rfl, hs.2.1, hs.2.2.symm⟩)
  · by_cases hreceivers : s.receivers = 0
    · simp only [hstream, if_pos hreceivers, Option.some.injEq] at hs
      exact Or.inl ⟨item, stream, rfl, hreceivers, hs.2.symm⟩
    · simp only [hstream, if_neg hreceivers, Option.some.injEq] at hs
      exact Or.inr (Or.inl ⟨item, stream, rfl, hreceivers, hs.2.symm⟩)

theorem Inv.step {a : SenderAction T} (h : s.Inv) (hs : s.step a = some s') : s'.Inv := by
  cases a with
  | write item =>
      simp only [BroadcastSender.step, Option.ite_none_left_eq_some, Option.some.injEq] at hs
      obtain ⟨hopen, rfl⟩ := hs
      refine ⟨fun hrunning => ?_, fun hfinished => ?_⟩
      · rw [← h.running hrunning, List.append_assoc]
      · rcases h.ended hfinished with ⟨hended, -⟩ | ⟨lost, rest, hwritten⟩
        · exact absurd hended hopen
        · exact Or.inr ⟨lost, rest ++ [item], by simp [hwritten]⟩
  | finish =>
      cases hs
      exact ⟨h.running, fun hfinished => (h.ended hfinished).imp_left fun hall =>
        ⟨rfl, hall.2⟩⟩
  | subscribe | dropReceiver =>
      cases hs
      exact ⟨h.running, h.ended⟩
  | task =>
      obtain ⟨hrunning, hs⟩ := task_cases hs
      have hwritten := h.running hrunning
      rcases hs with ⟨item, stream, hstream, -, rfl⟩ | ⟨item, stream, hstream, -, rfl⟩ |
        ⟨hstream, hended, rfl⟩
      · exact ⟨by simp, fun _ => Or.inr ⟨item, stream, by rw [← hwritten, hstream]⟩⟩
      · refine ⟨fun _ => by simp [← hwritten, hstream], fun hfinished => ?_⟩
        cases hrunning.symm.trans hfinished
      · exact ⟨by simp, fun _ => Or.inl ⟨hended, by simpa [hstream] using hwritten⟩⟩

/-- Where the task has always found a receiver, it has not ended at an item. -/
theorem Inv.subscribed {a : SenderAction T} (hinv : s.Inv)
    (h : s.finished = true → s.published = s.written ∧ s.ended = true) (hok : s.Subscribed a)
    (hs : s.step a = some s') :
    s'.finished = true → s'.published = s'.written ∧ s'.ended = true := by
  cases a with
  | write item =>
      simp only [BroadcastSender.step, Option.ite_none_left_eq_some, Option.some.injEq] at hs
      obtain ⟨hopen, rfl⟩ := hs
      exact fun hfinished => absurd (h hfinished).2 hopen
  | finish =>
      cases hs
      exact fun hfinished => ⟨(h hfinished).1, rfl⟩
  | subscribe | dropReceiver =>
      cases hs
      exact h
  | task =>
      obtain ⟨hrunning, hs⟩ := task_cases hs
      rcases hs with ⟨item, stream, -, hnone, -⟩ | ⟨item, stream, -, -, rfl⟩ |
        ⟨hstream, hended, rfl⟩
      · exact absurd hnone (hok rfl)
      · exact fun hfinished => by cases hrunning.symm.trans hfinished
      · exact fun _ => ⟨by simpa [hstream] using hinv.running hrunning, hended⟩

/-- A task that has ended publishes nothing more. -/
theorem finished_step {a : SenderAction T} (hfinished : s.finished = true)
    (hs : s.step a = some s') : s'.finished = true ∧ s'.published = s.published := by
  cases a with
  | write item =>
      simp only [step, Option.ite_none_left_eq_some, Option.some.injEq] at hs
      obtain ⟨-, rfl⟩ := hs
      exact ⟨hfinished, rfl⟩
  | finish | subscribe | dropReceiver =>
      cases hs
      exact ⟨hfinished, rfl⟩
  | task => cases hfinished.symm.trans (task_cases hs).1

/-- An item ends the task exactly if there is no receiver. -/
theorem task_item {item : T} {stream : List T} (hstream : s.stream = item :: stream)
    (hs : s.step .task = some s') : s'.stream = stream ∧
      (s'.finished = true ↔ s.receivers = 0) ∧
      s'.published = s.published ++ if s.receivers = 0 then [] else [item] := by
  obtain ⟨hrunning, ⟨_, _, hitem, hnone, rfl⟩ | ⟨_, _, hitem, hsome, rfl⟩ | ⟨hnil, -⟩⟩ :=
    task_cases hs
  · cases hstream.symm.trans hitem
    simp [hnone]
  · cases hstream.symm.trans hitem
    simp [hrunning, hsome]
  · cases hstream.symm.trans hnil

/-- A task at rest that has not ended has read all of the stream. -/
theorem stream_nil (hrest : s.step .task = none) (hrunning : s.finished = false) :
    s.stream = [] := by
  cases hstream : s.stream with
  | nil => rfl
  | cons item stream =>
      simp only [step, hrunning, hstream, Bool.false_eq_true, if_false] at hrest
      split at hrest <;> cases hrest

end BroadcastSender

def broadcastSender {T : Type} (receivers : Nat) : Machine (BroadcastSender T) (SenderAction T) :=
  ⟨{ receivers := receivers }, BroadcastSender.step⟩

/-- **A broadcast sender across a stream.** The channel gets the items in the order in which
the remote writes them, without a gap. But the task ends at the first one for which there
is no receiver, and then nothing that the remote writes is published, whoever subscribes
afterwards. At rest everything that was written is, if the task has always found a receiver. -/
theorem broadcast_sender_ends {T : Type} (receivers : Nat) :
    (∀ s, (broadcastSender (T := T) receivers).Reachable s →
      s.published <+: s.written ∧
      (∀ item stream, s.stream = item :: stream → s.finished = false →
        ∃ t, s.step .task = some t ∧ t.stream = stream ∧
          (t.finished = true ↔ s.receivers = 0) ∧
          t.published = s.published ++ if s.receivers = 0 then [] else [item]) ∧
      (s.finished = true →
        (s.ended = true ∧ s.published = s.written ∨
          ∃ item rest, s.written = s.published ++ item :: rest) ∧
        ∀ t, (broadcastSender receivers).Leads (fun _ => True) s t →
          t.published = s.published)) ∧
    ∀ s, (broadcastSender (T := T) receivers).ReachableBy BroadcastSender.Subscribed s →
      (broadcastSender receivers).AtRest (· = .task) s → s.published = s.written := by
  have hreach : ∀ s, (broadcastSender (T := T) receivers).Reachable s → s.Inv := by
    intro s h
    exact h.invariant ⟨fun _ => rfl, by simp [broadcastSender]⟩
      fun _ _ _ hinv _ hs => hinv.step hs
  refine ⟨fun s h => ⟨?_, fun item stream hstream hrunning => ?_,
    fun hfinished => ⟨(hreach s h).ended hfinished, ?_⟩⟩, ?_⟩
  · cases hfinished : s.finished with
    | false => exact ⟨s.stream, (hreach s h).running hfinished⟩
    | true =>
        rcases (hreach s h).ended hfinished with ⟨-, heq⟩ | ⟨item, rest, heq⟩
        · exact heq ▸ List.prefix_rfl
        · exact heq ▸ List.prefix_append ..
  · cases ht : s.step .task with
    | none =>
        cases hstream.symm.trans (BroadcastSender.stream_nil ht hrunning)
    | some t => exact ⟨t, rfl, BroadcastSender.task_item hstream ht⟩
  · intro t hlead
    refine (hlead.invariant
      (I := fun t => t.finished = true ∧ t.published = s.published) ⟨hfinished, rfl⟩ ?_).2
    intro t a t' hI _ hs
    obtain ⟨hfinished', heq⟩ := BroadcastSender.finished_step hI.1 hs
    exact ⟨hfinished', heq.trans hI.2⟩
  · intro s h hrest
    have hboth : s.Inv ∧ (s.finished = true → s.published = s.written ∧ s.ended = true) :=
      h.invariant (I := fun s => s.Inv ∧
        (s.finished = true → s.published = s.written ∧ s.ended = true))
        ⟨⟨fun _ => rfl, by simp [broadcastSender]⟩, by simp [broadcastSender]⟩
        fun _ _ _ hI hok hs => ⟨hI.1.step hs, hI.1.subscribed hI.2 hok hs⟩
    cases hfinished : s.finished with
    | true => exact (hboth.2 hfinished).1
    | false =>
        have hnil := BroadcastSender.stream_nil (hrest .task rfl) hfinished
        simpa [hnil] using hboth.1.running hfinished

end WiringRs
