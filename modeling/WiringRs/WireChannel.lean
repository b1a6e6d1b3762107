import WiringRs.Rust
import WiringRs.UnwiredReceiver

/-!
# The two directions of a channel

A wire is unwired into a sender and a receiver. One task writes what the user sends,
another one passes on what the remote sends; when the second one is done, because the
user has dropped the receiver or the remote has ended its direction, it aborts the
first one.

An aborted task is cancelled at its next await, or before it runs at all. What the
task has not written by then is lost, though the user's sends have been accepted.
-/

namespace WiringRs

inductive SenderTask (S : Type) where
  /-- `rx.recv().await` -/
  | receiving
  /-- `w.wire(item).await` -/
  | writing (item : S)
  /-- `w.shutdown().await` -/
  | shutting
  | finished
  | aborted

inductive RecvTask (R : Type) where
  /-- `tokio::select!` -/
  | selecting
  /-- `tx.send(item).await` -/
  | sending (item : R)
  | finished

/-- `WireChannel::unwiring`, for both kinds of channels. -/
structure WireChannel (S R : Type) where
  rx : Mpsc S
  tx : Mpsc R
  senderTask : SenderTask S := .receiving
  recvTask : RecvTask R := .selecting
  /-- `s_j.abort()` -/
  abort : Bool := false
  /-- What the remote has sent and has not been read. -/
  stream : List R := []
  /-- The remote has ended its direction, or its next item does not decode. -/
  remoteEnded : Bool := false
  /-- The items whose send returned `Ok`. -/
  accepted : List S := []
  /-- The items that are on the stream. -/
  written : List S := []
  /-- A write has failed. -/
  failed : Bool := false
  received : List R := []

inductive ChannelAction (S R : Type) where
  | send (item : S)
  | cloneSender
  | dropSender
  | recv
  | dropReceiver
  | remote (item : R)
  | remoteEnd
  /-- The sender task goes on; `ok` is whether its write succeeds. -/
  | sender (ok : Bool)
  /-- The receiver task goes on; `closed` is the branch taken when both are ready. -/
  | receiver (closed : Bool)
  /-- The abort takes effect. -/
  | cancel

namespace SenderTask

variable {S : Type}

/-- The item that is being written. -/
def held : SenderTask S → List S
  | .writing item => [item]
  | _ => []

/-- The write half is shut down or dropped. -/
def gone : SenderTask S → Bool
  | .receiving | .writing _ => false
  | .shutting | .finished | .aborted => true

end SenderTask

namespace WireChannel

variable {S R : Type}

/-- The loop of the receiver task is left. -/
def leave (s : WireChannel S R) : WireChannel S R :=
  { s with recvTask := .finished, tx := s.tx.dropSender, abort := true }

def senderStep (s : WireChannel S R) (ok : Bool) : Option (WireChannel S R) :=
  match s.senderTask with
  | .receiving =>
      match s.rx.recv with
      | some (some item, rx) => some { s with rx := rx, senderTask := .writing item }
      | some (none, rx) => some { s with rx := rx, senderTask := .shutting }
      | none => none
  | .writing item =>
      if ok then some { s with written := s.written ++ [item], senderTask := .receiving }
      else some { s with failed := true, rx := s.rx.close, senderTask := .shutting }
  | .shutting => some { s with rx := s.rx.dropReceiver, senderTask := .finished }
  | .finished | .aborted => none

def receiverStep (s : WireChannel S R) (closed : Bool) : Option (WireChannel S R) :=
  match s.recvTask with
  | .selecting =>
      if closed then
        if s.tx.closed then some s.leave else none
      else
        match s.stream with
        | item :: stream => some { s with stream := stream, recvTask := .sending item }
        | [] => if s.remoteEnded then some s.leave else none
  | .sending item =>
      -- the result is dropped
      (s.tx.send item).map fun r => { s with tx := r.2, recvTask := .selecting }
  | .finished => none

def step (s : WireChannel S R) : ChannelAction S R → Option (WireChannel S R)
  | .send item =>
      if s.rx.senders = 0 then none
      else match s.rx.send item with
        | some (true, rx) => some { s with rx := rx, accepted := s.accepted ++ [item] }
        | some (false, _) => some s
        | none => none
  | .cloneSender =>
      if s.rx.senders = 0 then none
      else some { s with rx := { s.rx with senders := s.rx.senders + 1 } }
  | .dropSender => some { s with rx := s.rx.dropSender }
  | .recv =>
      match s.tx.recv with
      | some (some item, tx) => some { s with tx := tx, received := s.received ++ [item] }
      | _ => none
  | .dropReceiver => some { s with tx := s.tx.dropReceiver }
  | .remote item => if s.remoteEnded then none else some { s with stream := s.stream ++ [item] }
  | .remoteEnd => some { s with remoteEnded := true }
  | .sender ok => s.senderStep ok
  | .receiver closed => s.receiverStep closed
  | .cancel =>
      match s.senderTask with
      | .finished | .aborted => none
      | _ =>
          if s.abort then some { s with rx := s.rx.dropReceiver, senderTask := .aborted }
          else none

end WireChannel

def wireChannel (S R : Type) (capacity : Option NonZeroUsize) :
    Machine (WireChannel S R) (ChannelAction S R) :=
  ⟨{ rx := { capacity := capacity.map Subtype.val, senders := 1 }
     tx := { capacity := capacity.map Subtype.val, senders := 1 } }, WireChannel.step⟩

namespace WireChannel

variable {S R : Type}

/-- The accepted items are written in order, and before the write half goes. -/
structure Flushed (s : WireChannel S R) : Prop where
  order : s.written <+: s.accepted
  gone : s.senderTask.gone = true → s.failed = true ∨ s.written = s.accepted

/-- When the abort takes effect on the task's loop, no accepted item is waiting to be
written. -/
def NoLoss (s : WireChannel S R) (a : ChannelAction S R) : Prop :=
  a = .cancel → s.senderTask.gone = false → s.senderTask.held ++ s.rx.queue = []

/-- In its loop the task accounts for every accepted item; it leaves the loop when
there is none left and none to come, or when a write fails. -/
structure Inv (s : WireChannel S R) : Prop where
  live : s.senderTask.gone = false → s.failed = false ∧ s.rx.closed = false ∧
    s.accepted = s.written ++ (s.senderTask.held ++ s.rx.queue)
  gone : s.senderTask.gone = true → (s.rx.closed = true ∨ s.rx.senders = 0) ∧
    s.written <+: s.accepted ∧ (s.failed = true ∨ s.written = s.accepted)

theorem Inv.flushed {s : WireChannel S R} (h : s.Inv) : s.Flushed where
  order := by
    cases hgone : s.senderTask.gone with
    | false =>
        rw [(h.live hgone).2.2]
        exact List.prefix_append ..
    | true => exact (h.gone hgone).2.1
  gone hgone := (h.gone hgone).2.2

variable {s s' : WireChannel S R}

/-- The steps, with what they need and what they change. -/
inductive Moves (s : WireChannel S R) : ChannelAction S R → WireChannel S R → Prop
  | send {item : S} : s.rx.senders ≠ 0 → s.rx.closed = false →
      Moves s (.send item) { s with
        rx := { s.rx with queue := s.rx.queue ++ [item] }
        accepted := s.accepted ++ [item] }
  | refused {item : S} : Moves s (.send item) s
  | cloneSender : s.rx.senders ≠ 0 →
      Moves s .cloneSender { s with rx := { s.rx with senders := s.rx.senders + 1 } }
  | dropSender : Moves s .dropSender { s with rx := s.rx.dropSender }
  | recv {item : R} {queue : List R} :
      Moves s .recv { s with
        tx := { s.tx with queue := queue }
        received := s.received ++ [item] }
  | dropReceiver : Moves s .dropReceiver { s with tx := s.tx.dropReceiver }
  | remote {item : R} : Moves s (.remote item) { s with stream := s.stream ++ [item] }
  | remoteEnd : Moves s .remoteEnd { s with remoteEnded := true }
  | take {ok : Bool} {item : S} {queue : List S} : s.senderTask = .receiving →
      s.rx.queue = item :: queue →
      Moves s (.sender ok) { s with
        rx := { s.rx with queue := queue }
        senderTask := .writing item }
  | last {ok : Bool} : s.senderTask = .receiving → s.rx.queue = [] →
      (s.rx.closed = true ∨ s.rx.senders = 0) →
      Moves s (.sender ok) { s with senderTask := .shutting }
  | write {item : S} : s.senderTask = .writing item →
      Moves s (.sender true) { s with
        written := s.written ++ [item]
        senderTask := .receiving }
  | writeFails {item : S} : s.senderTask = .writing item →
      Moves s (.sender false) { s with
        failed := true
        rx := s.rx.close
        senderTask := .shutting }
  | shut {ok : Bool} : s.senderTask = .shutting →
      Moves s (.sender ok) { s with rx := s.rx.dropReceiver, senderTask := .finished }
  | leave {closed : Bool} : s.recvTask = .selecting → Moves s (.receiver closed) s.leave
  | read {item : R} {stream : List R} : s.recvTask = .selecting →
      Moves s (.receiver false) { s with stream := stream, recvTask := .sending item }
  | deliver {closed : Bool} {item : R} {queue : List R} : s.recvTask = .sending item →
      Moves s (.receiver closed) { s with
        tx := { s.tx with queue := queue }
        recvTask := .selecting }
  | cancel : Moves s .cancel { s with rx := s.rx.dropReceiver, senderTask := .aborted }

theorem senderStep_moves {ok : Bool} (hs : s.senderStep ok = some s') :
    s.Moves (.sender ok) s' := by
  cases htask : s.senderTask with
  | receiving =>
      rcases hrecv : s.rx.recv with _ | ⟨_ | item, rx⟩
      · simp [senderStep, htask, hrecv] at hs
      · obtain ⟨hqueue, hend, rfl⟩ := Mpsc.recv_end hrecv
        simp only [senderStep, htask, hrecv, Option.some.injEq] at hs
        exact hs ▸ .last htask hqueue hend
      · obtain ⟨hqueue, hrx⟩ := Mpsc.recv_item hrecv
        simp only [senderStep, htask, hrecv, Option.some.injEq] at hs
        rw [hrx] at hs
        exact hs ▸ .take htask hqueue
  | writing item =>
      cases ok with
      | true =>
          simp only [senderStep, htask, if_true, Option.some.injEq] at hs
          exact hs ▸ .write htask
      | false =>
          simp only [senderStep, htask, Bool.false_eq_true, if_false, Option.some.injEq] at hs
          exact hs ▸ .writeFails htask
  | shutting =>
      simp only [senderStep, htask, Option.some.injEq] at hs
      exact hs ▸ .shut htask
  | finished | aborted => simp [senderStep, htask] at hs

theorem receiverStep_moves {closed : Bool} (hs : s.receiverStep closed = some s') :
    s.Moves (.receiver closed) s' := by
  cases htask : s.recvTask with
  | selecting =>
      cases closed with
      | true =>
          simp only [receiverStep, htask, if_true, Option.ite_none_right_eq_some,
            Option.some.injEq] at hs
          exact hs.2 ▸ .leave htask
      | false =>
          cases hstream : s.stream with
          | nil =>
              simp only [receiverStep, htask, Bool.false_eq_true, if_false, hstream,
                Option.ite_none_right_eq_some, Option.some.injEq] at hs
              exact hs.2 ▸ .leave htask
          | cons item stream =>
              simp only [receiverStep, htask, Bool.false_eq_true, if_false, hstream,
                Option.some.injEq] at hs
              exact hs ▸ .read htask
  | sending item =>
      simp only [receiverStep, htask] at hs
      obtain ⟨⟨accepted, tx⟩, hsend, rfl⟩ := Option.map_eq_some_iff.mp hs
      cases accepted with
      | true =>
          obtain ⟨-, rfl⟩ := Mpsc.send_accepted hsend
          exact .deliver htask
      | false =>
          obtain ⟨-, rfl⟩ := Mpsc.send_refused hsend
          exact .deliver htask
  | finished => simp [receiverStep, htask] at hs

theorem step_moves {a : ChannelAction S R} (hs : s.step a = some s') : s.Moves a s' := by
  cases a with
  | send item =>
      simp only [step, Option.ite_none_left_eq_some] at hs
      obtain ⟨hsenders, hs⟩ := hs
      rcases hsend : s.rx.send item with _ | ⟨_ | _, rx⟩
      · simp [hsend] at hs
      · simp only [hsend, Option.some.injEq] at hs
        exact hs ▸ .refused
      · obtain ⟨hclosed, rfl⟩ := Mpsc.send_accepted hsend
        simp only [hsend, Option.some.injEq] at hs
        exact hs ▸ .send hsenders hclosed
  | cloneSender =>
      simp only [step, Option.ite_none_left_eq_some, Option.some.injEq] at hs
      exact hs.2 ▸ .cloneSender hs.1
  | dropSender =>
      cases hs
      exact .dropSender
  | recv =>
      rcases hrecv : s.tx.recv with _ | ⟨_ | item, tx⟩
      · simp [step, hrecv] at hs
      · simp [step, hrecv] at hs
      · simp only [step, hrecv, Option.some.injEq] at hs
        rw [(Mpsc.recv_item hrecv).2] at hs
        exact hs ▸ .recv
  | dropReceiver =>
      cases hs
      exact .dropReceiver
  | remote item =>
      simp only [step, Option.ite_none_left_eq_some, Option.some.injEq] at hs
      exact hs.2 ▸ .remote
  | remoteEnd =>
      cases hs
      exact .remoteEnd
  | sender ok => exact senderStep_moves hs
  | receiver closed => exact receiverStep_moves hs
  | cancel =>
      cases htask : s.senderTask with
      | finished | aborted => simp [step, htask] at hs
      | receiving | writing | shutting =>
          simp only [step, htask, Option.ite_none_right_eq_some, Option.some.injEq] at hs
          exact hs.2 ▸ .cancel

/-- The items that were waiting when the task is left are the ones that are lost. -/
theorem Inv.cancel (h : s.Inv) (hok : s.NoLoss .cancel) :
    Inv { s with rx := s.rx.dropReceiver, senderTask := .aborted } := by
  refine ⟨nofun, fun _ => ⟨Or.inl rfl, ?_⟩⟩
  cases hgone : s.senderTask.gone with
  | true => exact (h.gone hgone).2
  | false =>
      have hitems := (h.live hgone).2.2
      rw [hok rfl hgone, List.append_nil] at hitems
      exact ⟨hitems ▸ List.prefix_rfl, Or.inr hitems.symm⟩

/-- A send is accepted only while the task is in its loop. -/
theorem Inv.send {item : S} (h : s.Inv) (hsenders : s.rx.senders ≠ 0)
    (hclosed : s.rx.closed = false) :
    Inv { s with
      rx := { s.rx with queue := s.rx.queue ++ [item] }
      accepted := s.accepted ++ [item] } := by
  refine ⟨?_, ?_⟩
  · intro hgone
    obtain ⟨hfailed, -, hitems⟩ := h.live hgone
    exact ⟨hfailed, hclosed, by simp [hitems]⟩
  · intro hgone
    rcases (h.gone hgone).1 with hc | hc
    · cases hclosed.symm.trans hc
    · exact absurd hc hsenders

/-- Every step keeps the invariant, the abort if no item waits. -/
theorem Inv.moves {a : ChannelAction S R} (h : s.Inv) (hm : s.Moves a s')
    (hok : s.NoLoss a) : s'.Inv := by
  cases hm with
  | refused | recv | dropReceiver | remote | remoteEnd | leave | read | deliver =>
      exact ⟨h.live, h.gone⟩
  | send hsenders hclosed => exact h.send hsenders hclosed
  | cloneSender hsenders =>
      refine ⟨h.live, fun hgone => ⟨?_, (h.gone hgone).2⟩⟩
      exact (h.gone hgone).1.imp_right fun hnone => absurd hnone hsenders
  | dropSender =>
      refine ⟨h.live, fun hgone => ⟨?_, (h.gone hgone).2⟩⟩
      exact (h.gone hgone).1.imp_right fun hnone => congrArg (· - 1) hnone
  | take htask hqueue =>
      obtain ⟨hfailed, hclosed, hitems⟩ := h.live (by rw [htask]; rfl)
      refine ⟨fun _ => ⟨hfailed, hclosed, ?_⟩, nofun⟩
      rw [hitems, htask, hqueue]
      rfl
  | last htask hqueue hend =>
      have hitems := (h.live (by rw [htask]; rfl)).2.2
      rw [htask, hqueue] at hitems
      have hitems : s.accepted = s.written := hitems.trans (List.append_nil _)
      exact ⟨nofun, fun _ => ⟨hend, hitems ▸ List.prefix_rfl, Or.inr hitems.symm⟩⟩
  | write htask =>
      obtain ⟨hfailed, hclosed, hitems⟩ := h.live (by rw [htask]; rfl)
      refine ⟨fun _ => ⟨hfailed, hclosed, ?_⟩, nofun⟩
      rw [hitems, htask, List.append_assoc]
      rfl
  | writeFails htask =>
      have hitems := (h.live (by rw [htask]; rfl)).2.2
      exact ⟨nofun, fun _ => ⟨Or.inl rfl, hitems ▸ List.prefix_append .., Or.inl rfl⟩⟩
  | shut htask =>
      have hrest := (h.gone (by rw [htask]; rfl)).2
      exact ⟨nofun, fun _ => ⟨Or.inl rfl, hrest⟩⟩
  | cancel => exact h.cancel hok

/-- If an item waits when the abort takes effect, it is lost. -/
theorem step_spec {a : ChannelAction S R} (h : s.Inv) (hs : s.step a = some s') :
    (s.NoLoss a → s'.Inv) ∧ (s'.Flushed ↔ s.NoLoss a) := by
  have hm := step_moves hs
  refine ⟨h.moves hm, ?_, fun hok => (h.moves hm hok).flushed⟩
  intro hflushed
  rintro rfl hlive
  cases hm with
  | cancel =>
      obtain ⟨hfailed, -, hitems⟩ := h.live hlive
      rcases hflushed.gone rfl with hf | hw
      · cases hfailed.symm.trans hf
      · have hw : s.written = s.written ++ (s.senderTask.held ++ s.rx.queue) :=
          hw.trans hitems
        exact List.append_cancel_left (hw.symm.trans (List.append_nil _).symm)

end WireChannel

/-- **The sending direction.** In a run the accepted items are written in order and
before the write half goes, unless a write fails, exactly if no item is waiting when
the abort takes effect. -/
theorem flushed_iff {S R : Type} (capacity : Option NonZeroUsize)
    (as : List (ChannelAction S R)) :
    (∀ t ∈ (wireChannel S R capacity).steps (wireChannel S R capacity).init as,
      t.after.Flushed) ↔
    ∀ t ∈ (wireChannel S R capacity).steps (wireChannel S R capacity).init as,
      t.before.NoLoss t.action := by
  have hinit : (wireChannel S R capacity).init.Inv := ⟨fun _ => ⟨rfl, rfl, rfl⟩, by rintro ⟨⟩⟩
  refine Machine.forall_steps_iff
    (P := fun t : Machine.Step (WireChannel S R) _ => t.after.Flushed) ?_ hinit as
  intro s a s' h hs
  exact WireChannel.step_spec h hs

/-- The user sends an item and drops the receiver, and the task is aborted before it
has run. -/
theorem aborted_not_flushed :
    ∃ s, (wireChannel U8 U8 none).Reachable s ∧ s.accepted = [.ofNat 7] ∧
      s.written = [] ∧ s.failed = false ∧ s.senderTask.gone = true ∧ ¬ s.Flushed := by
  refine ⟨_, .step (a := .cancel) (.step (a := .receiver true)
    (.step (a := .dropReceiver) (.step (a := .send (.ofNat 7)) .init trivial rfl)
      trivial rfl) trivial rfl) trivial rfl, rfl, rfl, rfl, rfl, ?_⟩
  intro h
  rcases h.gone rfl with hf | hw
  · cases hf
  · cases hw

/-! ## The receiving direction -/

/-- The senders that the task owns. -/
def RecvTask.senders {R : Type} : RecvTask R → Nat
  | .finished => 0
  | _ => 1

namespace WireChannel

variable {S R : Type} {s s' : WireChannel S R}

theorem senders_moves {a : ChannelAction S R} (h : s.tx.senders = s.recvTask.senders)
    (hm : s.Moves a s') : s'.tx.senders = s'.recvTask.senders := by
  cases hm with
  | leave htask =>
      rw [htask] at h
      exact congrArg (· - 1) h
  | read htask | deliver htask =>
      rw [htask] at h
      exact h
  | _ => exact h

/-- Unlike that of an unwired receiver, this task owns the only sender, so the end of
the stream reaches the user. -/
theorem end_reaches {capacity : Option NonZeroUsize}
    (h : (wireChannel S R capacity).Reachable s) (hend : s.recvTask = .finished) :
    s.tx.senders = 0 := by
  have hsenders : s.tx.senders = s.recvTask.senders :=
    h.invariant (I := fun s => s.tx.senders = s.recvTask.senders) rfl
      fun _ _ _ h _ hs => senders_moves h (step_moves hs)
  rw [hsenders, hend]
  rfl

end WireChannel

end WiringRs
