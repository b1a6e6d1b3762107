import WiringRs.Lib.Rest
import WiringRs.UnwiredReceiver

/-!
# An mpsc channel across a stream

Either end of an mpsc channel, bounded or not, can be sent to a remote. One task then
has the receiver of the channel on whose senders a user sends, and writes the items on a
stream; another one reads them there and sends them on to the user who has a receiver.
Beside each of them a second task waits until the other side is gone: `detect_shutdown`
for the end of the stream's other direction, on which nothing is ever sent, and
`shutdown` for the user's receiver to be dropped.

If a sender was wired, the tasks of the reading side are those of `Sender::wiring`, and
the other ones those of `Sender::unwiring`; if a receiver was, they are those of
`Receiver::unwiring` and `Receiver::wiring`. The reading sides differ in who aborts
whom. A task that is aborted is cancelled at its next await.
-/

namespace WiringRs

/-- The end of the channel that was wired. -/
inductive WiredHalf where
  | sender
  | receiver
deriving DecidableEq

inductive WriteTask (T : Type) where
  /-- `rx.recv().await` -/
  | receiving
  /-- `w.wire(item).await` -/
  | writing (item : T)
  | finished

structure WiredMpsc (T : Type) where
  /-- The channel of the user who sends. -/
  source : Mpsc T
  writer : WriteTask T := .receiving
  /-- `detect_shutdown` has come to the end of the other direction, and called `abort`. -/
  abortWriter : Bool := false
  /-- What is on the stream. -/
  stream : List T := []
  reader : ReadTask T := .reading
  shutdown : DetectShutdown := .waiting
  /-- One of the two tasks of the reading side has aborted the other one. -/
  abortReader : Bool := false
  abortShutdown : Bool := false
  /-- The channel of the user who receives; an item is marked if it is from the stream. -/
  sink : Mpsc (T × Bool)
  /-- The senders of that channel that are not the tasks'. -/
  locals : Nat
  /-- The items whose send returned `Ok`. -/
  accepted : List T
  /-- The user has dropped the receiver. -/
  dropped : Bool := false
  received : List (T × Bool) := []
  /-- The user has received `None`. -/
  ended : Bool := false

inductive MpscAction (T : Type) where
  | send (item : T)
  | cloneSender
  | dropSender
  /-- The same on a sender of the other channel. -/
  | localSend (item : T)
  | localClone
  | localDrop
  | recv
  | close
  | dropReceiver
  /-- The writing task goes on; `ok` is whether its write succeeds. -/
  | writer (ok : Bool)
  | detect
  /-- The reading task goes on; `ends` is whether the stream ends here. -/
  | reader (ends : Bool)
  | shutdown
  /-- An abort takes effect. -/
  | cancelWriter
  | cancelReader
  | cancelShutdown

namespace WiredMpsc

variable {T : Type}

/-- The write half is dropped with the task, and so is the receiver. -/
def leaveWriter (s : WiredMpsc T) : WiredMpsc T :=
  { s with writer := .finished, source := s.source.dropReceiver }

/-- Half of the other end is gone. On a stream of `Wired` that ends both directions. -/
def halved (s : WiredMpsc T) : Bool :=
  match s.reader, s.shutdown with
  | .finished, _ | _, .finished => true
  | _, _ => false

/-- The stream can end here. -/
def exhausted (s : WiredMpsc T) : Bool :=
  match s.stream, s.writer, s.shutdown with
  | [], .finished, _ | _, _, .finished => true
  | _, _, _ => false

def writerStep (s : WiredMpsc T) (ok : Bool) : Option (WiredMpsc T) :=
  match s.writer with
  | .receiving =>
      match s.source.recv with
      | some (some item, source) => some { s with source := source, writer := .writing item }
      | some (none, _) => some s.leaveWriter
      | none => none
  | .writing item =>
      if ok then some { s with stream := s.stream ++ [item], writer := .receiving }
      else if s.halved then some s.leaveWriter
      else none
  | .finished => none

/-- The sender is dropped with the task. `Sender::wiring` aborts the other one. -/
def leaveReader (wired : WiredHalf) (s : WiredMpsc T) : WiredMpsc T :=
  { s with
    reader := .finished
    sink := s.sink.dropSender
    abortShutdown := s.abortShutdown || wired == .sender }

def readerStep (wired : WiredHalf) (s : WiredMpsc T) (ends : Bool) : Option (WiredMpsc T) :=
  match s.reader with
  | .reading =>
      if ends then
        if s.exhausted then some (s.leaveReader wired) else none
      else match s.stream with
        | item :: stream => some { s with stream := stream, reader := .sending item }
        | [] => none
  | .sending item =>
      match s.sink.send (item, true) with
      | some (true, sink) => some { s with sink := sink, reader := .reading }
      | some (false, _) => some (s.leaveReader wired)
      | none => none
  | .finished => none

/-- `closed_handle` is dropped with the task, and the write half of the other
direction. `Receiver::unwiring` aborts the other task. -/
def leaveShutdown (wired : WiredHalf) (s : WiredMpsc T) : WiredMpsc T :=
  { s with
    shutdown := .finished
    sink := s.sink.dropSender
    abortReader := s.abortReader || wired == .receiver }

def shutdownStep (wired : WiredHalf) (s : WiredMpsc T) : Option (WiredMpsc T) :=
  match s.shutdown with
  | .waiting => if s.sink.closed then some { s with shutdown := .shutting } else none
  | .shutting => some (s.leaveShutdown wired)
  | .finished => none

def step (wired : WiredHalf) (s : WiredMpsc T) : MpscAction T → Option (WiredMpsc T)
  | .send item =>
      if s.source.senders = 0 then none
      else match s.source.send item with
        | some (true, source) =>
            some { s with source := source, accepted := s.accepted ++ [item] }
        | some (false, _) => some s
        | none => none
  | .cloneSender =>
      if s.source.senders = 0 then none
      else some { s with source := { s.source with senders := s.source.senders + 1 } }
  | .dropSender => some { s with source := s.source.dropSender }
  | .localSend item =>
      if s.locals = 0 then none
      else (s.sink.send (item, false)).map fun r => { s with sink := r.2 }
  | .localClone =>
      if s.locals = 0 then none
      else some { s with
        sink := { s.sink with senders := s.sink.senders + 1 }
        locals := s.locals + 1 }
  | .localDrop =>
      if s.locals = 0 then none
      else some { s with sink := s.sink.dropSender, locals := s.locals - 1 }
  | .recv =>
      if s.dropped then none
      else match s.sink.recv with
        | some (some item, sink) =>
            some { s with sink := sink, received := s.received ++ [item] }
        | some (none, _) => some { s with ended := true }
        | none => none
  | .close => some { s with sink := s.sink.close }
  | .dropReceiver => some { s with sink := s.sink.dropReceiver, dropped := true }
  | .writer ok => s.writerStep ok
  | .detect =>
      if s.abortWriter then none
      else match s.shutdown with
        | .finished => some { s with abortWriter := true }
        | _ => none
  | .reader ends => s.readerStep wired ends
  | .shutdown => s.shutdownStep wired
  | .cancelWriter =>
      match s.writer with
      | .finished => none
      | _ => if s.abortWriter then some s.leaveWriter else none
  | .cancelReader =>
      match s.reader with
      | .finished => none
      | _ => if s.abortReader then some (s.leaveReader wired) else none
  | .cancelShutdown =>
      match s.shutdown with
      | .finished => none
      | _ => if s.abortShutdown then some (s.leaveShutdown wired) else none

end WiredMpsc

/-- One end of a channel in use is wired. The channel has `queue` in it, and `senders` of
its senders stay where they are. -/
def wiredMpsc {T : Type} (wired : WiredHalf) (capacity remoteCapacity : Option NonZeroUsize)
    (senders : Nat) (queue : List T) : Machine (WiredMpsc T) (MpscAction T) :=
  match wired with
  | .sender =>
      ⟨{ source := { capacity := remoteCapacity.map Subtype.val, senders := 1 }
         sink :=
          { capacity := capacity.map Subtype.val
            queue := queue.map (·, false)
            senders := senders + 2 }
         locals := senders
         accepted := [] }, WiredMpsc.step .sender⟩
  | .receiver =>
      ⟨{ source := { capacity := capacity.map Subtype.val, queue := queue, senders := senders }
         sink := { capacity := remoteCapacity.map Subtype.val, senders := 2 }
         locals := 0
         accepted := queue }, WiredMpsc.step .receiver⟩

/-- What the four tasks do. -/
def MpscAction.Internal {T : Type} : MpscAction T → Prop
  | .writer _ | .detect | .reader _ | .shutdown | .cancelWriter | .cancelReader
  | .cancelShutdown => True
  | _ => False

/-! ## The steps -/

namespace WiredMpsc

variable {T : Type} {wired : WiredHalf} {s s' : WiredMpsc T}

theorem halved_iff :
    s.halved = true ↔ s.reader = .finished ∨ s.shutdown = .finished := by
  unfold halved
  cases s.reader <;> cases s.shutdown <;> simp

theorem exhausted_iff :
    s.exhausted = true ↔ s.stream = [] ∧ s.writer = .finished ∨ s.shutdown = .finished := by
  unfold exhausted
  cases s.stream <;> cases s.writer <;> cases s.shutdown <;> simp

/-- The steps, with what they need and what they change. -/
inductive Moves (wired : WiredHalf) (s : WiredMpsc T) : MpscAction T → WiredMpsc T → Prop
  | send {item : T} : s.source.closed = false →
      Moves wired s (.send item) { s with
        source := { s.source with queue := s.source.queue ++ [item] }
        accepted := s.accepted ++ [item] }
  | refused {item : T} : s.source.closed = true → Moves wired s (.send item) s
  | cloneSender : s.source.senders ≠ 0 →
      Moves wired s .cloneSender
        { s with source := { s.source with senders := s.source.senders + 1 } }
  | dropSender : Moves wired s .dropSender { s with source := s.source.dropSender }
  | localSend {item : T} : s.locals ≠ 0 → s.sink.closed = false →
      Moves wired s (.localSend item)
        { s with sink := { s.sink with queue := s.sink.queue ++ [(item, false)] } }
  | localRefused {item : T} : s.sink.closed = true → Moves wired s (.localSend item) s
  | localClone : s.locals ≠ 0 →
      Moves wired s .localClone { s with
        sink := { s.sink with senders := s.sink.senders + 1 }
        locals := s.locals + 1 }
  | localDrop : s.locals ≠ 0 →
      Moves wired s .localDrop { s with sink := s.sink.dropSender, locals := s.locals - 1 }
  | recv {item : T × Bool} {queue : List (T × Bool)} : s.dropped = false →
      s.sink.queue = item :: queue →
      Moves wired s .recv { s with
        sink := { s.sink with queue := queue }
        received := s.received ++ [item] }
  | recvEnd : s.sink.queue = [] → s.sink.closed = true ∨ s.sink.senders = 0 →
      Moves wired s .recv { s with ended := true }
  | close : Moves wired s .close { s with sink := s.sink.close }
  | dropReceiver :
      Moves wired s .dropReceiver { s with sink := s.sink.dropReceiver, dropped := true }
  | take {item : T} {queue : List T} {ok : Bool} : s.writer = .receiving →
      s.source.queue = item :: queue →
      Moves wired s (.writer ok) { s with
        source := { s.source with queue := queue }
        writer := .writing item }
  | takeEnd {ok : Bool} : s.writer = .receiving → s.source.queue = [] →
      s.source.closed = true ∨ s.source.senders = 0 → Moves wired s (.writer ok) s.leaveWriter
  | write {item : T} : s.writer = .writing item →
      Moves wired s (.writer true) { s with
        stream := s.stream ++ [item]
        writer := .receiving }
  | writeFails {item : T} : s.writer = .writing item → s.halved = true →
      Moves wired s (.writer false) s.leaveWriter
  | detect : s.shutdown = .finished → s.abortWriter = false →
      Moves wired s .detect { s with abortWriter := true }
  | read {item : T} {stream : List T} : s.reader = .reading → s.stream = item :: stream →
      Moves wired s (.reader false) { s with stream := stream, reader := .sending item }
  | readEnd : s.reader = .reading → s.exhausted = true →
      Moves wired s (.reader true) (s.leaveReader wired)
  | pass {item : T} {ends : Bool} : s.reader = .sending item → s.sink.closed = false →
      Moves wired s (.reader ends) { s with
        sink := { s.sink with queue := s.sink.queue ++ [(item, true)] }
        reader := .reading }
  | passFails {item : T} {ends : Bool} : s.reader = .sending item → s.sink.closed = true →
      Moves wired s (.reader ends) (s.leaveReader wired)
  | closed : s.shutdown = .waiting → s.sink.closed = true →
      Moves wired s .shutdown { s with shutdown := .shutting }
  | shut : s.shutdown = .shutting → Moves wired s .shutdown (s.leaveShutdown wired)
  | cancelWriter : s.writer ≠ .finished → s.abortWriter = true →
      Moves wired s .cancelWriter s.leaveWriter
  | cancelReader : s.reader ≠ .finished → s.abortReader = true →
      Moves wired s .cancelReader (s.leaveReader wired)
  | cancelShutdown : s.shutdown ≠ .finished → s.abortShutdown = true →
      Moves wired s .cancelShutdown (s.leaveShutdown wired)

theorem writerStep_moves {ok : Bool} (hs : s.writerStep ok = some s') :
    s.Moves wired (.writer ok) s' := by
  cases hwriter : s.writer with
  | receiving =>
      rcases hrecv : s.source.recv with _ | ⟨_ | item, source⟩
      · simp [writerStep, hwriter, hrecv] at hs
      · obtain ⟨hqueue, hend, -⟩ := Mpsc.recv_end hrecv
        simp only [writerStep, hwriter, hrecv, Option.some.injEq] at hs
        exact hs ▸ .takeEnd hwriter hqueue hend
      · obtain ⟨hqueue, hsource⟩ := Mpsc.recv_item hrecv
        simp only [writerStep, hwriter, hrecv, Option.some.injEq] at hs
        rw [hsource] at hs
        exact hs ▸ .take hwriter hqueue
  | writing item =>
      cases ok with
      | true =>
          simp only [writerStep, hwriter, if_true, Option.some.injEq] at hs
          exact hs ▸ .write hwriter
      | false =>
          simp only [writerStep, hwriter, Bool.false_eq_true, if_false,
            Option.ite_none_right_eq_some, Option.some.injEq] at hs
          exact hs.2 ▸ .writeFails hwriter hs.1
  | finished => simp [writerStep, hwriter] at hs

theorem readerStep_moves {ends : Bool} (hs : s.readerStep wired ends = some s') :
    s.Moves wired (.reader ends) s' := by
  cases hreader : s.reader with
  | reading =>
      cases ends with
      | true =>
          simp only [readerStep, hreader, if_true, Option.ite_none_right_eq_some,
            Option.some.injEq] at hs
          exact hs.2 ▸ .readEnd hreader hs.1
      | false =>
          cases hstream : s.stream with
          | nil => simp [readerStep, hreader, hstream] at hs
          | cons item stream =>
              simp only [readerStep, hreader, hstream, Bool.false_eq_true, if_false,
                Option.some.injEq] at hs
              exact hs ▸ .read hreader hstream
  | sending item =>
      rcases hsend : s.sink.send (item, true) with _ | ⟨_ | _, sink⟩
      · simp [readerStep, hreader, hsend] at hs
      · simp only [readerStep, hreader, hsend, Option.some.injEq] at hs
        exact hs ▸ .passFails hreader (Mpsc.send_refused hsend).1
      · obtain ⟨hopen, rfl⟩ := Mpsc.send_accepted hsend
        simp only [readerStep, hreader, hsend, Option.some.injEq] at hs
        exact hs ▸ .pass hreader hopen
  | finished => simp [readerStep, hreader] at hs

theorem shutdownStep_moves (hs : s.shutdownStep wired = some s') :
    s.Moves wired .shutdown s' := by
  cases hshutdown : s.shutdown with
  | waiting =>
      simp only [shutdownStep, hshutdown, Option.ite_none_right_eq_some,
        Option.some.injEq] at hs
      exact hs.2 ▸ .closed hshutdown hs.1
  | shutting =>
      simp only [shutdownStep, hshutdown, Option.some.injEq] at hs
      exact hs ▸ .shut hshutdown
  | finished => simp [shutdownStep, hshutdown] at hs

theorem step_moves {a : MpscAction T} (hs : s.step wired a = some s') :
    s.Moves wired a s' := by
  cases a with
  | send item =>
      simp only [step, Option.ite_none_left_eq_some] at hs
      replace hs := hs.2
      rcases hsend : s.source.send item with _ | ⟨_ | _, source⟩
      · simp [hsend] at hs
      · simp only [hsend, Option.some.injEq] at hs
        exact hs ▸ .refused (Mpsc.send_refused hsend).1
      · obtain ⟨hopen, rfl⟩ := Mpsc.send_accepted hsend
        simp only [hsend, Option.some.injEq] at hs
        exact hs ▸ .send hopen
  | cloneSender =>
      simp only [step, Option.ite_none_left_eq_some, Option.some.injEq] at hs
      exact hs.2 ▸ .cloneSender hs.1
  | dropSender =>
      simp only [step, Option.some.injEq] at hs
      exact hs ▸ .dropSender
  | localSend item =>
      simp only [step, Option.ite_none_left_eq_some, Option.map_eq_some_iff] at hs
      obtain ⟨hlocals, ⟨ok, sink⟩, hsend, rfl⟩ := hs
      cases ok with
      | false =>
          obtain ⟨hclosed, rfl⟩ := Mpsc.send_refused hsend
          exact .localRefused hclosed
      | true =>
          obtain ⟨hopen, rfl⟩ := Mpsc.send_accepted hsend
          exact .localSend hlocals hopen
  | localClone =>
      simp only [step, Option.ite_none_left_eq_some, Option.some.injEq] at hs
      exact hs.2 ▸ .localClone hs.1
  | localDrop =>
      simp only [step, Option.ite_none_left_eq_some, Option.some.injEq] at hs
      exact hs.2 ▸ .localDrop hs.1
  | recv =>
      simp only [step, Option.ite_none_left_eq_some, Bool.not_eq_true] at hs
      obtain ⟨hdropped, hs⟩ := hs
      rcases hrecv : s.sink.recv with _ | ⟨_ | item, sink⟩
      · simp [hrecv] at hs
      · obtain ⟨hqueue, hend, -⟩ := Mpsc.recv_end hrecv
        simp only [hrecv, Option.some.injEq] at hs
        exact hs ▸ .recvEnd hqueue hend
      · obtain ⟨hqueue, hsink⟩ := Mpsc.recv_item hrecv
        simp only [hrecv, Option.some.injEq] at hs
        rw [hsink] at hs
        exact hs ▸ .recv hdropped hqueue
  | close =>
      simp only [step, Option.some.injEq] at hs
      exact hs ▸ .close
  | dropReceiver =>
      simp only [step, Option.some.injEq] at hs
      exact hs ▸ .dropReceiver
  | writer ok => exact writerStep_moves hs
  | detect =>
      simp only [step, Option.ite_none_left_eq_some, Bool.not_eq_true] at hs
      obtain ⟨habort, hs⟩ := hs
      cases hshutdown : s.shutdown with
      | waiting | shutting => simp [hshutdown] at hs
      | finished =>
          simp only [hshutdown, Option.some.injEq] at hs
          rw [← hs, ← hshutdown]
          exact .detect hshutdown habort
  | reader ends => exact readerStep_moves hs
  | shutdown => exact shutdownStep_moves hs
  | cancelWriter =>
      cases hwriter : s.writer with
      | finished => simp [step, hwriter] at hs
      | receiving | writing =>
          simp only [step, hwriter, Option.ite_none_right_eq_some, Option.some.injEq] at hs
          exact hs.2 ▸ .cancelWriter (by simp [hwriter]) hs.1
  | cancelReader =>
      cases hreader : s.reader with
      | finished => simp [step, hreader] at hs
      | reading | sending =>
          simp only [step, hreader, Option.ite_none_right_eq_some, Option.some.injEq] at hs
          exact hs.2 ▸ .cancelReader (by simp [hreader]) hs.1
  | cancelShutdown =>
      cases hshutdown : s.shutdown with
      | finished => simp [step, hshutdown] at hs
      | waiting | shutting =>
          simp only [step, hshutdown, Option.ite_none_right_eq_some, Option.some.injEq] at hs
          exact hs.2 ▸ .cancelShutdown (by simp [hshutdown]) hs.1

end WiredMpsc

/-! ## Where the items are -/

/-- The item that is being written. -/
def WriteTask.held {T : Type} : WriteTask T → List T
  | .writing item => [item]
  | _ => []

/-- The senders that the task owns. -/
def DetectShutdown.senders : DetectShutdown → Nat
  | .finished => 0
  | _ => 1

/-- The items that are from the stream. -/
def remote {T : Type} (items : List (T × Bool)) : List T :=
  items.filterMap fun item => if item.2 then some item.1 else none

section

variable {T : Type}

@[simp] theorem remote_nil : remote ([] : List (T × Bool)) = [] := rfl

@[simp] theorem remote_append (l r : List (T × Bool)) :
    remote (l ++ r) = remote l ++ remote r := List.filterMap_append

@[simp] theorem remote_true (item : T) : remote [(item, true)] = [item] := rfl

@[simp] theorem remote_false (item : T) : remote [(item, false)] = [] := rfl

@[simp] theorem remote_locals (items : List T) : remote (items.map (·, false)) = [] := by
  simp [remote]

end

namespace WiredMpsc

variable {T : Type} {wired : WiredHalf} {s s' : WiredMpsc T}

/-- The items on their way, from the user who receives back to the one who sends. -/
def places (s : WiredMpsc T) : List T :=
  remote (s.received ++ s.sink.queue) ++
    (s.reader.held ++ (s.stream ++ (s.writer.held ++ s.source.queue)))

/-- What holds in every run. Until the receiver is closed or dropped no item is lost. -/
structure Inv (wired : WiredHalf) (s : WiredMpsc T) : Prop where
  order : remote (s.received ++ s.sink.queue) <+: s.accepted
  kept : s.sink.closed = false → s.places = s.accepted
  writer : s.source.closed = true ↔ s.writer = .finished
  written : s.writer = .finished → s.source.queue = []
  ended : s.sink.closed = false → s.writer = .finished → s.source.senders = 0
  reader : s.sink.closed = false → s.reader = .finished → s.writer = .finished ∧ s.stream = []
  shutting : s.shutdown = .shutting → s.sink.closed = true
  shut : s.shutdown = .finished →
    s.sink.closed = true ∨ wired = .sender ∧ s.reader = .finished
  abortWriter : s.abortWriter = true → s.shutdown = .finished
  abortReader : s.abortReader = true ↔ wired = .receiver ∧ s.shutdown = .finished
  abortShutdown : s.abortShutdown = true ↔ wired = .sender ∧ s.reader = .finished
  senders : s.sink.senders = s.locals + s.reader.senders + s.shutdown.senders
  last : s.ended = true →
    s.sink.closed = true ∨ s.sink.senders = 0 ∧ s.sink.queue = []
  dropped : s.dropped = true → s.sink.closed = true

theorem start_inv (wired : WiredHalf) (capacity remoteCapacity : Option NonZeroUsize)
    (senders : Nat) (queue : List T) :
    (wiredMpsc wired capacity remoteCapacity senders queue).init.Inv wired := by
  cases wired with
  | sender | receiver =>
      constructor <;>
        simp [wiredMpsc, places, ReadTask.held, WriteTask.held, ReadTask.senders,
          DetectShutdown.senders]

/-- Until the receiver is closed, a task that was told to end has nothing to do. -/
theorem Inv.halved (h : s.Inv wired) (hopen : s.sink.closed = false)
    (hhalved : s.halved = true) : s.writer = .finished := by
  rcases halved_iff.mp hhalved with hreader | hshutdown
  · exact (h.reader hopen hreader).1
  · rcases h.shut hshutdown with hclosed | ⟨-, hreader⟩
    · cases hopen.symm.trans hclosed
    · exact (h.reader hopen hreader).1

theorem Inv.exhausted (h : s.Inv wired) (hopen : s.sink.closed = false)
    (hexhausted : s.exhausted = true) : s.writer = .finished ∧ s.stream = [] := by
  rcases exhausted_iff.mp hexhausted with ⟨hstream, hwriter⟩ | hshutdown
  · exact ⟨hwriter, hstream⟩
  · rcases h.shut hshutdown with hclosed | ⟨-, hreader⟩
    · cases hopen.symm.trans hclosed
    · exact h.reader hopen hreader

theorem Inv.leaveWriter (h : s.Inv wired)
    (hopen : s.sink.closed = false →
      s.writer.held = [] ∧ s.source.queue = [] ∧ s.source.senders = 0) :
    s.leaveWriter.Inv wired :=
  { h with
    kept := by
      intro hsink
      obtain ⟨hheld, hqueue, -⟩ := hopen hsink
      have hkept := h.kept hsink
      simp only [places, hheld, hqueue] at hkept
      exact hkept
    writer := by simp [WiredMpsc.leaveWriter, Mpsc.dropReceiver]
    written := fun _ => rfl
    ended := fun hsink _ => (hopen hsink).2.2
    reader := fun hsink hreader => ⟨rfl, (h.reader hsink hreader).2⟩ }

theorem Inv.leaveReader (h : s.Inv wired) (hreader : s.reader ≠ .finished)
    (hopen : s.sink.closed = false →
      s.reader.held = [] ∧ s.writer = .finished ∧ s.stream = []) :
    (s.leaveReader wired).Inv wired := by
  have hsenders : s.reader.senders = 1 := by
    cases hr : s.reader with
    | finished => exact absurd hr hreader
    | reading | sending => rfl
  have htotal := h.senders
  exact { h with
    kept := by
      intro hsink
      have hkept := h.kept hsink
      simp only [places, (hopen hsink).1] at hkept
      exact hkept
    reader := fun hsink _ => (hopen hsink).2
    shut := fun hshutdown => (h.shut hshutdown).imp_right fun hs => ⟨hs.1, rfl⟩
    abortShutdown := by
      have habort : ¬ s.abortShutdown = true := fun ha => hreader (h.abortShutdown.mp ha).2
      simp [WiredMpsc.leaveReader, habort]
    senders := by
      simp only [WiredMpsc.leaveReader, Mpsc.dropSender, ReadTask.senders]
      omega
    last := fun hended => (h.last hended).imp_right fun hl => by omega }

theorem Inv.leaveShutdown (h : s.Inv wired) (hshutdown : s.shutdown ≠ .finished)
    (hwhy : s.sink.closed = true ∨ wired = .sender ∧ s.reader = .finished) :
    (s.leaveShutdown wired).Inv wired := by
  have hsenders : s.shutdown.senders = 1 := by
    cases hr : s.shutdown with
    | finished => exact absurd hr hshutdown
    | waiting | shutting => rfl
  have htotal := h.senders
  exact { h with
    shutting := nofun
    shut := fun _ => hwhy
    abortWriter := fun _ => rfl
    abortReader := by
      have habort : ¬ s.abortReader = true := fun ha => hshutdown (h.abortReader.mp ha).2
      simp [WiredMpsc.leaveShutdown, habort]
    senders := by
      simp only [WiredMpsc.leaveShutdown, Mpsc.dropSender, DetectShutdown.senders]
      omega
    last := fun hended => (h.last hended).imp_right fun hl => by omega }

theorem Inv.moves {a : MpscAction T} (h : s.Inv wired) (hm : s.Moves wired a s') :
    s'.Inv wired := by
  cases hm with
  | send hopen =>
      have hwriter : s.writer ≠ .finished := fun hw => by
        cases hopen.symm.trans (h.writer.mpr hw)
      exact { h with
        order := h.order.trans (List.prefix_append _ _)
        kept := by
          intro hsink
          have hkept := h.kept hsink
          simp only [places] at hkept ⊢
          rw [← hkept]
          simp
        written := fun hw => absurd hw hwriter
        ended := fun _ hw => absurd hw hwriter }
  | refused | localRefused => exact h
  | cloneSender hsenders =>
      exact { h with
        ended := fun hsink hw => absurd (h.ended hsink hw) hsenders }
  | dropSender =>
      exact { h with
        ended := fun hsink hw => by simp [Mpsc.dropSender, h.ended hsink hw] }
  | localSend hlocals hopen =>
      have htotal := h.senders
      exact { h with
        order := by simpa using h.order
        kept := fun hsink => by simpa [places] using h.kept hsink
        last := fun hended => (h.last hended).imp_right fun hl => by omega }
  | localClone hlocals =>
      have htotal := h.senders
      exact { h with
        senders := by simp only; omega
        last := fun hended => (h.last hended).imp_right fun hl => by omega }
  | localDrop hlocals =>
      have htotal := h.senders
      exact { h with
        senders := by simp only [Mpsc.dropSender]; omega
        last := fun hended => (h.last hended).imp_right fun hl => by omega }
  | recv hdropped hqueue =>
      exact { h with
        order := by simpa [hqueue] using h.order
        kept := fun hsink => by simpa [places, hqueue] using h.kept hsink
        last := fun hended => (h.last hended).imp_right fun hl => by simp [hqueue] at hl }
  | recvEnd hqueue hend =>
      exact { h with last := fun _ => hend.imp_right fun hsenders => ⟨hsenders, hqueue⟩ }
  | close =>
      exact { h with
        kept := by simp [Mpsc.close]
        ended := by simp [Mpsc.close]
        reader := by simp [Mpsc.close]
        shutting := fun _ => rfl
        shut := fun _ => Or.inl rfl
        last := fun _ => Or.inl rfl
        dropped := fun _ => rfl }
  | dropReceiver =>
      have hless : remote (s.received ++ []) <+: remote (s.received ++ s.sink.queue) := by simp
      exact { h with
        order := hless.trans h.order
        kept := by simp [Mpsc.dropReceiver]
        ended := by simp [Mpsc.dropReceiver]
        reader := by simp [Mpsc.dropReceiver]
        shutting := fun _ => rfl
        shut := fun _ => Or.inl rfl
        last := fun _ => Or.inl rfl
        dropped := fun _ => rfl }
  | take hwriter hqueue =>
      exact { h with
        kept := fun hsink => by
          simpa [places, WriteTask.held, hwriter, hqueue] using h.kept hsink
        writer := by simpa [hwriter] using h.writer
        written := by simp
        ended := by simp
        reader := fun hsink hreader => by
          cases hwriter.symm.trans (h.reader hsink hreader).1 }
  | takeEnd hwriter hqueue hend =>
      refine h.leaveWriter fun _ => ⟨by simp [hwriter, WriteTask.held], hqueue, ?_⟩
      refine hend.resolve_left fun hclosed => ?_
      cases hwriter.symm.trans (h.writer.mp hclosed)
  | write hwriter =>
      exact { h with
        kept := fun hsink => by
          simpa [places, WriteTask.held, hwriter] using h.kept hsink
        writer := by simpa [hwriter] using h.writer
        written := by simp
        ended := by simp
        reader := fun hsink hreader => by
          cases hwriter.symm.trans (h.reader hsink hreader).1 }
  | writeFails hwriter hhalved =>
      refine h.leaveWriter fun hopen => ?_
      cases hwriter.symm.trans (h.halved hopen hhalved)
  | detect hshutdown =>
      exact { h with abortWriter := fun _ => hshutdown }
  | read hreader hstream =>
      have habort : ¬ s.abortShutdown = true := fun ha => by
        cases hreader.symm.trans (h.abortShutdown.mp ha).2
      exact { h with
        kept := fun hsink => by
          simpa [places, ReadTask.held, hreader, hstream] using h.kept hsink
        reader := by simp
        shut := fun hshutdown => (h.shut hshutdown).imp_right fun hs => by
          cases hreader.symm.trans hs.2
        abortShutdown := by simp [habort]
        senders := by simpa [hreader, ReadTask.senders] using h.senders }
  | readEnd hreader hexhausted =>
      exact h.leaveReader (by simp [hreader]) fun hopen =>
        ⟨by simp [hreader, ReadTask.held], h.exhausted hopen hexhausted⟩
  | pass hreader hopen =>
      have hkept := h.kept hopen
      have habort : ¬ s.abortShutdown = true := fun ha => by
        cases hreader.symm.trans (h.abortShutdown.mp ha).2
      have htotal := h.senders
      simp only [hreader, ReadTask.senders] at htotal
      exact { h with
        order := by
          rw [← hkept]
          simp [places, ReadTask.held, hreader]
        kept := fun _ => by
          rw [← hkept]
          simp [places, ReadTask.held, hreader]
        reader := by simp
        shut := fun hshutdown => (h.shut hshutdown).imp_right fun hs => by
          cases hreader.symm.trans hs.2
        abortShutdown := by simp [habort]
        senders := htotal
        last := fun hended => (h.last hended).imp_right fun hl => by omega }
  | passFails hreader hclosed =>
      refine h.leaveReader (by simp [hreader]) fun hopen => ?_
      cases hopen.symm.trans hclosed
  | closed hshutdown hclosed =>
      have habort : ¬ s.abortReader = true := fun ha => by
        cases hshutdown.symm.trans (h.abortReader.mp ha).2
      exact { h with
        shutting := fun _ => hclosed
        shut := by simp
        abortWriter := fun ha => by cases hshutdown.symm.trans (h.abortWriter ha)
        abortReader := by simp [habort]
        senders := by simpa [hshutdown, DetectShutdown.senders] using h.senders }
  | shut hshutdown =>
      exact h.leaveShutdown (by simp [hshutdown]) (Or.inl (h.shutting hshutdown))
  | cancelWriter hwriter habort =>
      refine h.leaveWriter fun hopen => absurd ?_ hwriter
      exact h.halved hopen (halved_iff.mpr (Or.inr (h.abortWriter habort)))
  | cancelReader hreader habort =>
      refine h.leaveReader hreader fun hopen => absurd ?_ hreader
      rcases h.shut (h.abortReader.mp habort).2 with hclosed | ⟨-, hfinished⟩
      · cases hopen.symm.trans hclosed
      · exact hfinished
  | cancelShutdown hshutdown habort =>
      exact h.leaveShutdown hshutdown (Or.inr (h.abortShutdown.mp habort))

theorem step_eq (capacity remoteCapacity : Option NonZeroUsize) (senders : Nat)
    (queue : List T) :
    (wiredMpsc wired capacity remoteCapacity senders queue).step = step wired := by
  cases wired <;> rfl

theorem reachable_inv {capacity remoteCapacity : Option NonZeroUsize} {senders : Nat}
    {queue : List T} (h : (wiredMpsc wired capacity remoteCapacity senders queue).Reachable s) :
    s.Inv wired :=
  h.invariant (start_inv wired capacity remoteCapacity senders queue)
    fun _ _ _ hinv _ hs => hinv.moves (step_moves (step_eq (T := T) .. ▸ hs))

/-! ## At rest -/

/-- How often the tasks can still go on. -/
def left (s : WiredMpsc T) : Nat :=
  4 * s.source.queue.length + 2 * s.stream.length +
  (match s.writer with
    | .writing _ => 4
    | .receiving => 1
    | .finished => 0) +
  (match s.reader with
    | .sending _ => 2
    | .reading => 1
    | .finished => 0) +
  (match s.shutdown with
    | .waiting => 2
    | .shutting => 1
    | .finished => 0) +
  (!s.abortWriter).toNat

theorem left_leaveWriter (h : s.writer ≠ .finished) : s.leaveWriter.left < s.left := by
  cases hwriter : s.writer with
  | finished => exact absurd hwriter h
  | receiving | writing =>
      simp only [left, leaveWriter, Mpsc.dropReceiver, hwriter, List.length_nil]
      omega

theorem left_leaveReader (h : s.reader ≠ .finished) :
    (s.leaveReader wired).left < s.left := by
  cases hreader : s.reader with
  | finished => exact absurd hreader h
  | reading | sending =>
      simp only [left, leaveReader, hreader]
      omega

theorem left_leaveShutdown (h : s.shutdown ≠ .finished) :
    (s.leaveShutdown wired).left < s.left := by
  cases hshutdown : s.shutdown with
  | finished => exact absurd hshutdown h
  | waiting | shutting =>
      simp only [left, leaveShutdown, hshutdown]
      omega

theorem Moves.left {a : MpscAction T} (hm : s.Moves wired a s') (ha : a.Internal) :
    s'.left < s.left := by
  cases hm with
  | send | refused | cloneSender | dropSender | localSend | localRefused | localClone
  | localDrop | recv | recvEnd | close | dropReceiver => exact ha.elim
  | take hwriter hqueue =>
      simp only [WiredMpsc.left, hwriter, hqueue, List.length_cons]
      omega
  | takeEnd hwriter | writeFails hwriter => exact left_leaveWriter (by simp [hwriter])
  | write hwriter =>
      simp only [WiredMpsc.left, hwriter, List.length_append, List.length_singleton]
      omega
  | detect hshutdown habort => simp [WiredMpsc.left, habort]
  | read hreader hstream =>
      simp only [WiredMpsc.left, hreader, hstream, List.length_cons]
      omega
  | readEnd hreader | passFails hreader => exact left_leaveReader (by simp [hreader])
  | pass hreader => simp [WiredMpsc.left, hreader]
  | closed hshutdown => simp [WiredMpsc.left, hshutdown]
  | shut hshutdown => exact left_leaveShutdown (by simp [hshutdown])
  | cancelWriter hwriter => exact left_leaveWriter hwriter
  | cancelReader hreader => exact left_leaveReader hreader
  | cancelShutdown hshutdown => exact left_leaveShutdown hshutdown

theorem settles_alone {capacity remoteCapacity : Option NonZeroUsize} {senders : Nat}
    {queue : List T} :
    (wiredMpsc wired capacity remoteCapacity senders queue).Settles MpscAction.Internal :=
  Machine.settles_of_measure left fun _ _ _ ha hs =>
    (step_moves (step_eq (T := T) .. ▸ hs)).left ha

/-- No task can go on. -/
def Resting (wired : WiredHalf) (s : WiredMpsc T) : Prop :=
  ∀ a, a.Internal → s.step wired a = none

/-- With room at the receiver, what was written has been passed on. -/
theorem Inv.rest (h : s.Inv wired) (hrest : s.Resting wired) (hopen : s.sink.closed = false)
    (hroom : s.sink.full = false) :
    s.reader.held = [] ∧ s.stream = [] ∧ s.writer.held = [] ∧ s.source.queue = [] := by
  have hread : s.readerStep wired false = none := hrest (.reader false) trivial
  have hwrite : s.writerStep true = none := hrest (.writer true) trivial
  have hreader : s.reader.held = [] ∧ s.stream = [] := by
    cases hreader : s.reader with
    | reading =>
        refine ⟨rfl, ?_⟩
        cases hstream : s.stream with
        | nil => rfl
        | cons item stream => simp [readerStep, hreader, hstream] at hread
    | sending item =>
        simp [readerStep, hreader, Mpsc.send_of_room hopen hroom] at hread
    | finished => exact ⟨rfl, (h.reader hopen hreader).2⟩
  refine ⟨hreader.1, hreader.2, ?_⟩
  cases hwriter : s.writer with
  | receiving =>
      refine ⟨rfl, ?_⟩
      cases hqueue : s.source.queue with
      | nil => rfl
      | cons item queue => simp [writerStep, hwriter, Mpsc.recv, hqueue] at hwrite
  | writing item => simp [writerStep, hwriter] at hwrite
  | finished => exact ⟨rfl, h.written hwriter⟩

/-- The end has been passed on as well. -/
theorem Inv.rest_ended (h : s.Inv wired) (hrest : s.Resting wired)
    (hopen : s.sink.closed = false) (hroom : s.sink.full = false)
    (hsenders : s.source.senders = 0) :
    s.writer = .finished ∧ s.reader = .finished ∧
      (s.shutdown = .finished ↔ wired = .sender) := by
  obtain ⟨-, hstream, -, hqueue⟩ := h.rest hrest hopen hroom
  have hwriter : s.writer = .finished := by
    have hwrite : s.writerStep true = none := hrest (.writer true) trivial
    cases hwriter : s.writer with
    | receiving => simp [writerStep, hwriter, Mpsc.recv, hqueue, hsenders] at hwrite
    | writing item => simp [writerStep, hwriter] at hwrite
    | finished => rfl
  have hreader : s.reader = .finished := by
    have hread : s.readerStep wired true = none := hrest (.reader true) trivial
    have hexhausted := exhausted_iff.mpr (Or.inl ⟨hstream, hwriter⟩)
    cases hreader : s.reader with
    | reading => simp [readerStep, hreader, hexhausted] at hread
    | sending item => simp [readerStep, hreader, Mpsc.send_of_room hopen hroom] at hread
    | finished => rfl
  refine ⟨hwriter, hreader, fun hshutdown => ?_, fun hwired => ?_⟩
  · rcases h.shut hshutdown with hclosed | ⟨hwired, -⟩
    · cases hopen.symm.trans hclosed
    · exact hwired
  · have hcancel : s.step wired .cancelShutdown = none := hrest .cancelShutdown trivial
    have habort := h.abortShutdown.mpr ⟨hwired, hreader⟩
    cases hshutdown : s.shutdown with
    | waiting | shutting => simp [step, hshutdown, habort] at hcancel
    | finished => rfl

/-- A receiver that was closed has ended all four tasks. -/
theorem Resting.closed (hrest : s.Resting wired) (hclosed : s.sink.closed = true) :
    s.shutdown = .finished ∧ s.abortWriter = true ∧ s.writer = .finished ∧
      s.reader = .finished := by
  have hshutdown : s.shutdown = .finished := by
    have hstep : s.shutdownStep wired = none := hrest .shutdown trivial
    cases hshutdown : s.shutdown with
    | waiting => simp [shutdownStep, hshutdown, hclosed] at hstep
    | shutting => simp [shutdownStep, hshutdown] at hstep
    | finished => rfl
  have habort : s.abortWriter = true := by
    have hdetect : s.step wired .detect = none := hrest .detect trivial
    simpa [step, hshutdown] using hdetect
  refine ⟨hshutdown, habort, ?_, ?_⟩
  · have hcancel : s.step wired .cancelWriter = none := hrest .cancelWriter trivial
    cases hwriter : s.writer with
    | receiving | writing => simp [step, hwriter, habort] at hcancel
    | finished => rfl
  · have hread : s.readerStep wired true = none := hrest (.reader true) trivial
    have hexhausted := exhausted_iff.mpr (Or.inr hshutdown)
    cases hreader : s.reader with
    | reading => simp [readerStep, hreader, hexhausted] at hread
    | sending item => simp [readerStep, hreader, Mpsc.send, hclosed] at hread
    | finished => rfl

/-- What has become of the items, of the end and of a receiver that was closed. -/
structure Passed (wired : WiredHalf) (s : WiredMpsc T) : Prop where
  items : s.sink.closed = false → s.sink.full = false →
    remote (s.received ++ s.sink.queue) = s.accepted
  /-- If it was the receiver that was wired, the task that waits for a receiver to close
  still has a sender, and the one that waits for it to shut down waits too. -/
  ended : s.sink.closed = false → s.sink.full = false → s.source.senders = 0 →
    s.writer = .finished ∧ s.reader = .finished ∧
      (s.shutdown = .finished ↔ wired = .sender) ∧ (s.abortWriter = true ↔ wired = .sender) ∧
      s.sink.senders = s.locals + if wired = .sender then 0 else 1
  told : s.sink.closed = true → s.source.closed = true ∧
    s.writer = .finished ∧ s.reader = .finished ∧ s.shutdown = .finished ∧ s.abortWriter = true

theorem Inv.passed (h : s.Inv wired) (hrest : s.Resting wired) : s.Passed wired where
  items := by
    intro hopen hroom
    obtain ⟨hheld, hstream, hwriting, hqueue⟩ := h.rest hrest hopen hroom
    simpa [places, hheld, hstream, hwriting, hqueue] using h.kept hopen
  ended := by
    intro hopen hroom hsenders
    obtain ⟨hwriter, hreader, hshutdown⟩ := h.rest_ended hrest hopen hroom hsenders
    have hdetect : s.step wired .detect = none := hrest .detect trivial
    refine ⟨hwriter, hreader, hshutdown, ⟨fun ha => hshutdown.mp (h.abortWriter ha), ?_⟩, ?_⟩
    · intro hwired
      simpa [step, hshutdown.mpr hwired] using hdetect
    rw [h.senders, hreader]
    cases hs : s.shutdown with
    | finished => simp [ReadTask.senders, DetectShutdown.senders, hshutdown.mp hs]
    | waiting | shutting =>
        have hwired : wired ≠ .sender := fun hw => by cases hs.symm.trans (hshutdown.mpr hw)
        simp [ReadTask.senders, DetectShutdown.senders, hwired]
  told := by
    intro hclosed
    obtain ⟨hshutdown, habort, hwriter, hreader⟩ := hrest.closed hclosed
    exact ⟨h.writer.mpr hwriter, hwriter, hreader, hshutdown, habort⟩

end WiredMpsc

section

variable {T : Type} {wired : WiredHalf} {capacity remoteCapacity : Option NonZeroUsize}
variable {senders : Nat} {queue : List T} {s : WiredMpsc T}

/-- **An mpsc channel across a stream.** Whichever end was wired, what the user receives
from the stream is what was sent, in order, and without a gap, whatever the tasks, the
senders and the receiver do. The end is never early: a user who has not closed the
receiver is told it after everything that was sent, and with all senders gone. -/
theorem mpsc_in_order
    (h : (wiredMpsc wired capacity remoteCapacity senders queue).Reachable s) :
    remote s.received <+: s.accepted ∧
    (s.sink.closed = false → s.ended = true →
      remote s.received = s.accepted ∧ s.source.senders = 0) := by
  have hinv := WiredMpsc.reachable_inv h
  refine ⟨?_, ?_⟩
  · have hless : remote s.received <+: remote (s.received ++ s.sink.queue) := by simp
    exact hless.trans hinv.order
  · intro hopen hended
    obtain ⟨hnone, hqueue⟩ := (hinv.last hended).resolve_left (by simp [hopen])
    have htotal := hinv.senders
    have hreader : s.reader = .finished := by
      cases hr : s.reader with
      | finished => rfl
      | reading | sending =>
          simp only [hr, ReadTask.senders] at htotal
          omega
    obtain ⟨hwriter, hstream⟩ := hinv.reader hopen hreader
    have hkept := hinv.kept hopen
    rw [WiredMpsc.places, hqueue, hreader, hstream, hwriter, hinv.written hwriter] at hkept
    refine ⟨?_, hinv.ended hopen hwriter⟩
    simpa [ReadTask.held, WriteTask.held] using hkept

/-- An item and the end come through. -/
theorem mpsc_in_order_one :
    remote ((wiredMpsc (T := Nat) .sender none none 0 []).run
      [.send 7, .writer true, .writer true, .reader false, .reader false, .recv, .dropSender,
        .writer true, .reader true, .cancelShutdown, .recv]).received = [7] :=
  ((mpsc_in_order (Machine.reachableBy_run fun _ _ _ => trivial)).2 rfl rfl).1

/-- **At rest.** The tasks of a channel across a stream come to rest. Then what was sent
is at the receiver, unless there is no room; if all senders are gone so are the tasks,
but if the receiver was wired the two that wait for it to close still wait; and if the
receiver was closed all of them are gone, and the senders know. -/
theorem mpsc_settles
    (h : (wiredMpsc wired capacity remoteCapacity senders queue).Reachable s) :
    (wiredMpsc wired capacity remoteCapacity senders queue).Settles MpscAction.Internal ∧
    ((wiredMpsc wired capacity remoteCapacity senders queue).AtRest MpscAction.Internal s →
      s.Passed wired) := by
  refine ⟨WiredMpsc.settles_alone, fun hrest => ?_⟩
  rw [Machine.AtRest, WiredMpsc.step_eq] at hrest
  exact (WiredMpsc.reachable_inv h).passed hrest

/-- The receiver is dropped, and the tasks end. -/
theorem mpsc_settles_dropped :
    ((wiredMpsc .receiver none none 1 [7]).run
      [.dropReceiver, .shutdown, .shutdown, .detect, .cancelWriter, .cancelReader]).Passed
        .receiver := by
  refine (mpsc_settles (Machine.reachableBy_run fun _ _ _ => trivial)).2 ?_
  intro a ha
  cases a with
  | send | cloneSender | dropSender | localSend | localClone | localDrop | recv | close
  | dropReceiver => exact ha.elim
  | writer ok => rfl
  | reader ends => rfl
  | detect | shutdown | cancelWriter | cancelReader | cancelShutdown => rfl

end

end WiringRs
