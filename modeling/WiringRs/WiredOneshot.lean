import WiringRs.Lib.Oneshot
import WiringRs.Lib.Rest

/-!
# A oneshot channel across a stream

Either end of a oneshot channel can be sent to a remote. Two tasks then take its place:
one has the receiver of the channel whose sender a user holds, and writes the value on a
stream of its own; the other one reads it there and sends it on to the user who holds a
receiver. If a sender was wired, the second task is that of `Sender::wiring` and the
first one that of `Sender::unwiring`; if a receiver was, they are those of
`Receiver::unwiring` and `Receiver::wiring`. Each also waits for the other side to go
away. A task that ends drops its end of the stream, after shutting it down in some of
the four.
-/

namespace WiringRs

/-- The task with the receiver. -/
inductive OneshotWriter (T : Type) where
  /-- `tokio::select!` -/
  | selecting
  /-- `w.wire(item).await` -/
  | writing (item : T)
  | finished

/-- The task with the sender. -/
inductive OneshotReader where
  /-- `tokio::select!` -/
  | selecting
  | finished

structure WiredOneshot (T : Type) where
  /-- The channel of the user who sends. -/
  source : Oneshot T := {}
  /-- The channel of the user who receives. -/
  sink : Oneshot T := {}
  writer : OneshotWriter T := .selecting
  reader : OneshotReader := .selecting
  /-- What is on the stream. -/
  stream : List T := []
  /-- The value whose send returned `Ok`. -/
  sent : Option T := none
  received : Option T := none
  /-- The user has received the error. -/
  failed : Bool := false
  /-- The user has dropped the receiver instead. -/
  dropped : Bool := false

inductive OneshotAction (T : Type) where
  | send (item : T)
  | dropSender
  | recv
  | dropReceiver
  /-- `gone` is the branch of the select, or that the write fails. -/
  | writer (gone : Bool)
  /-- `closed` is the branch of the select. -/
  | reader (closed : Bool)

namespace WiredOneshot

variable {T : Type}

/-- The task drops the receiver, and its end of the stream. -/
def leaveWriter (s : WiredOneshot T) : WiredOneshot T :=
  { s with writer := .finished, source := s.source.dropReceiver }

/-- Nothing comes from the other end but its end. -/
def writerStep (s : WiredOneshot T) (gone : Bool) : Option (WiredOneshot T) :=
  match s.writer with
  | .selecting =>
      if gone then
        match s.reader with
        | .finished => some s.leaveWriter
        | .selecting => none
      else
        match s.source.recv with
        | some (some item, source) => some { s with source := source, writer := .writing item }
        | some (none, source) => some { s with source := source, writer := .finished }
        | none => none
  | .writing item =>
      if gone then
        match s.reader with
        | .finished => some { s with writer := .finished }
        | .selecting => none
      else some { s with stream := s.stream ++ [item], writer := .finished }
  | .finished => none

def readerStep (s : WiredOneshot T) (closed : Bool) : Option (WiredOneshot T) :=
  match s.reader with
  | .selecting =>
      if closed then
        if s.sink.receiverGone then
          some { s with reader := .finished, sink := s.sink.dropSender }
        else none
      else
        match s.stream, s.writer with
        | item :: stream, _ =>
            some { s with stream := stream, reader := .finished, sink := (s.sink.send item).2 }
        | [], .finished => some { s with reader := .finished, sink := s.sink.dropSender }
        | [], _ => none
  | .finished => none

def step (s : WiredOneshot T) : OneshotAction T → Option (WiredOneshot T)
  | .send item =>
      if s.source.senderGone then none
      else match s.source.send item with
        | (true, source) => some { s with source := source, sent := some item }
        | (false, source) => some { s with source := source }
  | .dropSender =>
      if s.source.senderGone then none else some { s with source := s.source.dropSender }
  | .recv =>
      match s.sink.recv with
      | some (some item, sink) => some { s with sink := sink, received := some item }
      | some (none, sink) => some { s with sink := sink, failed := true }
      | none => none
  | .dropReceiver =>
      if s.sink.receiverGone then none
      else some { s with sink := s.sink.dropReceiver, dropped := true }
  | .writer gone => s.writerStep gone
  | .reader closed => s.readerStep closed

end WiredOneshot

def wiredOneshot (T : Type) : Machine (WiredOneshot T) (OneshotAction T) :=
  ⟨{}, WiredOneshot.step⟩

/-- What the two tasks do. -/
def OneshotAction.Internal {T : Type} : OneshotAction T → Prop
  | .writer _ | .reader _ => True
  | _ => False

/-! ## The steps -/

namespace WiredOneshot

variable {T : Type} {s s' : WiredOneshot T}

/-- The steps, with what they need and what they change. -/
inductive Moves (s : WiredOneshot T) : OneshotAction T → WiredOneshot T → Prop
  | send {item : T} : s.source.senderGone = false → s.source.receiverGone = false →
      Moves s (.send item) { s with
        source := { s.source with value := some item, senderGone := true }
        sent := some item }
  | refused {item : T} : s.source.senderGone = false → s.source.receiverGone = true →
      Moves s (.send item) { s with source := s.source.dropSender }
  | dropSender : s.source.senderGone = false →
      Moves s .dropSender { s with source := s.source.dropSender }
  | recv {item : T} : s.sink.receiverGone = false → s.sink.value = some item →
      Moves s .recv { s with sink := s.sink.dropReceiver, received := some item }
  | recvEnd : s.sink.receiverGone = false → s.sink.value = none → s.sink.senderGone = true →
      Moves s .recv { s with sink := s.sink.dropReceiver, failed := true }
  | dropReceiver : s.sink.receiverGone = false →
      Moves s .dropReceiver { s with sink := s.sink.dropReceiver, dropped := true }
  | writerGone : s.writer = .selecting → s.reader = .finished →
      Moves s (.writer true) s.leaveWriter
  | take {item : T} : s.writer = .selecting → s.source.value = some item →
      Moves s (.writer false) { s with source := s.source.dropReceiver, writer := .writing item }
  | takeEnd : s.writer = .selecting → s.source.value = none → s.source.senderGone = true →
      Moves s (.writer false) s.leaveWriter
  | write {item : T} : s.writer = .writing item →
      Moves s (.writer false) { s with stream := s.stream ++ [item], writer := .finished }
  | writeFails {item : T} : s.writer = .writing item → s.reader = .finished →
      Moves s (.writer true) { s with writer := .finished }
  | closed : s.reader = .selecting → s.sink.receiverGone = true →
      Moves s (.reader true) { s with reader := .finished, sink := s.sink.dropSender }
  | read {item : T} {stream : List T} : s.reader = .selecting → s.stream = item :: stream →
      Moves s (.reader false) { s with
        stream := stream
        reader := .finished
        sink := (s.sink.send item).2 }
  | readEnd : s.reader = .selecting → s.stream = [] → s.writer = .finished →
      Moves s (.reader false) { s with reader := .finished, sink := s.sink.dropSender }

theorem writerStep_moves {gone : Bool} (hs : s.writerStep gone = some s') :
    s.Moves (.writer gone) s' := by
  cases hwriter : s.writer with
  | selecting =>
      cases gone with
      | true =>
          cases hreader : s.reader with
          | selecting => simp [writerStep, hwriter, hreader] at hs
          | finished =>
              simp only [writerStep, hwriter, hreader, if_true, Option.some.injEq] at hs
              exact hs ▸ .writerGone hwriter hreader
      | false =>
          rcases hrecv : s.source.recv with _ | ⟨_ | item, source⟩
          · simp [writerStep, hwriter, hrecv] at hs
          · obtain ⟨-, hvalue, hgone, rfl⟩ := Oneshot.recv_end hrecv
            simp only [writerStep, hwriter, hrecv, Bool.false_eq_true, if_false,
              Option.some.injEq] at hs
            exact hs ▸ .takeEnd hwriter hvalue hgone
          · obtain ⟨-, hvalue, rfl⟩ := Oneshot.recv_value hrecv
            simp only [writerStep, hwriter, hrecv, Bool.false_eq_true, if_false,
              Option.some.injEq] at hs
            exact hs ▸ .take hwriter hvalue
  | writing item =>
      cases gone with
      | true =>
          cases hreader : s.reader with
          | selecting => simp [writerStep, hwriter, hreader] at hs
          | finished =>
              simp only [writerStep, hwriter, hreader, if_true, Option.some.injEq] at hs
              rw [← hs, ← hreader]
              exact .writeFails hwriter hreader
      | false =>
          simp only [writerStep, hwriter, Bool.false_eq_true, if_false, Option.some.injEq] at hs
          exact hs ▸ .write hwriter
  | finished => simp [writerStep, hwriter] at hs

theorem readerStep_moves {closed : Bool} (hs : s.readerStep closed = some s') :
    s.Moves (.reader closed) s' := by
  cases hreader : s.reader with
  | finished => simp [readerStep, hreader] at hs
  | selecting =>
      cases closed with
      | true =>
          simp only [readerStep, hreader, if_true, Option.ite_none_right_eq_some,
            Option.some.injEq] at hs
          exact hs.2 ▸ .closed hreader hs.1
      | false =>
          cases hstream : s.stream with
          | cons item stream =>
              simp only [readerStep, hreader, hstream, Bool.false_eq_true, if_false,
                Option.some.injEq] at hs
              exact hs ▸ .read hreader hstream
          | nil =>
              cases hwriter : s.writer with
              | selecting | writing => simp [readerStep, hreader, hstream, hwriter] at hs
              | finished =>
                  simp only [readerStep, hreader, hstream, hwriter, Bool.false_eq_true,
                    if_false, Option.some.injEq] at hs
                  rw [← hs, ← hwriter, ← hstream]
                  exact .readEnd hreader hstream hwriter

theorem step_moves {a : OneshotAction T} (hs : s.step a = some s') : s.Moves a s' := by
  cases a with
  | send item =>
      cases hsender : s.source.senderGone with
      | true => simp [step, hsender] at hs
      | false =>
          cases hreceiver : s.source.receiverGone with
          | true =>
              simp only [step, hsender, Oneshot.send_refused hreceiver, Bool.false_eq_true,
                if_false, Option.some.injEq] at hs
              exact hs ▸ .refused hsender hreceiver
          | false =>
              simp only [step, hsender, Oneshot.send_accepted hreceiver, Bool.false_eq_true,
                if_false, Option.some.injEq] at hs
              exact hs ▸ .send hsender hreceiver
  | dropSender =>
      simp only [step, Option.ite_none_left_eq_some, Bool.not_eq_true, Option.some.injEq] at hs
      exact hs.2 ▸ .dropSender hs.1
  | recv =>
      rcases hrecv : s.sink.recv with _ | ⟨_ | item, sink⟩
      · simp [step, hrecv] at hs
      · obtain ⟨hreceiver, hvalue, hgone, rfl⟩ := Oneshot.recv_end hrecv
        simp only [step, hrecv, Option.some.injEq] at hs
        exact hs ▸ .recvEnd hreceiver hvalue hgone
      · obtain ⟨hreceiver, hvalue, rfl⟩ := Oneshot.recv_value hrecv
        simp only [step, hrecv, Option.some.injEq] at hs
        exact hs ▸ .recv hreceiver hvalue
  | dropReceiver =>
      simp only [step, Option.ite_none_left_eq_some, Bool.not_eq_true, Option.some.injEq] at hs
      exact hs.2 ▸ .dropReceiver hs.1
  | writer gone => exact writerStep_moves hs
  | reader closed => exact readerStep_moves hs

end WiredOneshot

/-! ## Where the value is -/

/-- The value that is being written. -/
def OneshotWriter.held {T : Type} : OneshotWriter T → List T
  | .writing item => [item]
  | _ => []

namespace OneshotWriter

variable {T : Type}

@[simp] theorem held_selecting : held (.selecting : OneshotWriter T) = [] := rfl

@[simp] theorem held_writing (item : T) : held (.writing item) = [item] := rfl

@[simp] theorem held_finished : held (.finished : OneshotWriter T) = [] := rfl

end OneshotWriter

namespace WiredOneshot

variable {T : Type} {s s' : WiredOneshot T}

/-- Where the value can be, from the receiver back to the sender. -/
def places (s : WiredOneshot T) : List T :=
  s.received.toList ++ (s.sink.value.toList ++ (s.stream ++
    (s.writer.held ++ s.source.value.toList)))

/-- The value is in one place. It is lost only if the receiver has been dropped. -/
structure Inv (s : WiredOneshot T) : Prop where
  source : s.source.receiverGone = true ↔ s.writer ≠ .selecting
  value : s.source.value ≠ none → s.source.senderGone = true ∧ s.writer = .selecting
  sent : s.sent ≠ none → s.source.senderGone = true
  stream : s.stream ≠ [] → s.writer = .finished
  sink : s.sink.senderGone = true ↔ s.reader = .finished
  arrived : s.sink.value ≠ none → s.reader = .finished ∧ s.sink.receiverGone = false
  received : s.received ≠ none ∨ s.failed = true →
    s.reader = .finished ∧ s.sink.receiverGone = true
  gone : s.sink.receiverGone = true → s.dropped = true ∨ s.received ≠ none ∨ s.failed = true
  dropped : s.dropped = true → s.sink.receiverGone = true
  once : s.places.Sublist s.sent.toList
  kept : s.dropped = false → s.places = s.sent.toList
  writer : s.dropped = false → s.writer ≠ .selecting → s.source.senderGone = true
  reader : s.dropped = false → s.reader = .finished → s.writer = .finished ∧ s.stream = []
  failed : s.failed = true → s.sent = none ∧ s.source.senderGone = true

theorem sublist_of_eq {l r : List T} (h : l = r) : l.Sublist r := h ▸ List.Sublist.refl l

theorem Inv.start : Inv ({} : WiredOneshot T) where
  source := by simp
  value := by simp
  sent := by simp
  stream := by simp
  sink := by simp
  arrived := by simp
  received := by simp
  gone := by simp
  dropped := by simp
  once := List.Sublist.refl _
  kept _ := rfl
  writer := by simp
  reader := by simp
  failed := by simp

/-- Before the user has sent anything, there is nothing anywhere. -/
theorem Inv.unsent (h : s.Inv) (hsender : s.source.senderGone = false) :
    s.sent = none ∧ s.places = [] := by
  have hsent : s.sent = none := by
    by_contra hne
    cases hsender.symm.trans (h.sent hne)
  refine ⟨hsent, List.eq_nil_of_sublist_nil ?_⟩
  simpa [hsent] using h.once

/-- The tasks keep the value to themselves while the receiver is there. -/
theorem Inv.waiting (h : s.Inv) (hreader : s.reader = .selecting) :
    s.sink.value = none ∧ s.received = none ∧ s.failed = false := by
  refine ⟨?_, ?_, ?_⟩
  · by_contra hne
    cases hreader.symm.trans (h.arrived hne).1
  · by_contra hne
    cases hreader.symm.trans (h.received (Or.inl hne)).1
  · by_contra hne
    cases hreader.symm.trans (h.received (Or.inr (by simpa using hne))).1

/-- A receiver that is gone before the value has come was dropped. -/
theorem Inv.lost (h : s.Inv) (hreader : s.reader = .selecting)
    (hgone : s.sink.receiverGone = true) : s.dropped = true := by
  obtain ⟨-, hreceived, hfailed⟩ := h.waiting hreader
  rcases h.gone hgone with hd | hr | hf
  · exact hd
  · exact absurd hreceived hr
  · cases hfailed.symm.trans hf

theorem Inv.moves {a : OneshotAction T} (h : s.Inv) (hm : s.Moves a s') : s'.Inv := by
  cases hm with
  | @send item hsender hreceiver =>
      obtain ⟨hsent, hplaces⟩ := h.unsent hsender
      have hwriter : s.writer = .selecting := by
        by_contra hne
        cases hreceiver.symm.trans (h.source.mpr hne)
      simp only [WiredOneshot.places, List.append_eq_nil_iff] at hplaces
      obtain ⟨hreceived, hvalue, hstream, hheld, -⟩ := hplaces
      have hnew : places { s with
          source := { s.source with value := some item, senderGone := true }
          sent := some item } = [item] := by
        simp [WiredOneshot.places, hreceived, hvalue, hstream, hheld]
      exact { h with
        value := fun _ => ⟨rfl, hwriter⟩
        sent := fun _ => rfl
        once := sublist_of_eq hnew
        kept := fun _ => hnew
        writer := fun _ _ => rfl
        failed := fun hf => by cases hsender.symm.trans (h.failed hf).2 }
  | refused hsender | dropSender hsender =>
      exact { h with
        value := fun hne => ⟨rfl, (h.value hne).2⟩
        sent := fun _ => rfl
        writer := fun _ _ => rfl
        failed := fun hf => ⟨(h.failed hf).1, rfl⟩ }
  | @recv item hreceiver hvalue =>
      have hreader := (h.arrived (by simp [hvalue])).1
      have hreceived : s.received = none := by
        by_contra hne
        cases hreceiver.symm.trans (h.received (Or.inl hne)).2
      have hplaces : places { s with sink := s.sink.dropReceiver, received := some item }
          = s.places := by
        simp [WiredOneshot.places, Oneshot.dropReceiver, hvalue, hreceived]
      exact { h with
        arrived := nofun
        received := fun _ => ⟨hreader, rfl⟩
        gone := fun _ => Or.inr (Or.inl nofun)
        dropped := fun _ => rfl
        once := hplaces ▸ h.once
        kept := fun hd => hplaces.trans (h.kept hd) }
  | recvEnd hreceiver hvalue hgone =>
      have hreader := h.sink.mp hgone
      have hdropped : s.dropped = false := by
        by_contra hd
        cases hreceiver.symm.trans (h.dropped (by simpa using hd))
      obtain ⟨hwriter, hstream⟩ := h.reader hdropped hreader
      have hnone : s.source.value = none := by
        by_contra hne
        cases hwriter.symm.trans (h.value hne).2
      have hreceived : s.received = none := by
        by_contra hne
        cases hreceiver.symm.trans (h.received (Or.inl hne)).2
      have hplaces : places { s with sink := s.sink.dropReceiver, failed := true } = s.places := by
        simp [WiredOneshot.places, Oneshot.dropReceiver, hvalue]
      have hsent : s.sent = none := by
        have hkept := h.kept hdropped
        rw [WiredOneshot.places, hreceived, hvalue, hstream, hwriter, hnone] at hkept
        simpa using hkept.symm
      have hsender := h.writer hdropped (by rw [hwriter]; nofun)
      exact { h with
        arrived := nofun
        received := fun _ => ⟨hreader, rfl⟩
        gone := fun _ => Or.inr (Or.inr rfl)
        dropped := fun _ => rfl
        once := hplaces ▸ h.once
        kept := fun hd => hplaces.trans (h.kept hd)
        failed := fun _ => ⟨hsent, hsender⟩ }
  | dropReceiver hreceiver =>
      exact { h with
        arrived := nofun
        received := fun hr => ⟨(h.received hr).1, rfl⟩
        gone := fun _ => Or.inl rfl
        dropped := fun _ => rfl
        once := by
          refine List.Sublist.trans ?_ h.once
          simp [WiredOneshot.places, Oneshot.dropReceiver]
        kept := nofun
        writer := nofun
        reader := nofun }
  | writerGone hwriter hreader =>
      have hdropped : s.dropped = true := by
        by_contra hd
        cases hwriter.symm.trans (h.reader (by simpa using hd) hreader).1
      have hplaces : s.leaveWriter.places.Sublist s.places := by
        simp [WiredOneshot.places, leaveWriter, Oneshot.dropReceiver, hwriter]
      exact { h with
        source := by simp [leaveWriter, Oneshot.dropReceiver]
        value := fun hne => absurd rfl hne
        stream := fun _ => rfl
        once := hplaces.trans h.once
        kept := fun hd => by cases hdropped.symm.trans hd
        writer := fun hd => by cases hdropped.symm.trans hd
        reader := fun hd => by cases hdropped.symm.trans hd }
  | @take item hwriter hvalue =>
      have hsender := (h.value (by simp [hvalue])).1
      have hplaces : places { s with
          source := s.source.dropReceiver
          writer := .writing item } = s.places := by
        simp [WiredOneshot.places, Oneshot.dropReceiver, hwriter, hvalue]
      exact { h with
        source := by simp [Oneshot.dropReceiver]
        value := fun hne => absurd rfl hne
        stream := fun hne => by cases hwriter.symm.trans (h.stream hne)
        once := hplaces ▸ h.once
        kept := fun hd => hplaces.trans (h.kept hd)
        writer := fun _ _ => hsender
        reader := fun hd hr => by cases hwriter.symm.trans (h.reader hd hr).1 }
  | takeEnd hwriter hvalue hgone =>
      have hplaces : s.leaveWriter.places = s.places := by
        simp [WiredOneshot.places, leaveWriter, Oneshot.dropReceiver, hwriter, hvalue]
      exact { h with
        source := by simp [leaveWriter, Oneshot.dropReceiver]
        value := fun hne => absurd rfl hne
        stream := fun _ => rfl
        once := hplaces ▸ h.once
        kept := fun hd => hplaces.trans (h.kept hd)
        writer := fun _ _ => hgone
        reader := fun hd hr => by cases hwriter.symm.trans (h.reader hd hr).1 }
  | @write item hwriter =>
      have hstream : s.stream = [] := by
        by_contra hne
        cases hwriter.symm.trans (h.stream hne)
      have hplaces : places { s with stream := s.stream ++ [item], writer := .finished }
          = s.places := by
        simp [WiredOneshot.places, hwriter]
      have hne : s.writer ≠ .selecting := by
        rw [hwriter]
        nofun
      exact { h with
        source := by simpa [hwriter] using h.source
        value := fun hv => absurd (h.value hv).2 hne
        stream := fun _ => rfl
        once := hplaces ▸ h.once
        kept := fun hd => hplaces.trans (h.kept hd)
        writer := fun hd _ => h.writer hd hne
        reader := fun hd hr => by cases hwriter.symm.trans (h.reader hd hr).1 }
  | @writeFails item hwriter hreader =>
      have hne : s.writer ≠ .selecting := by
        rw [hwriter]
        nofun
      have hdropped : s.dropped = true := by
        by_contra hd
        cases hwriter.symm.trans (h.reader (by simpa using hd) hreader).1
      have hplaces : (places { s with writer := .finished }).Sublist s.places := by
        simp [WiredOneshot.places, hwriter]
      exact { h with
        source := by simpa [hwriter] using h.source
        value := fun hv => absurd (h.value hv).2 hne
        stream := fun _ => rfl
        once := hplaces.trans h.once
        kept := fun hd => by cases hdropped.symm.trans hd
        writer := fun hd => by cases hdropped.symm.trans hd
        reader := fun hd => by cases hdropped.symm.trans hd }
  | closed hreader hgone =>
      have hdropped := h.lost hreader hgone
      exact { h with
        sink := by simp [Oneshot.dropSender]
        arrived := fun hne => absurd (h.waiting hreader).1 hne
        received := fun hr => ⟨rfl, (h.received hr).2⟩
        reader := fun hd => by cases hdropped.symm.trans hd }
  | @read item stream hreader hstream =>
      have hwriter := h.stream (by simp [hstream])
      obtain ⟨hvalue, hreceived, hfailed⟩ := h.waiting hreader
      have hrest : stream = [] := by
        have hlen := h.once.length_le
        cases hsent : s.sent <;> simp [WiredOneshot.places, hstream, hsent] at hlen
        exact List.eq_nil_of_length_eq_zero (by omega)
      cases hgone : s.sink.receiverGone with
      | true =>
          have hdropped := h.lost hreader hgone
          rw [Oneshot.send_refused hgone]
          exact { h with
            stream := fun _ => hwriter
            sink := by simp [Oneshot.dropSender]
            arrived := fun hne => absurd hvalue hne
            received := fun hr => ⟨rfl, (h.received hr).2⟩
            once := by
              refine List.Sublist.trans ?_ h.once
              simp [WiredOneshot.places, Oneshot.dropSender, hstream]
            kept := fun hd => by cases hdropped.symm.trans hd
            reader := fun hd => by cases hdropped.symm.trans hd }
      | false =>
          rw [Oneshot.send_accepted hgone]
          have hplaces : places { s with
              stream := stream
              reader := .finished
              sink := { s.sink with value := some item, senderGone := true } } = s.places := by
            simp [WiredOneshot.places, hstream, hvalue, hreceived]
          exact { h with
            stream := fun _ => hwriter
            sink := by simp
            arrived := fun _ => ⟨rfl, hgone⟩
            received := fun hr => ⟨rfl, (h.received hr).2⟩
            once := hplaces ▸ h.once
            kept := fun hd => hplaces.trans (h.kept hd)
            reader := fun _ _ => ⟨hwriter, hrest⟩ }
  | readEnd hreader hstream hwriter =>
      exact { h with
        sink := by simp [Oneshot.dropSender]
        arrived := fun hne => absurd (h.waiting hreader).1 hne
        received := fun hr => ⟨rfl, (h.received hr).2⟩
        reader := fun _ _ => ⟨hwriter, hstream⟩ }

theorem reachable_inv (h : (wiredOneshot T).Reachable s) : s.Inv :=
  h.invariant .start fun _ _ _ hinv _ hs => hinv.moves (step_moves hs)

/-! ## At rest -/

/-- How often the tasks can still go on. -/
def left (s : WiredOneshot T) : Nat :=
  (match s.writer with
    | .selecting => 2
    | .writing _ => 1
    | .finished => 0) +
  match s.reader with
    | .selecting => 1
    | .finished => 0

theorem settles_alone : (wiredOneshot T).Settles OneshotAction.Internal := by
  refine Machine.settles_of_measure left ?_
  intro s a t ha hs
  cases step_moves hs with
  | send | refused | dropSender | recv | recvEnd | dropReceiver => exact ha.elim
  | writerGone hwriter hreader => simp [left, leaveWriter, hwriter]
  | take hwriter => simp [left, hwriter]
  | takeEnd hwriter => simp [left, leaveWriter, hwriter]
  | write hwriter | writeFails hwriter => simp [left, hwriter]
  | closed hreader | read hreader | readEnd hreader => simp [left, hreader]

/-- At rest both tasks have ended, or both wait for the users. -/
theorem Inv.rest (h : s.Inv) (hrest : (wiredOneshot T).AtRest OneshotAction.Internal s) :
    (s.writer = .finished ∧ s.reader = .finished) ∨
      s.source.senderGone = false ∧ s.sink.receiverGone = false := by
  have hgone : s.writerStep true = none := hrest (.writer true) trivial
  have htake : s.writerStep false = none := hrest (.writer false) trivial
  have hclosed : s.readerStep true = none := hrest (.reader true) trivial
  have hread : s.readerStep false = none := hrest (.reader false) trivial
  cases hwriter : s.writer with
  | writing item => simp [writerStep, hwriter] at htake
  | finished =>
      cases hreader : s.reader with
      | finished => exact Or.inl ⟨rfl, rfl⟩
      | selecting =>
          cases hstream : s.stream <;> simp [readerStep, hreader, hstream, hwriter] at hread
  | selecting =>
      cases hreader : s.reader with
      | finished => simp [writerStep, hwriter, hreader] at hgone
      | selecting =>
          have hthere : s.source.receiverGone = false := by
            simpa [hwriter] using h.source
          have hrecv : s.source.recv = none := by
            rcases hrecv : s.source.recv with _ | ⟨_ | item, source⟩
            · rfl
            · simp [writerStep, hwriter, hrecv] at htake
            · simp [writerStep, hwriter, hrecv] at htake
          refine Or.inr ⟨(Oneshot.recv_none hthere hrecv).2, ?_⟩
          simpa [readerStep, hreader] using hclosed

/-- What has become of the value, and of the users' halves. -/
structure Decided (s : WiredOneshot T) : Prop where
  /-- A value that was sent is with the receiver, or about to be. -/
  value : s.dropped = false → ∀ v, s.sent = some v →
    s.received = some v ∨ ∃ sink, s.sink.recv = some (some v, sink)
  /-- A sender that went without a value is an error. -/
  ended : s.dropped = false → s.source.senderGone = true → s.sent = none →
    s.failed = true ∨ ∃ sink, s.sink.recv = some (none, sink)
  /-- The sender is told that the receiver was dropped. -/
  told : s.dropped = true → s.source.receiverGone = true
  tasks : s.source.senderGone = true ∨ s.dropped = true →
    s.writer = .finished ∧ s.reader = .finished

theorem Inv.decided (h : s.Inv) (hrest : (wiredOneshot T).AtRest OneshotAction.Internal s) :
    s.Decided := by
  have htasks : s.source.senderGone = true ∨ s.dropped = true →
      s.writer = .finished ∧ s.reader = .finished := by
    intro hgone
    refine (h.rest hrest).resolve_right ?_
    intro hthere
    rcases hgone with hsender | hdropped
    · cases hthere.1.symm.trans hsender
    · cases hthere.2.symm.trans (h.dropped hdropped)
  have hplaces (hd : s.dropped = false) (hsender : s.source.senderGone = true) :
      s.received.toList ++ s.sink.value.toList = s.sent.toList := by
    obtain ⟨hwriter, hreader⟩ := htasks (Or.inl hsender)
    have hvalue : s.source.value = none := by
      by_contra hne
      cases hwriter.symm.trans (h.value hne).2
    have hkept := h.kept hd
    rw [places, (h.reader hd hreader).2, hwriter, hvalue] at hkept
    simpa using hkept
  refine ⟨?_, ?_, ?_, htasks⟩
  · intro hd v hsent
    have hv := hplaces hd (h.sent (by simp [hsent]))
    rw [hsent] at hv
    cases hreceived : s.received with
    | some w =>
        simp [hreceived] at hv
        exact Or.inl (congrArg some hv.1)
    | none =>
        have hvalue : s.sink.value = some v := by simpa [hreceived] using hv
        have hthere := (h.arrived (by simp [hvalue])).2
        exact Or.inr ⟨_, by simp [Oneshot.recv, hthere, hvalue]; rfl⟩
  · intro hd hsender hsent
    have hnone := hplaces hd hsender
    rw [hsent, Option.toList_none, List.append_eq_nil_iff] at hnone
    have hreceived : s.received = none := by simpa using hnone.1
    have hvalue : s.sink.value = none := by simpa using hnone.2
    have hended := h.sink.mpr (htasks (Or.inl hsender)).2
    cases hgone : s.sink.receiverGone with
    | true =>
        rcases h.gone hgone with hd' | hr | hf
        · cases hd.symm.trans hd'
        · exact absurd hreceived hr
        · exact Or.inl hf
    | false => exact Or.inr ⟨_, by simp [Oneshot.recv, hgone, hvalue, hended]; rfl⟩
  · intro hdropped
    refine h.source.mpr ?_
    rw [(htasks (Or.inr hdropped)).1]
    nofun

end WiredOneshot

/-- **A oneshot channel across a stream.** The receiver gets nothing but the value that
was sent, and an error only if none was. The two tasks come to rest, and at rest a value
that was sent is at the receiver, a sender that went without one is an error there, and
a receiver that was dropped is known to the sender. -/
theorem oneshot_delivers {T : Type} {s : WiredOneshot T} (h : (wiredOneshot T).Reachable s) :
    (∀ v, s.received = some v → s.sent = some v) ∧ (s.failed = true → s.sent = none) ∧
    (wiredOneshot T).Settles OneshotAction.Internal ∧
    ((wiredOneshot T).AtRest OneshotAction.Internal s → s.Decided) := by
  have hinv := WiredOneshot.reachable_inv h
  refine ⟨fun v hv => ?_, fun hf => (hinv.failed hf).1, WiredOneshot.settles_alone, hinv.decided⟩
  have hmem : v ∈ s.sent.toList := hinv.once.subset (by simp [WiredOneshot.places, hv])
  simpa using hmem

/-- A value is sent, and the tasks pass it on. -/
theorem oneshot_delivers_one :
    ((wiredOneshot Nat).run [.send 7, .writer false, .writer false, .reader false]).Decided := by
  refine (oneshot_delivers (Machine.reachableBy_run fun _ _ _ => trivial)).2.2.2 ?_
  intro a ha
  cases a with
  | send | dropSender | recv | dropReceiver => exact ha.elim
  | writer gone => cases gone <;> rfl
  | reader closed => cases closed <;> rfl

end WiringRs
