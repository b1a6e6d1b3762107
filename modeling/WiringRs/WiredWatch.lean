import WiringRs.Lib.Rest
import WiringRs.WatchSender
import WiringRs.WiredMpsc

/-!
# A watch receiver at a remote

Wiring a `watch::Receiver` spawns a task that writes what its stream yields; the remote
makes a watch channel of the first value and spawns a task that stores the others. Values
in between are passed over, but the last one is not: the stream yields it before it ends.

The remote has a second task, which waits until the first one has ended. It does so on a
receiver of its own, so the first one does not notice when the user drops the others.
-/

namespace WiringRs

structure WiredWatch (T : Type) where
  origin : Watch T
  /-- The senders of the origin. -/
  senders : Nat
  /-- Its receivers that are not the task's. -/
  locals : Nat
  /-- The values it has had since the receiver was wired. -/
  values : List T
  /-- The task of `Receiver::wiring`, and its stream. -/
  writer : WriteTask T := .receiving
  rx : WatchStream := {}
  /-- `detect_shutdown` has come to the end of the other direction, and called `abort`. -/
  abortWriter : Bool := false
  /-- What is on the stream. -/
  stream : List T := []
  remote : Option (Watch T) := none
  /-- The task of `Receiver::unwiring`. -/
  reader : WatchTask := .notSpawned
  /-- `closed_handle.wait_for(..)` has returned, and `closed_handle` is dropped. -/
  detected : Bool := false
  /-- The receivers of the remote user. -/
  users : Nat := 0
  /-- The values that the remote's channel has had. -/
  stores : List T := []

inductive WiredWatchAction (T : Type) where
  | send (v : T)
  | cloneSender
  | dropSender
  | subscribe
  | dropReceiver
  /-- The remote reads the initial value. -/
  | unwire
  | remoteClone
  | remoteDrop
  /-- The writing task goes on; `ok` is whether its write succeeds. -/
  | writer (ok : Bool)
  | detect
  /-- The reading task goes on; `ends` is whether the stream ends here. -/
  | reader (ends : Bool)
  | remoteDetect
  /-- The abort takes effect. -/
  | cancelWriter

namespace WiredWatch

variable {T : Type}

/-- The write half is dropped with the task, and so is the receiver. -/
def leaveWriter (s : WiredWatch T) : WiredWatch T :=
  { s with
    writer := .finished
    origin := { s.origin with receivers := s.origin.receivers - 1 } }

def writerStep (s : WiredWatch T) (ok : Bool) : Option (WiredWatch T) :=
  match s.writer with
  | .receiving =>
      match s.rx.next s.origin with
      | some (v, rx) => some { s with rx := rx, writer := .writing v }
      -- there is nothing new, and the senders are gone
      | none => if s.senders = 0 then some s.leaveWriter else none
  | .writing v =>
      if ok then some { s with stream := s.stream ++ [v], writer := .receiving }
      else match s.reader with
        | .finished => some s.leaveWriter
        | _ => none
  | .finished => none

def readerStep (s : WiredWatch T) (ends : Bool) : Option (WiredWatch T) :=
  match s.reader, s.remote with
  | .running, some remote =>
      if ends then
        match s.stream, s.writer with
        | [], .finished => some { s with reader := .finished }
        | _, _ => none
      else match s.stream with
        | v :: stream =>
            match remote.send v with
            | some remote => some { s with
                stream := stream, remote := some remote, stores := s.stores ++ [v] }
            | none => some { s with stream := stream, reader := .finished }
        | [] => none
  | _, _ => none

def step (s : WiredWatch T) : WiredWatchAction T → Option (WiredWatch T)
  | .send v =>
      if s.senders = 0 then none
      else match s.origin.send v with
        | some origin => some { s with origin := origin, values := s.values ++ [v] }
        | none => some s
  | .cloneSender =>
      if s.senders = 0 then none else some { s with senders := s.senders + 1 }
  | .dropSender => some { s with senders := s.senders - 1 }
  | .subscribe =>
      if s.senders = 0 ∧ s.locals = 0 then none
      else some { s with
        origin := { s.origin with receivers := s.origin.receivers + 1 }
        locals := s.locals + 1 }
  | .dropReceiver =>
      if s.locals = 0 then none
      else some { s with
        origin := { s.origin with receivers := s.origin.receivers - 1 }
        locals := s.locals - 1 }
  | .unwire =>
      match s.reader, s.stream with
      | .notSpawned, v :: stream => some { s with
          stream := stream
          -- the user's receiver, and `closed_handle`
          remote := some ⟨v, 0, 2⟩
          reader := .running
          users := 1
          stores := [v] }
      | _, _ => none
  | .remoteClone =>
      if s.users = 0 then none
      else some { s with
        remote := s.remote.map fun w => { w with receivers := w.receivers + 1 }
        users := s.users + 1 }
  | .remoteDrop =>
      if s.users = 0 then none
      else some { s with
        remote := s.remote.map fun w => { w with receivers := w.receivers - 1 }
        users := s.users - 1 }
  | .writer ok => s.writerStep ok
  | .detect =>
      if s.abortWriter then none
      else match s.reader with
        | .finished => some { s with abortWriter := true }
        | _ => none
  | .reader ends => s.readerStep ends
  | .remoteDetect =>
      if s.detected then none
      else match s.reader with
        -- the sender is gone
        | .finished => some { s with
            detected := true
            remote := s.remote.map fun w => { w with receivers := w.receivers - 1 } }
        | _ => none
  | .cancelWriter =>
      match s.writer with
      | .finished => none
      | _ => if s.abortWriter then some s.leaveWriter else none

end WiredWatch

/-- The receiver is one of several. -/
def wiredWatch {T : Type} (value : T) (senders locals : Nat) :
    Machine (WiredWatch T) (WiredWatchAction T) :=
  ⟨{ origin := ⟨value, 0, locals + 1⟩, senders := senders, locals := locals
     values := [value] }, WiredWatch.step⟩

/-- What the tasks do. -/
def WiredWatchAction.Internal {T : Type} : WiredWatchAction T → Prop
  | .writer _ | .detect | .reader _ | .remoteDetect | .cancelWriter => True
  | _ => False

/-! ## The steps -/

namespace WiredWatch

variable {T : Type} {s s' : WiredWatch T}

/-- The steps, with what they need and what they change. -/
inductive Moves (s : WiredWatch T) : WiredWatchAction T → WiredWatch T → Prop
  | send {v : T} : s.senders ≠ 0 → s.origin.receivers ≠ 0 →
      Moves s (.send v) { s with
        origin := { s.origin with value := v, version := s.origin.version + 1 }
        values := s.values ++ [v] }
  | refused {v : T} : s.senders ≠ 0 → s.origin.receivers = 0 → Moves s (.send v) s
  | cloneSender : s.senders ≠ 0 → Moves s .cloneSender { s with senders := s.senders + 1 }
  | dropSender : Moves s .dropSender { s with senders := s.senders - 1 }
  | subscribe : Moves s .subscribe { s with
        origin := { s.origin with receivers := s.origin.receivers + 1 }
        locals := s.locals + 1 }
  | dropReceiver : s.locals ≠ 0 → Moves s .dropReceiver { s with
        origin := { s.origin with receivers := s.origin.receivers - 1 }
        locals := s.locals - 1 }
  | unwire {v : T} {stream : List T} : s.reader = .notSpawned → s.stream = v :: stream →
      Moves s .unwire { s with
        stream := stream
        remote := some ⟨v, 0, 2⟩
        reader := .running
        users := 1
        stores := [v] }
  | remoteClone : s.users ≠ 0 → Moves s .remoteClone { s with
        remote := s.remote.map fun w => { w with receivers := w.receivers + 1 }
        users := s.users + 1 }
  | remoteDrop : s.users ≠ 0 → Moves s .remoteDrop { s with
        remote := s.remote.map fun w => { w with receivers := w.receivers - 1 }
        users := s.users - 1 }
  | take {ok : Bool} : s.writer = .receiving → s.rx.seen ≠ some s.origin.version →
      Moves s (.writer ok) { s with
        rx := ⟨some s.origin.version⟩
        writer := .writing s.origin.value }
  | takeEnd {ok : Bool} : s.writer = .receiving → s.rx.seen = some s.origin.version →
      s.senders = 0 → Moves s (.writer ok) s.leaveWriter
  | write {v : T} : s.writer = .writing v →
      Moves s (.writer true) { s with stream := s.stream ++ [v], writer := .receiving }
  | writeFails {v : T} : s.writer = .writing v → s.reader = .finished →
      Moves s (.writer false) s.leaveWriter
  | detect : s.abortWriter = false → s.reader = .finished →
      Moves s .detect { s with abortWriter := true }
  | store {w : Watch T} {v : T} {stream : List T} : s.reader = .running →
      s.remote = some w → s.stream = v :: stream → w.receivers ≠ 0 →
      Moves s (.reader false) { s with
        stream := stream
        remote := some { w with value := v, version := w.version + 1 }
        stores := s.stores ++ [v] }
  | storeFails {w : Watch T} {v : T} {stream : List T} : s.reader = .running →
      s.remote = some w → s.stream = v :: stream → w.receivers = 0 →
      Moves s (.reader false) { s with stream := stream, reader := .finished }
  | readEnd : s.reader = .running → s.stream = [] → s.writer = .finished →
      Moves s (.reader true) { s with reader := .finished }
  | remoteDetect : s.detected = false → s.reader = .finished →
      Moves s .remoteDetect { s with
        detected := true
        remote := s.remote.map fun w => { w with receivers := w.receivers - 1 } }
  | cancelWriter : s.writer ≠ .finished → s.abortWriter = true →
      Moves s .cancelWriter s.leaveWriter

theorem writerStep_moves {ok : Bool} (hs : s.writerStep ok = some s') :
    s.Moves (.writer ok) s' := by
  cases hwriter : s.writer with
  | receiving =>
      by_cases hseen : s.rx.seen = some s.origin.version
      · simp only [writerStep, hwriter, WatchStream.next, hseen, if_true,
          Option.ite_none_right_eq_some, Option.some.injEq] at hs
        exact hs.2 ▸ .takeEnd hwriter hseen hs.1
      · simp only [writerStep, hwriter, WatchStream.next, hseen, if_false,
          Option.some.injEq] at hs
        exact hs ▸ .take hwriter hseen
  | writing v =>
      cases ok with
      | true =>
          simp only [writerStep, hwriter, if_true, Option.some.injEq] at hs
          exact hs ▸ .write hwriter
      | false =>
          cases hreader : s.reader with
          | notSpawned | running => simp [writerStep, hwriter, hreader] at hs
          | finished =>
              simp only [writerStep, hwriter, hreader, Bool.false_eq_true, if_false,
                Option.some.injEq] at hs
              exact hs ▸ .writeFails hwriter hreader
  | finished => simp [writerStep, hwriter] at hs

theorem readerStep_moves {ends : Bool} (hs : s.readerStep ends = some s') :
    s.Moves (.reader ends) s' := by
  cases hreader : s.reader with
  | notSpawned | finished => simp [readerStep, hreader] at hs
  | running =>
      cases hremote : s.remote with
      | none => simp [readerStep, hreader, hremote] at hs
      | some w =>
          cases hstream : s.stream with
          | nil =>
              cases ends with
              | false => simp [readerStep, hreader, hremote, hstream] at hs
              | true =>
                  cases hwriter : s.writer with
                  | receiving | writing =>
                      simp [readerStep, hreader, hremote, hstream, hwriter] at hs
                  | finished =>
                      simp only [readerStep, hreader, hremote, hstream, hwriter, if_true,
                        Option.some.injEq] at hs
                      rw [← hs, ← hremote, ← hstream, ← hwriter]
                      exact .readEnd hreader hstream hwriter
          | cons v stream =>
              cases ends with
              | true => simp [readerStep, hreader, hremote, hstream] at hs
              | false =>
                  by_cases hnone : w.receivers = 0
                  · simp only [readerStep, hreader, hremote, hstream, Watch.send, hnone,
                      Bool.false_eq_true, if_false, if_true, Option.some.injEq] at hs
                    rw [← hs, ← hremote]
                    exact .storeFails hreader hremote hstream hnone
                  · simp only [readerStep, hreader, hremote, hstream, Watch.send, hnone,
                      Bool.false_eq_true, if_false, Option.some.injEq] at hs
                    rw [← hs, ← hreader]
                    exact .store hreader hremote hstream hnone

theorem step_moves {a : WiredWatchAction T} (hs : s.step a = some s') : s.Moves a s' := by
  cases a with
  | send v =>
      simp only [step, Option.ite_none_left_eq_some] at hs
      obtain ⟨hsenders, hs⟩ := hs
      by_cases hnone : s.origin.receivers = 0
      · simp only [Watch.send, hnone, if_true, Option.some.injEq] at hs
        exact hs ▸ .refused hsenders hnone
      · simp only [Watch.send, hnone, if_false, Option.some.injEq] at hs
        exact hs ▸ .send hsenders hnone
  | cloneSender =>
      simp only [step, Option.ite_none_left_eq_some, Option.some.injEq] at hs
      exact hs.2 ▸ .cloneSender hs.1
  | dropSender =>
      simp only [step, Option.some.injEq] at hs
      exact hs ▸ .dropSender
  | subscribe =>
      simp only [step, Option.ite_none_left_eq_some, Option.some.injEq] at hs
      exact hs.2 ▸ .subscribe
  | dropReceiver =>
      simp only [step, Option.ite_none_left_eq_some, Option.some.injEq] at hs
      exact hs.2 ▸ .dropReceiver hs.1
  | unwire =>
      cases hreader : s.reader with
      | running | finished => simp [step, hreader] at hs
      | notSpawned =>
          cases hstream : s.stream with
          | nil => simp [step, hreader, hstream] at hs
          | cons v stream =>
              simp only [step, hreader, hstream, Option.some.injEq] at hs
              exact hs ▸ .unwire hreader hstream
  | remoteClone =>
      simp only [step, Option.ite_none_left_eq_some, Option.some.injEq] at hs
      exact hs.2 ▸ .remoteClone hs.1
  | remoteDrop =>
      simp only [step, Option.ite_none_left_eq_some, Option.some.injEq] at hs
      exact hs.2 ▸ .remoteDrop hs.1
  | writer ok => exact writerStep_moves hs
  | detect =>
      simp only [step, Option.ite_none_left_eq_some, Bool.not_eq_true] at hs
      obtain ⟨habort, hs⟩ := hs
      cases hreader : s.reader with
      | notSpawned | running => simp [hreader] at hs
      | finished =>
          simp only [hreader, Option.some.injEq] at hs
          rw [← hs, ← hreader]
          exact .detect habort hreader
  | reader ends => exact readerStep_moves hs
  | remoteDetect =>
      simp only [step, Option.ite_none_left_eq_some, Bool.not_eq_true] at hs
      obtain ⟨hdetected, hs⟩ := hs
      cases hreader : s.reader with
      | notSpawned | running => simp [hreader] at hs
      | finished =>
          simp only [hreader, Option.some.injEq] at hs
          rw [← hs, ← hreader]
          exact .remoteDetect hdetected hreader
  | cancelWriter =>
      cases hwriter : s.writer with
      | finished => simp [step, hwriter] at hs
      | receiving | writing =>
          simp only [step, hwriter, Option.ite_none_right_eq_some, Option.some.injEq] at hs
          exact hs.2 ▸ .cancelWriter (by simp [hwriter]) hs.1

end WiredWatch

/-! ## Where the values are -/

/-- The receiver that the task owns. -/
def WriteTask.receivers {T : Type} : WriteTask T → Nat
  | .finished => 0
  | _ => 1

namespace WiredWatch

variable {T : Type} {s s' : WiredWatch T}

/-- What the origin's stream has yielded. -/
def yielded (s : WiredWatch T) : List T := s.stores ++ (s.stream ++ s.writer.held)

/-- The yielded values are some of those that the origin has had, in order, up to the one
that the stream has seen. The tasks end when the senders are gone, one after the other. -/
structure Inv (s : WiredWatch T) : Prop where
  values : s.values.length = s.origin.version + 1
  value : s.values.getLast? = some s.origin.value
  receivers : s.origin.receivers = s.locals + s.writer.receivers
  unread : s.reader = .notSpawned → s.stores = [] ∧ s.remote = none
  remote : s.reader ≠ .notSpawned → ∃ w, s.remote = some w ∧
    s.stores.getLast? = some w.value ∧ w.receivers = s.users + (!s.detected).toNat
  detected : s.detected = true → s.reader = .finished
  abortWriter : s.abortWriter = true → s.reader = .finished
  reader : s.reader = .finished → s.writer = .finished ∧ s.stream = []
  writer : s.writer = .finished → s.senders = 0 ∧ s.rx.seen = some s.origin.version
  fresh : s.rx.seen = none → s.yielded = []
  seen : ∀ n, s.rx.seen = some n → n ≤ s.origin.version ∧
    s.yielded.Sublist (s.values.take (n + 1)) ∧ s.yielded.getLast? = s.values[n]?

theorem start_inv (value : T) (senders locals : Nat) :
    (wiredWatch value senders locals).init.Inv := by
  constructor <;> simp [wiredWatch, yielded, WriteTask.held, WriteTask.receivers]

/-- The task ends with the last value yielded and written. -/
theorem Inv.leaveWriter (h : s.Inv) (hwriter : s.writer = .receiving)
    (hsenders : s.senders = 0) (hseen : s.rx.seen = some s.origin.version) :
    s.leaveWriter.Inv := by
  have hyielded : s.leaveWriter.yielded = s.yielded := by
    simp [yielded, WiredWatch.leaveWriter, WriteTask.held, hwriter]
  have hreceivers := h.receivers
  rw [hwriter] at hreceivers
  exact { h with
    receivers := congrArg (· - 1) hreceivers
    reader := fun hreader => ⟨rfl, (h.reader hreader).2⟩
    writer := fun _ => ⟨hsenders, hseen⟩
    fresh := fun hnone => hyielded.trans (h.fresh hnone)
    seen := fun n hn => hyielded ▸ h.seen n hn }

/-- All values but the last one, and the last one. -/
theorem Inv.take_values (h : s.Inv) :
    s.values.take s.origin.version ++ [s.origin.value] = s.values := by
  obtain ⟨l, hl⟩ := List.getLast?_eq_some_iff.mp h.value
  have hlen := h.values
  rw [hl, List.length_append, List.length_singleton] at hlen
  rw [hl, List.take_append_of_le_length (by omega), List.take_of_length_le (by omega)]

/-- The stream yields the value it has not seen. -/
theorem Inv.take (h : s.Inv) (hwriter : s.writer = .receiving)
    (hnew : s.rx.seen ≠ some s.origin.version) :
    Inv { s with rx := ⟨some s.origin.version⟩, writer := .writing s.origin.value } := by
  have hyielded : yielded { s with
      rx := ⟨some s.origin.version⟩
      writer := .writing s.origin.value } = s.yielded ++ [s.origin.value] := by
    simp [yielded, WriteTask.held, hwriter]
  have hbefore : s.yielded.Sublist (s.values.take s.origin.version) := by
    cases hseen : s.rx.seen with
    | none =>
        rw [h.fresh hseen]
        exact List.nil_sublist _
    | some n =>
        obtain ⟨hle, hsub, -⟩ := h.seen n hseen
        have hlt : n + 1 ≤ s.origin.version := by
          have hne : n ≠ s.origin.version := fun he => hnew (he ▸ hseen)
          omega
        exact hsub.trans (List.take_sublist_take_left hlt)
  have hlast := h.value
  rw [List.getLast?_eq_getElem?, h.values, Nat.add_sub_cancel] at hlast
  exact { h with
    receivers := by simpa [WriteTask.receivers, hwriter] using h.receivers
    reader := fun hreader => by cases hwriter.symm.trans (h.reader hreader).1
    writer := by simp
    fresh := by simp
    seen := by
      intro n hn
      obtain rfl := Option.some.inj hn
      refine ⟨Nat.le_refl _, ?_, ?_⟩
      · rw [hyielded, List.take_of_length_le (by rw [h.values])]
        exact h.take_values ▸ hbefore.append (List.Sublist.refl _)
      · rw [hyielded, List.getLast?_append, hlast]
        rfl }

theorem Inv.moves {a : WiredWatchAction T} (h : s.Inv) (hm : s.Moves a s') : s'.Inv := by
  cases hm with
  | @send v hsenders hreceivers =>
      have hwriter : s.writer ≠ .finished := fun hw => hsenders (h.writer hw).1
      exact { h with
        values := by simp [h.values]
        value := by simp
        writer := fun hw => absurd hw hwriter
        seen := by
          intro n hn
          obtain ⟨hle, hsub, hlast⟩ := h.seen n hn
          have hlen := h.values
          refine ⟨Nat.le_succ_of_le hle, ?_, ?_⟩
          · rwa [List.take_append_of_le_length (by omega)]
          · rwa [List.getElem?_append_left (by omega)] }
  | refused => exact h
  | cloneSender hsenders =>
      exact { h with writer := fun hw => absurd (h.writer hw).1 hsenders }
  | dropSender =>
      exact { h with
        writer := fun hw => ⟨by simp [(h.writer hw).1], (h.writer hw).2⟩ }
  | subscribe =>
      exact { h with
        receivers := by
          have hreceivers := h.receivers
          simp only
          omega }
  | dropReceiver hlocals =>
      exact { h with
        receivers := by
          have hreceivers := h.receivers
          simp only
          omega }
  | @unwire v stream hreader hstream =>
      have hyielded : yielded { s with
          stream := stream
          remote := some ⟨v, 0, 2⟩
          reader := .running
          users := 1
          stores := [v] } = s.yielded := by
        simp [yielded, hstream, (h.unread hreader).1]
      exact { h with
        unread := by simp
        remote := fun _ => by
          have hdetected : s.detected = false := by
            by_contra hd
            cases hreader.symm.trans (h.detected (by simpa using hd))
          exact ⟨_, rfl, rfl, by simp [hdetected]⟩
        detected := fun hd => by cases hreader.symm.trans (h.detected hd)
        abortWriter := fun ha => by cases hreader.symm.trans (h.abortWriter ha)
        reader := by simp
        fresh := fun hnone => hyielded.trans (h.fresh hnone)
        seen := fun n hn => hyielded ▸ h.seen n hn }
  | remoteClone husers =>
      exact { h with
        unread := fun hreader => by simp [h.unread hreader]
        remote := fun hreader => by
          obtain ⟨w, hw, hlast, hreceivers⟩ := h.remote hreader
          refine ⟨{ w with receivers := w.receivers + 1 }, by simp [hw], hlast, ?_⟩
          simp only
          omega }
  | remoteDrop husers =>
      exact { h with
        unread := fun hreader => by simp [h.unread hreader]
        remote := fun hreader => by
          obtain ⟨w, hw, hlast, hreceivers⟩ := h.remote hreader
          refine ⟨{ w with receivers := w.receivers - 1 }, by simp [hw], hlast, ?_⟩
          simp only
          omega }
  | take hwriter hnew => exact h.take hwriter hnew
  | takeEnd hwriter hseen hsenders => exact h.leaveWriter hwriter hsenders hseen
  | @write v hwriter =>
      have hyielded : yielded { s with stream := s.stream ++ [v], writer := .receiving }
          = s.yielded := by
        simp [yielded, WriteTask.held, hwriter]
      exact { h with
        receivers := by simpa [WriteTask.receivers, hwriter] using h.receivers
        reader := fun hreader => by cases hwriter.symm.trans (h.reader hreader).1
        writer := by simp
        fresh := fun hnone => hyielded.trans (h.fresh hnone)
        seen := fun n hn => hyielded ▸ h.seen n hn }
  | writeFails hwriter hreader => cases hwriter.symm.trans (h.reader hreader).1
  | detect habort hreader => exact { h with abortWriter := fun _ => hreader }
  | @store w v stream hreader hremote hstream hreceivers =>
      have hyielded : yielded { s with
          stream := stream
          remote := some { w with value := v, version := w.version + 1 }
          stores := s.stores ++ [v] } = s.yielded := by
        simp [yielded, hstream]
      have hspawned : s.reader ≠ .notSpawned := by simp [hreader]
      exact { h with
        unread := fun hr => absurd hr hspawned
        remote := fun _ => by
          obtain ⟨w', hw, -, hcount⟩ := h.remote hspawned
          obtain rfl := Option.some.inj (hremote.symm.trans hw)
          exact ⟨_, rfl, by simp, hcount⟩
        reader := fun hr => by cases hreader.symm.trans hr
        fresh := fun hnone => hyielded.trans (h.fresh hnone)
        seen := fun n hn => hyielded ▸ h.seen n hn }
  | storeFails hreader hremote hstream hreceivers =>
      obtain ⟨w', hw, -, hcount⟩ := h.remote (by simp [hreader])
      obtain rfl := Option.some.inj (hremote.symm.trans hw)
      cases hdetected : s.detected with
      | true => cases hreader.symm.trans (h.detected hdetected)
      | false => simp [hreceivers, hdetected] at hcount
  | readEnd hreader hstream hwriter =>
      exact { h with
        unread := by simp
        remote := fun _ => h.remote (by simp [hreader])
        detected := fun _ => rfl
        abortWriter := fun _ => rfl
        reader := fun _ => ⟨hwriter, hstream⟩ }
  | remoteDetect hdetected hreader =>
      exact { h with
        unread := fun hr => by cases hreader.symm.trans hr
        remote := fun hr => by
          obtain ⟨w, hw, hlast, hreceivers⟩ := h.remote hr
          refine ⟨{ w with receivers := w.receivers - 1 }, by simp [hw], hlast, ?_⟩
          simp [hreceivers, hdetected]
        detected := fun _ => hreader }
  | cancelWriter hwriter habort =>
      exact absurd (h.reader (h.abortWriter habort)).1 hwriter

theorem reachable_inv {value : T} {senders locals : Nat}
    (h : (wiredWatch value senders locals).Reachable s) : s.Inv :=
  h.invariant (start_inv value senders locals)
    fun _ _ _ hinv _ hs => hinv.moves (step_moves hs)

/-! ## At rest -/

/-- Whether a stream that has seen the one version has a value to yield at the other; it is
written and read. -/
def unseen (seen : Option Nat) (version : Nat) : Nat := if seen = some version then 0 else 3

/-- How often the tasks can still go on. -/
def left (s : WiredWatch T) : Nat :=
  s.stream.length + unseen s.rx.seen s.origin.version +
  (match s.writer with
    | .writing _ => 3
    | .receiving => 1
    | .finished => 0) +
  (match s.reader with
    | .running => 1
    | _ => 0) +
  (!s.abortWriter).toNat + (!s.detected).toNat

theorem left_leaveWriter (h : s.writer ≠ .finished) : s.leaveWriter.left < s.left := by
  cases hwriter : s.writer with
  | finished => exact absurd hwriter h
  | receiving | writing =>
      simp only [left, leaveWriter, hwriter]
      omega

theorem Moves.left {a : WiredWatchAction T} (hm : s.Moves a s') (ha : a.Internal) :
    s'.left < s.left := by
  cases hm with
  | send | refused | cloneSender | dropSender | subscribe | dropReceiver | unwire | remoteClone
  | remoteDrop => exact ha.elim
  | take hwriter hnew =>
      simp only [WiredWatch.left, unseen, hwriter, hnew, if_false, if_true]
      omega
  | takeEnd hwriter | writeFails hwriter => exact left_leaveWriter (by simp [hwriter])
  | write hwriter =>
      simp only [WiredWatch.left, hwriter, List.length_append, List.length_singleton]
      omega
  | detect habort => simp [WiredWatch.left, habort]
  | store hreader hremote hstream =>
      simp only [WiredWatch.left, hreader, hstream, List.length_cons]
      omega
  | storeFails hreader hremote hstream =>
      simp only [WiredWatch.left, hreader, hstream, List.length_cons]
      omega
  | readEnd hreader =>
      simp only [WiredWatch.left, hreader]
      omega
  | remoteDetect hdetected => simp [WiredWatch.left, hdetected]
  | cancelWriter hwriter => exact left_leaveWriter hwriter

theorem settles_alone {value : T} {senders locals : Nat} :
    (wiredWatch value senders locals).Settles WiredWatchAction.Internal :=
  Machine.settles_of_measure left fun _ _ _ ha hs => (step_moves hs).left ha

/-- The remote has the origin's value, and the end if there is no sender left. -/
structure Converged (s : WiredWatch T) : Prop where
  value : ∃ w, s.remote = some w ∧ w.value = s.origin.value
  ended : s.reader = .finished ↔ s.senders = 0

/-- At rest the stream has yielded the last value. -/
theorem Inv.rest (h : s.Inv)
    (hrest : ∀ a : WiredWatchAction T, a.Internal → s.step a = none) :
    s.rx.seen = some s.origin.version ∧ s.writer.held = [] ∧
      (s.senders = 0 → s.writer = .finished) := by
  have hwrite : s.writerStep true = none := hrest (.writer true) trivial
  cases hwriter : s.writer with
  | receiving =>
      by_cases hseen : s.rx.seen = some s.origin.version
      · refine ⟨hseen, rfl, fun hsenders => ?_⟩
        simp [writerStep, hwriter, WatchStream.next, hseen, hsenders] at hwrite
      · simp [writerStep, hwriter, WatchStream.next, hseen] at hwrite
  | writing v => simp [writerStep, hwriter] at hwrite
  | finished => exact ⟨(h.writer hwriter).2, rfl, fun _ => rfl⟩

theorem Inv.converged (h : s.Inv)
    (hrest : ∀ a : WiredWatchAction T, a.Internal → s.step a = none)
    (hspawned : s.reader ≠ .notSpawned) : s.Converged := by
  obtain ⟨w, hremote, hlast, -⟩ := h.remote hspawned
  obtain ⟨hseen, hheld, hwriter⟩ := h.rest hrest
  have hread (ends : Bool) : s.readerStep ends = none := hrest (.reader ends) trivial
  have hstream : s.stream = [] := by
    cases hreader : s.reader with
    | notSpawned => exact absurd hreader hspawned
    | finished => exact (h.reader hreader).2
    | running =>
        cases hstream : s.stream with
        | nil => rfl
        | cons v stream =>
            cases hsend : w.send v with
            | none => simpa [readerStep, hreader, hremote, hstream, hsend] using hread false
            | some w' => simpa [readerStep, hreader, hremote, hstream, hsend] using hread false
  refine ⟨⟨w, hremote, ?_⟩, fun hreader => (h.writer (h.reader hreader).1).1, fun hsenders => ?_⟩
  · obtain ⟨-, -, hyielded⟩ := h.seen _ hseen
    have hvalue := h.value
    rw [List.getLast?_eq_getElem?, h.values, Nat.add_sub_cancel] at hvalue
    rw [yielded, hstream, hheld, List.append_nil, List.append_nil, hlast, hvalue] at hyielded
    exact Option.some.inj hyielded
  · cases hreader : s.reader with
    | notSpawned => exact absurd hreader hspawned
    | finished => rfl
    | running =>
        simpa [readerStep, hreader, hremote, hstream, hwriter hsenders] using hread true

end WiredWatch

/-- **A watch receiver at a remote.** What the remote's channel has is some of the values
of the origin, in order. The tasks come to rest, and at rest the remote has the origin's
value, and has been told the end if there is no sender left. Until then no task ends and no
send fails, whatever the receivers there and here do. -/
theorem watch_converges {T : Type} {value : T} {senders locals : Nat} {s : WiredWatch T}
    (h : (wiredWatch value senders locals).Reachable s) :
    s.stores.Sublist s.values ∧
    (s.senders ≠ 0 →
      s.writer ≠ .finished ∧ s.reader ≠ .finished ∧ s.abortWriter = false ∧
        s.detected = false ∧ s.origin.receivers ≠ 0) ∧
    (wiredWatch value senders locals).Settles WiredWatchAction.Internal ∧
    ((wiredWatch value senders locals).AtRest WiredWatchAction.Internal s →
      s.reader ≠ .notSpawned → s.Converged) := by
  have hinv := WiredWatch.reachable_inv h
  refine ⟨?_, ?_, WiredWatch.settles_alone, hinv.converged⟩
  · have hstores : s.stores.Sublist s.yielded := List.sublist_append_left _ _
    refine hstores.trans ?_
    cases hseen : s.rx.seen with
    | none =>
        rw [hinv.fresh hseen]
        exact List.nil_sublist _
    | some n => exact (hinv.seen n hseen).2.1.trans (List.take_sublist _ _)
  · intro hsenders
    have hwriter : s.writer ≠ .finished := fun hw => hsenders (hinv.writer hw).1
    have hreader : s.reader ≠ .finished := fun hr => hwriter (hinv.reader hr).1
    have habort := mt hinv.abortWriter hreader
    have hdetected := mt hinv.detected hreader
    refine ⟨hwriter, hreader, Bool.eq_false_of_not_eq_true habort,
      Bool.eq_false_of_not_eq_true hdetected, ?_⟩
    have hreceivers := hinv.receivers
    cases hw : s.writer with
    | finished => exact absurd hw hwriter
    | receiving | writing =>
        simp only [hw, WriteTask.receivers] at hreceivers
        omega

/-- Two values are sent at once, and the remote has the second one. -/
theorem watch_converges_two :
    ((wiredWatch 1 1 0).run [.writer true, .writer true, .unwire, .send 2, .send 3,
      .writer true, .writer true, .reader false]).Converged := by
  refine (watch_converges (Machine.reachableBy_run fun _ _ _ => trivial)).2.2.2 ?_ ?_
  · intro a ha
    cases a with
    | send | cloneSender | dropSender | subscribe | dropReceiver | unwire | remoteClone
    | remoteDrop => exact ha.elim
    | writer ok => cases ok <;> rfl
    | reader ends => cases ends <;> rfl
    | detect | remoteDetect | cancelWriter => rfl
  · intro h
    cases h

end WiringRs
