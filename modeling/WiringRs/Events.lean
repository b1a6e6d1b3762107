import WiringRs.Encoders
import WiringRs.Lib.Machine
import WiringRs.Roundtrip
import WiringRs.Wired

/-!
# Events from one peer to the other

`WiredHandle::send` queues an event for `Wired::run`, which writes its frame on the
connection; `Unwired::run` of the other peer decodes the frames and passes the
events to `handle_event`. On the same queue and the same connection are the
messages and drops of the streams and the ids of nested streams.

The encoder of an event may depend on the recent stream id, when it opens streams.
An event is queued with the number of the call that sent it. A frame is written at
once: a reader that has a part of it waits for the rest.
-/

namespace WiringRs

open Wiring Unwiring

/-! ## Frames -/

def WiringEvent.map {α β : Type} (f : α → β) : WiringEvent α → WiringEvent β
  | .event e => .event (f e)
  | .message streamId isLocal m => .message streamId isLocal m
  | .drop streamId isLocal => .drop streamId isLocal

def WiringEvent.event? {α : Type} : WiringEvent α → Option α
  | .event e => some e
  | _ => none

def WiredEvent.event? {α : Type} : WiredEvent α → Option α
  | .event e => some e
  | _ => none

/-- The asynchronous encoding round-trips: what `R` relates is the same event at both
ends. -/
def RoundTrips {α β : Type} [RustType β] [Unwiring β] (encoder : Nat → Wiring α)
    (R : β → α → Prop) : Prop :=
  ∀ n e, ∃ b, Emits ((encoder n).wiring e) b ∧
    Decodes (unwiring : IoM Bytes β) b fun e' => R e' e

/-- `self.wire(event)`, with the recent stream id. -/
def wireFrame {α : Type} (encoder : Nat → Wiring α) (streamId : Nat)
    (event : WiringEvent α) : IoM Bytes Unit :=
  let _ := encoder streamId
  wiring event

theorem unwiring_decodes_bool (b : Bool) :
    Decodes (unwiring : IoM Bytes Bool) (boolU8 b).toBeBytes (· = b) :=
  (ReadsPrim.async.decodes (boolU8 b)).map fun _ h => by
    subst h
    cases b <;> decide

theorem unwiring_decodes_message [RustType (Vec U8)] (m : Vec U8) :
    Decodes (unwiring : IoM Bytes (Vec U8)) (prefixed (m.toList.map Prim.toByte))
      (· = m) := by
  have h := ReadsPrim.async.decodes_vec (x := (unwiring : IoM Bytes U8)) (R := (· = ·))
    (e := Prim.toBeBytes) ReadsPrim.async.decodes m
  rw [← map_toByte] at h
  unfold prefixed
  rw [List.length_map]
  exact h.mono fun v hv => Vec.ext (List.forall₂_eq_eq_eq ▸ hv)

/-- A frame decodes to the same event, or to something else that is none. -/
theorem wireFrame_decodes {α β : Type} [RustType β] [Unwiring β] [RustType (Vec U8)]
    [RustType (WiringEvent β)] {encoder : Nat → Wiring α} {R : β → α → Prop}
    (hrt : RoundTrips encoder R) (streamId : Nat) (event : WiringEvent α) :
    ∃ b, Emits (wireFrame encoder streamId event) b ∧
      Decodes (unwiring : IoM Bytes (WiringEvent β)) b
        fun w => Option.Rel R w.event? event.event? := by
  have hread (n : U8) := (ReadsPrim.async (t := .u8)).decodes n
  have h8 (n : U8) := (WTy.prim .u8).encoder.wiring_emits n
  have h64 (n : U64) := (WTy.prim .u64).encoder.wiring_emits n
  have hbool (b : Bool) := WTy.bool.encoder.wiring_emits b
  cases event with
  | event e =>
      obtain ⟨b, hemits, hdecodes⟩ := hrt streamId e
      refine ⟨_, (h8 (.ofNat 0)).bind hemits, (hread (.ofNat 0)).bind ?_⟩
      rintro _ rfl
      exact hdecodes.map fun _ h => .some h
  | message id isLocal m =>
      refine ⟨_, (h8 (.ofNat 1)).bind ((h64 id).bind ((hbool isLocal).bind
        ((WTy.vec (.prim .u8)).encoder.wiring_emits m))), (hread (.ofNat 1)).bind ?_⟩
      rintro _ rfl
      refine (ReadsPrim.async.decodes id).bind fun _ _ => ?_
      refine (unwiring_decodes_bool isLocal).bind fun _ _ => ?_
      rw [vecU8_format]
      exact (unwiring_decodes_message m).map fun _ _ => .none
  | drop id isLocal =>
      refine ⟨_, (h8 (.ofNat 2)).bind ((h64 id).bind (hbool isLocal)),
        (hread (.ofNat 2)).bind ?_⟩
      rintro _ rfl
      refine (ReadsPrim.async.decodes id).bind fun _ _ => ?_
      exact (unwiring_decodes_bool isLocal).map fun _ _ => .none

/-! ## The two loops -/

/-- A call of `WiredHandle::send`, and what it returned: the event, if the queue was
closed. -/
structure SendCall (α : Type) where
  message : Option α
  result : Except (Option α) Unit

structure EventLoops (α β : Type) where
  calls : List (SendCall α) := []
  rx : List (Option (WiredEvent (Nat × α))) := []
  closed : Bool := false
  wired : Wired := {}
  /-- `Wired::run` has returned. -/
  returned : Bool := false
  /-- What has been written on the connection and not been read. -/
  conn : Bytes := []
  /-- The frames that have been written. -/
  frames : List (WiringEvent (Nat × α)) := []
  /-- The loop of `Unwired::run` has ended. -/
  ended : Bool := false
  handled : List β := []

inductive EventAction (α : Type) where
  | send (message : Option α)
  /-- The streams, the other task and `shutdown` use the same queue. -/
  | post (event : Option (WiredEvent (Nat × α)))
  /-- A write half leaves a message on its channel. -/
  | push (key : StreamKey) (message : Message)
  /-- `Wired::run` takes the next event. -/
  | recv (connects : Nat)
  | finish
  /-- `Unwired::run` decodes the next frame. -/
  | read

namespace EventLoops

variable {α β : Type}

/-- `WiredHandle::send` -/
def send (s : EventLoops α β) (message : Option α) : EventLoops α β :=
  let m : Option (WiredEvent (Nat × α)) :=
    message.map fun e => .event (s.calls.length, e)
  if s.closed then
    match m with
    | some (.event e) =>
        { s with calls := s.calls ++ [⟨message, .error (some e.2)⟩] }
    | _ => { s with calls := s.calls ++ [⟨message, .error none⟩] }
  else { s with calls := s.calls ++ [⟨message, .ok ()⟩], rx := s.rx ++ [m] }

/-- No write fails, and no task is aborted. -/
def call (encoder : Nat → Wiring α) (s : EventLoops α β) :
    WiredCall (Nat × α) → Option (EventLoops α β)
  | .wire event =>
      match wireFrame encoder s.wired.streamId (event.map Prod.snd) s.conn with
      | (.ok (), conn) => some { s with conn := conn, frames := s.frames ++ [event] }
      | (.error _, _) => none
  | .notify .. | .offer _ => some s
  | .connect => s.wired.connect.map fun w => { s with wired := w.2 }

variable [RustType β] [Unwiring β] [RustType (Vec U8)] [RustType (WiringEvent β)]

def step (encoder : Nat → Wiring α) (s : EventLoops α β) :
    EventAction α → Option (EventLoops α β)
  | .send message => some (s.send message)
  -- only `WiredHandle::send` sends these
  | .post (some (.event _)) => none
  | .post event => if s.closed then none else some { s with rx := s.rx ++ [event] }
  | .push key message =>
      if key ∈ s.wired.removed then none
      else some { s with wired := { s.wired with
        buf := Function.update s.wired.buf key (s.wired.buf key ++ [message]) } }
  | .recv connects =>
      match s.rx with
      | [] => none
      | none :: rx => some { s with rx := rx, closed := true }
      | some event :: rx =>
          let (wired, calls) := s.wired.handle connects event
          calls.foldlM (call encoder) { s with rx := rx, wired := wired }
  | .finish =>
      if s.closed && s.rx.isEmpty then some { s with returned := true } else none
  | .read =>
      -- the reader waits for a frame, or for the end of the stream
      if s.ended || (s.conn.isEmpty && !s.returned) then none
      else match (unwiring : IoM Bytes (WiringEvent β)) s.conn with
        | (.ok w, conn) =>
            some { s with conn := conn, handled := s.handled ++ w.event?.toList }
        | (.error _, conn) => some { s with conn := conn, ended := true }

end EventLoops

def eventLoops {α : Type} (β : Type) [RustType β] [Unwiring β] [RustType (Vec U8)]
    [RustType (WiringEvent β)] (encoder : Nat → Wiring α) :
    Machine (EventLoops α β) (EventAction α) :=
  ⟨{}, EventLoops.step encoder⟩

def SendCall.accepted {α : Type} (c : SendCall α) : Option α :=
  match c.result with
  | .ok () => c.message
  | .error _ => none

/-- The accepted events, with the numbers of their calls. -/
def accepted {α : Type} (calls : List (SendCall α)) : List (Nat × α) :=
  calls.zipIdx.filterMap fun c => c.1.accepted.map (c.2, ·)

section

variable {α : Type}

theorem accepted_append (calls : List (SendCall α)) (c : SendCall α) :
    accepted (calls ++ [c])
      = accepted calls ++ (c.accepted.map (calls.length, ·)).toList := by
  unfold accepted
  rw [List.zipIdx_append, List.filterMap_append]
  congr 1
  cases h : c.accepted <;> simp [h]

theorem mem_accepted {calls : List (SendCall α)} {n : Nat} {e : α} :
    (n, e) ∈ accepted calls ↔ ∃ c, calls[n]? = some c ∧ c.accepted = some e := by
  unfold accepted
  rw [List.mem_filterMap]
  constructor
  · rintro ⟨⟨c, m⟩, hmem, h⟩
    obtain ⟨e', he, heq⟩ := Option.map_eq_some_iff.mp h
    cases heq
    exact ⟨c, List.mem_zipIdx_iff_getElem?.mp hmem, he⟩
  · rintro ⟨c, hmem, h⟩
    exact ⟨(c, n), List.mem_zipIdx_iff_getElem?.mpr hmem, by rw [h]; rfl⟩

end

/-! ## The events of a step -/

theorem forall₂_toList {α β : Type} {R : α → β → Prop} {a : Option α}
    {b : Option β} (h : Option.Rel R a b) : List.Forall₂ R a.toList b.toList := by
  cases h with
  | none => exact .nil
  | some h => exact .cons h .nil

/-- The event that a call writes. -/
def WiredCall.event? {α : Type} : WiredCall α → Option α
  | .wire event => event.event?
  | _ => none

/-- The calls of an event write the event and no other. -/
theorem Wired.handle_events {α : Type} (connects : Nat) (w : Wired)
    (event : WiredEvent α) :
    (w.handle connects event).2.filterMap WiredCall.event? = event.event?.toList := by
  cases event with
  | event e =>
      have h : (List.replicate connects (WiredCall.connect (α := α))).filterMap
          WiredCall.event? = [] := by
        rw [List.filterMap_eq_nil_iff]
        intro c hc
        rw [List.eq_of_mem_replicate hc]
        rfl
      simp only [Wired.handle, List.filterMap_cons, WiredCall.event?, WiringEvent.event?, h]
      rfl
  | registerWriteHalf streamId => rfl
  | drop streamId isLocal broadcastToRemote =>
      simp only [Wired.handle]
      split_ifs <;> rfl
  | message streamId isLocal =>
      simp only [Wired.handle]
      split_ifs
      · cases w.buf (streamId, isLocal) <;> rfl
      · rfl

namespace EventLoops

variable {α β : Type}

/-- What happens on the connection leaves the queue and the calls as they are. -/
structure SameQueue (s s' : EventLoops α β) : Prop where
  rx : s'.rx = s.rx
  calls : s'.calls = s.calls
  closed : s'.closed = s.closed
  returned : s'.returned = s.returned

theorem SameQueue.refl (s : EventLoops α β) : SameQueue s s := ⟨rfl, rfl, rfl, rfl⟩

theorem SameQueue.trans {s s' s'' : EventLoops α β} (h : SameQueue s s')
    (h' : SameQueue s' s'') : SameQueue s s'' :=
  ⟨h'.rx.trans h.rx, h'.calls.trans h.calls, h'.closed.trans h.closed,
    h'.returned.trans h.returned⟩

variable [RustType β] [Unwiring β] [RustType (Vec U8)] [RustType (WiringEvent β)]
  {encoder : Nat → Wiring α} {R : β → α → Prop}

/-- The bytes are a frame of the event. -/
def IsFrame (R : β → α → Prop) (b : Bytes) (f : WiringEvent (Nat × α)) : Prop :=
  Decodes (unwiring : IoM Bytes (WiringEvent β)) b
    fun w => Option.Rel R w.event? (f.event?.map Prod.snd)

/-- The frames are those that have been read, whose events have been handled, and
then those that are on the connection. -/
def Delivered (R : β → α → Prop) (s : EventLoops α β) : Prop :=
  ∃ (read unread : List (WiringEvent (Nat × α))) (chunks : List Bytes),
    s.frames = read ++ unread ∧
    List.Forall₂ R s.handled ((read.filterMap WiringEvent.event?).map Prod.snd) ∧
    s.conn = chunks.flatten ∧ List.Forall₂ (IsFrame R) chunks unread

/-- The events that have been written and those in the queue are the accepted ones,
and a refused one was given back. -/
structure Inv (R : β → α → Prop) (s : EventLoops α β) : Prop where
  delivered : s.Delivered R
  accounted : s.frames.filterMap WiringEvent.event? ++
    s.rx.filterMap (·.bind WiredEvent.event?) = accepted s.calls
  returned : s.returned = true → s.closed = true ∧ s.rx = []
  refused : ∀ c ∈ s.calls, ∀ r, c.result = .error r → r = c.message

/-- A frame more. -/
theorem call_spec (hrt : RoundTrips encoder R) {s s' : EventLoops α β}
    {c : WiredCall (Nat × α)} (h : s.Delivered R) (hs : s.call encoder c = some s') :
    s'.Delivered R ∧
      s'.frames.filterMap WiringEvent.event?
        = s.frames.filterMap WiringEvent.event? ++ c.event?.toList ∧
      SameQueue s s' := by
  cases c with
  | wire event =>
      obtain ⟨b, hemits, hdecodes⟩ := wireFrame_decodes hrt s.wired.streamId
        (event.map Prod.snd)
      simp only [call, hemits.run] at hs
      obtain rfl := Option.some.inj hs
      refine ⟨?_, ?_, ⟨rfl, rfl, rfl, rfl⟩⟩
      · obtain ⟨read, unread, chunks, hframes, hhandled, hconn, hchunks⟩ := h
        refine ⟨read, unread ++ [event], chunks ++ [b], ?_, hhandled, ?_, ?_⟩
        · rw [hframes, List.append_assoc]
        · rw [hconn, List.flatten_append, List.flatten_singleton]
        · refine List.rel_append hchunks (.cons ?_ .nil)
          cases event <;> exact hdecodes
      · rw [List.filterMap_append]
        cases event <;> rfl
  | notify | offer =>
      cases hs
      exact ⟨h, (List.append_nil _).symm, .refl _⟩
  | connect =>
      obtain ⟨w, -, rfl⟩ := Option.map_eq_some_iff.mp hs
      exact ⟨h, (List.append_nil _).symm, ⟨rfl, rfl, rfl, rfl⟩⟩

theorem calls_spec (hrt : RoundTrips encoder R) {calls : List (WiredCall (Nat × α))}
    {s s' : EventLoops α β} (h : s.Delivered R)
    (hs : calls.foldlM (call encoder) s = some s') :
    s'.Delivered R ∧
      s'.frames.filterMap WiringEvent.event?
        = s.frames.filterMap WiringEvent.event? ++ calls.filterMap WiredCall.event? ∧
      SameQueue s s' := by
  induction calls generalizing s with
  | nil =>
      cases hs
      exact ⟨h, (List.append_nil _).symm, .refl _⟩
  | cons c calls ih =>
      rw [List.foldlM_cons] at hs
      obtain ⟨t, ht, hs⟩ := Option.bind_eq_some_iff.mp hs
      obtain ⟨hd, hframes, hsame⟩ := call_spec hrt h ht
      obtain ⟨hd', hframes', hsame'⟩ := ih hd hs
      refine ⟨hd', ?_, hsame.trans hsame'⟩
      rw [hframes', hframes, List.append_assoc]
      congr 1
      cases hc : c.event? <;> simp [hc]

/-- Reading decodes the first frame on the connection; without one it fails. -/
theorem read_spec {s s' : EventLoops α β} (h : s.Delivered R)
    (hs : s.step encoder .read = some s') :
    s'.Delivered R ∧ s'.frames = s.frames ∧ SameQueue s s' := by
  obtain ⟨read, unread, chunks, hframes, hhandled, hconn, hchunks⟩ := h
  simp only [step, Option.ite_none_left_eq_some] at hs
  obtain ⟨-, hs⟩ := hs
  cases hchunks with
  | nil =>
      obtain ⟨e, hend⟩ : ∃ e, (unwiring : IoM Bytes (WiringEvent β)) s.conn
          = (.error e, []) := ⟨_, by rw [hconn]; rfl⟩
      simp only [hend] at hs
      obtain rfl := Option.some.inj hs
      exact ⟨⟨read, [], [], hframes, hhandled, rfl, .nil⟩, rfl, ⟨rfl, rfl, rfl, rfl⟩⟩
  | @cons b f chunks unread hframe hchunks =>
      obtain ⟨w, hw, hrel⟩ := hframe chunks.flatten
      rw [List.flatten_cons] at hconn
      simp only [hconn, hw] at hs
      obtain rfl := Option.some.inj hs
      refine ⟨⟨read ++ [f], unread, chunks, ?_, ?_, rfl, hchunks⟩, rfl, ⟨rfl, rfl, rfl, rfl⟩⟩
      · rw [hframes, List.append_assoc]
        rfl
      · rw [List.filterMap_append, List.map_append]
        refine List.rel_append hhandled ?_
        have h := forall₂_toList hrel
        cases hf : f.event? <;> simpa [hf] using h

theorem send_inv {s : EventLoops α β} (h : s.Inv R) (message : Option α) :
    (s.send message).Inv R := by
  obtain ⟨hd, haccounted, hret, hrefused⟩ := h
  cases hclosed : s.closed with
  | true =>
      have hsend : s.send message
          = { s with calls := s.calls ++ [⟨message, .error message⟩] } := by
        cases message <;> simp only [send, hclosed, if_true] <;> rfl
      rw [hsend]
      refine ⟨hd, ?_, fun h => ⟨hclosed, (hret h).2⟩, ?_⟩
      · rw [accepted_append]
        exact haccounted.trans (List.append_nil _).symm
      · intro c hc r hr
        rcases List.mem_append.mp hc with hc | hc
        · exact hrefused c hc r hr
        · obtain rfl := List.mem_singleton.mp hc
          exact (Except.error.inj hr).symm
  | false =>
      refine ⟨?_, ?_, ?_, ?_⟩
      · simp only [send, hclosed]
        exact hd
      · simp only [send, hclosed, Bool.false_eq_true, if_false, accepted_append,
          List.filterMap_append, ← haccounted, List.append_assoc]
        cases message <;> rfl
      · intro h
        simp only [send, hclosed, Bool.false_eq_true, if_false] at h
        cases hclosed.symm.trans (hret h).1
      · intro c hc r hr
        simp only [send, hclosed, Bool.false_eq_true, if_false] at hc
        rcases List.mem_append.mp hc with hc | hc
        · exact hrefused c hc r hr
        · obtain rfl := List.mem_singleton.mp hc
          cases hr

/-- A step keeps the invariant. -/
theorem step_inv (hrt : RoundTrips encoder R) {s s' : EventLoops α β} {a : EventAction α}
    (h : s.Inv R) (hs : s.step encoder a = some s') : s'.Inv R := by
  cases a with
  | send message =>
      cases hs
      exact send_inv h message
  | post event =>
      obtain ⟨hd, haccounted, hret, hrefused⟩ := h
      have hevent : event.bind WiredEvent.event? = none := by
        rcases event with _ | event | _ | _ | _
        · rfl
        · cases hs
        · rfl
        · rfl
        · rfl
      obtain ⟨hopen, rfl⟩ : s.closed = false ∧ { s with rx := s.rx ++ [event] } = s' := by
        rcases event with _ | event | _ | _ | _
        · simpa [step] using hs
        · cases hs
        · simpa [step] using hs
        · simpa [step] using hs
        · simpa [step] using hs
      refine ⟨hd, ?_, ?_, hrefused⟩
      · have hnone : [event].filterMap (·.bind WiredEvent.event?) = [] :=
          List.filterMap_cons_none hevent
        rw [List.filterMap_append, hnone, List.append_nil]
        exact haccounted
      · intro h
        cases hopen.symm.trans (hret h).1
  | push key message =>
      simp only [step, Option.ite_none_left_eq_some, Option.some.injEq] at hs
      obtain ⟨-, rfl⟩ := hs
      exact ⟨h.delivered, h.accounted, h.returned, h.refused⟩
  | recv connects =>
      obtain ⟨hd, haccounted, hret, hrefused⟩ := h
      rcases hrx : s.rx with _ | ⟨_ | event, rx⟩
      · simp [step, hrx] at hs
      · simp only [step, hrx, Option.some.injEq] at hs
        subst hs
        rw [hrx] at haccounted
        refine ⟨hd, haccounted, ?_, hrefused⟩
        intro h
        cases hrx.symm.trans (hret h).2
      · simp only [step, hrx] at hs
        obtain ⟨hd', hframes, hsame⟩ := calls_spec
          (s := { s with rx := rx, wired := (s.wired.handle connects event).1 }) hrt hd hs
        refine ⟨hd', ?_, ?_, hsame.calls ▸ hrefused⟩
        · rw [hframes, hsame.rx, hsame.calls, Wired.handle_events, ← haccounted, hrx,
            List.append_assoc]
          congr 1
          cases event <;> rfl
        · intro h
          cases hrx.symm.trans (hret (hsame.returned ▸ h)).2
  | finish =>
      simp only [step, Option.ite_none_right_eq_some, Bool.and_eq_true,
        List.isEmpty_iff, Option.some.injEq] at hs
      obtain ⟨hdone, rfl⟩ := hs
      exact ⟨h.delivered, h.accounted, fun _ => hdone, h.refused⟩
  | read =>
      obtain ⟨hd, hframes, hsame⟩ := read_spec h.delivered hs
      refine ⟨hd, ?_, ?_, ?_⟩
      · rw [hframes, hsame.rx, hsame.calls]
        exact h.accounted
      · rw [hsame.returned, hsame.closed, hsame.rx]
        exact h.returned
      · rw [hsame.calls]
        exact h.refused

end EventLoops

/-- **Events.** If the encoding of events round-trips, then the events handled are at
all times a prefix of the accepted ones, when `Wired::run` returns exactly the accepted
ones have been written, and an event that is refused is given back and never
written. -/
theorem events_delivered {α β : Type} [RustType β] [Unwiring β] [RustType (Vec U8)]
    [RustType (WiringEvent β)] {encoder : Nat → Wiring α} {R : β → α → Prop}
    (hrt : RoundTrips encoder R) {s : EventLoops α β}
    (h : (eventLoops β encoder).Reachable s) :
    (∃ taken, taken <+: (accepted s.calls).map Prod.snd ∧
      List.Forall₂ R s.handled taken) ∧
    (s.returned = true → s.frames.filterMap WiringEvent.event? = accepted s.calls) ∧
    ∀ n c r, s.calls[n]? = some c → c.result = .error r →
      r = c.message ∧ ∀ e, .event (n, e) ∉ s.frames := by
  have hinv : s.Inv R := h.invariant
    ⟨⟨[], [], [], rfl, .nil, rfl, .nil⟩, rfl, nofun, nofun⟩
    fun _ _ _ h _ hs => EventLoops.step_inv hrt h hs
  obtain ⟨⟨read, unread, -, hframes, hhandled, -, -⟩, haccounted, hret, hrefused⟩ := hinv
  refine ⟨⟨_, ?_, hhandled⟩, fun hdone => ?_, fun n c r hc hr => ⟨?_, fun e hmem => ?_⟩⟩
  · rw [← haccounted, hframes, List.filterMap_append, List.append_assoc, List.map_append]
    exact List.prefix_append ..
  · rw [← haccounted, (hret hdone).2]
    exact (List.append_nil _).symm
  · exact hrefused c (List.mem_of_getElem? hc) r hr
  · have hacc : (n, e) ∈ accepted s.calls := haccounted ▸ List.mem_append_left _
      (List.mem_filterMap.mpr ⟨_, hmem, rfl⟩)
    obtain ⟨c', hc', he⟩ := mem_accepted.mp hacc
    cases hc.symm.trans hc'
    simp only [SendCall.accepted, hr] at he
    cases he

/-! ## An event that opens a stream -/

/-- The id of the stream is before the byte. -/
@[reducible] def opening (streamId : Nat) : Wiring U8 :=
  { (inferInstance : Wiring U8) with
    wiring := fun e => do
      wiring (.ofNat (streamId + 1) : U64)
      wiring e }

local instance : RustType (Vec U8) := ⟨24, "alloc::vec::Vec<u8>"⟩

local instance : RustType (U64 × U8) := ⟨16, "(u64, u8)"⟩

local instance : RustType (WiringEvent (U64 × U8)) := ⟨40, "WiringEvent<(u64, u8)>"⟩

theorem opening_roundTrips : RoundTrips (β := U64 × U8) opening fun e' e => e'.2 = e := by
  intro n e
  have h64 := (WTy.prim .u64).encoder.wiring_emits (.ofNat (n + 1))
  have h8 := (WTy.prim .u8).encoder.wiring_emits e
  refine ⟨_, h64.bind h8, (ReadsPrim.async.decodes _).bind fun _ _ => ?_⟩
  exact (ReadsPrim.async.decodes e).map fun _ h => h

/-- Two events are sent around the shutdown, the second one after the loop has
received it. -/
def shutDown : EventLoops U8 (U64 × U8) :=
  (eventLoops _ opening).run [.send (some (.ofNat 5)), .send none, .recv 1, .recv 0,
    .send (some (.ofNat 6)), .finish, .read]

theorem events_delivered_shutDown :
    shutDown.handled.length = 1 ∧ (∃ taken,
      taken <+: (accepted shutDown.calls).map Prod.snd ∧
        List.Forall₂ (fun e' e => e'.2 = e) shutDown.handled taken) ∧
    shutDown.frames.filterMap WiringEvent.event? = accepted shutDown.calls :=
  have hreach : (eventLoops _ opening).Reachable shutDown :=
    Machine.reachableBy_run (by simp)
  have h := events_delivered opening_roundTrips hreach
  ⟨by decide +kernel, h.1, h.2.1 (by decide +kernel)⟩

end WiringRs
