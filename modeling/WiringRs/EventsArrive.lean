import Mathlib.Data.Prod.Lex
import WiringRs.Compatible
import WiringRs.Events
import WiringRs.Lib.Rest

/-!
# Every event that is accepted is handled

The other half of the delivery of events. The loops of the two peers cannot go on forever
while nobody sends, and where neither can go on, every accepted event has been handled,
whatever streams shared the queue and the connection with it. After a shutdown the
reading loop has ended there.
-/

namespace WiringRs

open Wiring Unwiring

/-- The asynchronous encoding of a type round-trips to every type that understands it and
has room for all its values. -/
theorem Compat.roundTrips {α β : Type} [w : Wiring α] [RustType β] [Unwiring β] {W : WTy α}
    {U : UTy β} {P : α → Prop} {R : α → β → Prop} (h : Compat true W U P R)
    (hroom : ∀ e, P e) : RoundTrips (fun _ => w) fun b a => R a b :=
  fun _ e => ⟨_, W.encoder.wiring_emits e, h.decodes_async (hroom e)⟩

/-- The two loops take this action. -/
def EventAction.OfLoop {α : Type} : EventAction α → Prop
  | .recv _ | .read => True
  | _ => False

namespace EventLoops

variable {α β : Type} {encoder : Nat → Wiring α} {R : β → α → Prop} {s s' : EventLoops α β}

theorem send_same (s : EventLoops α β) (message : Option α) :
    (s.send message).ended = s.ended ∧ (s.send message).returned = s.returned ∧
      (s.send message).conn = s.conn := by
  cases message <;> simp only [send] <;> split <;> exact ⟨rfl, rfl, rfl⟩

theorem calls_ended {calls : List (WiredCall (Nat × α))}
    (hs : calls.foldlM (call encoder) s = some s') : s'.ended = s.ended := by
  induction calls generalizing s with
  | nil =>
      cases hs
      rfl
  | cons c calls ih =>
      rw [List.foldlM_cons] at hs
      obtain ⟨t, ht, hs⟩ := Option.bind_eq_some_iff.mp hs
      rw [ih hs]
      cases c with
      | wire event =>
          simp only [call] at ht
          split at ht
          · cases ht
            rfl
          · cases ht
      | notify | offer =>
          cases ht
          rfl
      | connect =>
          obtain ⟨w, -, rfl⟩ := Option.map_eq_some_iff.mp ht
          rfl

/-- Only the encoder of an event opens streams. -/
theorem connect_not_mem_handle (w : Wired) (event : WiredEvent (Nat × α)) :
    WiredCall.connect ∉ (w.handle 0 event).2 := by
  cases event with
  | event e => simp [Wired.handle]
  | registerWriteHalf streamId => simp [Wired.handle]
  | drop streamId isLocal broadcastToRemote =>
      simp only [Wired.handle]
      split_ifs <;> simp
  | message streamId isLocal =>
      simp only [Wired.handle]
      split_ifs
      · cases w.buf (streamId, isLocal) <;> simp
      · simp

section

variable [RustType β] [Unwiring β] [RustType (Vec U8)] [RustType (WiringEvent β)]

/-- The reading loop ends with the stream. -/
structure InOrder (R : β → α → Prop) (s : EventLoops α β) : Prop extends s.Inv R where
  ended : s.ended = true → s.returned = true ∧ s.conn = []

theorem frame_ne_nil {b : Bytes} {f : WiringEvent (Nat × α)}
    (h : IsFrame (β := β) R b f) : b ≠ [] := by
  rintro rfl
  obtain ⟨w, hw, -⟩ := h []
  cases hw

/-- A frame is taken off the connection, or there is none and the loop ends. -/
theorem read_cases (h : s.Delivered R) (hs : s.step encoder .read = some s') :
    s.ended = false ∧
      ((∃ b, b ≠ [] ∧ s.conn = b ++ s'.conn ∧ s'.ended = false) ∨
        s.returned = true ∧ s.conn = [] ∧ s'.conn = [] ∧ s'.ended = true) := by
  obtain ⟨read, unread, chunks, -, -, hconn, hchunks⟩ := h
  simp only [step, Option.ite_none_left_eq_some, Bool.or_eq_true, not_or,
    Bool.not_eq_true] at hs
  obtain ⟨⟨hended, hwait⟩, hs⟩ := hs
  refine ⟨hended, ?_⟩
  cases hchunks with
  | nil =>
      obtain ⟨e, hend⟩ : ∃ e, (unwiring : IoM Bytes (WiringEvent β)) s.conn
          = (.error e, []) := ⟨_, by rw [hconn]; rfl⟩
      simp only [hend] at hs
      obtain rfl := Option.some.inj hs
      rw [hconn] at hwait
      exact Or.inr ⟨by simpa using hwait, hconn, rfl, rfl⟩
  | @cons b f chunks unread hframe hchunks =>
      obtain ⟨w, hw, -⟩ := hframe chunks.flatten
      rw [List.flatten_cons] at hconn
      simp only [hconn, hw] at hs
      obtain rfl := Option.some.inj hs
      exact Or.inl ⟨b, frame_ne_nil hframe, hconn, hended⟩

/-- What `Wired::run` takes off its queue. -/
theorem recv_cases {connects : Nat} (hrt : RoundTrips encoder R) (h : s.Delivered R)
    (hs : s.step encoder (.recv connects) = some s') :
    ∃ event, s.rx = event :: s'.rx ∧ s'.ended = s.ended := by
  rcases hrx : s.rx with _ | ⟨_ | event, rx⟩
  · simp [step, hrx] at hs
  · simp only [step, hrx, Option.some.injEq] at hs
    subst hs
    exact ⟨none, rfl, rfl⟩
  · simp only [step, hrx] at hs
    obtain ⟨-, -, hsame⟩ := calls_spec
      (s := { s with rx := rx, wired := (s.wired.handle connects event).1 }) hrt h hs
    have hended := calls_ended hs
    exact ⟨some event, by rw [hsame.rx], hended⟩

theorem post_eq {event : Option (WiredEvent (Nat × α))}
    (hs : s.step encoder (.post event) = some s') : s' = { s with rx := s.rx ++ [event] } := by
  rcases event with _ | event | _ | _ | _
  · simp_all [EventLoops.step]
  · cases hs
  · simp_all [EventLoops.step]
  · simp_all [EventLoops.step]
  · simp_all [EventLoops.step]

theorem InOrder.step {a : EventAction α} (hrt : RoundTrips encoder R) (h : s.InOrder R)
    (hs : s.step encoder a = some s') : s'.InOrder R := by
  refine ⟨step_inv hrt h.toInv hs, fun hended => ?_⟩
  cases a with
  | send message =>
      cases hs
      obtain ⟨he, hr, hc⟩ := send_same s message
      rw [hr, hc]
      exact h.ended (he ▸ hended)
  | post event =>
      obtain rfl := post_eq hs
      exact h.ended hended
  | push key message =>
      simp only [EventLoops.step, Option.ite_none_left_eq_some, Option.some.injEq] at hs
      obtain ⟨-, rfl⟩ := hs
      exact h.ended hended
  | recv connects =>
      obtain ⟨event, hrx, he⟩ := recv_cases hrt h.delivered hs
      obtain ⟨hreturned, -⟩ := h.ended (he ▸ hended)
      cases hrx.symm.trans (h.returned hreturned).2
  | finish =>
      simp only [EventLoops.step, Option.ite_none_right_eq_some, Option.some.injEq] at hs
      obtain ⟨-, rfl⟩ := hs
      exact ⟨rfl, (h.ended hended).2⟩
  | read =>
      obtain ⟨-, ⟨b, -, -, he⟩ | ⟨hreturned, -, hconn, -⟩⟩ := read_cases h.delivered hs
      · cases he.symm.trans hended
      · obtain ⟨-, -, hsame⟩ := read_spec h.delivered hs
        exact ⟨hsame.returned.trans hreturned, hconn⟩

/-- How much the loops have left to do. -/
def left (s : EventLoops α β) : Nat ×ₗ Nat :=
  toLex (s.rx.length, s.conn.length + (!s.ended).toNat)

theorem left_lt {a : EventAction α} (ha : a.OfLoop) (hrt : RoundTrips encoder R)
    (h : s.InOrder R) (hs : s.step encoder a = some s') : s'.left < s.left := by
  rw [left, left, Prod.Lex.toLex_lt_toLex]
  cases a with
  | send | post | push | finish => exact ha.elim
  | recv connects =>
      obtain ⟨event, hrx, -⟩ := recv_cases hrt h.delivered hs
      rw [hrx]
      exact Or.inl (Nat.lt_succ_self _)
  | read =>
      obtain ⟨-, -, hsame⟩ := read_spec h.delivered hs
      refine Or.inr ⟨congrArg List.length hsame.rx, ?_⟩
      obtain ⟨hended, ⟨b, hb, hconn, he⟩ | ⟨-, hconn, hconn', he⟩⟩ :=
        read_cases h.delivered hs
      · have hpos := List.length_pos_iff.mpr hb
        simp only [hconn, he, hended, List.length_append]
        omega
      · simp [hconn, hconn', he, hended]

/-- A call that opens no stream can be made. -/
theorem call_some (hrt : RoundTrips encoder R) {c : WiredCall (Nat × α)}
    (hc : c ≠ .connect) (s : EventLoops α β) : ∃ s', s.call encoder c = some s' := by
  cases c with
  | wire event =>
      obtain ⟨b, hemits, -⟩ := wireFrame_decodes hrt s.wired.streamId (event.map Prod.snd)
      refine ⟨{ s with conn := s.conn ++ b, frames := s.frames ++ [event] }, ?_⟩
      simp only [call, hemits.run]
  | notify | offer => exact ⟨s, rfl⟩
  | connect => exact absurd rfl hc

theorem calls_some (hrt : RoundTrips encoder R) {calls : List (WiredCall (Nat × α))}
    (hc : .connect ∉ calls) (s : EventLoops α β) :
    ∃ s', calls.foldlM (call encoder) s = some s' := by
  induction calls generalizing s with
  | nil => exact ⟨s, rfl⟩
  | cons c calls ih =>
      rw [List.mem_cons, not_or] at hc
      obtain ⟨t, ht⟩ := call_some hrt (Ne.symm hc.1) s
      obtain ⟨s', hs'⟩ := ih hc.2 t
      exact ⟨s', by rw [List.foldlM_cons, ht]; exact hs'⟩

/-- While the queue is not empty, `Wired::run` can take an event. -/
theorem recv_some (hrt : RoundTrips encoder R) (hrx : s.rx ≠ []) :
    ∃ s', s.step encoder (.recv 0) = some s' := by
  rcases hs : s.rx with _ | ⟨_ | event, rx⟩
  · exact absurd hs hrx
  · simp only [EventLoops.step, hs]
    exact ⟨_, rfl⟩
  · simp only [EventLoops.step, hs]
    exact calls_some hrt (connect_not_mem_handle s.wired event) _

/-- A reader with nothing to read has read all frames. -/
theorem read_none (h : s.InOrder R) (hread : s.step encoder .read = none) :
    s.conn = [] ∧ (s.returned = true → s.ended = true) := by
  have hguard : (s.ended || (s.conn.isEmpty && !s.returned)) = true := by
    by_contra hguard
    rw [EventLoops.step, if_neg hguard] at hread
    split at hread <;> cases hread
  rw [Bool.or_eq_true, Bool.and_eq_true, List.isEmpty_iff, Bool.not_eq_true'] at hguard
  rcases hguard with hended | ⟨hconn, hreturned⟩
  · exact ⟨(h.ended hended).2, fun _ => hended⟩
  · exact ⟨hconn, fun hr => absurd (hreturned.symm.trans hr) Bool.false_ne_true⟩

theorem handled_all (h : s.InOrder R) (hrx : s.rx = []) (hconn : s.conn = []) :
    List.Forall₂ R s.handled ((accepted s.calls).map Prod.snd) := by
  obtain ⟨read, unread, chunks, hframes, hhandled, hflat, hchunks⟩ := h.delivered
  have hunread : unread = [] := by
    cases hchunks with
    | nil => rfl
    | cons hframe =>
        rw [hconn, List.flatten_cons, eq_comm, List.append_eq_nil_iff] at hflat
        exact absurd hflat.1 (frame_ne_nil hframe)
  rw [← h.accounted, hrx, hframes, hunread, List.append_nil, List.filterMap_nil,
    List.append_nil]
  exact hhandled

end

end EventLoops

/-- **Every accepted event is handled.** If the encoding of events round-trips, then from
every reachable state the loops of the two peers cannot go on forever while nothing is
sent, and where they have come to rest the queue and the connection are empty and the
events handled are the accepted ones, all of them in order; if `Wired::run` has returned
then the reading loop has ended. -/
theorem events_arrive {α β : Type} [RustType β] [Unwiring β] [RustType (Vec U8)]
    [RustType (WiringEvent β)] {encoder : Nat → Wiring α} {R : β → α → Prop}
    (hrt : RoundTrips encoder R) {s : EventLoops α β}
    (h : (eventLoops β encoder).Reachable s) :
    (eventLoops β encoder).SettlesFrom EventAction.OfLoop s ∧
      ((eventLoops β encoder).AtRest EventAction.OfLoop s →
        s.rx = [] ∧ s.conn = [] ∧
        List.Forall₂ R s.handled ((accepted s.calls).map Prod.snd) ∧
        (s.returned = true → s.ended = true)) := by
  have hinit : (eventLoops β encoder).init.InOrder R :=
    ⟨⟨⟨[], [], [], rfl, .nil, rfl, .nil⟩, rfl, nofun, nofun⟩, nofun⟩
  have hinv : s.InOrder R := h.invariant hinit fun _ _ _ h _ hs => h.step hrt hs
  refine ⟨Machine.settlesFrom_of_measure EventLoops.left hinv fun s a t hs ha hstep =>
    ⟨hs.step hrt hstep, EventLoops.left_lt ha hrt hs hstep⟩, fun hrest => ?_⟩
  have hrx : s.rx = [] := by
    by_contra hne
    obtain ⟨s', hs'⟩ := EventLoops.recv_some hrt hne
    cases (hrest (.recv 0) trivial).symm.trans hs'
  have hread : s.step encoder .read = none := hrest .read trivial
  obtain ⟨hconn, hended⟩ := EventLoops.read_none hinv hread
  exact ⟨hrx, hconn, EventLoops.handled_all hinv hrx hconn, hended⟩

/-! ## Strings for bytes -/

local instance : RustType (Vec U8) := ⟨24, "alloc::vec::Vec<u8>"⟩

local instance : RustType (WiringEvent (Vec U8)) := ⟨40, "WiringEvent<Vec<u8>>"⟩

/-- One peer sends a string, and the other handles it as its bytes. -/
def greeting : EventLoops RString (Vec U8) :=
  (eventLoops _ fun _ => inferInstance).run [.send (some ⟨[104, 105], by decide, by decide⟩),
    .recv 0, .read]

theorem greeting_atRest :
    (eventLoops (Vec U8) fun _ => (inferInstance : Wiring RString)).AtRest
      EventAction.OfLoop greeting := by
  have hrx : greeting.rx = [] := List.isEmpty_iff.mp (by decide +kernel)
  have hwait : (greeting.ended || (greeting.conn.isEmpty && !greeting.returned)) = true := by
    decide +kernel
  intro a ha
  cases a with
  | send | post | push | finish => exact ha.elim
  | recv connects => simp only [eventLoops, EventLoops.step, hrx]
  | read => simp only [eventLoops, EventLoops.step, hwait, if_true]

theorem events_arrive_greeting :
    ∃ v, greeting.handled = [v] ∧ v.toList.map Prim.toByte = [104, 105] := by
  have hreach : (eventLoops (Vec U8) fun _ => (inferInstance : Wiring RString)).Reachable
      greeting := Machine.reachableBy_run (by simp)
  obtain ⟨-, hrest⟩ := events_arrive (Compat.roundTrips .utf8 fun _ => trivial) hreach
  obtain ⟨-, -, hhandled, -⟩ := hrest greeting_atRest
  have hsent : (accepted greeting.calls).map Prod.snd = [⟨[104, 105], by decide, by decide⟩] := by
    decide +kernel
  rw [hsent] at hhandled
  generalize greeting.handled = handled at hhandled
  cases hhandled with
  | cons hv hnil =>
      cases hnil
      exact ⟨_, rfl, hv⟩

end WiringRs
