import WiringRs.Encoders
import WiringRs.Lib.Machine
import WiringRs.Wired

/-!
# Frames after a failed write

The loop of `Wired::run` over an event type with any encoder. A failed write
closes the queue, but what is queued already is still received and handled, so
its frames are written behind the incomplete one.
-/

namespace WiringRs

open Wiring

structure WiredLoop (α : Type) where
  rx : List (Option (WiredEvent α)) := []
  closed : Bool := false
  wired : Wired := {}
  /-- What was handed to the wire. -/
  out : Bytes := []
  /-- The frames written before a write failed. -/
  frames : List Bytes := []
  /-- What was written of the frame of the first write that failed. -/
  failure : Option Bytes := none

inductive LoopAction (α : Type) where
  /-- A handle sends an event, or `None` for the shutdown. -/
  | send (event : Option (WiredEvent α))
  /-- A write half leaves a message on its channel. -/
  | push (key : StreamKey) (message : Message)
  /-- The loop takes the next event. `accept` is the number of bytes after which
  the transport fails, if it does. -/
  | recv (accept : Option Nat) (connects : Nat)

namespace WiredLoop

variable {α : Type} [Wiring α]

/-- The task is gone, and what it has not received with it. -/
def abort (s : WiredLoop α) : WiredLoop α := { s with rx := [], closed := true }

/-- `self.wire(event).await`, and `rx.close()` if it fails. -/
def wire (accept : Option Nat) (s : WiredLoop α) (event : WiringEvent α) :
    WiredLoop α :=
  let (result, bytes) := (wiring event : IoM Bytes Unit) []
  match accept, result with
  | none, .ok () => { s with
      out := s.out ++ bytes
      frames := if s.failure.isNone then s.frames ++ [bytes] else s.frames }
  | none, .error (.err _) => { s with
      out := s.out ++ bytes
      closed := true
      failure := s.failure.or (some bytes) }
  | none, .error _ => abort { s with
      out := s.out ++ bytes
      failure := s.failure.or (some bytes) }
  | some n, _ => { s with
      out := s.out ++ bytes.take n
      closed := true
      failure := s.failure.or (some (bytes.take n)) }

/-- The calls of an event. The id of a stream that is opened is among the bytes
of the event that opens it. -/
def call (accept : Option Nat) (s : WiredLoop α) : WiredCall α → WiredLoop α
  | .wire event => s.wire accept event
  | .notify .. | .offer _ => s
  | .connect =>
      match s.wired.connect with
      | some (_, wired) => { s with wired := wired }
      | none => s.abort

def step (s : WiredLoop α) : LoopAction α → Option (WiredLoop α)
  | .send event => if s.closed then none else some { s with rx := s.rx ++ [event] }
  | .push key message =>
      if key ∈ s.wired.removed then none
      else some { s with wired := { s.wired with
        buf := Function.update s.wired.buf key (s.wired.buf key ++ [message]) } }
  | .recv accept connects =>
      match s.rx with
      | [] => none
      | none :: rx => some { s with rx := rx, closed := true }
      | some event :: rx =>
          let (wired, calls) := s.wired.handle connects event
          some (calls.foldl (call accept) { s with rx := rx, wired := wired })

end WiredLoop

def loopMachine (α : Type) [Wiring α] : Machine (WiredLoop α) (LoopAction α) :=
  ⟨{}, WiredLoop.step⟩

namespace WiredLoop

variable {α : Type} [Wiring α]

/-- The wire has complete frames, then at most one incomplete one. -/
structure Integrity (s : WiredLoop α) : Prop where
  out_eq : s.out = s.frames.flatten ++ s.failure.getD []
  complete : ∀ f ∈ s.frames, ∃ event : WiringEvent α, wiring event [] = (.ok (), f)
  incomplete : ∀ f, s.failure = some f →
    ∃ event : WiringEvent α, f <+: (wiring event []).2

/-- The event at the head of the queue makes `Wired` write a frame. -/
def Writes (s : WiredLoop α) : Prop :=
  match s.rx.head? with
  | some (some (.event _)) => True
  | some (some (.message streamId isLocal)) =>
      (streamId, isLocal) ∈ s.wired.streams ∧ s.wired.buf (streamId, isLocal) ≠ []
  | some (some (.drop streamId isLocal broadcastToRemote)) =>
      broadcastToRemote = true ∧ (streamId, isLocal) ∈ s.wired.streams
  | _ => False

/-- Once a write has failed, no event is handled that writes, or the transport
takes no byte of it. -/
def Quiet (s : WiredLoop α) (a : LoopAction α) : Prop :=
  ∀ accept connects, a = .recv accept connects → s.failure ≠ none → s.Writes →
    accept = some 0

/-! ## One event -/

/-- None of the calls writes. -/
def NoWire (calls : List (WiredCall α)) : Prop := ∀ event, .wire event ∉ calls

omit [Wiring α] in
/-- An event writes one frame, before its other calls, or none. -/
theorem handle_calls {s : WiredLoop α} {event : WiredEvent α}
    (h : s.rx.head? = some (some event)) (connects : Nat) :
    (s.Writes ∧ ∃ frame calls, NoWire calls ∧
      (s.wired.handle connects event).2 = .wire frame :: calls) ∨
    (¬ s.Writes ∧ NoWire (s.wired.handle connects event).2) := by
  unfold Writes
  rw [h]
  cases event with
  | event e =>
      refine Or.inl ⟨trivial, _, _, ?_, rfl⟩
      intro f hf
      cases List.eq_of_mem_replicate hf
  | registerWriteHalf streamId => exact Or.inr ⟨nofun, fun f => List.not_mem_nil⟩
  | drop streamId isLocal broadcastToRemote =>
      by_cases hkey : (streamId, isLocal) ∈ s.wired.streams
      · cases broadcastToRemote with
        | true =>
            refine Or.inl ⟨⟨rfl, hkey⟩, .drop streamId !isLocal,
              [.notify streamId isLocal], ?_, ?_⟩
            · intro f hf
              cases List.mem_singleton.mp hf
            · simp only [Wired.handle, hkey, if_true, List.singleton_append]
        | false =>
            refine Or.inr ⟨fun hw => Bool.false_ne_true hw.1, fun f hf => ?_⟩
            simp only [Wired.handle, hkey, if_true] at hf
            cases List.mem_singleton.mp hf
      · refine Or.inr ⟨fun hw => hkey hw.2, fun f hf => ?_⟩
        simp only [Wired.handle, hkey, if_false, List.not_mem_nil] at hf
  | message streamId isLocal =>
      by_cases hkey : (streamId, isLocal) ∈ s.wired.streams
      · cases hbuf : s.wired.buf (streamId, isLocal) with
        | nil =>
            refine Or.inr ⟨fun hw => hw.2 hbuf, fun f hf => ?_⟩
            simp only [Wired.handle, hkey, if_true, hbuf, List.not_mem_nil] at hf
        | cons m ms =>
            refine Or.inl ⟨⟨hkey, by rw [hbuf]; nofun⟩,
              .message streamId (!isLocal) m, [], fun f => nofun, ?_⟩
            simp only [Wired.handle, hkey, if_true, hbuf]
      · refine Or.inr ⟨fun hw => hkey hw.1, fun f hf => ?_⟩
        simp only [Wired.handle, hkey, if_false, List.not_mem_nil] at hf

theorem Integrity.congr {s s' : WiredLoop α} (h : s.Integrity) (hout : s'.out = s.out)
    (hframes : s'.frames = s.frames) (hfailure : s'.failure = s.failure) :
    s'.Integrity := by
  obtain ⟨h1, h2, h3⟩ := h
  rw [← hout, ← hframes, ← hfailure] at h1
  rw [← hframes] at h2
  rw [← hfailure] at h3
  exact ⟨h1, h2, h3⟩

/-- A call that is no write leaves the bytes alone. -/
theorem call_integrity {s : WiredLoop α} {c : WiredCall α} {accept : Option Nat}
    (h : s.Integrity) (hc : ∀ event, c ≠ .wire event) :
    (s.call accept c).Integrity := by
  cases c with
  | wire event => exact absurd rfl (hc event)
  | notify | offer => exact h
  | connect =>
      cases hcon : s.wired.connect with
      | some w =>
          simp only [call, hcon]
          exact h.congr rfl rfl rfl
      | none =>
          simp only [call, hcon]
          exact h.congr rfl rfl rfl

theorem calls_integrity {calls : List (WiredCall α)} {s : WiredLoop α}
    {accept : Option Nat} (h : s.Integrity) (hc : NoWire calls) :
    (calls.foldl (call accept) s).Integrity := by
  induction calls generalizing s with
  | nil => exact h
  | cons c calls ih =>
      refine ih (call_integrity h fun event hev => ?_) fun event hmem => ?_
      · exact hc event (hev ▸ List.mem_cons_self)
      · exact hc event (List.mem_cons_of_mem c hmem)

/-- The first failure: what was written of the frame is the incomplete one. -/
theorem Integrity.fail {s : WiredLoop α} (h : s.Integrity) (hf : s.failure = none)
    {bytes : Bytes} {event : WiringEvent α} (hb : bytes <+: (wiring event []).2)
    (closed : Bool) :
    Integrity { s with
      out := s.out ++ bytes
      closed := closed
      failure := s.failure.or (some bytes) } := by
  obtain ⟨hout, hcomplete, -⟩ := h
  rw [hf, Option.getD_none, List.append_nil] at hout
  refine ⟨?_, hcomplete, ?_⟩
  · simp only [hf, Option.none_or, Option.getD_some, hout]
  · intro f h
    simp only [hf, Option.none_or, Option.some.injEq] at h
    exact ⟨event, h ▸ hb⟩

/-- A write before any failure is a frame or the failure; one after it must not
leave a byte. -/
theorem wire_integrity {s : WiredLoop α} {accept : Option Nat} (h : s.Integrity)
    (hquiet : s.failure ≠ none → accept = some 0) (event : WiringEvent α) :
    (s.wire accept event).Integrity := by
  rcases hw : (wiring event : IoM Bytes Unit) [] with ⟨result, bytes⟩
  have hbytes : bytes <+: (wiring event []).2 := by rw [hw]
  cases hf : s.failure with
  | none =>
      cases accept with
      | some n =>
          have hwire : s.wire (some n) event = { s with
              out := s.out ++ bytes.take n
              closed := true
              failure := s.failure.or (some (bytes.take n)) } := by
            simp only [wire, hw]
          rw [hwire]
          exact h.fail hf ((List.take_prefix n bytes).trans hbytes) true
      | none =>
          rcases result with (e | _ | _) | ⟨⟩
          · have hwire : s.wire none event = { s with
                out := s.out ++ bytes
                closed := true
                failure := s.failure.or (some bytes) } := by
              simp only [wire, hw]
            rw [hwire]
            exact h.fail hf hbytes true
          · refine (h.fail hf hbytes s.closed).congr ?_ ?_ ?_ <;> simp only [wire, hw, abort]
          · refine (h.fail hf hbytes s.closed).congr ?_ ?_ ?_ <;> simp only [wire, hw, abort]
          · have hwire : s.wire none event = { s with
                out := s.out ++ bytes
                frames := s.frames ++ [bytes] } := by
              simp only [wire, hw, hf, Option.isNone_none, if_true]
            rw [hwire]
            obtain ⟨hout, hcomplete, hincomplete⟩ := h
            rw [hf, Option.getD_none, List.append_nil] at hout
            refine ⟨?_, ?_, hincomplete⟩
            · simp [hf, hout]
            · intro f hmem
              rcases List.mem_append.mp hmem with hmem | hmem
              · exact hcomplete f hmem
              · rw [List.mem_singleton.mp hmem]
                exact ⟨event, hw⟩
  | some f =>
      cases hquiet (by rw [hf]; nofun)
      refine h.congr ?_ ?_ ?_ <;> simp [wire, hf]

/-- A step that meets the condition keeps the frames whole. -/
theorem step_integrity {s s' : WiredLoop α} {a : LoopAction α} (h : s.Integrity)
    (hquiet : s.Quiet a) (hs : s.step a = some s') : s'.Integrity := by
  cases a with
  | send event =>
      simp only [step] at hs
      split at hs
      · cases hs
      · cases hs
        exact h.congr rfl rfl rfl
  | push key message =>
      simp only [step] at hs
      split at hs
      · cases hs
      · cases hs
        exact h.congr rfl rfl rfl
  | recv accept connects =>
      rcases hrx : s.rx with _ | ⟨_ | event, rx⟩
      · simp [step, hrx] at hs
      · simp only [step, hrx, Option.some.injEq] at hs
        subst hs
        exact h.congr rfl rfl rfl
      · simp only [step, hrx, Option.some.injEq] at hs
        subst hs
        have hstart : Integrity { s with
            rx := rx
            wired := (s.wired.handle connects event).1 } := h.congr rfl rfl rfl
        rcases handle_calls (by rw [hrx]; rfl) connects with
          ⟨hwrites, frame, calls, hcalls, heq⟩ | ⟨-, hcalls⟩
        · rw [heq, List.foldl_cons]
          refine calls_integrity (wire_integrity hstart ?_ frame) hcalls
          exact fun hfail => hquiet accept connects rfl hfail hwrites
        · exact calls_integrity hstart hcalls

/-! ## The condition is exact -/

/-- The call only adds to the bytes. -/
def Appends (x : IoM Bytes Unit) : Prop := ∀ out, out <+: (x out).2

/-- The byte of the variant, the first of a frame. -/
def variant : WiringEvent α → UInt8
  | .event _ => 0
  | .message .. => 1
  | .drop .. => 2

theorem variant_prefix (hα : ∀ e : α, Appends (wiring e)) (event : WiringEvent α) :
    [variant event] <+: (wiring event []).2 := by
  cases event with
  | event e => exact hα e [0]
  | message streamId isLocal message =>
      have h := ((WTy.prim .u64).encoder.wiring_emits streamId).bind
        ((WTy.bool.encoder.wiring_emits isLocal).bind
          ((WTy.vec (.prim .u8)).encoder.wiring_emits message))
      exact ⟨_, (congrArg Prod.snd (h.run [1])).symm⟩
  | drop streamId isLocal =>
      have h := ((WTy.prim .u64).encoder.wiring_emits streamId).bind
        (WTy.bool.encoder.wiring_emits isLocal)
      exact ⟨_, (congrArg Prod.snd (h.run [2])).symm⟩

theorem wiring_ne_nil (hα : ∀ e : α, Appends (wiring e)) (event : WiringEvent α) :
    (wiring event []).2 ≠ [] := by
  intro h
  have hp := variant_prefix hα event
  rw [h] at hp
  cases List.prefix_nil.mp hp

/-- A write after a failed one adds to the bytes and to nothing they are
accounted for by. -/
theorem wire_out {s : WiredLoop α} {accept : Option Nat} {f : Bytes}
    (hf : s.failure = some f) (haccept : accept ≠ some 0) {event : WiringEvent α}
    (hne : (wiring event []).2 ≠ []) :
    ∃ bytes, bytes ≠ [] ∧ (s.wire accept event).out = s.out ++ bytes ∧
      (s.wire accept event).frames = s.frames ∧
      (s.wire accept event).failure = s.failure := by
  rcases hw : (wiring event : IoM Bytes Unit) [] with ⟨result, bytes⟩
  have hne : bytes ≠ [] := by rwa [hw] at hne
  cases accept with
  | some n =>
      refine ⟨bytes.take n, ?_, ?_⟩
      · intro h
        rcases List.take_eq_nil_iff.mp h with rfl | h
        · exact haccept rfl
        · exact hne h
      · simp [wire, hw, hf]
  | none =>
      refine ⟨bytes, hne, ?_⟩
      rcases result with (e | _ | _) | ⟨⟩ <;> simp [wire, hw, hf, abort]

theorem calls_out {calls : List (WiredCall α)} (s : WiredLoop α)
    (accept : Option Nat) (hc : NoWire calls) :
    (calls.foldl (call accept) s).out = s.out ∧
      (calls.foldl (call accept) s).frames = s.frames ∧
      (calls.foldl (call accept) s).failure = s.failure := by
  induction calls generalizing s with
  | nil => exact ⟨rfl, rfl, rfl⟩
  | cons c calls ih =>
      have hcall : (s.call accept c).out = s.out ∧
          (s.call accept c).frames = s.frames ∧
          (s.call accept c).failure = s.failure := by
        cases c with
        | wire event => exact absurd List.mem_cons_self (hc event)
        | notify | offer => exact ⟨rfl, rfl, rfl⟩
        | connect => cases hcon : s.wired.connect <;> simp [call, hcon, abort]
      obtain ⟨h1, h2, h3⟩ := ih (s.call accept c) fun event hmem =>
        hc event (List.mem_cons_of_mem c hmem)
      exact ⟨h1.trans hcall.1, h2.trans hcall.2.1, h3.trans hcall.2.2⟩

/-- A step that writes after a failure leaves bytes behind the incomplete
frame. -/
theorem not_integrity_of_writes (hα : ∀ e : α, Appends (wiring e))
    {s s' : WiredLoop α} (h : s.Integrity) {accept : Option Nat} {connects : Nat}
    (hfailure : s.failure ≠ none) (hwrites : s.Writes) (haccept : accept ≠ some 0)
    (hs : s.step (.recv accept connects) = some s') : ¬ s'.Integrity := by
  obtain ⟨f, hf⟩ := Option.ne_none_iff_exists'.mp hfailure
  rcases hrx : s.rx with _ | ⟨_ | event, rx⟩
  · simp [step, hrx] at hs
  · simp [Writes, hrx] at hwrites
  · simp only [step, hrx, Option.some.injEq] at hs
    subst hs
    rcases handle_calls (by rw [hrx]; rfl) connects with
      ⟨-, frame, calls, hcalls, heq⟩ | ⟨hquiet, -⟩
    · obtain ⟨bytes, hne, hout, hframes, hfail⟩ := wire_out
        (s := { s with rx := rx, wired := (s.wired.handle connects event).1 })
        hf haccept (wiring_ne_nil hα frame)
      obtain ⟨hcout, hcframes, hcfail⟩ := calls_out
        (wire accept { s with rx := rx, wired := (s.wired.handle connects event).1 }
          frame) accept hcalls
      rw [heq, List.foldl_cons]
      intro h'
      have h1 := h'.out_eq
      rw [call, hcout, hcframes, hcfail, hout, hframes, hfail] at h1
      have h2 : s.out ++ bytes = s.out := h1.trans h.out_eq.symm
      exact hne (List.append_cancel_left (h2.trans (List.append_nil _).symm))
    · exact absurd hwrites hquiet

/-- An encoder can only append to the wire. The frames are then whole throughout
a run exactly if its steps all meet the condition. -/
theorem integrity_iff_quiet (hα : ∀ e : α, Appends (wiring e))
    (as : List (LoopAction α)) :
    (∀ t ∈ (loopMachine α).steps {} as, t.after.Integrity) ↔
      ∀ t ∈ (loopMachine α).steps {} as, t.before.Quiet t.action := by
  refine Machine.forall_steps_iff (P := fun t => t.after.Integrity) ?_
    (⟨rfl, nofun, nofun⟩ : Integrity (α := α) {}) as
  intro s a s' h hs
  refine ⟨fun hquiet => step_integrity h hquiet hs, ?_,
    fun hquiet => step_integrity h hquiet hs⟩
  intro h'
  rintro accept connects rfl hfailure hwrites
  by_contra haccept
  exact not_integrity_of_writes hα h hfailure hwrites haccept hs h'

end WiredLoop

/-- **Frame integrity.** In a run in which no event that writes is handled after
a failed write, what was handed to the wire is always a sequence of complete
frames and at most one incomplete frame after them. -/
theorem frames_whole {α : Type} [Wiring α] {s : WiredLoop α}
    (h : (loopMachine α).ReachableBy WiredLoop.Quiet s) : s.Integrity :=
  h.invariant ⟨rfl, nofun, nofun⟩ fun _ _ _ h hquiet hs =>
    WiredLoop.step_integrity h hquiet hs

/-! ## A refused event -/

/-- An event whose encoder refuses it, as that of a receiver does when it is
wired by reference. -/
inductive Refused where
  | refused

instance : Wiring Refused where
  wiringRef _ := Act.fail ⟨.unsupported, "Wiring oneshot receiver by ref is not supported"⟩
  syncWiring _ := Act.fail ⟨.unsupported, "Sync Wiring oneshot receiver is not supported"⟩

/-- A refused event is sent; the write fails after two bytes. -/
theorem frames_whole_refused :
    WiredLoop.Integrity (α := Option Refused)
      { closed := true, out := [0, 1], failure := some [0, 1] } :=
  frames_whole <| .step (a := .recv none 0)
    (.step (a := .send (some (.event (some .refused)))) .init (by rintro _ _ ⟨⟩) rfl)
    (by rintro _ _ ⟨⟩ hf; exact absurd rfl hf) rfl

/-- The bytes are complete frames and at most one incomplete one after them. -/
def Whole (α : Type) [Wiring α] (out : Bytes) : Prop :=
  ∃ (frames : List Bytes) (last : Bytes), out = frames.flatten ++ last ∧
    (∀ f ∈ frames, ∃ event : WiringEvent α, wiring event [] = (.ok (), f)) ∧
    ∃ event : WiringEvent α, last <+: (wiring event []).2

theorem WiredLoop.Integrity.whole {α : Type} [Wiring α] {s : WiredLoop α}
    (h : s.Integrity) : Whole α s.out := by
  refine ⟨s.frames, _, h.out_eq, h.complete, ?_⟩
  cases hf : s.failure with
  | none => exact ⟨.drop (.ofNat 0) true, List.nil_prefix⟩
  | some f => exact h.incomplete f hf

theorem refused_appends (e : Option Refused) : WiredLoop.Appends (wiring e) := by
  intro out
  rcases e with _ | ⟨⟨⟩⟩
  · exact ⟨[0], rfl⟩
  · exact ⟨[1], rfl⟩

theorem refused_frame {event : WiringEvent (Option Refused)}
    (h : WiredLoop.variant event = 0) :
    wiring event [] = (.ok (), [0, 0]) ∨
      ∃ e, wiring event [] = (.error e, [0, 1]) := by
  rcases event with (_ | ⟨⟨⟩⟩) | _ | _
  · exact Or.inl rfl
  · exact Or.inr ⟨_, rfl⟩
  · exact absurd h (by decide : (1 : UInt8) ≠ 0)
  · exact absurd h (by decide : (2 : UInt8) ≠ 0)

/-- The refused event leaves two bytes of its frame; the event queued behind it
is still written. -/
theorem refused_not_whole :
    ∃ s, (loopMachine (Option Refused)).Reachable s ∧ s.out = [0, 1, 0, 0] ∧
      ¬ s.Integrity ∧ ¬ Whole (Option Refused) s.out := by
  have hs : (loopMachine (Option Refused)).Reachable
      { closed := true, out := [0, 1, 0, 0], failure := some [0, 1] } :=
    .step (a := .recv none 0) (.step (a := .recv none 0)
      (.step (a := .send (some (.event none)))
        (.step (a := .send (some (.event (some .refused)))) .init trivial rfl)
        trivial rfl) trivial rfl) trivial rfl
  have hw : ¬ Whole (Option Refused) [0, 1, 0, 0] := by
    rintro ⟨frames, last, hout, hframes, event, hlast⟩
    rcases frames with _ | ⟨f, frames⟩
    · rw [List.flatten_nil, List.nil_append] at hout
      subst hout
      have hv := WiredLoop.variant_prefix refused_appends event
      have hhead := List.prefix_of_prefix_length_le hv hlast (Nat.le_add_left 1 3)
      rcases refused_frame (List.cons_prefix_cons.mp hhead).1 with h | ⟨_, h⟩ <;>
        rw [h] at hlast <;>
        exact absurd hlast.length_le (Nat.not_le_of_lt (by decide : 2 < 4))
    · obtain ⟨event, hevent⟩ := hframes f List.mem_cons_self
      have hf : f <+: [0, 1, 0, 0] :=
        ⟨frames.flatten ++ last, by rw [hout, List.flatten_cons, List.append_assoc]⟩
      have hv := WiredLoop.variant_prefix refused_appends event
      rw [hevent] at hv
      rcases refused_frame (List.cons_prefix_cons.mp (hv.trans hf)).1 with h | ⟨_, h⟩
      · cases hevent.symm.trans h
        exact absurd hf (by decide)
      · cases hevent.symm.trans h
  exact ⟨_, hs, rfl, fun h => hw h.whole, hw⟩

end WiringRs
