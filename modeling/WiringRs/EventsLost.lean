import WiringRs.CutStream
import WiringRs.EventsArrive

/-!
# Events on a lost connection

The connection is lost while frames are on it: some of their bytes still come, up to any
one of them. The events whose frames have come are handled as they were sent, and the
reading loop ends; but if the last bytes end inside a string, the event that is read there
is handled too, with a shorter string.
-/

namespace WiringRs

open Act Wiring Unwiring

/-! ## A frame that is cut -/

section

variable {rest : Bytes}

theorem asyncReadPrim_cut (t : PrimTy) :
    Simulates (CutOff rest) (· = .err eof) (asyncReadPrim t) (asyncReadPrim t) :=
  (readExactSlice_cut t.size).map

theorem unwiring_bool_cut :
    Simulates (CutOff rest) (· = .err eof) (unwiring : IoM Bytes Bool) unwiring :=
  (asyncReadPrim_cut .u8).map

theorem unwiring_message_cut [RustType (Vec U8)] :
    Simulates (CutOff rest) (· = .err eof) (unwiring : IoM Bytes (Vec U8)) unwiring :=
  (asyncReadPrim_cut .u64).bind fun len =>
    .guard fun _ => ((asyncReadPrim_cut .u8).times len.toNat).map

/-- The first byte of an event's frame. -/
theorem asyncReadPrim_zero {s r : Bytes} {variant : U8}
    (h : asyncReadPrim .u8 s = (.ok variant, r)) (h0 : variant.toNat = 0) : s = 0 :: r := by
  obtain ⟨hle, rfl, rfl⟩ := asyncReadPrim_eq_ok.mp h
  have htake : (s.take PrimTy.u8.size).length = PrimTy.u8.size := by
    rw [List.length_take, Nat.min_eq_left hle]
  have hbytes := Prim.toBeBytes_fromBeBytes htake
  rw [Prim.toBeBytes_u8, Prim.toByte, h0] at hbytes
  calc
    s = s.take PrimTy.u8.size ++ s.drop PrimTy.u8.size := (List.take_append_drop ..).symm
    _ = 0 :: s.drop PrimTy.u8.size := by
      rw [← hbytes]
      rfl

end

section

variable {α β : Type} [RustType β] [Unwiring β] [RustType (Vec U8)] [RustType (WiringEvent β)]

/-- The bytes end inside a string of the event. -/
def CutEvent (U : UTy β) (s : Bytes) (e : β) : Prop :=
  U.EndsInString s ∧ (unwiring : IoM Bytes β) s = (.ok e, [])

/-- A frame that was read stays the same when more comes, unless it is an event and ends
inside a string. -/
theorem frame_append (U : UTy β) {s r : Bytes} {w : WiringEvent β}
    (h : (unwiring : IoM Bytes (WiringEvent β)) s = (.ok w, r)) (rest : Bytes) :
    (r = [] ∧ ∃ e s', w = .event e ∧ s = 0 :: s' ∧ CutEvent U s' e) ∨
      (unwiring : IoM Bytes (WiringEvent β)) (s ++ rest) = (.ok w, r ++ rest) := by
  obtain ⟨variant, s1, hvariant, hw⟩ := Act.bind_eq_ok.mp h
  have hfirst : asyncReadPrim .u8 (s ++ rest) = (.ok variant, s1 ++ rest) :=
    (asyncReadPrim_cut .u8).ok_append hvariant
  by_cases h0 : variant.toNat = 0
  · rw [if_pos h0] at hw
    obtain ⟨e, s2, he, hpure⟩ := Act.bind_eq_ok.mp hw
    cases hpure
    rcases U.unwiring_cut he rest with ⟨hends, rfl⟩ | hmore
    · exact Or.inl ⟨rfl, e, s1, rfl, asyncReadPrim_zero hvariant h0, hends, he⟩
    · refine Or.inr ((Act.bind_ok hfirst).trans ?_)
      rw [if_pos h0]
      exact Act.bind_ok hmore
  · refine Or.inr ((Act.bind_ok hfirst).trans ?_)
    rw [if_neg h0] at hw ⊢
    by_cases h1 : variant.toNat = 1
    · rw [if_pos h1] at hw ⊢
      exact ((asyncReadPrim_cut .u64).bind fun _ => unwiring_bool_cut.bind fun _ =>
        unwiring_message_cut.map).ok_append hw
    · rw [if_neg h1] at hw ⊢
      by_cases h2 : variant.toNat = 2
      · rw [if_pos h2] at hw ⊢
        exact ((asyncReadPrim_cut .u64).bind fun _ => unwiring_bool_cut.map).ok_append hw
      · rw [if_neg h2] at hw
        cases hw

/-- What is read of a part of a frame: nothing, or an event that ends inside a string. -/
theorem EventLoops.IsFrame.cut {R : β → α → Prop} {b : Bytes} {f : WiringEvent (Nat × α)}
    (h : EventLoops.IsFrame R b f) (U : UTy β) {s r : Bytes} (hstart : s <+: b) (hmissing : s ≠ b)
    {w : WiringEvent β} (hw : (unwiring : IoM Bytes (WiringEvent β)) s = (.ok w, r)) :
    r = [] ∧ ∃ e s', w = .event e ∧ s = 0 :: s' ∧ CutEvent U s' e := by
  obtain ⟨rest, rfl⟩ := hstart
  refine (frame_append U hw rest).resolve_right fun hmore => hmissing ?_
  obtain ⟨w', hw', -⟩ := h []
  rw [List.append_nil] at hw'
  have hnil : r ++ rest = [] := congrArg Prod.snd (hmore.symm.trans hw')
  rw [(List.append_eq_nil_iff.mp hnil).2, List.append_nil]

end

/-! ## The loops after the loss -/

inductive LostEventAction (α : Type) where
  | send (message : Option α)
  | post (event : Option (WiredEvent (Nat × α)))
  | push (key : StreamKey) (message : Message)
  /-- `Wired::run` takes the next event. What it writes goes nowhere, or the write fails. -/
  | recv (connects : Nat) (fails : Bool)
  | finish
  | read

/-- The two loops take this action. -/
def LostEventAction.OfLoop {α : Type} : LostEventAction α → Prop
  | .recv .. | .read => True
  | _ => False

namespace EventLoops

variable {α β : Type}

def lostCall (fails : Bool) (s : EventLoops α β) : WiredCall (Nat × α) → Option (EventLoops α β)
  | .wire _ => some (if fails then { s with closed := true } else s)
  | .notify .. | .offer _ => some s
  | .connect => s.wired.connect.map fun w => { s with wired := w.2 }

variable [RustType β] [Unwiring β] [RustType (Vec U8)] [RustType (WiringEvent β)]

def lostStep (encoder : Nat → Wiring α) (s : EventLoops α β) :
    LostEventAction α → Option (EventLoops α β)
  | .send message => s.step encoder (.send message)
  | .post event => s.step encoder (.post event)
  | .push key message => s.step encoder (.push key message)
  | .recv connects fails =>
      match s.rx with
      | [] => none
      | none :: rx => some { s with rx := rx, closed := true }
      | some event :: rx =>
          let (wired, calls) := s.wired.handle connects event
          calls.foldlM (lostCall fails) { s with rx := rx, wired := wired }
  | .finish => s.step encoder .finish
  | .read =>
      -- nothing more will come
      if s.ended then none
      else match (unwiring : IoM Bytes (WiringEvent β)) s.conn with
        | (.ok w, conn) =>
            some { s with conn := conn, handled := s.handled ++ w.event?.toList }
        | (.error _, conn) => some { s with conn := conn, ended := true }

end EventLoops

/-- The loops after the loss of the connection in `s`, of which `n` bytes still come. -/
def lostLoops {α β : Type} [RustType β] [Unwiring β] [RustType (Vec U8)]
    [RustType (WiringEvent β)] (encoder : Nat → Wiring α) (s : EventLoops α β) (n : Nat) :
    Machine (EventLoops α β) (LostEventAction α) :=
  ⟨{ s with conn := s.conn.take n }, EventLoops.lostStep encoder⟩

/-- The events of the frames. -/
def eventsOf {α : Type} (frames : List (WiringEvent (Nat × α))) : List α :=
  (frames.filterMap WiringEvent.event?).map Prod.snd

theorem eventsOf_append {α : Type} (l r : List (WiringEvent (Nat × α))) :
    eventsOf (l ++ r) = eventsOf l ++ eventsOf r := by
  simp [eventsOf]

section

variable {α β : Type} [RustType β] [Unwiring β] [RustType (Vec U8)] [RustType (WiringEvent β)]
  {encoder : Nat → Wiring α} {R : β → α → Prop} {U : UTy β} {bytes : Bytes}
  {s s' : EventLoops α β}

/-- The bytes are no frame, but may be read as an event that ends inside a string. -/
def Partial (U : UTy β) (tail : Bytes) : Prop :=
  ∀ w r, (unwiring : IoM Bytes (WiringEvent β)) tail = (.ok w, r) →
    r = [] ∧ ∃ e s, w = .event e ∧ tail = 0 :: s ∧ CutEvent U s e

theorem partial_nil : Partial U [] := by
  rintro w r ⟨⟩

/-- Frames that are cut at any byte: whole ones, and a part of the next one. -/
theorem cut_frames {chunks : List Bytes} {frames : List (WiringEvent (Nat × α))}
    (h : List.Forall₂ (EventLoops.IsFrame R) chunks frames) {s : Bytes}
    (hs : s <+: chunks.flatten) :
    ∃ come whole tail, come <+: frames ∧ (s = chunks.flatten → come = frames) ∧
      List.Forall₂ (EventLoops.IsFrame (β := β) R) whole come ∧ s = whole.flatten ++ tail ∧
      Partial U tail := by
  induction h generalizing s with
  | nil =>
      obtain rfl := List.prefix_nil.mp hs
      exact ⟨[], [], [], List.prefix_rfl, fun _ => rfl, .nil, rfl, partial_nil⟩
  | @cons b f chunks frames hframe _ ih =>
      rw [List.flatten_cons] at hs ⊢
      by_cases hwhole : b <+: s
      · obtain ⟨s1, rfl⟩ := hwhole
        obtain ⟨come, whole, tail, hcome, hall, hframes, rfl, htail⟩ :=
          ih ((List.prefix_append_right_inj b).mp hs)
        refine ⟨f :: come, b :: whole, tail, (List.prefix_cons_inj f).mpr hcome, ?_,
          .cons hframe hframes, ?_, htail⟩
        · intro heq
          rw [hall ((List.append_right_inj b).mp heq)]
        · rw [List.flatten_cons, List.append_assoc]
      · have hstart : s <+: b :=
          (List.prefix_or_prefix_of_prefix hs (List.prefix_append _ _)).resolve_right hwhole
        refine ⟨[], [], s, List.nil_prefix, ?_, .nil, rfl, ?_⟩
        · rintro rfl
          exact absurd (List.prefix_append _ _) hwhole
        · intro w r hw
          refine hframe.cut U hstart ?_ hw
          rintro rfl
          exact hwhole List.prefix_rfl

/-- What has been handled are the events `taken`, and perhaps one that was cut, with the
last bytes that came. -/
def HandledCut (R : β → α → Prop) (U : UTy β) (bytes : Bytes) (handled : List β)
    (taken : List α) : Prop :=
  ∃ whole cut, handled = whole ++ cut ∧ List.Forall₂ R whole taken ∧
    (cut = [] ∨ ∃ e s, cut = [e] ∧ 0 :: s <:+ bytes ∧ CutEvent U s e)

namespace EventLoops

/-- The frames `come` have come with these bytes, or still do. -/
inductive Reading (R : β → α → Prop) (U : UTy β) (bytes : Bytes)
    (come : List (WiringEvent (Nat × α))) (s : EventLoops α β) : Prop where
  | frames (read unread : List (WiringEvent (Nat × α))) (chunks : List Bytes) (tail : Bytes)
      (hopen : s.ended = false) (hcome : come = read ++ unread)
      (hhandled : List.Forall₂ R s.handled (eventsOf read))
      (hconn : s.conn = chunks.flatten ++ tail)
      (hchunks : List.Forall₂ (IsFrame R) chunks unread) (htail : Partial U tail)
      (hend : tail <:+ bytes)
  | done (hhandled : HandledCut R U bytes s.handled (eventsOf come))
      (hover : s.ended = true ∨ s.conn = [])

theorem Reading.handled {come : List (WiringEvent (Nat × α))} (h : s.Reading R U bytes come) :
    ∃ taken, taken <+: eventsOf come ∧ HandledCut R U bytes s.handled taken := by
  cases h with
  | frames read unread chunks tail hopen hcome hhandled =>
      refine ⟨eventsOf read, ?_, s.handled, [], (List.append_nil _).symm, hhandled, Or.inl rfl⟩
      rw [hcome, eventsOf_append]
      exact List.prefix_append _ _
  | done hhandled => exact ⟨_, List.prefix_rfl, hhandled⟩

/-- What the writing loop and the users do leaves the reading loop as it is. -/
structure SameReader (s s' : EventLoops α β) : Prop where
  conn : s'.conn = s.conn
  ended : s'.ended = s.ended
  handled : s'.handled = s.handled

theorem Reading.same {come : List (WiringEvent (Nat × α))} (h : s.Reading R U bytes come)
    (hsame : SameReader s s') : s'.Reading R U bytes come := by
  cases h with
  | frames read unread chunks tail hopen hcome hhandled hconn hchunks htail hend =>
      exact .frames read unread chunks tail (hsame.ended.trans hopen) hcome
        (hsame.handled ▸ hhandled) (hsame.conn.trans hconn) hchunks htail hend
  | done hhandled hover =>
      exact .done (hsame.handled ▸ hhandled)
        (hover.imp hsame.ended.trans hsame.conn.trans)

/-- The reading loop takes a frame, or comes to the end. -/
theorem Reading.read {come : List (WiringEvent (Nat × α))} (h : s.Reading R U bytes come)
    (hs : s.lostStep encoder .read = some s') :
    s'.Reading R U bytes come ∧ s.ended = false ∧ s'.rx = s.rx ∧
      (s'.ended = true ∨ s'.ended = false ∧ s'.conn.length < s.conn.length) := by
  simp only [lostStep, Option.ite_none_left_eq_some, Bool.not_eq_true] at hs
  obtain ⟨hended, hs⟩ := hs
  have hnil : ∃ e, (unwiring : IoM Bytes (WiringEvent β)) [] = (.error e, []) := ⟨_, rfl⟩
  obtain ⟨e, hnil⟩ := hnil
  cases h with
  | done hhandled hover =>
      have hconn := hover.resolve_left (by simp [hended])
      simp only [hconn, hnil] at hs
      cases hs
      exact ⟨.done hhandled (Or.inl rfl), hended, rfl, Or.inl rfl⟩
  | frames read unread chunks tail hopen hcome hhandled hconn hchunks htail hend =>
      cases hchunks with
      | nil =>
          rw [List.flatten_nil, List.nil_append] at hconn
          rw [List.append_nil] at hcome
          rw [hconn] at hs
          rcases hread : (unwiring : IoM Bytes (WiringEvent β)) tail with ⟨_ | w, conn⟩
          · simp only [hread] at hs
            cases hs
            refine ⟨.done ⟨s.handled, [], (List.append_nil _).symm, ?_, Or.inl rfl⟩ (Or.inl rfl),
              hended, rfl, Or.inl rfl⟩
            rw [hcome]
            exact hhandled
          · obtain ⟨rfl, e, p, rfl, htail, hcut⟩ := htail w conn hread
            simp only [hread] at hs
            cases hs
            refine ⟨.done ⟨s.handled, [e], rfl, ?_, Or.inr ⟨e, p, rfl, htail ▸ hend, hcut⟩⟩
              (Or.inr rfl), hended, rfl, Or.inr ⟨hended, ?_⟩⟩
            · rw [hcome]
              exact hhandled
            · rw [hconn, htail]
              exact Nat.succ_pos _
      | @cons b f chunks unread hframe hchunks =>
          obtain ⟨w, hw, hrel⟩ := hframe (chunks.flatten ++ tail)
          rw [List.flatten_cons, List.append_assoc] at hconn
          simp only [hconn, hw] at hs
          cases hs
          refine ⟨.frames (read ++ [f]) unread chunks tail hended ?_ ?_ rfl hchunks htail hend,
            hended, rfl, Or.inr ⟨hended, ?_⟩⟩
          · rw [hcome, List.append_assoc]
            rfl
          · rw [eventsOf_append]
            refine List.rel_append hhandled ?_
            have hevent := forall₂_toList hrel
            cases hf : f.event? <;> simpa [eventsOf, hf] using hevent
          · have hpos := List.length_pos_iff.mpr (frame_ne_nil hframe)
            have hlen : s.conn.length = b.length + (chunks.flatten ++ tail).length := by
              rw [hconn, List.length_append]
            show (chunks.flatten ++ tail).length < s.conn.length
            omega

omit [RustType β] [Unwiring β] [RustType (Vec U8)] [RustType (WiringEvent β)] in
theorem lostCalls_same {fails : Bool} {calls : List (WiredCall (Nat × α))}
    (hs : calls.foldlM (lostCall fails) s = some s') : SameReader s s' ∧ s'.rx = s.rx := by
  induction calls generalizing s with
  | nil =>
      cases hs
      exact ⟨⟨rfl, rfl, rfl⟩, rfl⟩
  | cons c calls ih =>
      rw [List.foldlM_cons] at hs
      obtain ⟨t, ht, hs⟩ := Option.bind_eq_some_iff.mp hs
      obtain ⟨⟨hconn, hended, hhandled⟩, hrx⟩ := ih hs
      have hcall : SameReader s t ∧ t.rx = s.rx := by
        cases c with
        | wire event =>
            cases ht
            cases fails <;> exact ⟨⟨rfl, rfl, rfl⟩, rfl⟩
        | notify | offer =>
            cases ht
            exact ⟨⟨rfl, rfl, rfl⟩, rfl⟩
        | connect =>
            obtain ⟨w, -, rfl⟩ := Option.map_eq_some_iff.mp ht
            exact ⟨⟨rfl, rfl, rfl⟩, rfl⟩
      exact ⟨⟨hconn.trans hcall.1.conn, hended.trans hcall.1.ended,
        hhandled.trans hcall.1.handled⟩, hrx.trans hcall.2⟩

theorem lostRecv_same {connects : Nat} {fails : Bool}
    (hs : s.lostStep encoder (.recv connects fails) = some s') :
    SameReader s s' ∧ s'.rx.length < s.rx.length := by
  simp only [lostStep] at hs
  split at hs
  · cases hs
  · rename_i rx hrx
    cases hs
    exact ⟨⟨rfl, rfl, rfl⟩, by rw [hrx]; exact Nat.lt_succ_self _⟩
  · rename_i event rx hrx
    obtain ⟨hsame, hlen⟩ := lostCalls_same hs
    refine ⟨⟨hsame.conn, hsame.ended, hsame.handled⟩, ?_⟩
    rw [hlen, hrx]
    exact Nat.lt_succ_self _

theorem Reading.step {come : List (WiringEvent (Nat × α))} {a : LostEventAction α}
    (h : s.Reading R U bytes come) (hs : s.lostStep encoder a = some s') :
    s'.Reading R U bytes come := by
  cases a with
  | send message =>
      cases hs
      refine h.same ⟨(send_same s message).2.2, (send_same s message).1, ?_⟩
      cases message <;> simp only [send] <;> split <;> rfl
  | post event =>
      obtain rfl := post_eq hs
      exact h.same ⟨rfl, rfl, rfl⟩
  | push key message =>
      simp only [lostStep, EventLoops.step, Option.ite_none_left_eq_some, Option.some.injEq] at hs
      obtain ⟨-, rfl⟩ := hs
      exact h.same ⟨rfl, rfl, rfl⟩
  | recv connects fails => exact h.same (lostRecv_same hs).1
  | finish =>
      simp only [lostStep, EventLoops.step, Option.ite_none_right_eq_some,
        Option.some.injEq] at hs
      obtain ⟨-, rfl⟩ := hs
      exact h.same ⟨rfl, rfl, rfl⟩
  | read => exact (h.read hs).1

/-- How much the loops have left to do. -/
def lostLeft (s : EventLoops α β) : Nat ×ₗ Nat :=
  toLex (s.rx.length, if s.ended then 0 else s.conn.length + 1)

theorem Reading.left_lt {come : List (WiringEvent (Nat × α))} {a : LostEventAction α}
    (h : s.Reading R U bytes come) (ha : a.OfLoop) (hs : s.lostStep encoder a = some s') :
    s'.lostLeft < s.lostLeft := by
  rw [lostLeft, lostLeft, Prod.Lex.toLex_lt_toLex]
  cases a with
  | send | post | push | finish => exact ha.elim
  | recv connects fails => exact Or.inl (lostRecv_same hs).2
  | read =>
      obtain ⟨-, hended, hrx, hless⟩ := h.read hs
      refine Or.inr ⟨congrArg List.length hrx, ?_⟩
      rcases hless with hended' | ⟨hended', hconn⟩
      · simp [hended, hended']
      · simpa [hended, hended'] using hconn

/-- While the queue is not empty, `Wired::run` can take an event. -/
theorem lostRecv_some (encoder : Nat → Wiring α) (hrx : s.rx ≠ []) :
    ∃ s', s.lostStep encoder (.recv 0 false) = some s' := by
  have hcalls {calls : List (WiredCall (Nat × α))} (hc : .connect ∉ calls)
      (s : EventLoops α β) : ∃ s', calls.foldlM (lostCall false) s = some s' := by
    induction calls generalizing s with
    | nil => exact ⟨s, rfl⟩
    | cons c calls ih =>
        rw [List.mem_cons, not_or] at hc
        obtain ⟨s', hs'⟩ := ih hc.2 s
        refine ⟨s', ?_⟩
        rw [List.foldlM_cons]
        cases c with
        | wire | notify | offer => exact hs'
        | connect => exact absurd rfl hc.1
  rcases hs : s.rx with _ | ⟨_ | event, rx⟩
  · exact absurd hs hrx
  · simp only [lostStep, hs]
    exact ⟨_, rfl⟩
  · simp only [lostStep, hs]
    exact hcalls (connect_not_mem_handle s.wired event) _

/-- The reading loop goes on to the end. -/
theorem lostRead_some (encoder : Nat → Wiring α) (hended : s.ended = false) :
    ∃ s', s.lostStep encoder .read = some s' := by
  simp only [lostStep, hended, Bool.false_eq_true, if_false]
  split <;> exact ⟨_, rfl⟩

end EventLoops

end

/-- **Events on a lost connection.** The connection is lost in any reachable state of the
loops, and `n` bytes of what is on it still come. They decide which events come, of those
that were accepted: all that have been written, if all bytes come. Whatever is sent then
and whichever writes fail, the events handled are the first ones of these, in order and as
they were sent, and perhaps then one that was cut inside a string, of which the last bytes
that come are the first ones. The loops come to rest, and there the reading loop has ended
and all events that come have been handled. -/
theorem events_lost {α β : Type} [RustType β] [Unwiring β] [RustType (Vec U8)]
    [RustType (WiringEvent β)] {encoder : Nat → Wiring α} {R : β → α → Prop}
    (hrt : RoundTrips encoder R) (U : UTy β) {s : EventLoops α β}
    (h : (eventLoops β encoder).Reachable s) (n : Nat) :
    ∃ come, come <+: (accepted s.calls).map Prod.snd ∧
      (s.conn.length ≤ n → come = eventsOf s.frames) ∧
      ∀ t, (lostLoops encoder s n).Reachable t →
        (∃ taken, taken <+: come ∧ HandledCut R U (s.conn.take n) t.handled taken) ∧
        (lostLoops encoder s n).SettlesFrom LostEventAction.OfLoop t ∧
        ((lostLoops encoder s n).AtRest LostEventAction.OfLoop t →
          t.rx = [] ∧ t.ended = true ∧ HandledCut R U (s.conn.take n) t.handled come) := by
  have hinit : (eventLoops β encoder).init.InOrder R :=
    ⟨⟨⟨[], [], [], rfl, .nil, rfl, .nil⟩, rfl, nofun, nofun⟩, nofun⟩
  have hinv : s.InOrder R := h.invariant hinit fun _ _ _ h _ hs => h.step hrt hs
  obtain ⟨read, unread, chunks, hframes, hhandled, hconn, hchunks⟩ := hinv.delivered
  have hstart : s.conn.take n <+: chunks.flatten := hconn ▸ List.take_prefix _ _
  obtain ⟨more, whole, tail, hmore, hall, hwhole, hcut, htail⟩ :=
    cut_frames (U := U) hchunks hstart
  have hfirst : read ++ more <+: s.frames := by
    rw [hframes]
    exact (List.prefix_append_right_inj read).mpr hmore
  have hlost : (lostLoops encoder s n).init.Reading R U (s.conn.take n) (read ++ more) := by
    cases hended : s.ended with
    | false =>
        exact .frames read more whole tail hended rfl hhandled hcut hwhole htail
          (hcut ▸ List.suffix_append _ _)
    | true =>
        have hnil : s.conn.take n = [] := by rw [(hinv.ended hended).2, List.take_nil]
        have hnone : more = [] := by
          cases hwhole with
          | nil => rfl
          | cons hframe =>
              rw [hnil, List.flatten_cons, List.append_assoc] at hcut
              exact absurd (List.append_eq_nil_iff.mp hcut.symm).1
                (EventLoops.frame_ne_nil hframe)
        subst hnone
        refine .done ⟨s.handled, [], (List.append_nil _).symm, ?_, Or.inl rfl⟩ (Or.inl hended)
        rw [List.append_nil]
        exact hhandled
  refine ⟨eventsOf (read ++ more), ?_, fun hn => ?_, fun t ht => ?_⟩
  · rw [← hinv.accounted, List.map_append]
    exact ((hfirst.filterMap _).map _).trans (List.prefix_append _ _)
  · rw [List.take_of_length_le hn] at hall
    rw [hall hconn, hframes]
  · have hread : t.Reading R U (s.conn.take n) (read ++ more) := ht.invariant
      (I := EventLoops.Reading R U (s.conn.take n) (read ++ more)) hlost
        fun _ _ _ hread _ hs => hread.step hs
    refine ⟨hread.handled, ?_, fun hrest => ?_⟩
    · exact Machine.settlesFrom_of_measure EventLoops.lostLeft hread
        fun s a t hs ha hstep => ⟨hs.step hstep, hs.left_lt ha hstep⟩
    · have hended : t.ended = true := by
        by_contra hopen
        obtain ⟨t', ht'⟩ := EventLoops.lostRead_some encoder
          (Bool.eq_false_of_not_eq_true hopen)
        cases (hrest .read trivial).symm.trans ht'
      have hrx : t.rx = [] := by
        by_contra hne
        obtain ⟨t', ht'⟩ := EventLoops.lostRecv_some encoder hne
        cases (hrest (.recv 0 false) trivial).symm.trans ht'
      refine ⟨hrx, hended, ?_⟩
      cases hread with
      | frames _ _ _ _ hopen => cases hopen.symm.trans hended
      | done hhandled => exact hhandled

/-! ## Half a greeting -/

local instance lostString : RustType RString := ⟨24, "alloc::string::String"⟩

local instance lostMessage : RustType (Vec U8) := ⟨24, "alloc::vec::Vec<u8>"⟩

local instance lostEvent : RustType (WiringEvent RString) := ⟨40, "WiringEvent<String>"⟩

/-- The frame of "hi" is on the connection. -/
def greeted : EventLoops RString RString :=
  (eventLoops _ fun _ => inferInstance).run [.send (some hiString), .recv 0]

/-- Its last byte does not come. -/
def halfGreeted : EventLoops RString RString :=
  (lostLoops (fun _ => inferInstance) greeted 10).run [.read, .read]

theorem events_lost_half : halfGreeted.handled.map RString.bytes = [[0x68]] ∧
    ∃ taken, HandledCut (fun e' e => e' = e) .string (greeted.conn.take 10)
      halfGreeted.handled taken := by
  have hreach : (eventLoops RString fun _ => (inferInstance : Wiring RString)).Reachable greeted :=
    Machine.reachableBy_run (by simp)
  obtain ⟨come, -, -, hlost⟩ :=
    events_lost (Compat.roundTrips .string fun _ => trivial) .string hreach 10
  obtain ⟨⟨taken, -, hhandled⟩, -⟩ := hlost halfGreeted (Machine.reachableBy_run (by simp))
  exact ⟨by decide +kernel, taken, hhandled⟩

end WiringRs
