import WiringRs.Listener

/-!
# The queues of incoming wires

The listener forwards a wire to the one that its forward info names, if the access
key is the right one. The machine here is the listener's with the queue of each
channel, the wires that the loop has made and a record of what went into a queue.
A registry entry pairs the id, the key and the sender of one wire, so only who has
been given a wire's info can put something into its queue.
-/

namespace WiringRs

namespace WireListener

variable {U : UrlCrate} {l l' : WireListener U} {turn : Turn}

/-! ## What an event does to the map -/

theorem answer_frame (l : WireListener U) (turn : Turn) (reply : Nat)
    (r : Except IoError (Option (WireStream U))) :
    (l.answer turn reply r).wires = l.wires ∧
      (l.answer turn reply r).channels = l.channels := by
  rcases answer_cases l turn reply r with ⟨replies, h⟩ | ⟨wire, replies, -, h⟩
  · rw [h]
    exact ⟨rfl, rfl⟩
  · rw [h]
    exact ⟨rfl, rfl⟩

theorem answerOpt_frame (l : WireListener U) (turn : Turn) (reply : Option Nat)
    (r : Except IoError (Option (WireStream U))) :
    (l.answerOpt turn reply r).wires = l.wires ∧
      (l.answerOpt turn reply r).channels = l.channels := by
  cases reply with
  | none => exact ⟨rfl, rfl⟩
  | some reply => exact answer_frame l turn reply r

/-- Forwarding registers nothing. -/
theorem forward_frame (l : WireListener U) (turn : Turn) (wire : WireStream U)
    (forwardInfo : ForwardInfo) (reply : Option Nat) :
    (l.forward turn wire forwardInfo reply).wires = l.wires ∧
      (l.forward turn wire forwardInfo reply).channels = l.channels := by
  rcases hlookup : l.lookup forwardInfo with e | sender
  · rw [forward_error hlookup]
    exact answerOpt_frame ..
  · rw [forward_ok hlookup]
    exact answerOpt_frame (l.deliver wire) ..

theorem register_frame (l : WireListener U) (turn : Turn) (wire : WireStream U)
    (reply : Option Nat) :
    (l.register turn wire reply).wires = (l.insert wire).wires ∧
      (l.register turn wire reply).channels = l.channels := by
  obtain ⟨replies, closed, -, h | h⟩ := register_cases l turn wire reply
  · rw [h]
    exact ⟨rfl, rfl⟩
  · rw [h]
    exact ⟨rfl, rfl⟩

theorem insert_cases {wire : WireStream U} {wireId : WireId} {entry : AccessKey × Nat}
    (h : (l.insert wire).wires wireId = some entry) :
    l.wires wireId = some entry ∨
      wireId = wire.wireInfo.wireId ∧ entry = (wire.wireInfo.accessKey, wire.incoming) := by
  by_cases hid : wireId = wire.wireInfo.wireId
  · subst hid
    have hentry : (l.insert wire).wires wire.wireInfo.wireId
        = some (wire.wireInfo.accessKey, wire.incoming) := Function.update_self ..
    exact Or.inr ⟨rfl, (Option.some.inj (hentry.symm.trans h)).symm⟩
  · exact Or.inl ((Function.update_of_ne hid ..).symm.trans h)

/-- An event of which no wire is made registers none. -/
theorem handle_make_none {event : WireListenerEvent U} (hmake : l.make turn event = none)
    (hs : handle turn l event = some l') :
    l'.channels = l.channels ∧
      ∀ wireId entry, l'.wires wireId = some entry → l.wires wireId = some entry := by
  cases event with
  | outgoingWire stream forwardInfo reply =>
      rcases handle_outgoingWire_cases hs with ⟨e, -, -, rfl⟩ | ⟨wire, h, -⟩
      · obtain ⟨hwires, hchannels⟩ := answer_frame l turn reply (.error e)
        exact ⟨hchannels, fun _ _ h => hwires ▸ h⟩
      · cases hmake.symm.trans h
  | incomingWire stream remoteInfo forwardInfo reply =>
      obtain ⟨wire, h, -⟩ := handle_incomingWire_cases hs
      cases hmake.symm.trans h
  | dropWire wireId =>
      cases hs
      refine ⟨rfl, ?_⟩
      intro id entry h
      by_cases hid : id = wireId
      · subst hid
        cases (Function.update_self ..).symm.trans h
      · exact (Function.update_of_ne hid ..).symm.trans h
  | shutdown =>
      cases hs
      exact ⟨rfl, fun _ _ h => h⟩

/-- The wire that is made takes the next channel, and no other one is registered. -/
theorem handle_make_some {event : WireListenerEvent U} {wire : WireStream U}
    (hmake : l.make turn event = some wire) (hs : handle turn l event = some l') :
    wire.incoming = l.channels ∧ l'.channels = l.channels + 1 ∧
      ∀ wireId entry, l'.wires wireId = some entry → l.wires wireId = some entry ∨
        wireId = wire.wireInfo.wireId ∧
          entry = (wire.wireInfo.accessKey, wire.incoming) := by
  cases event with
  | outgoingWire stream forwardInfo reply =>
      rcases handle_outgoingWire_cases hs with ⟨e, -, h, -⟩ | ⟨made, h, hmade, -, -, rfl⟩
      · cases hmake.symm.trans h
      · obtain rfl := Option.some.inj (hmake.symm.trans h)
        obtain ⟨hwires, hchannels⟩ := answer_frame (signalDrop
          (insert { l with channels := l.channels + 1 } wire) wire) turn reply (.ok (some wire))
        exact ⟨hmade.incoming, hchannels, fun _ _ h =>
          insert_cases (l := { l with channels := l.channels + 1 }) (hwires ▸ h)⟩
  | incomingWire stream remoteInfo forwardInfo reply =>
      obtain ⟨made, h, hmade, -, -, hs⟩ := handle_incomingWire_cases hs
      obtain rfl := Option.some.inj (hmake.symm.trans h)
      rcases hs with ⟨target, -, rfl⟩ | ⟨-, rfl⟩
      · obtain ⟨hwires, hchannels⟩ := forward_frame { l with channels := l.channels + 1 }
          turn wire target reply
        exact ⟨hmade.incoming, hchannels, fun _ _ h => Or.inl (hwires ▸ h)⟩
      · obtain ⟨hwires, hchannels⟩ := register_frame { l with channels := l.channels + 1 }
          turn wire reply
        exact ⟨hmade.incoming, hchannels, fun _ _ h =>
          insert_cases (l := { l with channels := l.channels + 1 }) (hwires ▸ h)⟩
  | dropWire | shutdown => cases hmake

/-- Only handling an event changes the map. -/
theorem step_frame {a : ListenerAction U} (ha : ∀ turn, a ≠ .recv turn)
    (hs : l.step a = some l') : l'.wires = l.wires ∧ l'.channels = l.channels := by
  cases a with
  | send event =>
      cases event with
      | dropWire wireId => cases hs
      | incomingWire | outgoingWire | shutdown =>
          simp only [step, Option.ite_none_left_eq_some, Option.some.injEq] at hs
          obtain ⟨-, rfl⟩ := hs
          exact ⟨rfl, rfl⟩
  | recv turn => exact absurd rfl (ha turn)
  | close incoming =>
      simp only [step, Option.ite_none_right_eq_some, Option.some.injEq] at hs
      obtain ⟨-, rfl⟩ := hs
      exact ⟨rfl, rfl⟩
  | signal incoming wireId =>
      simp only [step, Option.ite_none_right_eq_some, Option.some.injEq] at hs
      obtain ⟨-, rfl⟩ := hs
      exact ⟨rfl, rfl⟩

end WireListener

/-! ## The queues -/

/-- A wire put into a queue, and the event that brought it. -/
structure Push (U : UrlCrate) where
  target : Nat
  wire : WireStream U
  event : WireListenerEvent U

/-- The wire that came is the event's stream, with the wire's info written on it as far as
that went, and the forward info was this. -/
def Push.Under {U : UrlCrate} (p : Push U) (forwardInfo : ForwardInfo) : Prop :=
  ∃ stream remoteInfo reply,
    p.event = .incomingWire stream remoteInfo (some forwardInfo) reply ∧
    p.wire.peer = remoteInfo ∧
    ∃ fault, p.wire.stream =
      (WireListener.write fault (Wiring.wiringRef p.wire.wireInfo) stream).2

structure Intake (U : UrlCrate) where
  listener : WireListener U
  /-- Every wire the loop has made. -/
  made : List (WireStream U) := []
  /-- The queue of each channel. -/
  queues : Nat → List (WireStream U) := fun _ => []
  pushed : List (Push U) := []

inductive IntakeAction (U : UrlCrate) where
  | listener (a : ListenerAction U)
  /-- The owner of a wire takes the next one from its queue. -/
  | take (incoming : Nat)

namespace Intake

variable {U : UrlCrate}

/-- `sender.send(wire)` -/
def push (s : Intake U) (p : Push U) : Intake U :=
  { s with
    queues := Function.update s.queues p.target (s.queues p.target ++ [p.wire])
    pushed := p :: s.pushed }

/-- What an event that the loop handles puts into a queue. -/
def brings (l : WireListener U) (turn : Turn) (event : WireListenerEvent U) :
    Option (Push U) :=
  match event with
  | .incomingWire _ _ (some forwardInfo) _ =>
      match l.make turn event, l.lookup forwardInfo with
      | some wire, .ok sender => some ⟨sender, wire, event⟩
      | _, _ => none
  | _ => none

def received (s : Intake U) (turn : Turn) (event : WireListenerEvent U) : Intake U :=
  let made := (s.listener.make turn event).toList ++ s.made
  match brings s.listener turn event with
  | some p => { s.push p with made := made }
  | none => { s with made := made }

def step (s : Intake U) : IntakeAction U → Option (Intake U)
  | .listener a => do
      let listener ← s.listener.step a
      match a, s.listener.inbox with
      | .recv turn, event :: _ => some { s.received turn event with listener := listener }
      -- what is in the queue is dropped with the receiver
      | .close incoming, _ =>
          some { s with listener := listener, queues := Function.update s.queues incoming [] }
      | _, _ => some { s with listener := listener }
  | .take incoming =>
      match s.queues incoming with
      | [] => none
      | _ :: queue => some { s with queues := Function.update s.queues incoming queue }

end Intake

def intake {U : UrlCrate} (connectInfo : ConnectInfo U) :
    Machine (Intake U) (IntakeAction U) :=
  ⟨{ listener := { connectInfo := connectInfo } }, Intake.step⟩

namespace Intake

variable {U : UrlCrate}

/-- An entry pairs the id, the key and the sender of one wire, and what went into a
queue came under the id and the key of the wire whose queue it is. -/
structure Inv (s : Intake U) : Prop where
  known : ∀ w ∈ s.made, w.incoming < s.listener.channels
  distinct : ∀ v ∈ s.made, ∀ w ∈ s.made, v.incoming = w.incoming → v = w
  entry : ∀ wireId key sender, s.listener.wires wireId = some (key, sender) →
    ∃ w ∈ s.made, w.incoming = sender ∧ w.wireInfo.wireId = wireId ∧
      w.wireInfo.accessKey = key
  pushed : ∀ p ∈ s.pushed, ∃ w ∈ s.made, w.incoming = p.target ∧
    p.Under (w.wireInfo.wireId, w.wireInfo.accessKey)
  queued : ∀ incoming, ∀ wire ∈ s.queues incoming, ∃ p ∈ s.pushed,
    p.target = incoming ∧ p.wire = wire

section

variable {s : Intake U} {l : WireListener U}

/-- The map loses entries. -/
theorem Inv.frame (h : s.Inv) (hchannels : l.channels = s.listener.channels)
    (hwires : ∀ wireId entry, l.wires wireId = some entry →
      s.listener.wires wireId = some entry) :
    Inv { s with listener := l } where
  known w hw := hchannels ▸ h.known w hw
  distinct := h.distinct
  entry wireId key sender hentry := h.entry wireId key sender (hwires _ _ hentry)
  pushed := h.pushed
  queued := h.queued

/-- A wire is made, with the next channel, and may be registered. -/
theorem Inv.make (h : s.Inv) {wire : WireStream U}
    (hincoming : wire.incoming = s.listener.channels)
    (hchannels : l.channels = s.listener.channels + 1)
    (hwires : ∀ wireId entry, l.wires wireId = some entry →
      s.listener.wires wireId = some entry ∨
        wireId = wire.wireInfo.wireId ∧
          entry = (wire.wireInfo.accessKey, wire.incoming)) :
    Inv { s with listener := l, made := wire :: s.made } where
  known w hw := by
    rw [hchannels]
    rcases List.mem_cons.mp hw with rfl | hw
    · exact hincoming ▸ Nat.lt_succ_self _
    · exact Nat.lt_succ_of_lt (h.known w hw)
  distinct v hv w hw heq := by
    have hnew : ∀ u ∈ s.made, u.incoming ≠ wire.incoming := fun u hu =>
      hincoming ▸ Nat.ne_of_lt (h.known u hu)
    rcases List.mem_cons.mp hv with rfl | hv'
    · rcases List.mem_cons.mp hw with rfl | hw'
      · rfl
      · exact absurd heq.symm (hnew w hw')
    · rcases List.mem_cons.mp hw with rfl | hw'
      · exact absurd heq (hnew v hv')
      · exact h.distinct v hv' w hw' heq
  entry wireId key sender hentry := by
    rcases hwires wireId _ hentry with hold | ⟨rfl, hnew⟩
    · obtain ⟨w, hw, hw'⟩ := h.entry wireId key sender hold
      exact ⟨w, List.mem_cons_of_mem _ hw, hw'⟩
    · cases hnew
      exact ⟨wire, List.mem_cons_self, rfl, rfl, rfl⟩
  pushed p hp := by
    obtain ⟨w, hw, hw'⟩ := h.pushed p hp
    exact ⟨w, List.mem_cons_of_mem _ hw, hw'⟩
  queued := h.queued

/-- A queue gets shorter. -/
theorem Inv.shrink (h : s.Inv) {incoming : Nat} {queue : List (WireStream U)}
    (hqueue : ∀ wire ∈ queue, wire ∈ s.queues incoming) :
    Inv { s with queues := Function.update s.queues incoming queue } where
  known := h.known
  distinct := h.distinct
  entry := h.entry
  pushed := h.pushed
  queued i wire hwire := by
    by_cases hi : i = incoming
    · subst hi
      simp only [Function.update_self] at hwire
      exact h.queued i wire (hqueue wire hwire)
    · simp only [Function.update_of_ne hi] at hwire
      exact h.queued i wire hwire

end

/-- What is brought was forwarded under a registered id and its key. -/
theorem brings_some {l : WireListener U} {turn : Turn} {event : WireListenerEvent U}
    {p : Push U} (h : brings l turn event = some p) :
    p.event = event ∧ ∃ forwardInfo, p.Under forwardInfo ∧
      l.lookup forwardInfo = .ok p.target := by
  unfold brings at h
  split at h
  · rename_i stream remoteInfo forwardInfo reply
    split at h
    · rename_i wire sender hmake hlookup
      cases h
      obtain ⟨wireId, -, hwire⟩ := Option.bind_eq_some_iff.mp hmake
      obtain rfl := Option.some.inj hwire
      exact ⟨rfl, forwardInfo, ⟨stream, remoteInfo, reply, rfl, rfl, turn.fault, rfl⟩, hlookup⟩
    · cases h
  · cases h

theorem Inv.push {s : Intake U} (h : s.Inv) {turn : Turn} {event : WireListenerEvent U}
    {p : Push U} (hp : brings s.listener turn event = some p) : (s.push p).Inv := by
  obtain ⟨-, ⟨wireId, key⟩, hunder, hlookup⟩ := brings_some hp
  obtain ⟨w, hw, hsender, rfl, rfl⟩ :=
    h.entry _ _ _ (WireListener.lookup_eq_ok.mp hlookup).1
  refine ⟨h.known, h.distinct, h.entry, ?_, ?_⟩
  · intro q hq
    rcases List.mem_cons.mp hq with rfl | hq
    · exact ⟨w, hw, hsender, hunder⟩
    · exact h.pushed q hq
  · intro i wire hwire
    by_cases hi : i = p.target
    · subst hi
      simp only [Intake.push, Function.update_self, List.mem_append,
        List.mem_singleton] at hwire
      rcases hwire with hwire | rfl
      · obtain ⟨q, hq, hq'⟩ := h.queued _ wire hwire
        exact ⟨q, List.mem_cons_of_mem _ hq, hq'⟩
      · exact ⟨p, List.mem_cons_self, rfl, rfl⟩
    · simp only [Intake.push, Function.update_of_ne hi] at hwire
      obtain ⟨q, hq, hq'⟩ := h.queued i wire hwire
      exact ⟨q, List.mem_cons_of_mem _ hq, hq'⟩

theorem Inv.made {s : Intake U} (h : s.Inv) {turn : Turn} {event : WireListenerEvent U}
    {inbox : List (WireListenerEvent U)} {l : WireListener U}
    (hl : WireListener.handle turn { s.listener with inbox := inbox } event = some l) :
    Inv { s with
      listener := l, made := (s.listener.make turn event).toList ++ s.made } := by
  rcases hmake : s.listener.make turn event with _ | wire
  · obtain ⟨hchannels, hwires⟩ := WireListener.handle_make_none
      (l := { s.listener with inbox := inbox }) hmake hl
    exact h.frame hchannels hwires
  · obtain ⟨hincoming, hchannels, hwires⟩ := WireListener.handle_make_some
      (l := { s.listener with inbox := inbox }) hmake hl
    exact h.make hincoming hchannels hwires

/-- A step keeps the invariant. -/
theorem step_inv {s s' : Intake U} {a : IntakeAction U} (h : s.Inv)
    (hs : s.step a = some s') : s'.Inv := by
  cases a with
  | take incoming =>
      simp only [step] at hs
      split at hs
      · cases hs
      · cases hs
        rename_i wire queue hqueue
        exact h.shrink fun w hw => hqueue ▸ List.mem_cons_of_mem _ hw
  | listener a =>
      obtain ⟨l, hl, hs⟩ := Option.bind_eq_some_iff.mp hs
      cases a with
      | recv turn =>
          rcases hinbox : s.listener.inbox with _ | ⟨event, inbox⟩
          · simp [WireListener.step, hinbox] at hl
          · simp only [WireListener.step, hinbox] at hl
            simp only [hinbox, Option.some.injEq] at hs
            subst hs
            rcases hp : brings s.listener turn event with _ | p
            · simp only [received, hp]
              exact h.made hl
            · simp only [received, hp]
              exact (h.push hp).made hl
      | close incoming =>
          obtain ⟨hwires, hchannels⟩ := WireListener.step_frame (by rintro _ ⟨⟩) hl
          cases hs
          exact (h.frame hchannels fun _ _ he => hwires ▸ he).shrink (List.forall_mem_nil _)
      | send | signal =>
          obtain ⟨hwires, hchannels⟩ := WireListener.step_frame (by rintro _ ⟨⟩) hl
          cases hs
          exact h.frame hchannels fun _ _ he => hwires ▸ he

/-- Forward info goes into the queue of a wire whose id and key it is, and no other. -/
theorem Inv.received_queues {s : Intake U} (h : s.Inv) (turn : Turn) {stream : Bytes}
    {remoteInfo : Option (WireInfo U)} {forwardInfo : ForwardInfo} {reply : Option Nat}
    {incoming : Nat} (hother : ∀ w ∈ s.made, w.incoming = incoming →
      forwardInfo ≠ (w.wireInfo.wireId, w.wireInfo.accessKey)) :
    (s.received turn (.incomingWire stream remoteInfo (some forwardInfo) reply)).queues
      incoming = s.queues incoming := by
  rcases hp : brings s.listener turn
    (.incomingWire stream remoteInfo (some forwardInfo) reply) with _ | p
  · simp only [received, hp]
  · obtain ⟨hevent, _, ⟨_, _, _, hunder, -⟩, hlookup⟩ := brings_some hp
    cases hevent.symm.trans hunder
    obtain ⟨w, hw, hsender, hid, hkey⟩ :=
      h.entry _ _ _ (WireListener.lookup_eq_ok.mp hlookup).1
    have hne : incoming ≠ p.target := by
      rintro rfl
      exact hother w hw hsender (Prod.ext hid.symm hkey.symm)
    simp only [received, hp, Intake.push, Function.update_of_ne hne]

/-- The loop is the listener's. -/
theorem reachable_listener {c : ConnectInfo U} {s : Intake U}
    (h : (intake c).Reachable s) : (listenerMachine c).Reachable s.listener := by
  refine h.invariant (I := fun s => (listenerMachine c).Reachable s.listener) .init ?_
  intro s a s' hreach _ hs
  cases a with
  | take incoming =>
      simp only [intake, step] at hs
      split at hs
      · cases hs
      · cases hs
        exact hreach
  | listener a =>
      obtain ⟨l, hl, hs⟩ := Option.bind_eq_some_iff.mp hs
      have hs' : s'.listener = l := by
        dsimp only at hs
        split at hs <;> cases hs <;> rfl
      exact hs' ▸ .step hreach trivial hl

end Intake

/-- **Only the holder of the key.** Whatever is, or has ever been, in the queue of a
wire is the stream of an event whose forward info was the wire's id and the key that
the listener generated for it; an event with other forward info changes neither
the queue nor the map. -/
theorem key_holder {U : UrlCrate} {c : ConnectInfo U} {s : Intake U}
    (h : (intake c).Reachable s) :
    (∀ incoming, ∀ wire ∈ s.queues incoming, ∃ p ∈ s.pushed,
      p.target = incoming ∧ p.wire = wire) ∧
    (∀ p ∈ s.pushed, ∃ w ∈ s.made, w.incoming = p.target) ∧
    (∀ p ∈ s.pushed, ∀ w ∈ s.made, w.incoming = p.target →
      p.Under (w.wireInfo.wireId, w.wireInfo.accessKey)) ∧
    ∀ turn s' stream remoteInfo forwardInfo reply inbox,
      s.listener.inbox
        = .incomingWire stream remoteInfo (some forwardInfo) reply :: inbox →
      s.step (.listener (.recv turn)) = some s' →
      s'.listener.wires = s.listener.wires ∧
      ∀ incoming, (∀ w ∈ s.made, w.incoming = incoming →
        forwardInfo ≠ (w.wireInfo.wireId, w.wireInfo.accessKey)) →
      s'.queues incoming = s.queues incoming := by
  have hinv : s.Inv := h.invariant ⟨nofun, nofun, nofun, nofun, nofun⟩
    fun _ _ _ h _ hs => Intake.step_inv h hs
  refine ⟨hinv.queued, ?_, ?_, ?_⟩
  · intro p hp
    obtain ⟨w, hw, heq, -⟩ := hinv.pushed p hp
    exact ⟨w, hw, heq⟩
  · intro p hp w hw heq
    obtain ⟨w', hw', heq', hunder⟩ := hinv.pushed p hp
    rwa [hinv.distinct w hw w' hw' (heq.trans heq'.symm)]
  · intro turn s' stream remoteInfo forwardInfo reply inbox hinbox hs
    obtain ⟨l, hl, hs⟩ := Option.bind_eq_some_iff.mp hs
    simp only [WireListener.step, hinbox] at hl
    simp only [hinbox, Option.some.injEq] at hs
    subst hs
    obtain ⟨wire, -, -, -, -, ⟨target, -, rfl⟩ | ⟨⟨⟩, -⟩⟩ :=
      WireListener.handle_incomingWire_cases hl
    exact ⟨(WireListener.forward_frame ..).1, fun _ => hinv.received_queues turn⟩

/-- A wire comes in, and another one is forwarded to it under its id and key. -/
def forwarded : Intake noUrls :=
  (intake listening).run [.listener (comes none none), .listener (taken 1),
    .listener (comes (some (.ofNat 1, .ofNat 7)) none), .listener (taken 2)]

theorem key_holder_forwarded :
    forwarded.queues 0 ≠ [] ∧ ∀ p ∈ forwarded.pushed, ∀ w ∈ forwarded.made,
      w.incoming = p.target → p.Under (w.wireInfo.wireId, w.wireInfo.accessKey) :=
  ⟨nofun, (key_holder (Machine.reachableBy_run (by simp))).2.2.1⟩

end WiringRs
