import Mathlib.Data.Finset.Basic
import WiringRs.Lib.Machine
import WiringRs.Wiring

/-!
# The listener's registry

`WireListener::run` keeps a map from the ids of its wires to their access keys
and to the channel on which a wire takes the wires forwarded to it. A machine
interleaves the loop with the handles that send requests, the owners of the
wires that drop them, and the tasks that report a dropped wire.

A channel of incoming wires is named by the number of channels made before it.
Between two events of the loop the awaited writes give the other parties time to
act; what they do then is taken to happen before the event is received.
-/

namespace WiringRs

open Wiring

abbrev AccessKey := U128

abbrev ForwardInfo := WireId × AccessKey

/-- A wire as the listener makes it. -/
structure WireStream (U : UrlCrate) where
  /-- What has been written on the stream. -/
  stream : Bytes
  /-- `local.wire_info` -/
  wireInfo : WireInfo U
  /-- `local.incoming`, the receiver of the channel. -/
  incoming : Nat
  /-- `peer.wire_info` -/
  peer : Option (WireInfo U)

/-- A reply channel is named by a number. -/
inductive WireListenerEvent (U : UrlCrate) where
  | incomingWire (stream : Bytes) (remoteInfo : Option (WireInfo U))
      (forwardInfo : Option ForwardInfo) (reply : Option Nat)
  | outgoingWire (stream : Bytes) (forwardInfo : Option ForwardInfo) (reply : Nat)
  | dropWire (wireId : WireId)
  | shutdown

/-- What the listener does not decide while it handles an event. -/
structure Turn where
  /-- The ids `rand::random` returns, one after another. -/
  draws : List WireId
  accessKey : AccessKey
  /-- After how many bytes the stream fails, and how, if it does. -/
  fault : Option (Nat × IoError) := none
  /-- The reply is still waited for. -/
  waiting : Bool := true
  /-- `handle_wire` returns `Ok`. -/
  handled : Bool := true

structure WireListener (U : UrlCrate) where
  connectInfo : ConnectInfo U
  /-- The access key and the sender of each registered wire. -/
  wires : WireId → Option (AccessKey × Nat) := fun _ => none
  inbox : List (WireListenerEvent U) := []
  closed : Bool := false
  /-- How many channels of incoming wires have been made. -/
  channels : Nat := 0
  /-- The channels whose receiver has not been dropped. -/
  alive : Finset Nat := ∅
  /-- The tasks that wait for a receiver to be dropped. -/
  signals : List (Nat × WireId) := []
  /-- The wires that have been delivered. -/
  delivered : List (WireStream U) := []
  replies : List (Nat × Except IoError (Option (WireStream U))) := []

namespace WireListener

variable {U : UrlCrate}

/-- The first id drawn that is not in the map. -/
def drawId (l : WireListener U) (draws : List WireId) : Option WireId :=
  draws.find? fun wireId => (l.wires wireId).isNone

/-- Write on the stream: the error, if there is one, and what the stream has
been handed then. -/
def write (fault : Option (Nat × IoError)) (x : IoM Bytes Unit) (stream : Bytes) :
    Option IoError × Bytes :=
  match fault with
  | none => (none, (x stream).2)
  | some (n, e) => (some e, (x stream).2.take (stream.length + n))

/-- A wire with a new channel. -/
def build (l : WireListener U) (stream : Bytes) (wireInfo : WireInfo U)
    (peer : Option (WireInfo U)) : WireStream U × WireListener U :=
  (⟨stream, wireInfo, l.channels, peer⟩, { l with channels := l.channels + 1 })

def insert (l : WireListener U) (wire : WireStream U) : WireListener U :=
  { l with
    wires := Function.update l.wires wire.wireInfo.wireId
      (some (wire.wireInfo.accessKey, wire.incoming)) }

/-- `tokio::spawn(signal_wire_drop)` -/
def signalDrop (l : WireListener U) (wire : WireStream U) : WireListener U :=
  { l with signals := (wire.incoming, wire.wireInfo.wireId) :: l.signals }

/-- The wire has an owner, and its receiver is alive. A wire that is not
delivered is dropped. -/
def deliver (l : WireListener U) (wire : WireStream U) : WireListener U :=
  { l with
    delivered := wire :: l.delivered
    alive := Insert.insert wire.incoming l.alive }

/-- `reply.send(r).ok()` -/
def answer (l : WireListener U) (turn : Turn) (reply : Nat)
    (r : Except IoError (Option (WireStream U))) : WireListener U :=
  if turn.waiting then
    let l := { l with replies := l.replies ++ [(reply, r)] }
    match r with
    | .ok (some wire) => l.deliver wire
    | _ => l
  else l

/-- `if let Some(reply) = reply { reply.send(r).ok(); }` -/
def answerOpt (l : WireListener U) (turn : Turn) (reply : Option Nat)
    (r : Except IoError (Option (WireStream U))) : WireListener U :=
  match reply with
  | some reply => l.answer turn reply r
  | none => l

/-- The branch of an incoming wire with forward info. -/
def forward (l : WireListener U) (turn : Turn) (wire : WireStream U)
    (forwardInfo : ForwardInfo) (reply : Option Nat) : WireListener U :=
  let (wireId, accessKey) := forwardInfo
  match l.wires wireId with
  | some (key, sender) =>
      if key = accessKey then
        if sender ∈ l.alive then (l.deliver wire).answerOpt turn reply (.ok none)
        else l.answerOpt turn reply (.error ⟨.brokenPipe, "channel closed"⟩)
      else l.answerOpt turn reply (.error ⟨.permissionDenied, "Invalid access key"⟩)
  | none => l.answerOpt turn reply (.error ⟨.notFound, "Wire target not found"⟩)

/-- The branch without: the wire is registered, and returned or handled. -/
def register (l : WireListener U) (turn : Turn) (wire : WireStream U)
    (reply : Option Nat) : WireListener U :=
  let l := l.insert wire
  match reply with
  | some reply => l.answer turn reply (.ok (some wire))
  | none =>
      let l := l.deliver wire
      if turn.handled then l else { l with closed := true }

/-- The loop body of `WireListener::run`. -/
def handle (turn : Turn) (l : WireListener U) :
    WireListenerEvent U → Option (WireListener U)
  | .outgoingWire stream forwardInfo reply => do
      let wireId ← l.drawId turn.draws
      let wireInfo := ⟨wireId, turn.accessKey, l.connectInfo⟩
      let info := do
        wiringRef (some wireInfo)
        wiring forwardInfo
      match write turn.fault info stream with
      | (some e, _) => some (l.answer turn reply (.error e))
      | (none, stream) =>
          let (wire, l) := l.build stream wireInfo none
          some (((l.insert wire).signalDrop wire).answer turn reply (.ok (some wire)))
  | .incomingWire stream remoteInfo forwardInfo reply => do
      let wireId ← l.drawId turn.draws
      let wireInfo := ⟨wireId, turn.accessKey, l.connectInfo⟩
      -- the error of the write is dropped
      let (_, stream) := write turn.fault (wiringRef wireInfo) stream
      let (wire, l) := l.build stream wireInfo remoteInfo
      let l := match forwardInfo with
        | some forwardInfo => l.forward turn wire forwardInfo reply
        | none => l.register turn wire reply
      -- the id of the new wire, whether or not it was registered
      some (l.signalDrop wire)
  | .dropWire wireId => some { l with wires := Function.update l.wires wireId none }
  | .shutdown => some { l with closed := true }

end WireListener

inductive ListenerAction (U : UrlCrate) where
  | send (event : WireListenerEvent U)
  /-- The loop receives the next event. -/
  | recv (turn : Turn)
  /-- The receiver of a channel is dropped. -/
  | close (incoming : Nat)
  /-- The task that waits for it reports that. -/
  | signal (incoming : Nat) (wireId : WireId)

namespace WireListener

variable {U : UrlCrate}

def step (l : WireListener U) : ListenerAction U → Option (WireListener U)
  -- only the listener's own tasks send this one
  | .send (.dropWire _) => none
  | .send event => if l.closed then none else some { l with inbox := l.inbox ++ [event] }
  | .recv turn =>
      match l.inbox with
      | [] => none
      | event :: inbox => handle turn { l with inbox := inbox } event
  | .close incoming =>
      if incoming ∈ l.alive then some { l with alive := l.alive.erase incoming }
      else none
  | .signal incoming wireId =>
      if (incoming, wireId) ∈ l.signals ∧ incoming ∉ l.alive then
        some { l with
          signals := l.signals.erase (incoming, wireId)
          inbox := if l.closed then l.inbox else l.inbox ++ [.dropWire wireId] }
      else none

end WireListener

def listenerMachine {U : UrlCrate} (connectInfo : ConnectInfo U) :
    Machine (WireListener U) (ListenerAction U) :=
  ⟨{ connectInfo := connectInfo }, WireListener.step⟩

namespace WireListener

variable {U : UrlCrate}

/-- The registry holds the live wires, and no drop signal is for one of them. -/
structure Registered (l : WireListener U) : Prop where
  entry : ∀ wire ∈ l.delivered, wire.incoming ∈ l.alive →
    l.wires wire.wireInfo.wireId = some (wire.wireInfo.accessKey, wire.incoming)
  drop : ∀ wireId inbox, l.inbox = .dropWire wireId :: inbox →
    ∀ wire ∈ l.delivered, wire.incoming ∈ l.alive → wire.wireInfo.wireId ≠ wireId

/-- A drop signal for the id is still to be received. -/
def Expected (l : WireListener U) (wireId : WireId) : Prop :=
  .dropWire wireId ∈ l.inbox ∨
    l.closed = false ∧ ∃ incoming, (incoming, wireId) ∈ l.signals

/-- The loop does not forward a wire to one that takes it. -/
def NoForward (l : WireListener U) (a : ListenerAction U) : Prop :=
  ∀ turn, a = .recv turn →
    match l.inbox.head? with
    | some (.incomingWire _ _ (some (wireId, accessKey)) _) =>
        ∀ sender, l.wires wireId = some (accessKey, sender) → sender ∉ l.alive
    | _ => True

/-- It registers no wire under an id for which a drop signal is still to be
received. -/
def NoReuse (l : WireListener U) (a : ListenerAction U) : Prop :=
  ∀ turn, a = .recv turn →
    match l.inbox.head? with
    | some (.incomingWire _ _ none _) =>
        ∀ wireId, l.drawId turn.draws = some wireId → ¬ l.Expected wireId
    | some (.outgoingWire ..) =>
        turn.fault = none →
          ∀ wireId, l.drawId turn.draws = some wireId → ¬ l.Expected wireId
    | _ => True

def Proper (l : WireListener U) (a : ListenerAction U) : Prop :=
  l.NoForward a ∧ l.NoReuse a

/-! ## The invariant -/

/-- A live wire has its entry, its own task is the only one to signal its id, and
that signal has not been sent. -/
structure Inv (l : WireListener U) : Prop where
  known : ∀ wire ∈ l.delivered, wire.incoming < l.channels
  entry : ∀ wire ∈ l.delivered, wire.incoming ∈ l.alive →
    l.wires wire.wireInfo.wireId = some (wire.wireInfo.accessKey, wire.incoming)
  signals : l.closed = false → ∀ incoming wireId, (incoming, wireId) ∈ l.signals →
    ∀ wire ∈ l.delivered, wire.incoming ∈ l.alive →
      wire.wireInfo.wireId = wireId → wire.incoming = incoming
  inbox : ∀ wireId, .dropWire wireId ∈ l.inbox → ∀ wire ∈ l.delivered,
    wire.incoming ∈ l.alive → wire.wireInfo.wireId ≠ wireId

theorem Inv.registered {l : WireListener U} (h : l.Inv) : l.Registered where
  entry := h.entry
  drop wireId _ hinbox := h.inbox wireId (hinbox ▸ List.mem_cons_self)

section

variable {l : WireListener U} {wireId : WireId}

/-- The replies do not matter, and the queue may be closed. -/
theorem Inv.answered (h : l.Inv)
    (replies : List (Nat × Except IoError (Option (WireStream U)))) {closed : Bool}
    (hclosed : closed = false → l.closed = false) :
    Inv { l with replies := replies, closed := closed } :=
  ⟨h.known, h.entry, fun hopen => h.signals (hclosed hopen), h.inbox⟩

/-- No live wire has an id that is not in the map. -/
theorem Inv.fresh (h : l.Inv) (hnew : l.wires wireId = none) {wire : WireStream U}
    (hmem : wire ∈ l.delivered) (halive : wire.incoming ∈ l.alive) :
    wire.wireInfo.wireId ≠ wireId := by
  rintro rfl
  cases hnew.symm.trans (h.entry wire hmem halive)

variable {wire : WireStream U}

/-- A wire that is not registered is not delivered either. -/
theorem Inv.rejected (h : l.Inv) (hnew : l.wires wire.wireInfo.wireId = none) :
    (signalDrop { l with channels := l.channels + 1 } wire).Inv where
  known w hw := Nat.lt_succ_of_lt (h.known w hw)
  entry := h.entry
  signals hopen incoming wireId hmem w hw halive hid := by
    rcases List.mem_cons.mp hmem with heq | hmem
    · cases heq
      exact absurd hid (h.fresh hnew hw halive)
    · exact h.signals hopen incoming wireId hmem w hw halive hid
  inbox := h.inbox

/-- A wire is registered under a new id, with its own channel. -/
theorem Inv.inserted (h : l.Inv) (hnew : l.wires wire.wireInfo.wireId = none) :
    (insert (signalDrop { l with channels := l.channels + 1 } wire) wire).Inv where
  known := (h.rejected hnew).known
  entry w hw halive := by
    have hne := h.fresh hnew hw halive
    simp only [WireListener.insert, signalDrop]
    rw [Function.update_of_ne hne]
    exact h.entry w hw halive
  signals := (h.rejected hnew).signals
  inbox := h.inbox

/-- It may be delivered if no signal for its id is under way. -/
theorem Inv.delivered (h : l.Inv) (hnew : l.wires wire.wireInfo.wireId = none)
    (hchannel : wire.incoming = l.channels)
    (hexpected : ¬ l.Expected wire.wireInfo.wireId) :
    (deliver (insert (signalDrop { l with channels := l.channels + 1 } wire) wire)
      wire).Inv := by
  have hi := h.inserted hnew
  -- an older wire is alive only if it was
  have hold : ∀ w ∈ l.delivered, w.incoming ∈ Insert.insert wire.incoming l.alive →
      w.incoming ∈ l.alive := by
    intro w hw halive
    rcases Finset.mem_insert.mp halive with heq | halive
    · exact absurd (h.known w hw) (by rw [heq, hchannel]; exact Nat.lt_irrefl _)
    · exact halive
  constructor
  · intro w hw
    rcases List.mem_cons.mp hw with rfl | hw
    · exact hchannel ▸ Nat.lt_succ_self _
    · exact hi.known w hw
  · intro w hw halive
    rcases List.mem_cons.mp hw with rfl | hw
    · exact Function.update_self ..
    · exact hi.entry w hw (hold w hw halive)
  · intro hopen incoming wireId hmem w hw halive hid
    rcases List.mem_cons.mp hw with rfl | hw
    · rcases List.mem_cons.mp hmem with heq | hmem
      · cases heq
        rfl
      · exact absurd (Or.inr ⟨hopen, incoming, hid ▸ hmem⟩) hexpected
    · exact hi.signals hopen incoming wireId hmem w hw (hold w hw halive) hid
  · intro wireId hmem w hw halive
    rcases List.mem_cons.mp hw with rfl | hw
    · rintro rfl
      exact hexpected (Or.inl hmem)
    · exact hi.inbox wireId hmem w hw (hold w hw halive)

end

/-! ## The loop keeps it -/

section

variable {l : WireListener U} {turn : Turn} {wire : WireStream U} {reply : Option Nat}

theorem drawId_new {draws : List WireId} {wireId : WireId}
    (h : l.drawId draws = some wireId) : l.wires wireId = none :=
  Option.isNone_iff_eq_none.mp
    (List.find?_some (p := fun wireId => (l.wires wireId).isNone) h)

/-- Answering changes the replies, or delivers the wire that is the answer. -/
theorem answer_cases (l : WireListener U) (turn : Turn) (reply : Nat)
    (r : Except IoError (Option (WireStream U))) :
    (∃ replies, l.answer turn reply r = { l with replies := replies }) ∨
    ∃ wire replies, r = .ok (some wire) ∧
      l.answer turn reply r = deliver { l with replies := replies } wire := by
  unfold answer
  cases turn.waiting with
  | false => exact Or.inl ⟨l.replies, rfl⟩
  | true =>
      rcases r with e | _ | wire
      · exact Or.inl ⟨_, rfl⟩
      · exact Or.inl ⟨_, rfl⟩
      · exact Or.inr ⟨wire, _, rfl, rfl⟩

theorem answer_replies (l : WireListener U) (turn : Turn) (reply : Nat)
    {r : Except IoError (Option (WireStream U))} (h : ∀ wire, r ≠ .ok (some wire)) :
    ∃ replies, l.answer turn reply r = { l with replies := replies } := by
  rcases answer_cases l turn reply r with h' | ⟨wire, -, hr, -⟩
  · exact h'
  · exact absurd hr (h wire)

theorem answerOpt_replies (l : WireListener U) (turn : Turn) (reply : Option Nat)
    {r : Except IoError (Option (WireStream U))} (h : ∀ wire, r ≠ .ok (some wire)) :
    ∃ replies, l.answerOpt turn reply r = { l with replies := replies } := by
  cases reply with
  | none => exact ⟨l.replies, rfl⟩
  | some reply => exact answer_replies l turn reply h

/-- The channel to which forward info leads. -/
def lookup (l : WireListener U) (forwardInfo : ForwardInfo) : Except IoError Nat :=
  match l.wires forwardInfo.1 with
  | some (key, sender) =>
      if key = forwardInfo.2 then
        if sender ∈ l.alive then .ok sender else .error ⟨.brokenPipe, "channel closed"⟩
      else .error ⟨.permissionDenied, "Invalid access key"⟩
  | none => .error ⟨.notFound, "Wire target not found"⟩

theorem lookup_eq_ok {forwardInfo : ForwardInfo} {sender : Nat} :
    l.lookup forwardInfo = .ok sender ↔
      l.wires forwardInfo.1 = some (forwardInfo.2, sender) ∧ sender ∈ l.alive := by
  unfold lookup
  rcases l.wires forwardInfo.1 with _ | ⟨key, channel⟩
  · simp
  · by_cases hkey : key = forwardInfo.2
    · by_cases halive : channel ∈ l.alive
      · simp only [hkey, if_true, halive, Except.ok.injEq, Option.some.injEq,
          Prod.mk.injEq, true_and]
        exact ⟨fun h => ⟨h, h ▸ halive⟩, And.left⟩
      · simp only [hkey, if_true, halive, if_false, reduceCtorEq, Option.some.injEq,
          Prod.mk.injEq, true_and, false_iff]
        rintro ⟨rfl, h⟩
        exact halive h
    · simp [hkey]

theorem forward_ok {forwardInfo : ForwardInfo} {sender : Nat}
    (h : l.lookup forwardInfo = .ok sender) :
    l.forward turn wire forwardInfo reply = (l.deliver wire).answerOpt turn reply (.ok none) := by
  obtain ⟨hentry, halive⟩ := lookup_eq_ok.mp h
  simp only [forward, hentry, if_true, halive]

theorem forward_error {forwardInfo : ForwardInfo} {e : IoError}
    (h : l.lookup forwardInfo = .error e) :
    l.forward turn wire forwardInfo reply = l.answerOpt turn reply (.error e) := by
  unfold lookup at h
  unfold forward
  rcases hentry : l.wires forwardInfo.1 with _ | ⟨key, channel⟩
  · simp only [hentry, Except.error.injEq] at h
    simp only [hentry, h]
  · simp only [hentry] at h
    simp only [hentry]
    split_ifs at h ⊢ <;> cases h <;> rfl

theorem forward_delivered {forwardInfo : ForwardInfo} {w : WireStream U}
    (h : w ∈ (l.forward turn wire forwardInfo reply).delivered) :
    w ∈ l.delivered ∨ w = wire := by
  rcases hlookup : l.lookup forwardInfo with e | sender
  · obtain ⟨replies, heq⟩ := answerOpt_replies l turn reply (r := .error e) (by rintro _ ⟨⟩)
    rw [forward_error hlookup, heq] at h
    exact Or.inl h
  · obtain ⟨replies, heq⟩ := answerOpt_replies (l.deliver wire) turn reply
      (r := .ok none) (by rintro _ ⟨⟩)
    rw [forward_ok hlookup, heq] at h
    exact (List.mem_cons.mp h).symm

/-- Without a live target under the key the wire is dropped. -/
theorem forward_cases {l : WireListener U} {wireId : WireId} {accessKey : AccessKey}
    (turn : Turn) (wire : WireStream U) (reply : Option Nat)
    (h : ∀ sender, l.wires wireId = some (accessKey, sender) → sender ∉ l.alive) :
    ∃ replies, l.forward turn wire (wireId, accessKey) reply
      = { l with replies := replies } := by
  rcases hlookup : l.lookup (wireId, accessKey) with e | sender
  · rw [forward_error hlookup]
    exact answerOpt_replies _ _ _ (by rintro _ ⟨⟩)
  · obtain ⟨hentry, halive⟩ := lookup_eq_ok.mp hlookup
    exact absurd halive (h sender hentry)

/-- Registering delivers the wire or drops it; it may close the queue. -/
theorem register_cases (l : WireListener U) (turn : Turn) (wire : WireStream U)
    (reply : Option Nat) :
    ∃ replies closed, (closed = false → l.closed = false) ∧
      (l.register turn wire reply
          = { l.insert wire with replies := replies, closed := closed } ∨
        l.register turn wire reply
          = { (l.insert wire).deliver wire with replies := replies, closed := closed }) := by
  unfold register
  cases reply with
  | some reply =>
      rcases answer_cases (l.insert wire) turn reply (.ok (some wire)) with
        ⟨replies, h⟩ | ⟨_, replies, ⟨⟩, h⟩
      · exact ⟨replies, l.closed, id, Or.inl h⟩
      · exact ⟨replies, l.closed, id, Or.inr h⟩
  | none =>
      cases hh : turn.handled with
      | true => exact ⟨l.replies, l.closed, id, Or.inr (by simp only [if_true]; rfl)⟩
      | false => exact ⟨l.replies, true, nofun, Or.inr rfl⟩

/-- The wire that the loop makes of an event. -/
def make (l : WireListener U) (turn : Turn) : WireListenerEvent U → Option (WireStream U)
  | .outgoingWire stream forwardInfo _ => do
      let wireId ← l.drawId turn.draws
      let wireInfo := ⟨wireId, turn.accessKey, l.connectInfo⟩
      let info := do
        wiringRef (some wireInfo)
        wiring forwardInfo
      if turn.fault.isSome then none else some ⟨(info stream).2, wireInfo, l.channels, none⟩
  | .incomingWire stream remoteInfo _ _ => do
      let wireId ← l.drawId turn.draws
      let wireInfo := ⟨wireId, turn.accessKey, l.connectInfo⟩
      some ⟨(write turn.fault (wiringRef wireInfo) stream).2, wireInfo, l.channels,
        remoteInfo⟩
  | _ => none

/-- The wire has the drawn id and the drawn key, and a channel of its own. -/
structure Makes (l : WireListener U) (turn : Turn) (wire : WireStream U) : Prop where
  id : l.drawId turn.draws = some wire.wireInfo.wireId
  accessKey : wire.wireInfo.accessKey = turn.accessKey
  incoming : wire.incoming = l.channels

/-- An outgoing wire is registered and returned unless a write fails. -/
theorem handle_outgoingWire_cases {l' : WireListener U} {stream : Bytes}
    {forwardInfo : Option ForwardInfo} {reply : Nat}
    (hs : handle turn l (.outgoingWire stream forwardInfo reply) = some l') :
    (∃ e, turn.fault ≠ none ∧ l.make turn (.outgoingWire stream forwardInfo reply) = none ∧
      l' = l.answer turn reply (.error e)) ∨
    ∃ wire, l.make turn (.outgoingWire stream forwardInfo reply) = some wire ∧
      l.Makes turn wire ∧ turn.fault = none ∧
      wire.stream = ((do
        wiringRef (some wire.wireInfo)
        wiring forwardInfo : IoM Bytes Unit) stream).2 ∧
      l' = answer (signalDrop (insert { l with channels := l.channels + 1 } wire) wire)
        turn reply (.ok (some wire)) := by
  obtain ⟨wireId, hdraw, hs⟩ := Option.bind_eq_some_iff.mp hs
  rcases hfault : turn.fault with _ | ⟨n, e⟩
  · simp only [write, hfault] at hs
    refine Or.inr ⟨_, ?_, ⟨hdraw, rfl, rfl⟩, rfl, rfl, (Option.some.inj hs).symm⟩
    simp only [make, hdraw, Option.bind_eq_bind, Option.bind_some, hfault, Option.isSome_none,
      Bool.false_eq_true, if_false]
    rfl
  · simp only [write, hfault] at hs
    refine Or.inl ⟨e, nofun, ?_, (Option.some.inj hs).symm⟩
    simp [make, hdraw, hfault]

/-- An incoming wire is forwarded or registered. -/
theorem handle_incomingWire_cases {l' : WireListener U} {stream : Bytes}
    {remoteInfo : Option (WireInfo U)} {forwardInfo : Option ForwardInfo}
    {reply : Option Nat}
    (hs : handle turn l (.incomingWire stream remoteInfo forwardInfo reply) = some l') :
    ∃ wire, l.make turn (.incomingWire stream remoteInfo forwardInfo reply) = some wire ∧
      l.Makes turn wire ∧ wire.peer = remoteInfo ∧
      wire.stream = (write turn.fault (wiringRef wire.wireInfo) stream).2 ∧
      ((∃ target, forwardInfo = some target ∧
          l' = signalDrop (forward { l with channels := l.channels + 1 } turn wire target
            reply) wire) ∨
        forwardInfo = none ∧
          l' = signalDrop (register { l with channels := l.channels + 1 } turn wire reply)
            wire) := by
  obtain ⟨wireId, hdraw, hs⟩ := Option.bind_eq_some_iff.mp hs
  let wireInfo : WireInfo U := ⟨wireId, turn.accessKey, l.connectInfo⟩
  refine ⟨⟨(write turn.fault (wiringRef wireInfo) stream).2, wireInfo, l.channels,
    remoteInfo⟩, ?_, ⟨hdraw, rfl, rfl⟩, rfl, rfl, ?_⟩
  · simp only [make, hdraw, Option.bind_eq_bind, Option.bind_some, wireInfo]
  · cases forwardInfo with
    | some target => exact Or.inl ⟨target, rfl, (Option.some.inj hs).symm⟩
    | none => exact Or.inr ⟨rfl, (Option.some.inj hs).symm⟩

/-- An event handled under the condition keeps the invariant. -/
theorem handle_inv {l' : WireListener U} {event : WireListenerEvent U}
    {inbox : List (WireListenerEvent U)} (h : l.Inv) (hinbox : l.inbox = event :: inbox)
    (hproper : l.Proper (.recv turn))
    (hs : handle turn { l with inbox := inbox } event = some l') : l'.Inv := by
  have hl : Inv { l with inbox := inbox } := ⟨h.known, h.entry, h.signals,
    fun wireId hmem => h.inbox wireId (hinbox ▸ List.mem_cons_of_mem _ hmem)⟩
  have hexpected {wireId : WireId} (hne : ¬ l.Expected wireId) :
      ¬ Expected { l with inbox := inbox } wireId :=
    mt (Or.imp_left fun hmem => hinbox ▸ List.mem_cons_of_mem _ hmem) hne
  have hforward := hproper.1 turn rfl
  have hreuse := hproper.2 turn rfl
  rw [hinbox, List.head?_cons] at hforward hreuse
  cases event with
  | dropWire wireId =>
      cases hs
      refine ⟨hl.known, ?_, hl.signals, hl.inbox⟩
      intro wire hmem halive
      have hne := h.inbox wireId (hinbox ▸ List.mem_cons_self) wire hmem halive
      exact (Function.update_of_ne hne ..).trans (hl.entry wire hmem halive)
  | shutdown =>
      cases hs
      exact hl.answered l.replies nofun
  | outgoingWire stream forwardInfo reply =>
      rcases handle_outgoingWire_cases hs with ⟨e, -, -, rfl⟩ |
        ⟨wire, -, ⟨hdraw, -, hchannel⟩, hfault, -, rfl⟩
      · obtain ⟨replies, heq⟩ := answer_replies { l with inbox := inbox } turn reply
          (r := .error e) (by rintro _ ⟨⟩)
        rw [heq]
        exact hl.answered replies id
      · have hnew : l.wires wire.wireInfo.wireId = none := drawId_new hdraw
        have hexp := hexpected (hreuse hfault _ hdraw)
        rcases answer_cases (U := U) _ turn reply (.ok (some wire)) with
          ⟨replies, heq⟩ | ⟨_, replies, ⟨⟩, heq⟩
        · rw [heq]
          exact (hl.inserted hnew).answered replies id
        · rw [heq]
          exact (hl.delivered hnew hchannel hexp).answered replies id
  | incomingWire stream remoteInfo forwardInfo reply =>
      obtain ⟨wire, -, ⟨hdraw, -, hchannel⟩, -, -, hs⟩ := handle_incomingWire_cases hs
      have hnew : l.wires wire.wireInfo.wireId = none := drawId_new hdraw
      rcases hs with ⟨⟨target, accessKey⟩, rfl, rfl⟩ | ⟨rfl, rfl⟩
      · obtain ⟨replies, heq⟩ := forward_cases
          (l := { l with inbox := inbox, channels := l.channels + 1 }) turn wire reply
          hforward
        simp only [heq]
        exact (hl.rejected hnew).answered replies id
      · have hexp := hexpected (hreuse _ hdraw)
        obtain ⟨replies, closed, hclosed, heq | heq⟩ := register_cases
          { l with inbox := inbox, channels := l.channels + 1 } turn wire reply
        · simp only [heq]
          exact (hl.inserted hnew).answered replies hclosed
        · simp only [heq]
          exact (hl.delivered hnew hchannel hexp).answered replies hclosed

end

/-- A step that meets the condition keeps the invariant. -/
theorem step_inv {l l' : WireListener U} {a : ListenerAction U} (h : l.Inv)
    (hproper : l.Proper a) (hs : l.step a = some l') : l'.Inv := by
  cases a with
  | send event =>
      have hevent : ∀ wireId, event ≠ .dropWire wireId := by
        rintro wireId rfl
        cases hs
      have hl' : l' = { l with inbox := l.inbox ++ [event] } := by
        cases event with
        | dropWire wireId => exact absurd rfl (hevent wireId)
        | incomingWire | outgoingWire | shutdown =>
            simp only [step, Option.ite_none_left_eq_some, Option.some.injEq] at hs
            exact hs.2.symm
      subst hl'
      refine ⟨h.known, h.entry, h.signals, fun wireId hmem => h.inbox wireId ?_⟩
      rcases List.mem_append.mp hmem with hmem | hmem
      · exact hmem
      · exact absurd (List.mem_singleton.mp hmem).symm (hevent wireId)
  | recv turn =>
      rcases hinbox : l.inbox with _ | ⟨event, inbox⟩
      · simp [step, hinbox] at hs
      · simp only [step, hinbox] at hs
        exact handle_inv h hinbox hproper hs
  | close incoming =>
      simp only [step, Option.ite_none_right_eq_some, Option.some.injEq] at hs
      obtain ⟨-, rfl⟩ := hs
      have hold {i : Nat} (halive : i ∈ l.alive.erase incoming) : i ∈ l.alive :=
        Finset.mem_of_mem_erase halive
      exact ⟨h.known, fun w hw halive => h.entry w hw (hold halive),
        fun hopen i wireId hmem w hw halive =>
          h.signals hopen i wireId hmem w hw (hold halive),
        fun wireId hmem w hw halive => h.inbox wireId hmem w hw (hold halive)⟩
  | signal incoming wireId =>
      simp only [step, Option.ite_none_right_eq_some, Option.some.injEq] at hs
      obtain ⟨⟨hsignal, hdead⟩, rfl⟩ := hs
      refine ⟨h.known, h.entry, fun hopen i id hmem =>
        h.signals hopen i id (List.mem_of_mem_erase hmem), ?_⟩
      intro id hmem w hw halive
      have hmem : .dropWire id ∈ l.inbox ∨ l.closed = false ∧ id = wireId := by
        cases hopen : l.closed <;> simpa [hopen] using hmem
      rcases hmem with hmem | ⟨hopen, rfl⟩
      · exact h.inbox id hmem w hw halive
      · -- the wire with this id would be the one that has been dropped
        intro hid
        exact hdead (h.signals hopen incoming _ hsignal w hw halive hid ▸ halive)

/-- A live wire that is registered takes the wires forwarded to it. -/
theorem Registered.forwards {l : WireListener U} (h : l.Registered) {wire : WireStream U}
    (hmem : wire ∈ l.delivered) (halive : wire.incoming ∈ l.alive) (turn : Turn)
    (nested : WireStream U) (reply : Option Nat) :
    l.forward turn nested (wire.wireInfo.wireId, wire.wireInfo.accessKey) reply
      = (l.deliver nested).answerOpt turn reply (.ok none) :=
  forward_ok (lookup_eq_ok.mpr ⟨h.entry wire hmem halive, halive⟩)

/-- A forwarded wire is live and has no entry. -/
theorem forward_not_registered {l : WireListener U} {turn : Turn} {nested : WireStream U}
    {wireId : WireId} {accessKey : AccessKey} {sender : Nat} {reply : Option Nat}
    (htarget : l.wires wireId = some (accessKey, sender)) (halive : sender ∈ l.alive)
    (hnew : l.wires nested.wireInfo.wireId = none) :
    ¬ (l.forward turn nested (wireId, accessKey) reply).Registered := by
  obtain ⟨replies, heq⟩ := answerOpt_replies (l.deliver nested) turn reply
    (r := .ok none) (by rintro _ ⟨⟩)
  rw [forward_ok (lookup_eq_ok.mpr ⟨htarget, halive⟩), heq]
  intro h
  cases hnew.symm.trans
    (h.entry nested List.mem_cons_self (Finset.mem_insert_self ..))

end WireListener

/-- **The registry.** In a run in which the loop forwards no wire to a live one and
reuses no id for which a drop signal is still to come, the registry holds the
live wires. -/
theorem registry_live {U : UrlCrate} {c : ConnectInfo U} {l : WireListener U}
    (h : (listenerMachine c).ReachableBy WireListener.Proper l) :
    l.Registered :=
  (h.invariant ⟨nofun, nofun, nofun, nofun⟩ fun _ _ _ h hproper hs =>
    WireListener.step_inv h hproper hs).registered

/-! ## A nested wire, and an id drawn twice -/

/-- A `url` crate for runs in which no URL occurs. -/
def noUrls : UrlCrate := ⟨Unit, ⟨()⟩, fun _ => emptyString, fun _ => .error "no URL"⟩

def listening : ConnectInfo noUrls := .tcpStream emptyString

/-- A wire comes in on a new stream. -/
def comes (forwardInfo : Option ForwardInfo) (reply : Option Nat) :
    ListenerAction noUrls :=
  .send (.incomingWire [] none forwardInfo reply)

/-- The loop receives it and draws an id. -/
def taken (wireId : Nat) : ListenerAction noUrls :=
  .recv { draws := [.ofNat wireId], accessKey := .ofNat 7 }

/-- One wire comes in and is registered. -/
theorem registry_live_one :
    ∃ l : WireListener noUrls, l.alive = {0} ∧ l.Registered :=
  ⟨_, rfl, registry_live (c := listening) <|
    .step (a := taken 1)
      (.step (a := comes none none) .init ⟨by rintro _ ⟨⟩, by rintro _ ⟨⟩⟩ rfl)
      ⟨by rintro _ ⟨⟩; trivial, by rintro _ ⟨⟩ wireId - (h | ⟨-, _, h⟩) <;> simp [listenerMachine] at h⟩
      rfl⟩

/-- A wire is forwarded to the first one; one forwarded to it is refused. -/
theorem nested_not_registered :
    ∃ l, (listenerMachine listening).ReachableBy WireListener.NoReuse l ∧
      ¬ l.Registered ∧
      ∃ e : IoError, l.replies = [(0, .error e)] ∧ e.msg = "Wire target not found" := by
  refine ⟨_, .step (a := taken 3)
    (.step (a := comes (some (.ofNat 2, .ofNat 7)) (some 0))
      (.step (a := taken 2)
        (.step (a := comes (some (.ofNat 1, .ofNat 7)) none)
          (.step (a := taken 1)
            (.step (a := comes none none) .init (by rintro _ ⟨⟩) rfl)
            (by rintro _ ⟨⟩ wireId - (h | ⟨-, _, h⟩) <;> simp [listenerMachine] at h) rfl)
          (by rintro _ ⟨⟩) rfl)
        (by rintro _ ⟨⟩; trivial) rfl)
      (by rintro _ ⟨⟩) rfl)
    (by rintro _ ⟨⟩; trivial) rfl, ?_, ⟨_, _⟩, rfl, rfl⟩
  intro h
  have hentry := h.entry _ List.mem_cons_self (by decide)
  exact absurd hentry (by decide)

/-- A wire that is refused gives its id up, and its task signals it all the same
when the id is another wire's. -/
theorem reused_not_registered :
    ∃ l, (listenerMachine listening).ReachableBy WireListener.NoForward l ∧
      ¬ l.Registered := by
  refine ⟨_, .step (a := .signal 0 (.ofNat 1))
    (.step (a := taken 1)
      (.step (a := comes none none)
        (.step (a := taken 1)
          (.step (a := comes (some (.ofNat 2, .ofNat 7)) none) .init
            (by rintro _ ⟨⟩) rfl)
          (by rintro _ ⟨⟩ _ ⟨⟩) rfl)
        (by rintro _ ⟨⟩) rfl)
      (by rintro _ ⟨⟩; trivial) rfl)
    (by rintro _ ⟨⟩) rfl, ?_⟩
  intro h
  exact h.drop _ _ rfl _ List.mem_cons_self (by decide) rfl

end WiringRs
