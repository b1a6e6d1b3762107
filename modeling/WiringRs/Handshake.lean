import WiringRs.Listener
import WiringRs.Roundtrip

/-!
# The connect handshake

A wire is opened in four ways, each with a header assembled by hand; the acceptor
reads all of them with one reader, and answers with the info of the new wire.
-/

namespace WiringRs

open Wiring

/-- How a wire is opened. With a handle of its own listener the opener sends the
info that the listener has made. -/
inductive Opening (U : UrlCrate) where
  /-- `WireConfig::connect`, without a handle -/
  | connect
  /-- `Wire::stream` of a wire whose peer has no local handle -/
  | stream (forwardInfo : ForwardInfo)
  /-- `WireConfig::connect`, with a handle -/
  | connectWith (wireInfo : WireInfo U)
  /-- `Wire::stream` of a wire whose peer has one -/
  | streamWith (wireInfo : WireInfo U) (forwardInfo : ForwardInfo)

namespace Opening

variable {U : UrlCrate}

/-- What `WireListener::run` writes for an outgoing wire. -/
def outgoing (wireInfo : WireInfo U) (forwardInfo : Option ForwardInfo) :
    IoM Bytes Unit := do
  wiringRef (some wireInfo)
  wiring forwardInfo

/-- The header each of them writes. -/
def header : Opening U → IoM Bytes Unit
  -- none and none, as one integer
  | .connect => wiring (.ofNat 0 : U16)
  | .stream forwardInfo => do
      wiring (.ofNat 0 : U8)
      wiring (some forwardInfo)
  | .connectWith wireInfo => outgoing wireInfo none
  | .streamWith wireInfo forwardInfo => outgoing wireInfo (some forwardInfo)

/-- What the acceptor is to make of it. -/
def remoteInfo : Opening U → Option (WireInfo U)
  | .connect | .stream _ => none
  | .connectWith wireInfo | .streamWith wireInfo _ => some wireInfo

def forwardInfo : Opening U → Option ForwardInfo
  | .connect | .connectWith _ => none
  | .stream forwardInfo | .streamWith _ forwardInfo => some forwardInfo

end Opening

/-! ## The asynchronous decoders -/

theorem unwiring_decodes_string [RustType RString] (str : RString) :
    Decodes (unwiring : IoM Bytes RString) (prefixed str.bytes) (· = str) := by
  have hfit : str.bytes.length ≤ usizeMax := Nat.le_trans str.fits (by decide)
  have hlen := (ReadsPrim.async (t := .u64)).decodes_len hfit
  have h := hlen.bind (m := str.bytes) (f := fun len => readToString len.toNat)
    (Q := (· = str)) (by
      intro len hlen rest
      rw [hlen, readToString, List.take_left, List.drop_left, fromUtf8_bytes]
      exact ⟨str, rfl, rfl⟩)
  exact h

section

variable {U : UrlCrate} [RustType RString] [RustType (Url U)]

theorem unwiring_decodes_url (lawful : U.Lawful) (u : Url U) :
    Decodes (unwiring : IoM Bytes (Url U)) (prefixed u.asStr.bytes) (· = u) := by
  have h := (unwiring_decodes_string u.asStr).bind (m := []) (Q := (· = u))
    (f := fun str => urlFromStr str fun _ => "Unable to unwire Url from String") (by
      rintro _ rfl
      unfold urlFromStr
      rw [lawful.fromStr_asStr]
      exact .pure rfl)
  rwa [List.append_nil] at h

variable [RustType (ConnectInfo U)]

theorem unwiring_decodes_connectInfo (lawful : U.Lawful) (c : ConnectInfo U) :
    Decodes (unwiring : IoM Bytes (ConnectInfo U)) (connectInfoBytes c) (· = c) := by
  have hread (n : U8) := (ReadsPrim.async (t := .u8)).decodes n
  cases c with
  | tcpStream addr =>
      refine (hread (.ofNat 0)).bind ?_
      rintro _ rfl
      exact (unwiring_decodes_string addr).map fun _ h => h ▸ rfl
  | url url =>
      refine (hread (.ofNat 1)).bind ?_
      rintro _ rfl
      exact (unwiring_decodes_url lawful url).map fun _ h => h ▸ rfl

variable [RustType (WireInfo U)]

theorem unwiring_decodes_wireInfo (lawful : U.Lawful) (w : WireInfo U) :
    Decodes (unwiring : IoM Bytes (WireInfo U)) ((WTy.wireInfo U).format true w)
      (· = w) := by
  have h := (ReadsPrim.async.decodes w.wireId).bind fun wireId hid =>
    (ReadsPrim.async.decodes w.accessKey).bind fun accessKey hkey =>
      (unwiring_decodes_connectInfo lawful w.connectInfo).map
        (f := WireInfo.mk wireId accessKey) (Q := (· = w)) fun c hc => by
          subst hid hkey hc
          rfl
  rw [← List.append_assoc] at h
  exact h

end

def optionBytes {α : Type} (e : α → Bytes) : Option α → Bytes
  | none => [0]
  | some a => 1 :: e a

theorem unwiring_decodes_option {α : Type} [RustType α] [Unwiring α]
    [RustType (Option α)] {e : α → Bytes}
    (h : ∀ a, Decodes (unwiring : IoM Bytes α) (e a) (· = a)) (v : Option α) :
    Decodes (unwiring : IoM Bytes (Option α)) (optionBytes e v) (· = v) := by
  have hread (n : U8) := (ReadsPrim.async (t := .u8)).decodes n
  cases v with
  | none =>
      refine (hread (.ofNat 0)).bind (m := []) ?_
      rintro _ rfl
      exact .pure rfl
  | some a =>
      refine (hread (.ofNat 1)).bind ?_
      rintro _ rfl
      exact (h a).map fun _ h => h ▸ rfl

def forwardInfoBytes (f : ForwardInfo) : Bytes := f.1.toBeBytes ++ f.2.toBeBytes

theorem unwiring_decodes_forwardInfo [RustType ForwardInfo] (f : ForwardInfo) :
    Decodes (unwiring : IoM Bytes ForwardInfo) (forwardInfoBytes f) (· = f) := by
  refine (ReadsPrim.async.decodes f.1).bind fun wireId hid => ?_
  exact (ReadsPrim.async.decodes f.2).map fun accessKey hkey => by rw [hid, hkey]

/-! ## The four headers -/

namespace Opening

variable {U : UrlCrate}

/-- The bytes of a header. -/
def headerBytes (o : Opening U) : Bytes :=
  optionBytes ((WTy.wireInfo U).format true) o.remoteInfo ++
    optionBytes forwardInfoBytes o.forwardInfo

theorem forwardInfo_emits (forwardInfo : Option ForwardInfo) :
    Emits (wiring forwardInfo) (optionBytes forwardInfoBytes forwardInfo) := by
  have h := (WTy.option (.pair (.prim .u64) (.prim .u128))).encoder.wiring_emits forwardInfo
  cases forwardInfo <;> exact h

theorem outgoing_emits (wireInfo : WireInfo U) (forwardInfo : Option ForwardInfo) :
    Emits (outgoing wireInfo forwardInfo)
      (optionBytes ((WTy.wireInfo U).format true) (some wireInfo) ++
        optionBytes forwardInfoBytes forwardInfo) :=
  ((WTy.option (.wireInfo U)).encoder.wiringRef_emits (some wireInfo)).bind
    (forwardInfo_emits forwardInfo)

theorem header_emits (o : Opening U) : Emits o.header o.headerBytes := by
  cases o with
  | connect => exact (WTy.prim .u16).encoder.wiring_emits (.ofNat 0)
  | stream forwardInfo =>
      exact ((WTy.prim .u8).encoder.wiring_emits (.ofNat 0)).bind
        (forwardInfo_emits (some forwardInfo))
  | connectWith wireInfo => exact outgoing_emits wireInfo none
  | streamWith wireInfo forwardInfo => exact outgoing_emits wireInfo (some forwardInfo)

end Opening

/-! ## Both ends -/

/-- A stream as one end has it: what is still to be read, and what has been
written. -/
structure Duplex where
  input : Bytes
  output : Bytes

namespace Duplex

variable {α : Type}

def read (x : IoM Bytes α) : IoM Duplex α := fun d =>
  ((x d.input).1, { d with input := (x d.input).2 })

def write (x : IoM Bytes Unit) : IoM Duplex Unit := fun d =>
  ((x d.output).1, { d with output := (x d.output).2 })

theorem read_decodes {x : IoM Bytes α} {b : Bytes} {a : α} (h : Decodes x b (· = a))
    (rest output : Bytes) : read x ⟨b ++ rest, output⟩ = (.ok a, ⟨rest, output⟩) := by
  obtain ⟨_, hx, rfl⟩ := h rest
  simp only [read, hx]

theorem write_emits {x : IoM Bytes Unit} {b : Bytes} (h : Emits x b)
    (input output : Bytes) : write x ⟨input, output⟩ = (.ok (), ⟨input, output ++ b⟩) := by
  simp only [write, h.run]

end Duplex

section

variable {U : UrlCrate} [RustType RString] [RustType (Url U)] [RustType (ConnectInfo U)]
  [RustType (WireInfo U)]

/-- The opener writes the header and reads the info of the wire at the other end. -/
def Opening.run (o : Opening U) : IoM Duplex (WireInfo U) := do
  Duplex.write o.header
  Duplex.read unwiring

variable [RustType (Option (WireInfo U))] [RustType ForwardInfo]
  [RustType (Option ForwardInfo)]

/-- `WireConfig::wire`: what the event for the listener is to hold. -/
def wireHeader : IoM Duplex (Option (WireInfo U) × Option ForwardInfo) := do
  let remoteInfo ← Duplex.read unwiring
  let forwardInfo ← Duplex.read unwiring
  pure (remoteInfo, forwardInfo)

/-- The acceptor: the header is read, and the listener answers with the info of the
wire it makes. -/
def accept (wireInfo : WireInfo U) :
    IoM Duplex (Option (WireInfo U) × Option ForwardInfo) := do
  let event ← wireHeader
  Duplex.write (wiringRef wireInfo)
  pure event

theorem wireHeader_headerBytes (lawful : U.Lawful) (o : Opening U)
    (rest output : Bytes) :
    wireHeader ⟨o.headerBytes ++ rest, output⟩
      = (.ok (o.remoteInfo, o.forwardInfo), ⟨rest, output⟩) := by
  have hremote := unwiring_decodes_option (unwiring_decodes_wireInfo lawful) o.remoteInfo
  have hforward := unwiring_decodes_option unwiring_decodes_forwardInfo o.forwardInfo
  unfold wireHeader Opening.headerBytes
  rw [List.append_assoc, Act.bind_ok (Duplex.read_decodes hremote _ _),
    Act.bind_ok (Duplex.read_decodes hforward _ _)]
  rfl

/-- **The handshake.** On every opening path the acceptor reads from the opener's
bytes what that path means, and the opener reads from the answer the info that
the acceptor's listener has made. What follows on the stream is left. -/
theorem handshake (lawful : U.Lawful) (o : Opening U) (wireInfo : WireInfo U) :
    ∃ header reply, ∀ rest rest',
      o.run ⟨reply ++ rest, []⟩ = (.ok wireInfo, ⟨rest, header⟩) ∧
      accept wireInfo ⟨header ++ rest', []⟩
        = (.ok (o.remoteInfo, o.forwardInfo), ⟨rest', reply⟩) := by
  have hreply := (WTy.wireInfo U).encoder.wiringRef_emits wireInfo
  have hinfo := unwiring_decodes_wireInfo lawful wireInfo
  refine ⟨o.headerBytes, (WTy.wireInfo U).format true wireInfo, fun rest rest' => ⟨?_, ?_⟩⟩
  · unfold Opening.run
    rw [Act.bind_ok (Duplex.write_emits o.header_emits _ _)]
    exact Duplex.read_decodes hinfo rest _
  · unfold accept
    rw [Act.bind_ok (wireHeader_headerBytes lawful o _ _),
      Act.bind_ok (Duplex.write_emits hreply _ _)]
    rfl

end

def socketPath : RString := .ofChars "unix:/run/wire".toList (by decide)

/-- A `url` crate for runs with one URL. -/
def socketUrl : UrlCrate where
  Carrier := Unit
  nonempty := ⟨()⟩
  asStr _ := socketPath
  fromStr s := if s = socketPath then .ok () else .error "relative URL without a base"

local instance : RustType RString := ⟨24, "alloc::string::String"⟩

local instance {U : UrlCrate} : RustType (Url U) := ⟨88, "url::Url"⟩

local instance {U : UrlCrate} : RustType (ConnectInfo U) := ⟨88, "ConnectInfo"⟩

local instance {U : UrlCrate} : RustType (WireInfo U) := ⟨112, "WireInfo"⟩

local instance {U : UrlCrate} : RustType (Option (WireInfo U)) := ⟨112, "Option<WireInfo>"⟩

local instance : RustType ForwardInfo := ⟨32, "(u64, u128)"⟩

local instance : RustType (Option ForwardInfo) := ⟨48, "Option<(u64, u128)>"⟩

def socketInfo (wireId : Nat) : WireInfo socketUrl :=
  ⟨.ofNat wireId, .ofNat 7, .url ⟨()⟩⟩

/-- A nested stream opened through the opener's own listener. -/
theorem handshake_socket :
    ∃ header reply, ∀ rest rest',
      (Opening.streamWith (socketInfo 1) (.ofNat 2, .ofNat 7)).run ⟨reply ++ rest, []⟩
        = (.ok (socketInfo 3), ⟨rest, header⟩) ∧
      accept (socketInfo 3) ⟨header ++ rest', []⟩
        = (.ok (some (socketInfo 1), some (.ofNat 2, .ofNat 7)), ⟨rest', reply⟩) :=
  handshake (fun _ => rfl) (.streamWith (socketInfo 1) (.ofNat 2, .ofNat 7)) (socketInfo 3)

/-! ## What a listener writes -/

namespace WireListener

variable {U : UrlCrate} {turn : Turn} {l l' : WireListener U}

/-- On a stream that does not fail, the wire of an outgoing stream has written the
header on it. -/
theorem handle_outgoingWire {stream : Bytes} {forwardInfo : Option ForwardInfo}
    {reply : Nat} (hfault : turn.fault = none)
    (hs : handle turn l (.outgoingWire stream forwardInfo reply) = some l') :
    ∀ wire ∈ l'.delivered, wire ∈ l.delivered ∨
      Opening.outgoing wire.wireInfo forwardInfo stream = (.ok (), wire.stream) := by
  rcases handle_outgoingWire_cases hs with ⟨_, h, -⟩ | ⟨made, -, -, -, hstream, rfl⟩
  · exact absurd hfault h
  have hrun : Opening.outgoing made.wireInfo forwardInfo stream = (.ok (), made.stream) := by
    have h := (Opening.outgoing_emits made.wireInfo forwardInfo).run stream
    rw [h, hstream]
    exact congrArg _ (congrArg Prod.snd h).symm
  intro wire hmem
  rcases answer_cases (U := U) _ turn reply (.ok (some made)) with
    ⟨replies, heq⟩ | ⟨_, replies, ⟨⟩, heq⟩
  · rw [heq] at hmem
    exact Or.inl hmem
  · rw [heq] at hmem
    rcases List.mem_cons.mp hmem with rfl | hmem
    · exact Or.inr hrun
    · exact Or.inl hmem

/-- The wire of an incoming stream has written its own info, and its peer is the
sender of the header. -/
theorem handle_incomingWire {stream : Bytes} {remoteInfo : Option (WireInfo U)}
    {forwardInfo : Option ForwardInfo} {reply : Option Nat} (hfault : turn.fault = none)
    (hs : handle turn l (.incomingWire stream remoteInfo forwardInfo reply) = some l') :
    ∀ wire ∈ l'.delivered, wire ∈ l.delivered ∨
      wire.peer = remoteInfo ∧ wiringRef wire.wireInfo stream = (.ok (), wire.stream) := by
  obtain ⟨made, -, -, hpeer, hstream, hs⟩ := handle_incomingWire_cases hs
  have hrun : wiringRef made.wireInfo stream = (.ok (), made.stream) := by
    have h := ((WTy.wireInfo U).encoder.wiringRef_emits made.wireInfo).run stream
    rw [h, hstream, hfault]
    exact congrArg _ (congrArg Prod.snd h).symm
  suffices h : ∀ wire ∈ l'.delivered, wire ∈ l.delivered ∨ wire = made from fun wire hmem =>
    (h wire hmem).imp_right (by rintro rfl; exact ⟨hpeer, hrun⟩)
  intro wire hmem
  rcases hs with ⟨target, -, rfl⟩ | ⟨-, rfl⟩
  · exact forward_delivered (l := { l with channels := l.channels + 1 }) hmem
  · obtain ⟨replies, closed, -, heq | heq⟩ := register_cases
      { l with channels := l.channels + 1 } turn made reply
    · rw [heq] at hmem
      exact Or.inl hmem
    · rw [heq] at hmem
      exact (List.mem_cons.mp hmem).symm

end WireListener

end WiringRs
