import Mathlib.Data.Finset.Basic
import WiringRs.Rust

/-!
# The wired task

`Wired` writes the events of a peer on the connection. It owns, for each stream
the peer has, the receiving end of the channel on which the stream's write half
leaves its messages. `handle` is the body of the loop of `Wired::run`: what an
event changes, and the calls it makes then, one after another.

The channel of a write half is named by the stream's key; a key is registered
once.
-/

namespace WiringRs

/-- A stream id, and whether this peer opened the stream. -/
abbrev StreamKey := WireId × Bool

abbrev Message := Vec U8

inductive WiredEvent (α : Type) where
  | event (e : α)
  | registerWriteHalf (streamId : WireId)
  | message (streamId : WireId) (isLocal : Bool)
  | drop (streamId : WireId) (isLocal : Bool) (broadcastToRemote : Bool)

inductive UnwiredEvent where
  | registerStream (streamId : WireId) (isLocal : Bool)
  | drop (streamId : WireId) (isLocal : Bool) (broadcastToWire : Bool)
  | message (streamId : WireId) (isLocal : Bool) (message : Message)

structure Wired where
  /-- The recent stream id; a new stream takes the next one. -/
  streamId : Nat := 0
  streams : Finset StreamKey := ∅
  /-- The keys whose receiver is gone. -/
  removed : Finset StreamKey := ∅
  /-- What the write halves have sent and `Wired` has not received. -/
  buf : StreamKey → List Message := fun _ => []

/-- A call `Wired::run` makes while it handles an event. -/
inductive WiredCall (α : Type) where
  /-- `self.wire(event)` -/
  | wire (event : WiringEvent α)
  /-- `self.unwired_handle.send(..)`, of a drop that is not broadcast. -/
  | notify (streamId : WireId) (isLocal : Bool)
  /-- `self.connect()`, up to its write. -/
  | connect
  /-- The write of a new stream's id, after which the stream is returned. -/
  | offer (streamId : WireId)

namespace Wired

variable {α : Type}

/-- The next stream id, and the stream registered under it. The id is a `u64`:
there is none after the last one. -/
def connect (w : Wired) : Option (WireId × Wired) :=
  let streamId := w.streamId + 1
  if streamId < 2 ^ 64 then
    some (.ofNat streamId, { w with
      streamId := streamId
      streams := insert (.ofNat streamId, true) w.streams })
  else none

/-- The loop body of `Wired::run`. The encoder of an event may open streams:
`connects` is how many it opens. -/
def handle (connects : Nat) (w : Wired) : WiredEvent α → Wired × List (WiredCall α)
  | .event e => (w, .wire (.event e) :: List.replicate connects .connect)
  | .registerWriteHalf streamId =>
      ({ w with streams := insert (streamId, false) w.streams }, [])
  | .drop streamId isLocal broadcastToRemote =>
      let key := (streamId, isLocal)
      if key ∈ w.streams then
        ({ w with
            streams := w.streams.erase key
            removed := insert key w.removed },
          (if broadcastToRemote then [.wire (.drop streamId !isLocal)] else []) ++
            [.notify streamId isLocal])
      else (w, [])
  | .message streamId isLocal =>
      let key := (streamId, isLocal)
      if key ∈ w.streams then
        match w.buf key with
        | message :: messages =>
            -- what is local here is remote there
            ({ w with buf := Function.update w.buf key messages },
              [.wire (.message streamId (!isLocal) message)])
        | [] => (w, [])
      else (w, [])

end Wired

end WiringRs
