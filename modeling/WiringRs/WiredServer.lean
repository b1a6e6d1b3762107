import WiringRs.Lib.Channel
import WiringRs.Lib.Machine
import WiringRs.Wired

/-!
# Two wired servers

The tasks of a `WiredServer` (`Wired::run`, `Unwired::run` and its `helper_task`)
and the users of its streams, against a second server at the other end of a
reliable connection. A step is what a task or a user does between two points at
which another one may act. No write fails, and the events decode: what is read
from the connection are the frames and the stream ids as they were written.

A half's channel to or from a task is named by the stream's key. An event is
handled by `Wired` with one call after another; opening a stream takes two, since
the helper may act before the id is written.
-/

namespace WiringRs

/-- What `Wired` writes on the connection. -/
inductive Token (α : Type) where
  | frame (event : WiringEvent α)
  | stream (streamId : WireId)

structure WiredServer (α : Type) where
  wired : Wired := {}
  /-- The queue of `Wired`; `None` closes it. -/
  wRx : List (Option (WiredEvent α)) := []
  wClosed : Bool := false
  /-- The calls `Wired` is still to make for the event it handles. -/
  calls : List (WiredCall α) := []
  /-- `Wired::run` has returned. -/
  wiredDone : Bool := false
  /-- What is on the connection, to be read by the other server. -/
  wire : List (Token α) := []
  /-- `Unwired::connect` has told `Wired` of this stream, and not yet the helper. -/
  connecting : Option WireId := none
  /-- `Unwired::run` has come to the end of the connection. -/
  unwiredDone : Bool := false
  /-- The map of `helper_task`, and the keys it has dropped. -/
  streams : Finset StreamKey := ∅
  dropped : Finset StreamKey := ∅
  uRx : List (Option UnwiredEvent) := []
  uClosed : Bool := false
  helperDone : Bool := false
  /-- `Wired` has been told that `Unwired` has ended. -/
  finished : Bool := false
  /-- The streams the users have been given, and which halves they have dropped. -/
  held : Finset StreamKey := ∅
  readDropped : Finset StreamKey := ∅
  writeDropped : Finset StreamKey := ∅
  /-- The message of a `poll_flush` that has not sent its event. -/
  flushing : StreamKey → Option Message := fun _ => none
  /-- The streams of which a half has been dropped or shut down. -/
  closed : Finset StreamKey := ∅
  /-- The messages of the flushes that returned `Ok`. -/
  flushed : StreamKey → List Message := fun _ => []
  /-- The messages sent to the read halves. -/
  handed : StreamKey → List Message := fun _ => []
  /-- All that has been written on the connection. -/
  written : List (Token α) := []

inductive ServerAction (α : Type) where
  /-- `WiredHandle::send`; `none` is `shutdown`. -/
  | send (event : Option α)
  /-- `poll_flush` of a write half, up to the send on the half's channel. -/
  | flush (key : StreamKey) (message : Message)
  /-- The rest of it. -/
  | flushEvent (key : StreamKey)
  | dropRead (key : StreamKey)
  | dropWrite (key : StreamKey)
  /-- `poll_shutdown` of a write half. -/
  | shutdownWrite (key : StreamKey)
  /-- `Wired` receives an event, whose encoder opens so many streams. -/
  | wiredRecv (connects : Nat)
  | wiredCall
  | wiredEnd
  /-- `Unwired` reads from the connection. -/
  | unwiredRead
  /-- The second half of `Unwired::connect`. -/
  | unwiredConnected
  | unwiredEof
  /-- It sends `None` to `Wired` when the helper has ended. -/
  | unwiredEnd
  | helperRecv
  | helperEnd

namespace WiredServer

variable {α : Type}

def sendWired (p : WiredServer α) (event : Option (WiredEvent α)) : WiredServer α :=
  { p with wRx := trySend p.wClosed p.wRx event }

def sendUnwired (p : WiredServer α) (event : Option UnwiredEvent) : WiredServer α :=
  { p with uRx := trySend p.uClosed p.uRx event }

def write (p : WiredServer α) (token : Token α) : WiredServer α :=
  { p with wire := p.wire ++ [token], written := p.written ++ [token] }

/-- The drop of a handle, and `poll_shutdown`. -/
def sendDrop (p : WiredServer α) (key : StreamKey) : WiredServer α :=
  { p.sendWired (some (.drop key.1 key.2 true)) with closed := insert key p.closed }

/-- A call of `Wired::run`. Opening a stream is followed by the write of its id. -/
def call (p : WiredServer α) : WiredCall α → Option (WiredServer α)
  | .wire event => some (p.write (.frame event))
  | .notify streamId isLocal => some (p.sendUnwired (some (.drop streamId isLocal false)))
  | .connect =>
      match p.wired.connect with
      | some (streamId, wired) =>
          some ({ p with wired := wired, calls := .offer streamId :: p.calls }.sendUnwired
            (some (.registerStream streamId true)))
      | none => none
  | .offer streamId =>
      some { p.write (.stream streamId) with held := insert (streamId, true) p.held }

/-- The loop body of `Unwired::run`, and `Unwired::connect` up to its second send.
If `Wired` does not take the receiver of the write half, it is gone. -/
def receive (p : WiredServer α) : Token α → WiredServer α
  | .frame (.event _) => p
  | .frame (.message streamId isLocal message) =>
      p.sendUnwired (some (.message streamId isLocal message))
  | .frame (.drop streamId isLocal) => p.sendUnwired (some (.drop streamId isLocal true))
  | .stream streamId =>
      { p.sendWired (some (.registerWriteHalf streamId)) with
        connecting := some streamId
        wired := if p.wClosed then
            { p.wired with removed := insert (streamId, false) p.wired.removed }
          else p.wired }

/-- The loop body of `helper_task`. -/
def help (p : WiredServer α) : UnwiredEvent → WiredServer α
  | .message streamId isLocal message =>
      let key := (streamId, isLocal)
      if key ∈ p.streams ∧ key ∉ p.readDropped then
        { p with handed := Function.update p.handed key (p.handed key ++ [message]) }
      else p
  | .registerStream streamId isLocal =>
      { p with streams := insert (streamId, isLocal) p.streams }
  | .drop streamId isLocal broadcastToWire =>
      let key := (streamId, isLocal)
      if key ∈ p.streams then
        let p := { p with streams := p.streams.erase key, dropped := insert key p.dropped }
        if broadcastToWire then p.sendWired (some (.drop streamId isLocal false)) else p
      else p

/-- A step of the server `x`; `y` is the other one. -/
def step (x y : WiredServer α) : ServerAction α → Option (WiredServer α × WiredServer α)
  | .send event =>
      if x.wClosed then none else some (x.sendWired (event.map .event), y)
  | .flush key message =>
      if key ∈ x.held ∧ key ∉ x.writeDropped ∧ x.flushing key = none ∧
          key ∉ x.wired.removed then
        some ({ x with
          wired := { x.wired with
            buf := Function.update x.wired.buf key (x.wired.buf key ++ [message]) }
          flushing := Function.update x.flushing key (some message) }, y)
      else none
  | .flushEvent key =>
      match x.flushing key with
      | some message =>
          let x := { x with flushing := Function.update x.flushing key none }
          if x.wClosed then some (x, y)
          else some ({ x.sendWired (some (.message key.1 key.2)) with
            flushed := Function.update x.flushed key (x.flushed key ++ [message]) }, y)
      | none => none
  | .dropRead key =>
      if key ∈ x.held ∧ key ∉ x.readDropped then
        some ({ x.sendDrop key with readDropped := insert key x.readDropped }, y)
      else none
  | .dropWrite key =>
      if key ∈ x.held ∧ key ∉ x.writeDropped ∧ x.flushing key = none then
        some ({ x.sendDrop key with writeDropped := insert key x.writeDropped }, y)
      else none
  | .shutdownWrite key =>
      if key ∈ x.held ∧ key ∉ x.writeDropped ∧ x.flushing key = none then
        some (x.sendDrop key, y)
      else none
  | .wiredRecv connects =>
      match x.calls, x.wRx with
      | [], none :: wRx => some ({ x with wRx := wRx, wClosed := true }, y)
      | [], some event :: wRx =>
          let (wired, calls) := x.wired.handle connects event
          some ({ x with wRx := wRx, wired := wired, calls := calls }, y)
      | _, _ => none
  | .wiredCall =>
      match x.calls with
      | c :: calls => ({ x with calls := calls }.call c).map (·, y)
      | [] => none
  | .wiredEnd =>
      if x.calls = [] ∧ x.wRx = [] ∧ x.wClosed ∧ ¬ x.wiredDone then
        some ({ x with
          wiredDone := true
          wired := { x.wired with
            streams := ∅
            removed := x.wired.removed ∪ x.wired.streams } }, y)
      else none
  | .unwiredRead =>
      match x.connecting, x.unwiredDone, y.wire with
      | none, false, token :: wire => some (x.receive token, { y with wire := wire })
      | _, _, _ => none
  | .unwiredConnected =>
      match x.connecting with
      | some streamId =>
          some ({ x.sendUnwired (some (.registerStream streamId false)) with
            connecting := none
            held := insert (streamId, false) x.held }, y)
      | none => none
  | .unwiredEof =>
      if x.connecting = none ∧ ¬ x.unwiredDone ∧ y.wire = [] ∧ y.wiredDone then
        some ({ x.sendUnwired none with unwiredDone := true }, y)
      else none
  | .unwiredEnd =>
      if x.unwiredDone ∧ x.helperDone ∧ ¬ x.finished then
        some ({ x.sendWired none with finished := true }, y)
      else none
  | .helperRecv =>
      match x.uRx with
      | none :: uRx => some ({ x with uRx := uRx, uClosed := true }, y)
      | some event :: uRx => some ({ x with uRx := uRx }.help event, y)
      | [] => none
  | .helperEnd =>
      if x.uRx = [] ∧ x.uClosed ∧ ¬ x.helperDone then
        some ({ x with
          helperDone := true
          streams := ∅
          dropped := x.dropped ∪ x.streams }, y)
      else none

end WiredServer

/-- The servers of two peers. -/
def serverMachine (α : Type) :
    Machine (WiredServer α × WiredServer α) (Bool × ServerAction α) :=
  .duo {} WiredServer.step

end WiringRs
