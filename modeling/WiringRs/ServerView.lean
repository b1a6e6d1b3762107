import WiringRs.Stream
import WiringRs.WiredServer

/-!
# A server's end of a stream

What a server knows of one stream is a `StreamEnd`: the entries of its maps under
the stream's key, and those items of its queues, calls and connection that concern
the key.
-/

namespace WiringRs

variable {α : Type}

/-- The items of the queue of `Wired`. -/
def WiredEvent.item (key : StreamKey) : Option (WiredEvent α) → Option (Item Unit)
  | some (.registerWriteHalf streamId) =>
      if (streamId, false) = key then some .register else none
  | some (.message streamId isLocal) =>
      if (streamId, isLocal) = key then some (.message ()) else none
  | some (.drop streamId isLocal broadcastToRemote) =>
      if (streamId, isLocal) = key then some (.drop broadcastToRemote) else none
  | some (.event _) | none => none

/-- The items of the helper's queue. -/
def UnwiredEvent.item (key : StreamKey) : Option UnwiredEvent → Option (Item Message)
  | some (.registerStream streamId isLocal) =>
      if (streamId, isLocal) = key then some .register else none
  | some (.message streamId isLocal m) =>
      if (streamId, isLocal) = key then some (.message m) else none
  | some (.drop streamId isLocal broadcastToWire) =>
      if (streamId, isLocal) = key then some (.drop broadcastToWire) else none
  | none => none

/-- The items of the connection, under the key of the end that writes them: what is
local there is remote in the frame. -/
def Token.item (key : StreamKey) : Token α → Option (Item Message)
  | .frame (.message streamId isLocal message) =>
      if (streamId, !isLocal) = key then some (.message message) else none
  | .frame (.drop streamId isLocal) =>
      if (streamId, !isLocal) = key then some (.drop true) else none
  | .frame (.event _) => none
  | .stream streamId => if (streamId, true) = key then some .register else none

def WiredCall.item (key : StreamKey) : WiredCall α → Option (Item Message)
  | .wire event => Token.item key (.frame event)
  | .notify streamId isLocal =>
      if (streamId, isLocal) = key then some (.drop false) else none
  | .connect => none
  | .offer streamId => Token.item (α := α) key (.stream streamId)

/-- The stream `key` in a map, where `gone` are the keys no longer in it. -/
def lifeIn (live gone : Finset StreamKey) (key : StreamKey) : Life :=
  if key ∈ live then .live else if key ∈ gone then .dead else .unregistered

/-- The drops of the stream among what has been written. -/
def dropsOf (key : StreamKey) (written : List (Token α)) : Nat :=
  ((written.filterMap (Token.item key)).filter Item.isDrop).length

section

variable {live gone : Finset StreamKey} {key k : StreamKey}

@[simp] theorem lifeIn_insert_live : lifeIn (insert key live) gone key = .live := by
  simp [lifeIn]

theorem lifeIn_insert_live_of_ne (h : key ≠ k) :
    lifeIn (insert k live) gone key = lifeIn live gone key := by
  simp [lifeIn, h]

theorem lifeIn_insert_gone_of_ne (h : key ≠ k) :
    lifeIn live (insert k gone) key = lifeIn live gone key := by
  simp [lifeIn, h]

theorem lifeIn_insert_gone :
    lifeIn live (insert key gone) key = (lifeIn live gone key).refuse := by
  by_cases hl : key ∈ live <;> by_cases hg : key ∈ gone <;> simp [lifeIn, hl, hg, Life.refuse]

@[simp] theorem lifeIn_erase : lifeIn (live.erase key) (insert key gone) key = .dead := by
  simp [lifeIn]

theorem lifeIn_erase_of_ne (h : key ≠ k) :
    lifeIn (live.erase k) (insert k gone) key = lifeIn live gone key := by
  simp [lifeIn, h]

theorem lifeIn_drop : lifeIn ∅ (gone ∪ live) key = (lifeIn live gone key).drop := by
  by_cases hl : key ∈ live <;> by_cases hg : key ∈ gone <;> simp [lifeIn, hl, hg, Life.drop]

theorem lifeIn_eq_live : lifeIn live gone key = .live ↔ key ∈ live := by
  by_cases hl : key ∈ live <;> by_cases hg : key ∈ gone <;> simp [lifeIn, hl, hg]

theorem lifeIn_ne_dead (h : key ∉ gone) : lifeIn live gone key ≠ .dead := by
  by_cases hl : key ∈ live <;> simp [lifeIn, hl, h]

end

namespace WiredServer

/-- A stream this server opens exists when its id has been drawn, one it accepts
when the user has it. -/
def knows (p : WiredServer α) (key : StreamKey) : Bool :=
  if key.2 then decide (0 < key.1.toNat ∧ key.1.toNat ≤ p.wired.streamId)
  else decide (key ∈ p.held)

def view (key : StreamKey) (p : WiredServer α) : StreamEnd Message where
  opener := key.2
  known := p.knows key
  wired := lifeIn p.wired.streams p.wired.removed key
  queue := p.wRx.filterMap (WiredEvent.item key)
  queueClosed := p.wClosed
  buf := p.wired.buf key
  todo := p.calls.filterMap (WiredCall.item key)
  out := p.wire.filterMap (Token.item key)
  pending := decide (p.connecting = some key.1 ∧ key.2 = false)
  helper := lifeIn p.streams p.dropped key
  inbox := p.uRx.filterMap (UnwiredEvent.item key)
  inboxClosed := p.uClosed
  held := decide (key ∈ p.held)
  flushing := p.flushing key
  readDropped := decide (key ∈ p.readDropped)
  closed := decide (key ∈ p.closed)
  flushed := p.flushed key
  handed := p.handed key
  drops := dropsOf key p.written

section

variable {key : StreamKey} {p : WiredServer α}

theorem view_sendWired_none {event : Option (WiredEvent α)}
    (h : WiredEvent.item key event = none) : view key (p.sendWired event) = view key p := by
  simp only [view, sendWired, filterMap_trySend_none h]
  rfl

theorem view_sendUnwired_none {event : Option UnwiredEvent}
    (h : UnwiredEvent.item key event = none) :
    view key (p.sendUnwired event) = view key p := by
  simp only [view, sendUnwired, filterMap_trySend_none h]
  rfl

theorem view_sendUnwired_some {event : Option UnwiredEvent} {item : Item Message}
    (h : UnwiredEvent.item key event = some item) :
    view key (p.sendUnwired event) = { view key p with
      inbox := trySend (view key p).inboxClosed (view key p).inbox item } := by
  simp only [view, sendUnwired, filterMap_trySend_some h]
  rfl

theorem view_write_none {token : Token α} (h : Token.item key token = none) :
    view key (p.write token) = view key p := by
  simp only [view, write, dropsOf, List.filterMap_append, List.filterMap_cons, h,
    List.filterMap_nil, List.append_nil]
  rfl

theorem view_write_some {token : Token α} {item : Item Message}
    (h : Token.item key token = some item) :
    view key (p.write token) = { view key p with
      out := (view key p).out ++ [item]
      drops := if item.isDrop then (view key p).drops + 1 else (view key p).drops } := by
  have hdrops : dropsOf key (p.written ++ [token])
      = if item.isDrop then dropsOf key p.written + 1 else dropsOf key p.written := by
    cases hdrop : item.isDrop <;> simp [dropsOf, h, hdrop]
  simp only [view, write, hdrops, List.filterMap_append, List.filterMap_cons, h,
    List.filterMap_nil]
  rfl

theorem view_held_of_ne {k : StreamKey} (h : key ≠ k) :
    view key { p with held := insert k p.held } = view key p := by
  simp only [view, knows, Finset.mem_insert, h, false_or]

theorem view_held_local {i : WireId} :
    view (i, true) { p with held := insert (i, true) p.held } =
      { view (i, true) p with held := true } := by
  simp only [view, knows, Finset.mem_insert_self, decide_true, if_true]

end

end WiredServer

end WiringRs
