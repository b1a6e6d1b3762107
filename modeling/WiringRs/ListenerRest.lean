import WiringRs.Incoming
import WiringRs.Lib.Rest

/-!
# The listener at rest

What the listener's own tasks do when nobody sends it anything: the loop of
`WireListener::run` empties its queue, and the tasks that wait for a receiver to be
dropped report it. They come to rest, and the registry then holds no entry whose receiver
has been dropped. On the way every request is answered once, and every wire has one owner.
-/

namespace WiringRs

/-- The loop and the tasks that it has spawned take this action. -/
def ListenerAction.OfTask {U : UrlCrate} : ListenerAction U → Prop
  | .recv _ | .signal .. => True
  | _ => False

namespace WireListenerEvent

variable {U : UrlCrate}

/-- The reply channel that the event comes with. -/
def reply : WireListenerEvent U → Option Nat
  | .incomingWire _ _ _ reply => reply
  | .outgoingWire _ _ reply => some reply
  | .dropWire _ | .shutdown => none

/-- The event, the task that it spawns and the drop which that task reports. -/
def cost : WireListenerEvent U → Nat
  | .incomingWire .. | .outgoingWire .. => 4
  | .dropWire _ | .shutdown => 1

end WireListenerEvent

namespace WireListener

variable {U : UrlCrate} {l l' : WireListener U} {turn : Turn}

/-! ## What handling an event leaves alone -/

/-- An answer to `reply`, with which the wire that was made may be delivered. -/
structure Answered (turn : Turn) (reply : Option Nat) (made : Option (WireStream U))
    (l l' : WireListener U) : Prop where
  inbox : l'.inbox = l.inbox
  signals : l'.signals = l.signals
  closed : l.closed = true → l'.closed = true
  replies : l'.replies.map Prod.fst =
    l.replies.map Prod.fst ++ if turn.waiting then reply.toList else []
  delivered : l'.delivered = l.delivered ∨
    ∃ wire, made = some wire ∧ l'.delivered = wire :: l.delivered
  owned : ∀ reply wire, (reply, .ok (some wire)) ∈ l'.replies →
    (reply, .ok (some wire)) ∈ l.replies ∨ wire ∈ l'.delivered

theorem Answered.refl {reply : Option Nat} {made : Option (WireStream U)}
    (h : turn.waiting = false ∨ reply = none) : Answered turn reply made l l where
  inbox := rfl
  signals := rfl
  closed := id
  replies := by rcases h with h | h <;> simp [h]
  delivered := Or.inl rfl
  owned _ _ := Or.inl

theorem answer_answered (l : WireListener U) (turn : Turn) (reply : Nat)
    (made : Option (WireStream U)) {r : Except IoError (Option (WireStream U))}
    (hr : ∀ wire, r = .ok (some wire) → made = some wire) :
    Answered turn (some reply) made l (l.answer turn reply r) := by
  cases hwaiting : turn.waiting with
  | false =>
      rw [answer, hwaiting]
      exact .refl (Or.inl hwaiting)
  | true =>
      rw [answer, hwaiting]
      rcases r with e | _ | wire
      · exact ⟨rfl, rfl, id, by simp [hwaiting], Or.inl rfl, by simp_all⟩
      · exact ⟨rfl, rfl, id, by simp [hwaiting], Or.inl rfl, by simp_all⟩
      · refine ⟨rfl, rfl, id, by simp [hwaiting, deliver], Or.inr ⟨wire, hr wire rfl, rfl⟩,
          ?_⟩
        intro reply' wire' hmem
        rcases List.mem_append.mp hmem with hmem | hmem
        · exact Or.inl hmem
        · cases List.mem_singleton.mp hmem
          exact Or.inr List.mem_cons_self

/-- An answer without a wire. -/
theorem answerOpt_answered (l : WireListener U) (turn : Turn) (reply : Option Nat)
    {r : Except IoError (Option (WireStream U))} (hr : ∀ wire, r ≠ .ok (some wire)) :
    Answered turn reply none l (l.answerOpt turn reply r) := by
  cases reply with
  | none => exact .refl (Or.inr rfl)
  | some reply => exact answer_answered l turn reply none fun wire h => absurd h (hr wire)

theorem Answered.delivered_eq {reply : Option Nat} (h : Answered turn reply none l l') :
    l'.delivered = l.delivered := by
  simpa using h.delivered

theorem forward_answered (l : WireListener U) (turn : Turn) (wire : WireStream U)
    (forwardInfo : ForwardInfo) (reply : Option Nat) :
    Answered turn reply (some wire) l (l.forward turn wire forwardInfo reply) := by
  rcases hlookup : l.lookup forwardInfo with e | sender
  · rw [forward_error hlookup]
    have h := answerOpt_answered l turn reply (r := .error e) (by simp)
    exact { h with delivered := Or.inl h.delivered_eq }
  · rw [forward_ok hlookup]
    have h := answerOpt_answered (l.deliver wire) turn reply (r := .ok none) (by simp)
    exact ⟨h.inbox, h.signals, h.closed, h.replies, Or.inr ⟨wire, rfl, h.delivered_eq⟩,
      h.owned⟩

theorem register_answered (l : WireListener U) (turn : Turn) (wire : WireStream U)
    (reply : Option Nat) :
    Answered turn reply (some wire) l (l.register turn wire reply) := by
  cases reply with
  | some reply =>
      have h := answer_answered (l.insert wire) turn reply (some wire)
        (r := .ok (some wire)) (by simp)
      exact ⟨h.inbox, h.signals, h.closed, h.replies, h.delivered, h.owned⟩
  | none =>
      rw [register]
      split
      · exact ⟨rfl, rfl, id, by simp [deliver, insert], Or.inr ⟨wire, rfl, rfl⟩,
          fun _ _ => Or.inl⟩
      · exact ⟨rfl, rfl, fun _ => rfl, by simp [deliver, insert], Or.inr ⟨wire, rfl, rfl⟩,
          fun _ _ => Or.inl⟩

/-- What an event does to the queue, the tasks, the replies and the owners. -/
structure Handled (turn : Turn) (event : WireListenerEvent U) (l l' : WireListener U) :
    Prop where
  inbox : l'.inbox = l.inbox
  signals : l'.signals = (l.make turn event).toList.map
    (fun wire => (wire.incoming, wire.wireInfo.wireId)) ++ l.signals
  closed : l.closed = true → l'.closed = true
  replies : l'.replies.map Prod.fst =
    l.replies.map Prod.fst ++ if turn.waiting then event.reply.toList else []
  delivered : l'.delivered = l.delivered ∨
    ∃ wire, l.make turn event = some wire ∧ l'.delivered = wire :: l.delivered
  owned : ∀ reply wire, (reply, .ok (some wire)) ∈ l'.replies →
    (reply, .ok (some wire)) ∈ l.replies ∨ wire ∈ l'.delivered

theorem handle_handled {event : WireListenerEvent U} (hs : handle turn l event = some l') :
    Handled turn event l l' := by
  cases event with
  | outgoingWire stream forwardInfo reply =>
      rcases handle_outgoingWire_cases hs with ⟨e, -, hmake, rfl⟩ |
        ⟨wire, hmake, -, -, -, rfl⟩
      · have h := answer_answered l turn reply none (r := .error e) (by simp)
        exact ⟨h.inbox, by rw [hmake]; exact h.signals, h.closed, h.replies,
          Or.inl h.delivered_eq, h.owned⟩
      · have h := answer_answered
          (signalDrop (insert { l with channels := l.channels + 1 } wire) wire) turn reply
          (some wire) (r := .ok (some wire)) (by simp)
        exact ⟨h.inbox, by rw [hmake]; exact h.signals, h.closed, h.replies,
          hmake ▸ h.delivered, h.owned⟩
  | incomingWire stream remoteInfo forwardInfo reply =>
      obtain ⟨wire, hmake, -, -, -, hs⟩ := handle_incomingWire_cases hs
      have hkept {k : WireListener U} (h : Answered turn reply (some wire)
          { l with channels := l.channels + 1 } k) :
          Handled turn (.incomingWire stream remoteInfo forwardInfo reply) l
            (k.signalDrop wire) := by
        refine ⟨h.inbox, ?_, h.closed, h.replies, hmake ▸ h.delivered, h.owned⟩
        rw [hmake]
        exact congrArg ((wire.incoming, wire.wireInfo.wireId) :: ·) h.signals
      rcases hs with ⟨target, -, rfl⟩ | ⟨-, rfl⟩
      · exact hkept (forward_answered ..)
      · exact hkept (register_answered ..)
  | dropWire wireId =>
      cases hs
      exact ⟨rfl, rfl, id, by simp [WireListenerEvent.reply], Or.inl rfl, fun _ _ => Or.inl⟩
  | shutdown =>
      cases hs
      exact ⟨rfl, rfl, fun _ => rfl, by simp [WireListenerEvent.reply], Or.inl rfl,
        fun _ _ => Or.inl⟩

/-! ## The tasks come to rest -/

/-- What the tasks have left to do. -/
def left (l : WireListener U) : Nat :=
  (l.inbox.map WireListenerEvent.cost).sum + 2 * l.signals.length

theorem make_cost (l : WireListener U) (turn : Turn) (event : WireListenerEvent U) :
    2 * (l.make turn event).toList.length < event.cost := by
  cases event with
  | outgoingWire | incomingWire =>
      have hle : ∀ made : Option (WireStream U), made.toList.length ≤ 1 := by
        intro made
        cases made <;> simp
      exact Nat.lt_of_le_of_lt (Nat.mul_le_mul_left 2 (hle _))
        (by simp [WireListenerEvent.cost])
  | dropWire | shutdown => exact Nat.one_pos

theorem left_lt {a : ListenerAction U} (ha : a.OfTask) (hs : l.step a = some l') :
    l'.left < l.left := by
  cases a with
  | send | close => exact ha.elim
  | recv turn =>
      rcases hinbox : l.inbox with _ | ⟨event, inbox⟩
      · simp [step, hinbox] at hs
      · simp only [step, hinbox] at hs
        have h := handle_handled hs
        have hcost := make_cost { l with inbox := inbox } turn event
        have hrest : l'.inbox = inbox := h.inbox
        have hsignals : l'.signals.length =
            (make { l with inbox := inbox } turn event).toList.length + l.signals.length := by
          rw [h.signals, List.length_append, List.length_map]
        rw [left, left, hrest, hsignals, hinbox, List.map_cons, List.sum_cons]
        omega
  | signal incoming wireId =>
      simp only [step, Option.ite_none_right_eq_some, Option.some.injEq] at hs
      obtain ⟨⟨hmem, -⟩, rfl⟩ := hs
      have hlen := List.length_erase_of_mem hmem
      have hpos := List.length_pos_of_mem hmem
      simp only [left, hlen]
      split
      · omega
      · rw [List.map_append, List.sum_append]
        simp only [List.map_cons, List.map_nil, List.sum_singleton, WireListenerEvent.cost]
        omega

/-- An entry goes when its receiver is dropped: a task waits for that, or has reported it. -/
def Watched (l : WireListener U) : Prop :=
  ∀ wireId key sender, l.wires wireId = some (key, sender) →
    (sender, wireId) ∈ l.signals ∨ .dropWire wireId ∈ l.inbox ∨ l.closed = true

theorem Watched.handle {event : WireListenerEvent U} {inbox : List (WireListenerEvent U)}
    (h : l.Watched) (hinbox : l.inbox = event :: inbox)
    (hs : handle turn { l with inbox := inbox } event = some l') : l'.Watched := by
  have hh := handle_handled hs
  -- what is watched still is, unless the event is its drop
  have hold : ∀ wireId key sender, l.wires wireId = some (key, sender) →
      event ≠ .dropWire wireId →
      (sender, wireId) ∈ l'.signals ∨ .dropWire wireId ∈ l'.inbox ∨ l'.closed = true := by
    intro wireId key sender hentry hevent
    rcases h wireId key sender hentry with hsignal | hdrop | hclosed
    · exact Or.inl (hh.signals ▸ List.mem_append_right _ hsignal)
    · rw [hinbox, List.mem_cons] at hdrop
      refine Or.inr (Or.inl (hh.inbox ▸ ?_))
      exact hdrop.resolve_left fun heq => hevent heq.symm
    · exact Or.inr (Or.inr (hh.closed hclosed))
  intro wireId key sender hentry
  rcases hmake : make { l with inbox := inbox } turn event with _ | wire
  · obtain ⟨-, hwires⟩ := handle_make_none hmake hs
    refine hold wireId key sender (hwires wireId _ hentry) ?_
    rintro rfl
    cases hs
    cases (Function.update_self ..).symm.trans hentry
  · obtain ⟨-, -, hwires⟩ := handle_make_some hmake hs
    rcases hwires wireId _ hentry with hentry | ⟨rfl, heq⟩
    · refine hold wireId key sender hentry ?_
      rintro rfl
      cases hmake
    · cases heq
      rw [hh.signals, hmake]
      exact Or.inl List.mem_cons_self

theorem Watched.step {a : ListenerAction U} (h : l.Watched) (hs : l.step a = some l') :
    l'.Watched := by
  cases a with
  | send event =>
      have hl' : l' = { l with inbox := l.inbox ++ [event] } := by
        cases event <;> simp_all [WireListener.step]
      subst hl'
      intro wireId key sender hentry
      exact (h wireId key sender hentry).imp_right (Or.imp_left (List.mem_append_left _))
  | recv turn =>
      rcases hinbox : l.inbox with _ | ⟨event, inbox⟩
      · simp [WireListener.step, hinbox] at hs
      · simp only [WireListener.step, hinbox] at hs
        exact h.handle hinbox hs
  | close incoming =>
      simp only [WireListener.step, Option.ite_none_right_eq_some, Option.some.injEq] at hs
      obtain ⟨-, rfl⟩ := hs
      exact h
  | signal incoming id =>
      simp only [WireListener.step, Option.ite_none_right_eq_some, Option.some.injEq] at hs
      obtain ⟨-, rfl⟩ := hs
      intro wireId key sender hentry
      rcases h wireId key sender hentry with hsignal | hdrop | hclosed
      · by_cases heq : (sender, wireId) = (incoming, id)
        · cases heq
          cases hclosed : l.closed with
          | true => exact Or.inr (Or.inr rfl)
          | false => exact Or.inr (Or.inl (by simp))
        · exact Or.inl ((List.mem_erase_of_ne heq).mpr hsignal)
      · refine Or.inr (Or.inl ?_)
        dsimp only
        split
        · exact hdrop
        · exact List.mem_append_left _ hdrop
      · exact Or.inr (Or.inr hclosed)

/-- With an id that is not taken the loop can handle any event. -/
theorem recv_some {wireId : WireId} (hfree : l.wires wireId = none) (hinbox : l.inbox ≠ []) :
    ∃ turn l', l.step (.recv turn) = some l' := by
  refine ⟨{ draws := [wireId], accessKey := .ofNat 0 }, ?_⟩
  rcases hl : l.inbox with _ | ⟨event, inbox⟩
  · exact absurd hl hinbox
  · have hdraw : drawId { l with inbox := inbox } [wireId] = some wireId := by
      simp [drawId, hfree]
    cases event <;> simp [WireListener.step, hl, WireListener.handle, hdraw, write]

end WireListener

/-- **The registry does not leak.** The loop of the listener and the tasks that wait for a
receiver to be dropped cannot go on forever while nothing is sent and nothing dropped.
Where they have come to rest the queue is empty (unless every id is taken), and while the
listener has not been shut down every entry of the registry is that of a wire whose
receiver is alive. -/
theorem registry_settles {U : UrlCrate} (c : ConnectInfo U) :
    (listenerMachine c).Settles ListenerAction.OfTask ∧
      ∀ l, (listenerMachine c).Reachable l →
        (listenerMachine c).AtRest ListenerAction.OfTask l →
        (∀ wireId, l.wires wireId ≠ none) ∨ l.inbox = [] ∧
          (l.closed = false → ∀ wireId key sender,
            l.wires wireId = some (key, sender) → sender ∈ l.alive) := by
  refine ⟨Machine.settles_of_measure WireListener.left fun l a l' ha hs =>
    WireListener.left_lt ha hs, fun l hreach hrest => ?_⟩
  have hwatched : l.Watched := hreach.invariant nofun fun _ _ _ h _ hs => h.step hs
  by_cases hfree : ∃ wireId, l.wires wireId = none
  · obtain ⟨free, hfree⟩ := hfree
    have hinbox : l.inbox = [] := by
      by_contra hne
      obtain ⟨turn, l', hs⟩ := WireListener.recv_some hfree hne
      cases (hrest (.recv turn) trivial).symm.trans hs
    refine Or.inr ⟨hinbox, fun hopen wireId key sender hentry => ?_⟩
    rcases hwatched wireId key sender hentry with hsignal | hdrop | hclosed
    · by_contra hdead
      have hnone := hrest (.signal sender wireId) trivial
      simp [listenerMachine, WireListener.step, hsignal, hdead] at hnone
    · rw [hinbox] at hdrop
      cases hdrop
    · cases hopen.symm.trans hclosed
  · exact Or.inl fun wireId hnone => hfree ⟨wireId, hnone⟩

/-! ## Requests and owners -/

/-- The listener beside the record of its requests. -/
structure Requests (U : UrlCrate) where
  listener : WireListener U
  /-- The reply channels that have been sent, in order. -/
  asked : List Nat := []
  /-- Those of the events that the loop has handled, and whether they were waited for. -/
  handled : List (Nat × Bool) := []

namespace Requests

variable {U : UrlCrate}

def step (s : Requests U) (a : ListenerAction U) : Option (Requests U) := do
  let listener ← s.listener.step a
  match a, s.listener.inbox with
  | .send event, _ =>
      some { s with listener := listener, asked := s.asked ++ event.reply.toList }
  | .recv turn, event :: _ =>
      let handled := event.reply.toList.map fun reply => (reply, turn.waiting)
      some { s with listener := listener, handled := s.handled ++ handled }
  | _, _ => some { s with listener := listener }

end Requests

def requests {U : UrlCrate} (connectInfo : ConnectInfo U) :
    Machine (Requests U) (ListenerAction U) :=
  ⟨{ listener := { connectInfo := connectInfo } }, Requests.step⟩

namespace Requests

variable {U : UrlCrate} {s s' : Requests U}

/-- A request is in the queue until it is handled, and answered then; a wire that is made
gets a channel that no wire had before. -/
structure Inv (s : Requests U) : Prop where
  asked : s.asked =
    s.handled.map Prod.fst ++ s.listener.inbox.filterMap WireListenerEvent.reply
  replies : s.listener.replies.map Prod.fst = (s.handled.filter Prod.snd).map Prod.fst
  known : ∀ wire ∈ s.listener.delivered, wire.incoming < s.listener.channels
  owners : (s.listener.delivered.map WireStream.incoming).Nodup
  owned : ∀ reply wire, (reply, .ok (some wire)) ∈ s.listener.replies →
    wire ∈ s.listener.delivered

theorem Inv.handle (h : s.Inv) {turn : Turn} {event : WireListenerEvent U}
    {inbox : List (WireListenerEvent U)} {l : WireListener U}
    (hinbox : s.listener.inbox = event :: inbox)
    (hl : WireListener.handle turn { s.listener with inbox := inbox } event = some l) :
    Inv { s with
      listener := l
      handled := s.handled ++ event.reply.toList.map fun reply => (reply, turn.waiting) } := by
  have hh := WireListener.handle_handled hl
  have hasked := h.asked
  rw [hinbox, List.filterMap_cons] at hasked
  -- a wire is delivered when it is made, if ever
  have hdelivered : l.delivered = s.listener.delivered ∧ s.listener.channels ≤ l.channels ∨
      ∃ wire, wire.incoming = s.listener.channels ∧
        l.delivered = wire :: s.listener.delivered ∧
        l.channels = s.listener.channels + 1 := by
    rcases hmake : WireListener.make { s.listener with inbox := inbox } turn event with
      _ | wire
    · obtain ⟨hchannels, -⟩ := WireListener.handle_make_none hmake hl
      rcases hh.delivered with heq | ⟨wire, hwire, -⟩
      · exact Or.inl ⟨heq, hchannels.ge⟩
      · cases hmake.symm.trans hwire
    · obtain ⟨hincoming, hchannels, -⟩ := WireListener.handle_make_some hmake hl
      rcases hh.delivered with heq | ⟨w, hw, heq⟩
      · exact Or.inl ⟨heq, hchannels ▸ Nat.le_succ _⟩
      · cases hmake.symm.trans hw
        exact Or.inr ⟨wire, hincoming, heq, hchannels⟩
  constructor
  · dsimp only
    rw [hh.inbox, hasked, List.map_append, List.append_assoc]
    cases event.reply <;> simp
  · dsimp only
    rw [hh.replies, h.replies, List.filter_append, List.map_append]
    cases event.reply <;> cases turn.waiting <;> simp
  · rcases hdelivered with ⟨heq, hchannels⟩ | ⟨wire, hincoming, heq, hchannels⟩
    · rw [heq]
      exact fun w hw => Nat.lt_of_lt_of_le (h.known w hw) hchannels
    · rw [heq, hchannels]
      intro w hw
      rcases List.mem_cons.mp hw with rfl | hw
      · exact hincoming ▸ Nat.lt_succ_self _
      · exact Nat.lt_succ_of_lt (h.known w hw)
  · rcases hdelivered with ⟨heq, -⟩ | ⟨wire, hincoming, heq, -⟩
    · rw [heq]
      exact h.owners
    · rw [heq, List.map_cons, List.nodup_cons]
      refine ⟨fun hmem => ?_, h.owners⟩
      obtain ⟨w, hw, hsame⟩ := List.mem_map.mp hmem
      exact Nat.ne_of_lt (h.known w hw) (hsame.trans hincoming)
  · intro reply wire hmem
    rcases hh.owned reply wire hmem with hmem | hmem
    · rcases hdelivered with ⟨heq, -⟩ | ⟨w, -, heq, -⟩
      · exact heq ▸ h.owned reply wire hmem
      · exact heq ▸ List.mem_cons_of_mem _ (h.owned reply wire hmem)
    · exact hmem

theorem step_inv {a : ListenerAction U} (h : s.Inv) (hs : s.step a = some s') : s'.Inv := by
  obtain ⟨l, hl, hs⟩ := Option.bind_eq_some_iff.mp hs
  cases a with
  | send event =>
      cases hs
      have hl' : l = { s.listener with inbox := s.listener.inbox ++ [event] } := by
        cases event <;> simp_all [WireListener.step]
      subst hl'
      refine ⟨?_, h.replies, h.known, h.owners, h.owned⟩
      dsimp only
      rw [h.asked, List.filterMap_append, List.append_assoc]
      cases hreply : event.reply <;> simp [hreply]
  | recv turn =>
      rcases hinbox : s.listener.inbox with _ | ⟨event, inbox⟩
      · simp [WireListener.step, hinbox] at hl
      · simp only [WireListener.step, hinbox] at hl
        simp only [hinbox, Option.some.injEq] at hs
        subst hs
        exact h.handle hinbox hl
  | close incoming =>
      simp only [WireListener.step, Option.ite_none_right_eq_some, Option.some.injEq] at hl
      obtain ⟨-, rfl⟩ := hl
      cases hs
      exact ⟨h.asked, h.replies, h.known, h.owners, h.owned⟩
  | signal incoming wireId =>
      simp only [WireListener.step, Option.ite_none_right_eq_some, Option.some.injEq] at hl
      obtain ⟨-, rfl⟩ := hl
      cases hs
      refine ⟨?_, h.replies, h.known, h.owners, h.owned⟩
      rw [h.asked]
      dsimp only
      split <;> simp [WireListenerEvent.reply]

end Requests

/-- **Every request is answered once.** The requests that the loop has handled and those
still in its queue are, in order, the requests that were sent, and it has answered, in
order and once each, the handled ones that were still waited for. A wire that is an answer
is delivered, and no two wires that are delivered, as an answer or otherwise, have the same
channel: a wire has one owner. -/
theorem requests_answered {U : UrlCrate} {c : ConnectInfo U} {s : Requests U}
    (h : (requests c).Reachable s) :
    s.asked = s.handled.map Prod.fst ++ s.listener.inbox.filterMap WireListenerEvent.reply ∧
    s.listener.replies.map Prod.fst = (s.handled.filter Prod.snd).map Prod.fst ∧
    (∀ reply wire, (reply, .ok (some wire)) ∈ s.listener.replies →
      wire ∈ s.listener.delivered) ∧
    (s.listener.delivered.map WireStream.incoming).Nodup := by
  have hinv : s.Inv := h.invariant
    (I := Requests.Inv) ⟨rfl, rfl, by simp [requests], List.nodup_nil, by simp [requests]⟩
    fun _ _ _ h _ hs => Requests.step_inv h hs
  exact ⟨hinv.asked, hinv.replies, hinv.owned, hinv.owners⟩

/-- Two requests are handled, the second one by forwarding its wire, and a third one is in
the queue. -/
def askedThree : Requests noUrls :=
  (requests listening).run [comes none (some 5), comes (some (.ofNat 1, .ofNat 7)) (some 6),
    comes none (some 8), taken 1, taken 2]

theorem requests_answered_three :
    askedThree.asked = [5, 6, 8] ∧ askedThree.handled = [(5, true), (6, true)] ∧
      askedThree.listener.replies.map Prod.fst
        = (askedThree.handled.filter Prod.snd).map Prod.fst :=
  ⟨rfl, rfl, (requests_answered (Machine.reachableBy_run fun _ _ _ => trivial)).2.1⟩

end WiringRs
