import Mathlib.Data.Prod.Lex
import Mathlib.Order.Lattice.Nat
import WiringRs.Lib.Rest
import WiringRs.Peers

/-!
# Two servers come to rest

When the users of two peers send nothing, open nothing and drop nothing, the tasks of
the servers come to rest: the work left is the events queued, the calls `Wired` is
still to make and what is on the connection, each weighed by what it leads to. Only
an event whose encoder opens streams can lead to more than its weight, and these are
counted apart.

At rest nothing is queued or on its way, unless a peer has no stream id left. Once one
of the users has asked for a shutdown, at rest every task of both peers has ended.
-/

namespace WiringRs

/-- What the tasks do, and not the users of the server. -/
def ServerAction.Internal {α : Type} : ServerAction α → Prop
  | .send _ | .flush .. | .flushEvent _ | .dropRead _ | .dropWrite _ | .shutdownWrite _ => False
  | _ => True

/-! ## The work left -/

section

variable {α : Type}

def WiredEvent.isEvent : Option (WiredEvent α) → Bool
  | some (.event _) => true
  | _ => false

/-- A drop that comes from the other peer is passed to `Wired`, which notifies the
helper. -/
def UnwiredEvent.work : Option UnwiredEvent → Nat
  | some (.drop _ _ true) => 4
  | _ => 1

def Token.work : Token α → Nat
  | .frame (.event _) => 1
  | .frame (.message ..) => 2
  | .frame (.drop ..) => 5
  | .stream _ => 4

/-- A stream whose id cannot be written is dropped with two handles. -/
def WiredCall.work : WiredCall α → Nat
  | .wire event => 1 + (Token.frame event).work
  | .notify .. => 2
  | .connect => 26
  | .offer _ => 24

/-- An event is counted apart. -/
def WiredEvent.work : Option (WiredEvent α) → Nat
  | some (.message ..) => 4
  | some (.drop _ _ true) => 9
  | some (.drop _ _ false) => 3
  | _ => 1

end

namespace WiredServer

variable {α : Type}

/-- The events `Wired` has not received. -/
def events (p : WiredServer α) : Nat := p.wRx.countP WiredEvent.isEvent

/-- The work that the queues, the calls and the connection hold. -/
def queued (p : WiredServer α) : Nat :=
  (p.wRx.map WiredEvent.work).sum + (p.calls.map WiredCall.work).sum +
    (p.wire.map Token.work).sum + (p.uRx.map UnwiredEvent.work).sum

/-- The tasks that have not ended, with what they send then. -/
def tasks (p : WiredServer α) : Nat :=
  (if p.connecting.isSome then 2 else 0) + (if p.wiredDone then 0 else 1) +
    (if p.unwiredDone then 0 else 2) + (if p.helperDone then 0 else 1) +
    (if p.finished then 0 else 2)

def work (p : WiredServer α) : Nat := p.queued + p.tasks

/-- What is left for the two servers. -/
def left (x y : WiredServer α) : ℕ ×ₗ ℕ :=
  toLex (x.events + y.events, x.work + y.work)

theorem left_comm (x y : WiredServer α) : left x y = left y x := by
  simp only [left, Nat.add_comm]

theorem left_lt {x y x' y' : WiredServer α} (hevents : x'.events + y'.events = x.events + y.events)
    (hwork : x'.work + y'.work < x.work + y.work) : left x' y' < left x y :=
  Prod.Lex.toLex_lt_toLex.mpr (Or.inr ⟨hevents, hwork⟩)

/-! ### What a server does with an item -/

section

variable {p : WiredServer α}

theorem events_sendWired {event : Option (WiredEvent α)}
    (h : WiredEvent.isEvent event = false) : (p.sendWired event).events = p.events := by
  cases hclosed : p.wClosed <;> simp [events, sendWired, hclosed, h]

theorem work_sendWired (event : Option (WiredEvent α)) :
    (p.sendWired event).work ≤ p.work + WiredEvent.work event := by
  have htasks : (p.sendWired event).tasks = p.tasks := rfl
  have hqueued : (p.sendWired event).queued ≤ p.queued + WiredEvent.work event := by
    cases hclosed : p.wClosed with
    | true => simp [queued, sendWired, hclosed]
    | false =>
        simp [queued, sendWired, hclosed]
        omega
  simp only [work, htasks]
  omega

theorem work_sendUnwired (event : Option UnwiredEvent) :
    (p.sendUnwired event).work ≤ p.work + UnwiredEvent.work event := by
  have htasks : (p.sendUnwired event).tasks = p.tasks := rfl
  have hqueued : (p.sendUnwired event).queued ≤ p.queued + UnwiredEvent.work event := by
    cases hclosed : p.uClosed with
    | true => simp [queued, sendUnwired, hclosed]
    | false =>
        simp [queued, sendUnwired, hclosed]
        omega
  simp only [work, htasks]
  omega

theorem work_write (token : Token α) : (p.write token).work = p.work + token.work := by
  have htasks : (p.write token).tasks = p.tasks := rfl
  have hqueued : (p.write token).queued = p.queued + token.work := by
    simp only [queued, write, List.map_append, List.sum_append, List.map_cons, List.map_nil,
      List.sum_cons, List.sum_nil]
    omega
  simp only [work, htasks]
  omega

/-- `Wired` takes on no more than the weight of the event, and all its calls are
calls about streams. -/
theorem work_handle {event : WiredEvent α} (connects : Nat)
    (h : WiredEvent.isEvent (some event) = false) (w : Wired) :
    ((w.handle connects event).2.map WiredCall.work).sum < WiredEvent.work (some event) := by
  cases event with
  | event e => cases h
  | registerWriteHalf streamId => simp [Wired.handle, WiredEvent.work]
  | message streamId isLocal =>
      by_cases hlive : (streamId, isLocal) ∈ w.streams
      · cases hbuf : w.buf (streamId, isLocal) <;>
          simp [Wired.handle, hlive, hbuf, WiredEvent.work, WiredCall.work, Token.work]
      · simp [Wired.handle, hlive, WiredEvent.work]
  | drop streamId isLocal broadcastToRemote =>
      by_cases hlive : (streamId, isLocal) ∈ w.streams <;> cases broadcastToRemote <;>
        simp [Wired.handle, hlive, WiredEvent.work, WiredCall.work, Token.work]

theorem call_left {c : WiredCall α} {p' : WiredServer α} (hcall : p.call c = some p') :
    p'.events = p.events ∧ p'.work < p.work + c.work := by
  cases c with
  | wire event =>
      cases hcall
      refine ⟨rfl, ?_⟩
      rw [work_write, WiredCall.work]
      omega
  | notify streamId isLocal =>
      cases hcall
      refine ⟨rfl, (work_sendUnwired _).trans_lt ?_⟩
      simp [UnwiredEvent.work, WiredCall.work]
  | connect =>
      simp only [call] at hcall
      split at hcall
      · rename_i streamId wired _
        cases hcall
        refine ⟨rfl, (work_sendUnwired _).trans_lt ?_⟩
        simp only [work, queued, tasks, List.map_cons, List.sum_cons, WiredCall.work,
          UnwiredEvent.work]
        omega
      · cases hcall
  | offer streamId =>
      cases hcall
      refine ⟨rfl, ?_⟩
      have hwrite : (p.write (.stream streamId)).work = p.work + 4 := work_write _
      simp only [work, queued, tasks, WiredCall.work] at hwrite ⊢
      omega

theorem receive_left (token : Token α) (hconnecting : p.connecting = none) :
    (p.receive token).events = p.events ∧ (p.receive token).work < p.work + token.work := by
  cases token with
  | frame event =>
      cases event with
      | event e => exact ⟨rfl, Nat.lt_succ_self _⟩
      | message streamId isLocal m =>
          exact ⟨rfl, (work_sendUnwired _).trans_lt (Nat.lt_succ_self _)⟩
      | drop streamId isLocal =>
          exact ⟨rfl, (work_sendUnwired _).trans_lt (Nat.lt_succ_self _)⟩
  | stream streamId =>
      refine ⟨events_sendWired rfl, ?_⟩
      have hsend := work_sendWired (p := p) (some (.registerWriteHalf streamId))
      simp only [receive, work, queued, tasks, hconnecting, sendWired, WiredEvent.work,
        Token.work, Option.isSome_none, Option.isSome_some, Bool.false_eq_true, if_true,
        if_false] at hsend ⊢
      omega

theorem help_left (event : UnwiredEvent) :
    (p.help event).events = p.events ∧
      (p.help event).work < p.work + UnwiredEvent.work (some event) := by
  cases event with
  | registerStream streamId isLocal => exact ⟨rfl, Nat.lt_succ_self _⟩
  | message streamId isLocal m =>
      by_cases hlive : (streamId, isLocal) ∈ p.streams ∧ (streamId, isLocal) ∉ p.readDropped
      · rw [help, if_pos hlive]
        exact ⟨rfl, Nat.lt_succ_self _⟩
      · rw [help, if_neg hlive]
        exact ⟨rfl, Nat.lt_succ_self _⟩
  | drop streamId isLocal broadcastToWire =>
      by_cases hlive : (streamId, isLocal) ∈ p.streams
      · rw [help, if_pos hlive]
        cases broadcastToWire with
        | false => exact ⟨rfl, Nat.lt_succ_self _⟩
        | true => exact ⟨events_sendWired rfl, (work_sendWired _).trans_lt (Nat.lt_succ_self _)⟩
      · rw [help, if_neg hlive]
        refine ⟨rfl, ?_⟩
        cases broadcastToWire <;> simp [UnwiredEvent.work]

end

/-- Every step of a task leaves less. -/
theorem step_left {x y x' y' : WiredServer α} {a : ServerAction α} (ha : a.Internal)
    (hs : step x y a = some (x', y')) : left x' y' < left x y := by
  cases a with
  | send | flush | flushEvent | dropRead | dropWrite | shutdownWrite => exact ha.elim
  | wiredRecv connects =>
      simp only [step] at hs
      split at hs
      · rename_i wRx hcalls hwRx
        cases hs
        refine left_lt ?_ ?_
        · simp [events, hwRx, WiredEvent.isEvent]
        · simp only [work, queued, tasks, hwRx, List.map_cons, List.sum_cons, WiredEvent.work]
          omega
      · rename_i event wRx hcalls hwRx
        cases hs
        cases hevent : WiredEvent.isEvent (some event) with
        | true =>
            refine Prod.Lex.toLex_lt_toLex.mpr (Or.inl ?_)
            simp only [events, hwRx, List.countP_cons, hevent, if_true]
            omega
        | false =>
            have hwork := work_handle connects hevent x.wired
            refine left_lt ?_ ?_
            · simp [events, hwRx, hevent]
            · simp only [work, queued, tasks, hwRx, hcalls, List.map_cons, List.sum_cons,
                List.map_nil, List.sum_nil]
              omega
      · cases hs
  | wiredCall =>
      simp only [step] at hs
      split at hs
      · rename_i c calls hcalls
        obtain ⟨p, hp, heq⟩ := Option.map_eq_some_iff.mp hs
        cases heq
        obtain ⟨hevents, hwork⟩ := call_left hp
        refine left_lt ?_ ?_
        · rw [hevents]
          rfl
        · refine Nat.add_lt_add_right (hwork.trans_le ?_) _
          simp only [work, queued, tasks, hcalls, List.map_cons, List.sum_cons]
          omega
      · cases hs
  | wiredEnd =>
      obtain ⟨⟨-, -, -, hdone⟩, heq⟩ := Option.ite_none_right_eq_some.mp hs
      cases heq
      refine left_lt rfl ?_
      simp only [work, queued, tasks, hdone, Bool.false_eq_true, if_false, if_true]
      omega
  | unwiredRead =>
      simp only [step] at hs
      split at hs
      · rename_i token wire hconnecting hdone hwire
        cases hs
        obtain ⟨hevents, hwork⟩ := receive_left (p := x) token hconnecting
        refine left_lt (congrArg (· + y.events) hevents) ?_
        have hy : y.work = { y with wire := wire }.work + token.work := by
          simp only [work, queued, tasks, hwire, List.map_cons, List.sum_cons]
          omega
        omega
      · cases hs
  | unwiredConnected =>
      simp only [step] at hs
      split at hs
      · rename_i streamId hconnecting
        cases hs
        refine left_lt rfl ?_
        have hsend := work_sendUnwired (p := x) (some (.registerStream streamId false))
        simp only [work, queued, tasks, sendUnwired, hconnecting, UnwiredEvent.work,
          Option.isSome_none, Option.isSome_some, Bool.false_eq_true, if_true, if_false]
          at hsend ⊢
        omega
      · cases hs
  | unwiredEof =>
      obtain ⟨⟨-, hdone, -⟩, heq⟩ := Option.ite_none_right_eq_some.mp hs
      cases heq
      refine left_lt rfl ?_
      have hsend := work_sendUnwired (p := x) none
      simp only [work, queued, tasks, sendUnwired, hdone, UnwiredEvent.work,
        Bool.false_eq_true, if_true, if_false] at hsend ⊢
      omega
  | unwiredEnd =>
      obtain ⟨⟨-, -, hfinished⟩, heq⟩ := Option.ite_none_right_eq_some.mp hs
      cases heq
      refine left_lt (congrArg (· + y.events) (events_sendWired rfl)) ?_
      have hsend := work_sendWired (p := x) none
      simp only [work, queued, tasks, sendWired, hfinished, WiredEvent.work,
        Bool.false_eq_true, if_true, if_false] at hsend ⊢
      omega
  | helperRecv =>
      simp only [step] at hs
      split at hs
      · rename_i uRx huRx
        cases hs
        refine left_lt rfl ?_
        simp only [work, queued, tasks, huRx, List.map_cons, List.sum_cons, UnwiredEvent.work]
        omega
      · rename_i event uRx huRx
        cases hs
        obtain ⟨hevents, hwork⟩ := help_left (p := { x with uRx := uRx }) event
        refine left_lt (congrArg (· + y.events) hevents) ?_
        refine Nat.add_lt_add_right (hwork.trans_le ?_) _
        simp only [work, queued, tasks, huRx, List.map_cons, List.sum_cons]
        omega
      · cases hs
  | helperEnd =>
      obtain ⟨⟨-, -, hdone⟩, heq⟩ := Option.ite_none_right_eq_some.mp hs
      cases heq
      refine left_lt rfl ?_
      simp only [work, queued, tasks, hdone, Bool.false_eq_true, if_false, if_true]
      omega

/-! ## The end of the tasks -/

/-- `Wired` has been told to end, or will be. -/
def Asked (p : WiredServer α) : Prop := none ∈ p.wRx ∨ p.wClosed = true

/-- What a task leaves behind when it ends, and whom it has told. -/
structure Winding (x y : WiredServer α) : Prop where
  wired : x.wiredDone = true → x.wClosed = true ∧ x.wRx = [] ∧ x.calls = []
  unwired : x.unwiredDone = true → y.wiredDone = true ∧ y.wire = [] ∧ x.connecting = none
  told : none ∈ x.uRx ∨ x.uClosed = true ↔ x.unwiredDone = true
  helper : x.helperDone = true → x.uClosed = true ∧ x.uRx = []
  finished : x.finished = true → x.unwiredDone = true ∧ x.helperDone = true ∧ x.Asked

/-- The queues of the server get more, but no task is told to end by it, or only
`Wired`. -/
structure Sends (p p' : WiredServer α) : Prop where
  wRx : none ∈ p.wRx → none ∈ p'.wRx
  wClosed : p'.wClosed = p.wClosed ∧ (p.wClosed = true → p'.wRx = p.wRx)
  uRx : none ∈ p'.uRx ↔ none ∈ p.uRx
  uClosed : p'.uClosed = p.uClosed ∧ (p.uClosed = true → p'.uRx = p.uRx)
  wiredDone : p'.wiredDone = p.wiredDone
  unwiredDone : p'.unwiredDone = p.unwiredDone
  helperDone : p'.helperDone = p.helperDone
  finished : p'.finished = p.finished

namespace Sends

variable {p : WiredServer α}

theorem refl (p : WiredServer α) : Sends p p :=
  ⟨id, ⟨rfl, fun _ => rfl⟩, Iff.rfl, ⟨rfl, fun _ => rfl⟩, rfl, rfl, rfl, rfl⟩

theorem sendWired (event : Option (WiredEvent α)) : Sends p (p.sendWired event) where
  wRx h := by
    cases hclosed : p.wClosed <;> simp [WiredServer.sendWired, hclosed, h]
  wClosed := ⟨rfl, fun hclosed => by simp [WiredServer.sendWired, hclosed]⟩
  uRx := Iff.rfl
  uClosed := ⟨rfl, fun _ => rfl⟩
  wiredDone := rfl
  unwiredDone := rfl
  helperDone := rfl
  finished := rfl

theorem sendUnwired (event : UnwiredEvent) : Sends p (p.sendUnwired (some event)) where
  wRx := id
  wClosed := ⟨rfl, fun _ => rfl⟩
  uRx := by
    cases hclosed : p.uClosed <;> simp [WiredServer.sendUnwired, hclosed]
  uClosed := ⟨rfl, fun hclosed => by simp [WiredServer.sendUnwired, hclosed]⟩
  wiredDone := rfl
  unwiredDone := rfl
  helperDone := rfl
  finished := rfl

theorem receive (token : Token α) : Sends p (p.receive token) := by
  cases token with
  | frame event =>
      cases event with
      | event e => exact refl p
      | message | drop => exact sendUnwired _
  | stream streamId => exact { sendWired (p := p) (some (.registerWriteHalf streamId)) with }

theorem help (event : UnwiredEvent) : Sends p (p.help event) := by
  cases event with
  | registerStream => exact { refl p with }
  | message =>
      simp only [WiredServer.help]
      split
      · exact { refl p with }
      · exact refl p
  | drop streamId isLocal broadcastToWire =>
      simp only [WiredServer.help]
      split
      · split
        · exact { sendWired (p := p) (some (.drop streamId isLocal false)) with }
        · exact { refl p with }
      · exact refl p

theorem call {c : WiredCall α} {p' : WiredServer α} (hcall : p.call c = some p') :
    Sends p p' := by
  cases c with
  | wire | offer =>
      cases hcall
      exact { refl p with }
  | notify =>
      cases hcall
      exact sendUnwired _
  | connect =>
      simp only [WiredServer.call] at hcall
      split at hcall
      · rename_i streamId wired _
        cases hcall
        exact { sendUnwired (p := p) (.registerStream streamId true) with }
      · cases hcall

end Sends

section

variable {x y x' y' : WiredServer α}

theorem Sends.asked (h : Sends x x') (hask : x.Asked) : x'.Asked :=
  hask.imp h.wRx fun hclosed => h.wClosed.1.trans hclosed

theorem Winding.sends (h : Winding x y) (hs : Sends x x')
    (hcalls : x.wiredDone = true → x'.calls = [])
    (hconnecting : x.unwiredDone = true → x'.connecting = none) : Winding x' y where
  wired hdone := by
    have hdone' := hs.wiredDone.symm.trans hdone
    obtain ⟨hclosed, hwRx, -⟩ := h.wired hdone'
    exact ⟨hs.wClosed.1.trans hclosed, (hs.wClosed.2 hclosed).trans hwRx, hcalls hdone'⟩
  unwired hdone := by
    have hdone' := hs.unwiredDone.symm.trans hdone
    obtain ⟨hy, hwire, -⟩ := h.unwired hdone'
    exact ⟨hy, hwire, hconnecting hdone'⟩
  told := by
    rw [hs.uRx, hs.uClosed.1, hs.unwiredDone]
    exact h.told
  helper hdone := by
    obtain ⟨hclosed, huRx⟩ := h.helper (hs.helperDone.symm.trans hdone)
    exact ⟨hs.uClosed.1.trans hclosed, (hs.uClosed.2 hclosed).trans huRx⟩
  finished hdone := by
    obtain ⟨hu, hh, hask⟩ := h.finished (hs.finished.symm.trans hdone)
    exact ⟨hs.unwiredDone.trans hu, hs.helperDone.trans hh, hs.asked hask⟩

/-- What the other server sees of a step. -/
theorem Winding.other (h : Winding y x) (hdone : x.wiredDone = true → x'.wiredDone = true)
    (hwire : x.wiredDone = true → x.wire = [] → x'.wire = []) : Winding y x' := by
  refine { h with unwired := fun hy => ?_ }
  obtain ⟨hx, hnil, hconnecting⟩ := h.unwired hy
  exact ⟨hdone hx, hwire hx hnil, hconnecting⟩

/-! ### What the bodies of the loops leave alone -/

theorem call_connecting {c : WiredCall α} (hcall : x.call c = some x') :
    x'.connecting = x.connecting := by
  cases c with
  | wire | notify | offer =>
      cases hcall
      rfl
  | connect =>
      simp only [call] at hcall
      split at hcall
      · cases hcall
        rfl
      · cases hcall

theorem receive_calls (token : Token α) : (x.receive token).calls = x.calls := by
  rcases token with ⟨_ | _ | _⟩ | _ <;> rfl

theorem receive_wire (token : Token α) : (x.receive token).wire = x.wire := by
  rcases token with ⟨_ | _ | _⟩ | _ <;> rfl

theorem help_others (event : UnwiredEvent) :
    (x.help event).calls = x.calls ∧ (x.help event).connecting = x.connecting ∧
      (x.help event).wire = x.wire := by
  cases event with
  | registerStream => exact ⟨rfl, rfl, rfl⟩
  | message =>
      simp only [help]
      split <;> exact ⟨rfl, rfl, rfl⟩
  | drop =>
      simp only [help]
      split
      · split <;> exact ⟨rfl, rfl, rfl⟩
      · exact ⟨rfl, rfl, rfl⟩

/-- A step that only sends. -/
theorem Winding.send (hxy : Winding x y) (hyx : Winding y x) (hs : Sends x x')
    (hcalls : x'.calls = x.calls) (hconnecting : x'.connecting = x.connecting)
    (hwire : x'.wire = x.wire) : Winding x' y ∧ Winding y x' := by
  refine ⟨hxy.sends hs ?_ ?_, hyx.other hs.wiredDone.trans fun _ => hwire.trans⟩
  · exact fun hdone => hcalls.trans (hxy.wired hdone).2.2
  · exact fun hdone => hconnecting.trans (hxy.unwired hdone).2.2

theorem Winding.step {a : ServerAction α} (hxy : Winding x y) (hyx : Winding y x)
    (hs : step x y a = some (x', y')) : Winding x' y' ∧ Winding y' x' := by
  cases a with
  | send event =>
      obtain ⟨-, heq⟩ := Option.ite_none_left_eq_some.mp hs
      cases heq
      exact hxy.send hyx (.sendWired _) rfl rfl rfl
  | flush key m =>
      obtain ⟨-, heq⟩ := Option.ite_none_right_eq_some.mp hs
      cases heq
      exact hxy.send hyx { Sends.refl x with } rfl rfl rfl
  | flushEvent key =>
      simp only [WiredServer.step] at hs
      split at hs
      · split at hs
        · cases hs
          exact hxy.send hyx { Sends.refl x with } rfl rfl rfl
        · cases hs
          exact hxy.send hyx { Sends.sendWired (p := x) (some (.message key.1 key.2)) with }
            rfl rfl rfl
      · cases hs
  | dropRead key | dropWrite key | shutdownWrite key =>
      obtain ⟨-, heq⟩ := Option.ite_none_right_eq_some.mp hs
      cases heq
      exact hxy.send hyx { Sends.sendWired (p := x) (some (.drop key.1 key.2 true)) with }
        rfl rfl rfl
  | wiredRecv connects =>
      simp only [WiredServer.step] at hs
      split at hs
      · rename_i wRx hcalls hwRx
        cases hs
        have hdone : x.wiredDone ≠ true := by
          intro hdone
          cases hwRx.symm.trans (hxy.wired hdone).2.1
        refine ⟨{ hxy with wired := fun h => absurd h hdone, finished := fun h => ?_ },
          hyx.other id fun _ => id⟩
        obtain ⟨hu, hh, -⟩ := hxy.finished h
        exact ⟨hu, hh, Or.inr rfl⟩
      · rename_i event wRx hcalls hwRx
        cases hs
        have hdone : x.wiredDone ≠ true := by
          intro hdone
          cases hwRx.symm.trans (hxy.wired hdone).2.1
        refine ⟨{ hxy with wired := fun h => absurd h hdone, finished := fun h => ?_ },
          hyx.other id fun _ => id⟩
        obtain ⟨hu, hh, hask⟩ := hxy.finished h
        exact ⟨hu, hh, hask.imp_left fun hmem => by simpa [hwRx] using hmem⟩
      · cases hs
  | wiredCall =>
      simp only [WiredServer.step] at hs
      split at hs
      · rename_i c calls hcalls
        obtain ⟨p, hp, heq⟩ := Option.map_eq_some_iff.mp hs
        cases heq
        have hdone : x.wiredDone ≠ true := by
          intro hdone
          cases hcalls.symm.trans (hxy.wired hdone).2.2
        have hxy' : Winding { x with calls := calls } y :=
          { hxy with wired := fun h => absurd h hdone }
        refine ⟨hxy'.sends (.call hp) (absurd · hdone) fun h => ?_,
          hyx.other (absurd · hdone) (absurd · hdone)⟩
        exact (call_connecting hp).trans (hxy.unwired h).2.2
      · cases hs
  | wiredEnd =>
      obtain ⟨⟨hcalls, hwRx, hclosed, -⟩, heq⟩ := Option.ite_none_right_eq_some.mp hs
      cases heq
      exact ⟨{ hxy with wired := fun _ => ⟨hclosed, hwRx, hcalls⟩ },
        hyx.other (fun _ => rfl) fun _ => id⟩
  | unwiredRead =>
      simp only [WiredServer.step] at hs
      split at hs
      · rename_i token wire hconnecting hdone hwire
        cases hs
        -- the connection has something on it, so `Unwired` is not at its end
        have hxy' : Winding x { y with wire := wire } :=
          { hxy with unwired := fun h => by cases hdone.symm.trans h }
        have hyx' : Winding { y with wire := wire } x := { hyx with }
        refine ⟨hxy'.sends (.receive token) ?_ ?_, hyx'.other ?_ ?_⟩
        · intro h
          rw [receive_calls]
          exact (hxy.wired h).2.2
        · intro h
          cases hdone.symm.trans h
        · exact (Sends.receive token).wiredDone.trans
        · rw [receive_wire]
          exact fun _ => id
      · cases hs
  | unwiredConnected =>
      simp only [WiredServer.step] at hs
      split at hs
      · rename_i streamId hconnecting
        cases hs
        have hsends := Sends.sendUnwired (p := x) (.registerStream streamId false)
        exact ⟨hxy.sends { hsends with } (fun h => (hxy.wired h).2.2) fun _ => rfl,
          hyx.other id fun _ => id⟩
      · cases hs
  | unwiredEof =>
      obtain ⟨⟨hconnecting, hdone, hwire, hwired⟩, heq⟩ := Option.ite_none_right_eq_some.mp hs
      cases heq
      have htold := hxy.told
      simp only [Bool.eq_false_of_not_eq_true hdone, Bool.false_eq_true, iff_false, not_or,
        Bool.not_eq_true] at htold
      refine ⟨{ hxy with
        unwired := fun _ => ⟨hwired, hwire, hconnecting⟩
        told := ?_
        helper := fun h => ?_
        finished := fun h => absurd (hxy.finished h).1 hdone }, hyx.other id fun _ => id⟩
      · simp [WiredServer.sendUnwired, htold.2]
      · cases htold.2.symm.trans (hxy.helper h).1
  | unwiredEnd =>
      obtain ⟨⟨hu, hh, hfinished⟩, heq⟩ := Option.ite_none_right_eq_some.mp hs
      cases heq
      have hsends := Sends.sendWired (p := x) none
      have hxy' := hxy.sends hsends (fun h => (hxy.wired h).2.2) fun h => (hxy.unwired h).2.2
      refine ⟨{ hxy' with finished := fun _ => ⟨hu, hh, ?_⟩ }, hyx.other id fun _ => id⟩
      cases hclosed : x.wClosed with
      | true => exact Or.inr hclosed
      | false => exact Or.inl (by simp [WiredServer.sendWired, hclosed])
  | helperRecv =>
      simp only [WiredServer.step] at hs
      split at hs
      · rename_i uRx huRx
        cases hs
        have hdone := hxy.told.mp (Or.inl (huRx ▸ List.mem_cons_self))
        have hhelper : x.helperDone ≠ true := by
          intro h
          cases huRx.symm.trans (hxy.helper h).2
        exact ⟨{ hxy with
          told := by simp [hdone]
          helper := fun h => absurd h hhelper }, { hyx with }⟩
      · rename_i event uRx huRx
        cases hs
        have hhelper : x.helperDone ≠ true := by
          intro h
          cases huRx.symm.trans (hxy.helper h).2
        have hxy' : Winding { x with uRx := uRx } y :=
          { hxy with
            told := by simpa [huRx] using hxy.told
            helper := fun h => absurd h hhelper }
        refine ⟨hxy'.sends (.help event) ?_ ?_, hyx.other ?_ ?_⟩
        · intro h
          rw [(help_others event).1]
          exact (hxy.wired h).2.2
        · intro h
          rw [(help_others event).2.1]
          exact (hxy.unwired h).2.2
        · exact (Sends.help (p := { x with uRx := uRx }) event).wiredDone.trans
        · rw [(help_others event).2.2]
          exact fun _ => id
      · cases hs
  | helperEnd =>
      obtain ⟨⟨huRx, hclosed, hdone⟩, heq⟩ := Option.ite_none_right_eq_some.mp hs
      cases heq
      exact ⟨{ hxy with
        helper := fun _ => ⟨hclosed, huRx⟩
        finished := fun h => absurd (hxy.finished h).2.1 hdone }, { hyx with }⟩

theorem winding_init : Winding ({} : WiredServer α) {} :=
  ⟨nofun, nofun, by simp, nofun, nofun⟩

theorem winding {s : WiredServer α × WiredServer α} (h : (serverMachine α).Reachable s) :
    Winding s.1 s.2 ∧ Winding s.2 s.1 :=
  Machine.duo_both (fun _ _ => True) h winding_init fun _ _ _ _ _ hxy hyx _ => hxy.step hyx

/-- A stream is to be opened, and there is no id for it. -/
def Exhausted (p : WiredServer α) : Prop :=
  ∃ calls, p.calls = .connect :: calls ∧ p.wired.connect = none

/-- All tasks of the server have ended. -/
structure Ended (p : WiredServer α) : Prop where
  wired : p.wiredDone = true
  unwired : p.unwiredDone = true
  helper : p.helperDone = true
  finished : p.finished = true

/-! ### At rest -/

/-- Only a call that opens a stream can fail to be made. -/
theorem call_ne_none {c : WiredCall α} (h : x.call c = none) :
    c = .connect ∧ x.wired.connect = none := by
  cases c with
  | wire | notify | offer => cases h
  | connect =>
      refine ⟨rfl, ?_⟩
      simp only [call] at h
      split at h
      · cases h
      · assumption

/-- What the tasks of `x` have left when they can do nothing. -/
theorem Winding.rest (h : Winding x y)
    (hrest : ∀ a : ServerAction α, a.Internal → WiredServer.step x y a = none)
    (hids : ¬ x.Exhausted) :
    x.calls = [] ∧ x.wRx = [] ∧ x.uRx = [] ∧ x.connecting = none ∧ y.wire = [] := by
  have hcalls : x.calls = [] := by
    have hcall := hrest .wiredCall trivial
    cases hc : x.calls with
    | nil => rfl
    | cons c calls =>
        simp only [WiredServer.step, hc, Option.map_eq_none_iff] at hcall
        obtain ⟨rfl, hconnect⟩ := call_ne_none hcall
        exact absurd ⟨calls, hc, hconnect⟩ hids
  have hwRx : x.wRx = [] := by
    have hrecv := hrest (.wiredRecv 0) trivial
    rcases hw : x.wRx with _ | ⟨_ | event, wRx⟩
    · rfl
    · simp [WiredServer.step, hcalls, hw] at hrecv
    · simp [WiredServer.step, hcalls, hw] at hrecv
  have huRx : x.uRx = [] := by
    have hrecv := hrest .helperRecv trivial
    rcases hu : x.uRx with _ | ⟨_ | event, uRx⟩
    · rfl
    · simp [WiredServer.step, hu] at hrecv
    · simp [WiredServer.step, hu] at hrecv
  have hconnecting : x.connecting = none := by
    have hconnected := hrest .unwiredConnected trivial
    cases hc : x.connecting with
    | none => rfl
    | some streamId => simp [WiredServer.step, hc] at hconnected
  have hwire : y.wire = [] := by
    have hread := hrest .unwiredRead trivial
    cases hdone : x.unwiredDone with
    | true => exact (h.unwired hdone).2.1
    | false =>
        cases hy : y.wire with
        | nil => rfl
        | cons token wire => simp [WiredServer.step, hconnecting, hdone, hy] at hread
  exact ⟨hcalls, hwRx, huRx, hconnecting, hwire⟩

/-- A `Wired` that was asked to end has ended. -/
theorem Winding.wiredDone (h : Winding x y)
    (hrest : ∀ a : ServerAction α, a.Internal → WiredServer.step x y a = none)
    (hids : ¬ x.Exhausted) (hask : x.Asked) : x.wiredDone = true := by
  obtain ⟨hcalls, hwRx, -⟩ := h.rest hrest hids
  have hclosed : x.wClosed = true := hask.resolve_left (by simp [hwRx])
  have hend := hrest .wiredEnd trivial
  simpa [WiredServer.step, hcalls, hwRx, hclosed] using hend

/-- When the other `Wired` has ended, so have the tasks that read from it, and the
`Wired` here is asked to. -/
theorem Winding.readers (h : Winding x y)
    (hrest : ∀ a : ServerAction α, a.Internal → WiredServer.step x y a = none)
    (hids : ¬ x.Exhausted) (hdone : y.wiredDone = true) :
    x.unwiredDone = true ∧ x.helperDone = true ∧ x.finished = true ∧ x.Asked := by
  obtain ⟨-, -, huRx, hconnecting, hwire⟩ := h.rest hrest hids
  have hunwired : x.unwiredDone = true := by
    have heof := hrest .unwiredEof trivial
    simpa [WiredServer.step, hconnecting, hwire, hdone] using heof
  have hclosed : x.uClosed = true := (h.told.mpr hunwired).resolve_left (by simp [huRx])
  have hhelper : x.helperDone = true := by
    have hend := hrest .helperEnd trivial
    simpa [WiredServer.step, huRx, hclosed] using hend
  have hfinished : x.finished = true := by
    have hend := hrest .unwiredEnd trivial
    simpa [WiredServer.step, hunwired, hhelper] using hend
  exact ⟨hunwired, hhelper, hfinished, (h.finished hfinished).2.2⟩

theorem Winding.ended (hxy : Winding x y) (hyx : Winding y x)
    (hx : ∀ a : ServerAction α, a.Internal → WiredServer.step x y a = none)
    (hy : ∀ a : ServerAction α, a.Internal → WiredServer.step y x a = none)
    (hidx : ¬ x.Exhausted) (hidy : ¬ y.Exhausted) (hask : x.Asked) : x.Ended ∧ y.Ended := by
  have hdone := hxy.wiredDone hx hidx hask
  obtain ⟨hu, hh, hf, hasky⟩ := hyx.readers hy hidy hdone
  have hdone' := hyx.wiredDone hy hidy hasky
  obtain ⟨hu', hh', hf', -⟩ := hxy.readers hx hidx hdone'
  exact ⟨⟨hdone, hu', hh', hf'⟩, hdone', hu, hh, hf⟩

end

theorem settles_alone : (serverMachine α).Settles (fun a => a.2.Internal) :=
  Machine.duo_settles left left_comm fun _ _ _ _ _ => step_left

/-- **The tasks come to rest.** They do not go on forever by themselves, and when they
can do nothing more, every queue is empty and nothing is on its way, unless a peer has
no stream id left. -/
theorem settles :
    (serverMachine α).Settles (fun a => a.2.Internal) ∧
    ∀ s, (serverMachine α).Reachable s → (serverMachine α).AtRest (fun a => a.2.Internal) s →
      (s.1.Quiescent ∧ s.2.Quiescent) ∨ s.1.Exhausted ∨ s.2.Exhausted := by
  refine ⟨settles_alone, ?_⟩
  rintro ⟨x, y⟩ hreach hrest
  obtain ⟨hxy, hyx⟩ := winding hreach
  obtain ⟨hx, hy⟩ := Machine.duo_atRest.mp hrest
  by_cases hidx : x.Exhausted
  · exact Or.inr (Or.inl hidx)
  by_cases hidy : y.Exhausted
  · exact Or.inr (Or.inr hidy)
  obtain ⟨hcalls, hwRx, huRx, hconnecting, hwire⟩ := hxy.rest hx hidx
  obtain ⟨hcalls', hwRx', huRx', hconnecting', hwire'⟩ := hyx.rest hy hidy
  exact Or.inl ⟨⟨hwRx, hcalls, hwire', hconnecting, huRx⟩,
    hwRx', hcalls', hwire, hconnecting', huRx'⟩

theorem settles_closing :
    ((serverMachine Unit).run closing).1.Quiescent ∧
      ((serverMachine Unit).run closing).2.Quiescent := by
  have hrest := settles.2 ((serverMachine Unit).run closing)
    (Machine.reachableBy_run fun _ _ _ => trivial)
  refine (hrest ?_).resolve_right ?_
  · rintro ⟨first, a⟩ ha
    cases first <;> cases a <;> first | exact ha.elim | rfl
  · rintro (⟨calls, hcalls, -⟩ | ⟨calls, hcalls, -⟩) <;> cases hcalls

/-! ### The shutdown -/

section

variable {x y x' y' : WiredServer α}

theorem Asked.pop {event : WiredEvent α} {wRx : List (Option (WiredEvent α))}
    (hask : x.Asked) (hwRx : x.wRx = some event :: wRx) (wired : Wired)
    (calls : List (WiredCall α)) :
    Asked { x with wRx := wRx, wired := wired, calls := calls } :=
  hask.imp_left fun hmem => by simpa [hwRx] using hmem

/-- A server that was asked to end stays so. -/
theorem Asked.step {a : ServerAction α} (hask : x.Asked)
    (hs : WiredServer.step x y a = some (x', y')) : x'.Asked := by
  cases a with
  | send event =>
      obtain ⟨-, heq⟩ := Option.ite_none_left_eq_some.mp hs
      cases heq
      exact (Sends.sendWired _).asked hask
  | flush key m =>
      obtain ⟨-, heq⟩ := Option.ite_none_right_eq_some.mp hs
      cases heq
      exact hask
  | flushEvent key =>
      simp only [WiredServer.step] at hs
      split at hs
      · split at hs
        · cases hs
          exact hask
        · cases hs
          exact (Sends.sendWired (p := x) (some (.message key.1 key.2))).asked hask
      · cases hs
  | dropRead key | dropWrite key | shutdownWrite key =>
      obtain ⟨-, heq⟩ := Option.ite_none_right_eq_some.mp hs
      cases heq
      exact (Sends.sendWired (p := x) (some (.drop key.1 key.2 true))).asked hask
  | wiredRecv connects =>
      simp only [WiredServer.step] at hs
      split at hs
      · cases hs
        exact Or.inr rfl
      · cases hs
        exact hask.pop ‹_› _ _
      · cases hs
  | wiredCall =>
      simp only [WiredServer.step] at hs
      split at hs
      · rename_i c calls _
        obtain ⟨p, hp, heq⟩ := Option.map_eq_some_iff.mp hs
        cases heq
        exact (Sends.call hp).asked hask
      · cases hs
  | unwiredRead =>
      simp only [WiredServer.step] at hs
      split at hs
      · cases hs
        exact (Sends.receive _).asked hask
      · cases hs
  | unwiredConnected =>
      simp only [WiredServer.step] at hs
      split at hs
      · cases hs
        exact hask
      · cases hs
  | wiredEnd | unwiredEof | helperEnd =>
      obtain ⟨-, heq⟩ := Option.ite_none_right_eq_some.mp hs
      cases heq
      exact hask
  | unwiredEnd =>
      obtain ⟨-, heq⟩ := Option.ite_none_right_eq_some.mp hs
      cases heq
      exact (Sends.sendWired (p := x) none).asked hask
  | helperRecv =>
      simp only [WiredServer.step] at hs
      split at hs
      · cases hs
        exact hask
      · rename_i event uRx _
        cases hs
        exact (Sends.help (p := { x with uRx := uRx }) event).asked hask
      · cases hs

/-- A step of one server takes nothing from the other one but what it reads. -/
theorem step_other {a : ServerAction α} (hs : WiredServer.step x y a = some (x', y')) :
    ∃ wire, y' = { y with wire := wire } := by
  cases a with
  | send =>
      obtain ⟨-, heq⟩ := Option.ite_none_left_eq_some.mp hs
      cases heq
      exact ⟨_, rfl⟩
  | flush | dropRead | dropWrite | shutdownWrite | wiredEnd | unwiredEof | unwiredEnd
  | helperEnd =>
      obtain ⟨-, heq⟩ := Option.ite_none_right_eq_some.mp hs
      cases heq
      exact ⟨_, rfl⟩
  | flushEvent key =>
      simp only [WiredServer.step] at hs
      split at hs
      · split at hs <;> cases hs <;> exact ⟨_, rfl⟩
      · cases hs
  | wiredCall =>
      simp only [WiredServer.step] at hs
      split at hs
      · obtain ⟨p, -, heq⟩ := Option.map_eq_some_iff.mp hs
        cases heq
        exact ⟨_, rfl⟩
      · cases hs
  | wiredRecv | unwiredRead | unwiredConnected | helperRecv =>
      simp only [WiredServer.step] at hs
      split at hs <;> cases hs <;> exact ⟨_, rfl⟩

end

theorem asked_leads {s t : WiredServer α × WiredServer α}
    (hlead : (serverMachine α).Leads (fun _ => True) s t) (hask : s.1.Asked ∨ s.2.Asked) :
    t.1.Asked ∨ t.2.Asked := by
  refine Machine.duo_leads (I := fun x y => x.Asked ∨ y.Asked) (fun _ => True) hlead hask
    (fun _ _ => Or.symm) ?_
  rintro x y a x' y' (hx | hy) - hs
  · exact Or.inl (hx.step hs)
  · obtain ⟨wire, rfl⟩ := step_other hs
    exact Or.inr hy

/-- If nobody asks for a shutdown, no task is told to end. -/
theorem calm_of_reachable {s : WiredServer α × WiredServer α}
    (h : (serverMachine α).ReachableBy (fun _ a => a.2 ≠ .send none) s) : s.1.Calm ∧ s.2.Calm :=
  Machine.duo_both (P := fun x _ => x.Calm) (fun _ a => a ≠ ServerAction.send none) h calm_init
    fun _ _ _ _ _ hx hy ha => hx.step hy ha

/-- **A shutdown spreads.** Once a user of one of the peers has asked for it, whatever
the users do then, both peers can come to rest only with all their tasks ended, unless
one has no stream id left; and they can always come to rest. Nothing else ends a
task. -/
theorem shutdown_spreads {s : WiredServer α × WiredServer α} :
    ((serverMachine α).ReachableBy (fun _ a => a.2 ≠ .send none) s → s.1.Calm ∧ s.2.Calm) ∧
    ((serverMachine α).Reachable s → s.1.Asked ∨ s.2.Asked →
      ∀ t, (serverMachine α).Leads (fun _ => True) s t →
        (∃ t', (serverMachine α).Leads (fun a => a.2.Internal) t t' ∧
          (serverMachine α).AtRest (fun a => a.2.Internal) t') ∧
        ((serverMachine α).AtRest (fun a => a.2.Internal) t →
          (t.1.Ended ∧ t.2.Ended) ∨ t.1.Exhausted ∨ t.2.Exhausted)) := by
  refine ⟨calm_of_reachable, fun hreach hask t hlead => ?_⟩
  refine ⟨settles_alone.exists_atRest t, fun hrest => ?_⟩
  obtain ⟨hxy, hyx⟩ := winding (hreach.leads (fun _ _ _ => trivial) hlead)
  obtain ⟨hx, hy⟩ := Machine.duo_atRest.mp hrest
  by_cases hidx : t.1.Exhausted
  · exact Or.inr (Or.inl hidx)
  by_cases hidy : t.2.Exhausted
  · exact Or.inr (Or.inr hidy)
  rcases asked_leads hlead hask with hask | hask
  · exact Or.inl (hxy.ended hyx hx hy hidx hidy hask)
  · exact Or.inl (hyx.ended hxy hy hx hidy hidx hask).symm

/-- The first user asks for a shutdown, and it goes round. -/
def shuttingDown : List (Bool × ServerAction Unit) :=
  [(true, .wiredRecv 0), (true, .wiredEnd), (false, .unwiredEof), (false, .helperRecv),
    (false, .helperEnd), (false, .unwiredEnd), (false, .wiredRecv 0), (false, .wiredEnd),
    (true, .unwiredEof), (true, .helperRecv), (true, .helperEnd), (true, .unwiredEnd)]

theorem shutdown_spreads_one :
    ((serverMachine Unit).run ((true, .send none) :: shuttingDown)).1.Ended ∧
      ((serverMachine Unit).run ((true, .send none) :: shuttingDown)).2.Ended := by
  have hasked : (serverMachine Unit).Reachable ((serverMachine Unit).run [(true, .send none)]) :=
    Machine.reachableBy_run fun _ _ _ => trivial
  have hlead : (serverMachine Unit).Leads (fun _ => True)
      ((serverMachine Unit).run [(true, .send none)])
      ((serverMachine Unit).run ([(true, .send none)] ++ shuttingDown)) :=
    Machine.leads_run fun _ _ => trivial
  have hrest := (shutdown_spreads.2 hasked (Or.inl (Or.inl List.mem_cons_self)) _ hlead).2
  refine (hrest ?_).resolve_right ?_
  · rintro ⟨first, a⟩ ha
    cases first <;> cases a <;> first | exact ha.elim | rfl
  · rintro (⟨calls, hcalls, -⟩ | ⟨calls, hcalls, -⟩) <;> cases hcalls

end WiredServer

end WiringRs
