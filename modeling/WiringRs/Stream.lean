import WiringRs.Lib.Channel

/-!
# One stream

The life of a single stream, as its two ends see it and apart from every other
stream: how it comes to be registered with the four tasks that keep it, how
messages pass from one end to the other, how it is dropped. The ends take steps
in any order; `StreamEnd.Step x y x' y'` is a step of the end `x`.
-/

namespace WiringRs

/-- A stream in the map of a task. -/
inductive Life where
  | unregistered
  | live
  | dead
deriving DecidableEq

/-- A live stream is dropped with the map. -/
def Life.drop : Life → Life
  | .live => .dead
  | l => l

/-- A stream whose registration fails. -/
def Life.refuse : Life → Life
  | .unregistered => .dead
  | l => l

theorem Life.live_iff {life : Life} (h : life ≠ .unregistered) :
    life = .live ↔ life ≠ .dead := by
  cases life with
  | unregistered => exact absurd rfl h
  | live => simp
  | dead => simp

theorem Life.dead_of {life : Life} (h : life ≠ .unregistered) (hlive : life ≠ .live) :
    life = .dead := by
  by_contra hne
  exact hlive ((Life.live_iff h).mpr hne)

/-- What is said of the stream on a channel, on the connection, or in the calls a
task is still to make. `broadcast` says if a drop is to be passed on. -/
inductive Item (μ : Type) where
  | register
  | message (m : μ)
  | drop (broadcast : Bool)
deriving DecidableEq

namespace Item

variable {μ : Type}

def isRegister : Item μ → Bool
  | register => true
  | _ => false

def isDrop : Item μ → Bool
  | drop _ => true
  | _ => false

end Item

structure StreamEnd (μ : Type) where
  opener : Bool
  /-- The end has its stream. -/
  known : Bool := false
  /-- The map of `Wired`, and its queue; the messages stay behind in `buf`. -/
  wired : Life := .unregistered
  queue : List (Item Unit) := []
  queueClosed : Bool := false
  buf : List μ := []
  /-- The calls `Wired` is still to make: a drop is written if it is to be
  broadcast, else it is for the helper. -/
  todo : List (Item μ) := []
  /-- What is on the way to the other end. -/
  out : List (Item μ) := []
  /-- `Unwired` has read the stream's id and not yet told the helper. -/
  pending : Bool := false
  /-- The map of the helper, and its queue. -/
  helper : Life := .unregistered
  inbox : List (Item μ) := []
  inboxClosed : Bool := false
  /-- The user has the two halves. -/
  held : Bool := false
  /-- The message of a flush whose event is not sent yet. -/
  flushing : Option μ := none
  readDropped : Bool := false
  /-- A half has been dropped or shut down. -/
  closed : Bool := false
  flushed : List μ := []
  handed : List μ := []
  /-- How many drops have been written. -/
  drops : Nat := 0

namespace StreamEnd

variable {μ : Type}

/-- A step of the end `x`. Only a `lossy` one closes a channel or ends a task. -/
inductive Step (lossy : Bool) : (x y x' y' : StreamEnd μ) → Prop where
  | flush {x y} {m : μ} (hheld : x.held = true) (hflushing : x.flushing = none)
      (hwired : x.wired ≠ .dead) :
      Step lossy x y { x with buf := x.buf ++ [m], flushing := some m } y
  | flushed {x y} {m : μ} (hflushing : x.flushing = some m)
      (hopen : x.queueClosed = false) :
      Step lossy x y { x with
        flushing := none
        queue := trySend x.queueClosed x.queue (.message ())
        flushed := x.flushed ++ [m] } y
  | aborted {x y} {m : μ} (hflushing : x.flushing = some m)
      (hclosed : x.queueClosed = true) :
      Step lossy x y { x with flushing := none } y
  | close {x y} (read : Bool) (hheld : x.held = true) :
      Step lossy x y { x with
        closed := true
        readDropped := x.readDropped || read
        queue := trySend x.queueClosed x.queue (.drop true) } y
  | open {x y} (hopener : x.opener = true) (hknown : x.known = false) :
      Step lossy x y { x with
        known := true
        wired := .live
        inbox := trySend x.inboxClosed x.inbox .register
        todo := .register :: x.todo } y
  | wiredRegister {x y queue} (hqueue : x.queue = .register :: queue) :
      Step lossy x y { x with queue := queue, wired := .live } y
  | wiredMessage {x y queue m buf} (hqueue : x.queue = .message () :: queue)
      (htodo : x.todo = []) (hwired : x.wired = .live) (hbuf : x.buf = m :: buf) :
      Step lossy x y { x with queue := queue, buf := buf, todo := [.message m] } y
  | wiredSkip {x y queue} (hqueue : x.queue = .message () :: queue)
      (hskip : x.wired = .live → x.buf = []) :
      Step lossy x y { x with queue := queue } y
  | wiredDrop {x y queue broadcast} (hqueue : x.queue = .drop broadcast :: queue)
      (htodo : x.todo = []) (hwired : x.wired = .live) :
      Step lossy x y { x with
        queue := queue
        wired := .dead
        todo := if broadcast then [.drop true, .drop false] else [.drop false] } y
  | wiredIgnore {x y queue broadcast} (hqueue : x.queue = .drop broadcast :: queue)
      (hwired : x.wired ≠ .live) :
      Step lossy x y { x with queue := queue } y
  | write {x y item todo} (htodo : x.todo = item :: todo) (hitem : item ≠ .drop false) :
      Step lossy x y { x with
        todo := todo
        out := x.out ++ [item]
        held := x.held || item.isRegister
        drops := if item.isDrop then x.drops + 1 else x.drops } y
  | notify {x y todo} (htodo : x.todo = .drop false :: todo) :
      Step lossy x y { x with
        todo := todo
        inbox := trySend x.inboxClosed x.inbox (.drop false) } y
  | accept {x y out} (hout : y.out = .register :: out) (hpending : x.pending = false) :
      Step lossy x y { x with
        pending := true
        queue := trySend x.queueClosed x.queue .register
        wired := if x.queueClosed then x.wired.refuse else x.wired } { y with out := out }
  | accepted {x y} (hpending : x.pending = true) :
      Step lossy x y { x with
        pending := false
        known := true
        held := true
        inbox := trySend x.inboxClosed x.inbox .register } y
  | read {x y item out} (hout : y.out = item :: out) (hitem : item ≠ .register)
      (hpending : x.pending = false) :
      Step lossy x y { x with inbox := trySend x.inboxClosed x.inbox item }
        { y with out := out }
  | helperRegister {x y inbox} (hinbox : x.inbox = .register :: inbox) :
      Step lossy x y { x with inbox := inbox, helper := .live } y
  | helperMessage {x y m inbox} (hinbox : x.inbox = .message m :: inbox) :
      Step lossy x y { x with
        inbox := inbox
        handed := if x.helper = .live ∧ x.readDropped = false then x.handed ++ [m]
          else x.handed } y
  | helperDrop {x y broadcast inbox} (hinbox : x.inbox = .drop broadcast :: inbox)
      (hhelper : x.helper = .live) :
      Step lossy x y { x with
        inbox := inbox
        helper := .dead
        queue := if broadcast then trySend x.queueClosed x.queue (.drop false)
          else x.queue } y
  | helperIgnore {x y broadcast inbox} (hinbox : x.inbox = .drop broadcast :: inbox)
      (hhelper : x.helper ≠ .live) :
      Step lossy x y { x with inbox := inbox } y
  | closeQueue {x y} (hlossy : lossy = true) :
      Step lossy x y { x with queueClosed := true } y
  | closeInbox {x y} (hlossy : lossy = true) :
      Step lossy x y { x with inboxClosed := true } y
  | endWired {x y} (hlossy : lossy = true) :
      Step lossy x y { x with wired := x.wired.drop } y
  | endHelper {x y} (hlossy : lossy = true) :
      Step lossy x y { x with helper := x.helper.drop } y

/-! ## Registration -/

/-- The registration with a task is the first item of its queue, or has been
received, or was refused because the queue was closed. -/
def Registers {ν : Type} (closed : Bool) (life : Life) (queue : List (Item ν)) : Prop :=
  (life = .unregistered ∧ ∃ rest, queue = .register :: rest ∧ .register ∉ rest) ∨
    (life ≠ .unregistered ∧ .register ∉ queue) ∨
    (life = .unregistered ∧ queue = [] ∧ closed = true)

namespace Registers

variable {ν : Type} {closed : Bool} {life : Life} {queue : List (Item ν)} {item : Item ν}

theorem start (closed : Bool) :
    Registers closed .unregistered (trySend closed [] (.register : Item ν)) := by
  cases closed with
  | false => exact Or.inl ⟨rfl, [], rfl, List.not_mem_nil⟩
  | true => exact Or.inr (Or.inr ⟨rfl, rfl, rfl⟩)

theorem send (h : Registers closed life queue) (hitem : item ≠ .register) :
    Registers closed life (trySend closed queue item) := by
  cases closed with
  | true => exact h
  | false =>
      rw [trySend_open]
      rcases h with ⟨hlife, rest, rfl, hrest⟩ | ⟨hlife, hqueue⟩ | ⟨-, -, ⟨⟩⟩
      · refine Or.inl ⟨hlife, rest ++ [item], rfl, ?_⟩
        simpa [hrest] using hitem.symm
      · refine Or.inr (Or.inl ⟨hlife, ?_⟩)
        simpa [hqueue] using hitem.symm

/-- The registration is received. -/
theorem receive (h : Registers closed life (.register :: queue)) :
    Registers closed .live queue := by
  rcases h with ⟨-, rest, heq, hrest⟩ | ⟨-, hqueue⟩ | ⟨-, hqueue, -⟩
  · cases heq
    exact Or.inr (Or.inl ⟨nofun, hrest⟩)
  · exact absurd List.mem_cons_self hqueue
  · cases hqueue

theorem unregistered (h : Registers closed life (.register :: queue)) :
    life = .unregistered := by
  rcases h with ⟨hlife, -⟩ | ⟨-, hqueue⟩ | ⟨hlife, -⟩
  · exact hlife
  · exact absurd List.mem_cons_self hqueue
  · exact hlife

/-- Any other item comes after it. -/
theorem registered (h : Registers closed life (item :: queue)) (hitem : item ≠ .register) :
    life ≠ .unregistered ∧ .register ∉ queue := by
  rcases h with ⟨-, rest, heq, -⟩ | ⟨hlife, hqueue⟩ | ⟨-, hqueue, -⟩
  · cases heq
    exact absurd rfl hitem
  · exact ⟨hlife, fun hmem => hqueue (List.mem_cons_of_mem _ hmem)⟩
  · cases hqueue

theorem pop (h : Registers closed life (item :: queue)) (hitem : item ≠ .register) :
    Registers closed life queue := Or.inr (Or.inl (h.registered hitem))

theorem die (h : Registers closed life (item :: queue)) (hitem : item ≠ .register) :
    Registers closed .dead queue := Or.inr (Or.inl ⟨nofun, (h.registered hitem).2⟩)

/-- Nothing is left to receive. -/
theorem of_nil (h : Registers closed life queue) (hopen : closed = false)
    (hqueue : queue = []) : life ≠ .unregistered := by
  subst hopen hqueue
  rcases h with ⟨-, _, ⟨⟩, -⟩ | ⟨hlife, -⟩ | ⟨-, -, ⟨⟩⟩
  exact hlife

theorem close (h : Registers closed life queue) : Registers true life queue := by
  rcases h with h | h | ⟨hlife, hqueue, -⟩
  · exact Or.inl h
  · exact Or.inr (Or.inl h)
  · exact Or.inr (Or.inr ⟨hlife, hqueue, rfl⟩)

theorem drop (h : Registers closed life queue) : Registers closed life.drop queue := by
  cases life with
  | live =>
      rcases h with ⟨⟨⟩, -⟩ | ⟨-, hqueue⟩ | ⟨⟨⟩, -⟩
      exact Or.inr (Or.inl ⟨nofun, hqueue⟩)
  | unregistered | dead => exact h

end Registers

/-- Nothing has passed through the end, which does not have its stream yet. -/
structure Fresh (x : StreamEnd μ) : Prop where
  known : x.known = false
  helper : x.helper = .unregistered
  inbox : x.inbox = []
  todo : x.todo = []
  out : x.out = []
  held : x.held = false
  closed : x.closed = false
  buf : x.buf = []
  flushing : x.flushing = none
  flushed : x.flushed = []
  handed : x.handed = []
  drops : x.drops = 0

/-- `Wired` does not have it either. -/
structure Idle (x : StreamEnd μ) : Prop extends Fresh x where
  pending : x.pending = false
  wired : x.wired = .unregistered
  queue : x.queue = []

/-- The end has its stream, and the two tasks are told. The other end has sent
`sent`, and `peer` says if it has the stream. -/
structure Settled (x : StreamEnd μ) (sent : List (Item μ)) (peer : Bool) : Prop where
  known : x.known = true
  pending : x.pending = false
  sent : .register ∉ sent
  peer : x.opener = false → peer = true
  wired : Registers x.queueClosed x.wired x.queue
  helper : Registers x.inboxClosed x.helper x.inbox

/-- How far the registration of an end is. -/
inductive Registration (x : StreamEnd μ) (sent : List (Item μ)) (peer : Bool) : Prop where
  | unopened (hidle : x.Idle) (hsent : sent = []) (hpeer : x.opener = false → peer = false)
  /-- The id is on its way, before anything else. -/
  | coming (hidle : x.Idle) (hopener : x.opener = false) (hpeer : peer = true)
      (rest : List (Item μ)) (hsent : sent = .register :: rest) (hrest : .register ∉ rest)
  /-- `Wired` has been told. -/
  | accepting (hfresh : x.Fresh) (hpending : x.pending = true) (hopener : x.opener = false)
      (hpeer : peer = true) (hsent : .register ∉ sent)
      (hwired : Registers x.queueClosed x.wired x.queue)
      (honly : ∀ item ∈ x.queue, item = .register)
  | settled (h : x.Settled sent peer)

namespace Registration

variable {x : StreamEnd μ} {sent : List (Item μ)} {peer : Bool}

theorem of_not_fresh (h : x.Registration sent peer) (hx : ¬ x.Fresh) :
    x.Settled sent peer := by
  cases h with
  | unopened hidle => exact absurd hidle.toFresh hx
  | coming hidle => exact absurd hidle.toFresh hx
  | accepting hfresh => exact absurd hfresh hx
  | settled h => exact h

theorem of_queue (h : x.Registration sent peer) {item : Item Unit}
    {queue : List (Item Unit)} (hqueue : x.queue = item :: queue)
    (hitem : item ≠ .register) : x.Settled sent peer := by
  cases h with
  | unopened hidle => cases hidle.queue.symm.trans hqueue
  | coming hidle => cases hidle.queue.symm.trans hqueue
  | accepting _ _ _ _ _ _ honly =>
      exact absurd (honly item (hqueue ▸ List.mem_cons_self)) hitem
  | settled h => exact h

/-- The other end, which has its stream, sends something else, or takes a notice
to its own helper from its calls. -/
theorem resend (h : x.Registration sent peer) (hpeer : peer = true)
    (hx : x.opener = true → x.known = true) {sent' : List (Item μ)}
    (hmem : .register ∈ sent' → .register ∈ sent)
    (hhead : ∀ rest, sent = .register :: rest → .register ∉ rest →
      ∃ rest', sent' = .register :: rest' ∧ .register ∉ rest') :
    x.Registration sent' peer := by
  cases h with
  | unopened hidle _ hfalse =>
      cases hopener : x.opener with
      | true => cases hidle.known.symm.trans (hx hopener)
      | false => cases hpeer.symm.trans (hfalse hopener)
  | coming hidle hopener hpeer rest hsent hrest =>
      obtain ⟨rest', hsent', hrest'⟩ := hhead rest hsent hrest
      exact .coming hidle hopener hpeer rest' hsent' hrest'
  | accepting hfresh hpending hopener hpeer hsent hwired honly =>
      exact .accepting hfresh hpending hopener hpeer (mt hmem hsent) hwired honly
  | settled h => exact .settled { h with sent := mt hmem h.sent }

theorem more (h : x.Registration sent peer) (hpeer : peer = true)
    (hx : x.opener = true → x.known = true) {items : List (Item μ)}
    (hitems : .register ∉ items) : x.Registration (sent ++ items) peer := by
  refine h.resend hpeer hx ?_ ?_
  · intro hmem
    exact (List.mem_append.mp hmem).resolve_right hitems
  · rintro rest rfl hrest
    refine ⟨rest ++ items, rfl, ?_⟩
    intro hmem
    exact (List.mem_append.mp hmem).elim hrest hitems

/-- A channel is closed, or a task ends. -/
theorem closing (h : x.Registration sent peer) {x' : StreamEnd μ}
    (hopener : x'.opener = x.opener) (hknown : x'.known = x.known)
    (hpending : x'.pending = x.pending) (hqueue : x'.queue = x.queue)
    (hfresh : x.Fresh → x'.Fresh) (hlife : x.wired = .unregistered → x'.wired = .unregistered)
    (hwired : Registers x.queueClosed x.wired x.queue →
      Registers x'.queueClosed x'.wired x'.queue)
    (hhelper : Registers x.inboxClosed x.helper x.inbox →
      Registers x'.inboxClosed x'.helper x'.inbox) : x'.Registration sent peer := by
  have hidle : x.Idle → x'.Idle := fun h =>
    { hfresh h.toFresh with
      pending := hpending.trans h.pending
      wired := hlife h.wired
      queue := hqueue.trans h.queue }
  cases h with
  | unopened hi hsent hpeer => exact .unopened (hidle hi) hsent fun ho => hpeer (hopener ▸ ho)
  | coming hi ho hpeer rest hsent hrest =>
      exact .coming (hidle hi) (hopener.trans ho) hpeer rest hsent hrest
  | accepting hf hp ho hpeer hsent hw honly =>
      exact .accepting (hfresh hf) (hpending.trans hp) (hopener.trans ho) hpeer hsent
        (hwired hw) (by rwa [hqueue])
  | settled h =>
      exact .settled {
        known := hknown.trans h.known
        pending := hpending.trans h.pending
        sent := h.sent
        peer := fun ho => h.peer (hopener ▸ ho)
        wired := hwired h.wired
        helper := hhelper h.helper }

end Registration

/-- Both ends. -/
structure Registered (x y : StreamEnd μ) : Prop where
  role : x.opener = !y.opener
  left : x.Registration (y.out ++ y.todo) y.known
  right : y.Registration (x.out ++ x.todo) x.known

namespace Registered

variable {x y x' : StreamEnd μ}

theorem symm (h : Registered x y) : Registered y x :=
  ⟨by rw [h.role, Bool.not_not], h.right, h.left⟩

/-- If an end has its stream, so has the end that opened it. -/
theorem opened (h : Registered x y) (hx : x.known = true) (hy : y.opener = true) :
    y.known = true := by
  refine (h.left.of_not_fresh fun hfresh => ?_).peer (by rw [h.role, hy]; rfl)
  cases hfresh.known.symm.trans hx

theorem wired_unregistered (h : Registered x y) {queue : List (Item Unit)}
    (hqueue : x.queue = .register :: queue) : x.wired = .unregistered := by
  cases h.left with
  | unopened hidle => exact hidle.wired
  | coming hidle => exact hidle.wired
  | accepting _ _ _ _ _ hwired => exact (hqueue ▸ hwired).unregistered
  | settled h => exact (hqueue ▸ h.wired).unregistered

theorem wired_registered (h : Registered x y) {item : Item Unit}
    {queue : List (Item Unit)} (hqueue : x.queue = item :: queue)
    (hitem : item ≠ .register) : x.wired ≠ .unregistered :=
  ((hqueue ▸ (h.left.of_queue hqueue hitem).wired).registered hitem).1

/-- An end whose helper has been sent something has its stream. -/
theorem of_inbox (h : Registered x y) {item : Item μ} {inbox : List (Item μ)}
    (hinbox : x.inbox = item :: inbox) : Registers x.inboxClosed x.helper (item :: inbox) :=
  hinbox ▸ (h.left.of_not_fresh fun hf => by cases hf.inbox.symm.trans hinbox).helper

theorem unopened (h : Registered x y) (hopener : x.opener = true)
    (hknown : x.known = false) : x.Idle := by
  cases h.left with
  | unopened hidle => exact hidle
  | coming hidle => exact hidle
  | accepting _ _ hacceptor => cases hacceptor.symm.trans hopener
  | settled hx => cases hx.known.symm.trans hknown

/-- The other end does not see the step. -/
theorem own (h : Registered x y) (hopener : x'.opener = x.opener)
    (hknown : x'.known = x.known) (hout : x'.out = x.out) (htodo : x'.todo = x.todo)
    (hx' : x'.Registration (y.out ++ y.todo) y.known) : Registered x' y :=
  ⟨hopener.trans h.role, hx', by rw [hout, htodo, hknown]; exact h.right⟩

/-- The end makes further calls, which are no registration. -/
theorem calls (h : Registered x y) (hx : x.Settled (y.out ++ y.todo) y.known)
    {items : List (Item μ)} (htodo : x.todo = []) (hitems : .register ∉ items)
    (hopener : x'.opener = x.opener) (hknown : x'.known = x.known) (hout : x'.out = x.out)
    (htodo' : x'.todo = items) (hx' : x'.Settled (y.out ++ y.todo) y.known) :
    Registered x' y := by
  refine ⟨hopener.trans h.role, .settled hx', ?_⟩
  have hright := h.right
  rw [htodo, List.append_nil] at hright
  rw [hout, htodo', hknown]
  exact hright.more hx.known (h.opened hx.known) hitems

/-! ### Steps that both ends see -/

theorem step_open (h : Registered x y) (hopener : x.opener = true)
    (hknown : x.known = false) :
    Registered { x with
      known := true
      wired := .live
      inbox := trySend x.inboxClosed x.inbox .register
      todo := .register :: x.todo } y := by
  have hidle := h.unopened hopener hknown
  have hsent : y.out ++ y.todo = [] := by
    cases h.left with
    | unopened _ hsent => exact hsent
    | coming _ hacceptor => cases hacceptor.symm.trans hopener
    | accepting _ _ hacceptor => cases hacceptor.symm.trans hopener
    | settled hx => cases hx.known.symm.trans hknown
  have hacceptor : y.opener = false := by simpa [hopener] using h.role
  refine ⟨h.role, .settled {
    known := rfl
    pending := hidle.pending
    sent := by rw [hsent]; exact List.not_mem_nil
    peer := fun ho => by cases ho.symm.trans hopener
    wired := Or.inr (Or.inl ⟨nofun, by rw [hidle.queue]; exact List.not_mem_nil⟩)
    helper := by rw [hidle.helper, hidle.inbox]; exact .start _ }, ?_⟩
  cases h.right with
  | unopened hy =>
      refine .coming hy hacceptor rfl [] ?_ List.not_mem_nil
      rw [hidle.out, hidle.todo]
      rfl
  | coming _ _ hpeer => cases hpeer.symm.trans hknown
  | accepting _ _ _ hpeer => cases hpeer.symm.trans hknown
  | settled hy => cases (hy.peer hacceptor).symm.trans hknown

/-- The notice to the helper leaves the calls, after the registration. -/
theorem step_notify (h : Registered x y) {todo : List (Item μ)}
    (htodo : x.todo = .drop false :: todo) :
    Registered { x with
      todo := todo
      inbox := trySend x.inboxClosed x.inbox (.drop false) } y := by
  have hx := h.left.of_not_fresh fun hf => by cases hf.todo.symm.trans htodo
  refine ⟨h.role, .settled { hx with helper := hx.helper.send nofun }, ?_⟩
  have hright := h.right
  rw [htodo] at hright
  refine hright.resend hx.known (h.opened hx.known) ?_ ?_
  · simp only [List.mem_append, List.mem_cons]
    exact Or.imp_right Or.inr
  · intro rest hsent hrest
    rcases hout : x.out with _ | ⟨item, out⟩
    · rw [hout] at hsent
      cases hsent
    · rw [hout, List.cons_append] at hsent
      obtain ⟨rfl, rfl⟩ := List.cons.inj hsent
      refine ⟨out ++ _, rfl, fun hmem => hrest ?_⟩
      exact ((List.sublist_cons_self ..).append_left out).subset hmem

theorem step_accept (h : Registered x y) {out : List (Item μ)}
    (hout : y.out = .register :: out) (hpending : x.pending = false) :
    Registered { x with
      pending := true
      queue := trySend x.queueClosed x.queue .register
      wired := if x.queueClosed then x.wired.refuse else x.wired } { y with out := out } := by
  have hy := h.right.of_not_fresh fun hf => by cases hf.out.symm.trans hout
  have hx := h.left
  refine ⟨h.role, ?_, .settled { hy with }⟩
  rw [hout] at hx
  cases hx with
  | unopened _ hsent => cases hsent
  | coming hidle hopener hpeer rest hsent hrest =>
      cases hsent
      have hwired : Registers x.queueClosed
          (if x.queueClosed then x.wired.refuse else x.wired)
          (trySend x.queueClosed x.queue .register) := by
        rw [hidle.queue, hidle.wired]
        cases x.queueClosed with
        | false => exact .start false
        | true => exact Or.inr (Or.inl ⟨nofun, List.not_mem_nil⟩)
      refine .accepting { hidle.toFresh with } rfl hopener hpeer hrest hwired ?_
      intro item hmem
      rw [hidle.queue] at hmem
      exact (mem_trySend hmem).resolve_left List.not_mem_nil
  | accepting _ hpending' => cases hpending.symm.trans hpending'
  | settled h => exact absurd List.mem_cons_self h.sent

theorem step_accepted (h : Registered x y) (hpending : x.pending = true) :
    Registered { x with
      pending := false
      known := true
      held := true
      inbox := trySend x.inboxClosed x.inbox .register } y := by
  cases h.left with
  | unopened hidle => cases hidle.pending.symm.trans hpending
  | coming hidle => cases hidle.pending.symm.trans hpending
  | accepting hfresh _ hopener hpeer hsent hwired =>
      have hy := h.right.of_not_fresh fun hf => by cases hf.known.symm.trans hpeer
      exact ⟨h.role, .settled {
        known := rfl
        pending := rfl
        sent := hsent
        peer := fun _ => hpeer
        wired := hwired
        helper := by rw [hfresh.helper, hfresh.inbox]; exact .start _ },
        .settled { hy with peer := fun _ => rfl }⟩
  | settled h => cases h.pending.symm.trans hpending

theorem step_read (h : Registered x y) {item : Item μ} {out : List (Item μ)}
    (hout : y.out = item :: out) (hitem : item ≠ .register) (hpending : x.pending = false) :
    Registered { x with inbox := trySend x.inboxClosed x.inbox item }
      { y with out := out } := by
  have hy := h.right.of_not_fresh fun hf => by cases hf.out.symm.trans hout
  have hx := h.left
  refine ⟨h.role, ?_, .settled { hy with }⟩
  rw [hout] at hx
  cases hx with
  | unopened _ hsent => cases hsent
  | coming _ _ _ _ hsent =>
      cases hsent
      exact absurd rfl hitem
  | accepting _ hpending' => cases hpending.symm.trans hpending'
  | settled h =>
      exact .settled { h with
        sent := fun hmem => h.sent (List.mem_cons_of_mem _ hmem)
        helper := h.helper.send hitem }

end Registered

/-- The registrations stay in order. -/
theorem Step.registered {lossy : Bool} {x y x' y' : StreamEnd μ}
    (hs : Step lossy x y x' y') (h : Registered x y) : Registered x' y' := by
  have hx := h.left
  cases hs with
  | flush hheld =>
      have hx := hx.of_not_fresh fun hf => by cases hf.held.symm.trans hheld
      exact h.own rfl rfl rfl rfl (.settled { hx with })
  | flushed hflushing hopen =>
      have hx := hx.of_not_fresh fun hf => by cases hf.flushing.symm.trans hflushing
      exact h.own rfl rfl rfl rfl (.settled { hx with wired := hx.wired.send nofun })
  | aborted hflushing =>
      have hx := hx.of_not_fresh fun hf => by cases hf.flushing.symm.trans hflushing
      exact h.own rfl rfl rfl rfl (.settled { hx with })
  | close read hheld =>
      have hx := hx.of_not_fresh fun hf => by cases hf.held.symm.trans hheld
      exact h.own rfl rfl rfl rfl (.settled { hx with wired := hx.wired.send nofun })
  | «open» hopener hknown => exact h.step_open hopener hknown
  | wiredRegister hqueue =>
      refine h.own rfl rfl rfl rfl ?_
      cases hx with
      | unopened hidle => cases hidle.queue.symm.trans hqueue
      | coming hidle => cases hidle.queue.symm.trans hqueue
      | accepting hfresh hpending hopener hpeer hsent hwired honly =>
          rw [hqueue] at hwired honly
          exact .accepting { hfresh with } hpending hopener hpeer hsent hwired.receive
            fun item hmem => honly item (List.mem_cons_of_mem _ hmem)
      | settled h => exact .settled { h with wired := (hqueue ▸ h.wired).receive }
  | wiredMessage hqueue htodo =>
      have hx := hx.of_queue hqueue nofun
      exact h.calls hx htodo (by simp) rfl rfl rfl rfl
        { hx with wired := (hqueue ▸ hx.wired).pop nofun }
  | wiredSkip hqueue =>
      have hx := hx.of_queue hqueue nofun
      exact h.own rfl rfl rfl rfl (.settled { hx with
        wired := (hqueue ▸ hx.wired).pop nofun })
  | wiredDrop hqueue htodo =>
      have hx := hx.of_queue hqueue nofun
      exact h.calls hx htodo (by split <;> simp) rfl rfl rfl rfl
        { hx with wired := (hqueue ▸ hx.wired).die nofun }
  | wiredIgnore hqueue =>
      have hx := hx.of_queue hqueue nofun
      exact h.own rfl rfl rfl rfl (.settled { hx with
        wired := (hqueue ▸ hx.wired).pop nofun })
  | write htodo =>
      have hx := hx.of_not_fresh fun hf => by cases hf.todo.symm.trans htodo
      refine ⟨h.role, .settled { hx with }, ?_⟩
      have hright := h.right
      rw [htodo, List.append_cons] at hright
      exact hright
  | notify htodo => exact h.step_notify htodo
  | accept hout hpending => exact h.step_accept hout hpending
  | accepted hpending => exact h.step_accepted hpending
  | read hout hitem hpending => exact h.step_read hout hitem hpending
  | helperRegister hinbox =>
      have hx := hx.of_not_fresh fun hf => by cases hf.inbox.symm.trans hinbox
      exact h.own rfl rfl rfl rfl (.settled { hx with
        helper := (hinbox ▸ hx.helper).receive })
  | helperMessage hinbox =>
      have hx := hx.of_not_fresh fun hf => by cases hf.inbox.symm.trans hinbox
      exact h.own rfl rfl rfl rfl (.settled { hx with
        helper := (hinbox ▸ hx.helper).pop nofun })
  | helperDrop hinbox =>
      have hx := hx.of_not_fresh fun hf => by cases hf.inbox.symm.trans hinbox
      refine h.own rfl rfl rfl rfl (.settled { hx with
        helper := (hinbox ▸ hx.helper).die nofun
        wired := ?_ })
      split
      · exact hx.wired.send nofun
      · exact hx.wired
  | helperIgnore hinbox =>
      have hx := hx.of_not_fresh fun hf => by cases hf.inbox.symm.trans hinbox
      exact h.own rfl rfl rfl rfl (.settled { hx with
        helper := (hinbox ▸ hx.helper).pop nofun })
  | closeQueue =>
      exact h.own rfl rfl rfl rfl
        (hx.closing rfl rfl rfl rfl (fun hf => { hf with }) id .close id)
  | closeInbox =>
      exact h.own rfl rfl rfl rfl
        (hx.closing rfl rfl rfl rfl (fun hf => { hf with }) id id .close)
  | endWired =>
      exact h.own rfl rfl rfl rfl
        (hx.closing rfl rfl rfl rfl (fun hf => { hf with }) (by simp +contextual [Life.drop])
          .drop id)
  | endHelper =>
      exact h.own rfl rfl rfl rfl
        (hx.closing rfl rfl rfl rfl
          (fun hf => { hf with helper := by rw [hf.helper]; rfl }) id id .drop)

end StreamEnd

end WiringRs
