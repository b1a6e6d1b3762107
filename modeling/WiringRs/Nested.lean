import WiringRs.Incoming

/-!
# Opening a nested wire

`Wire::stream` of the opener connects to the remote, reads the info of the new wire
and then announces the wire's id on the parent wire. The listener writes that info
first, and then looks the parent up and puts the wire into its queue. The reader of
the parent wire reads the id, drops it, and takes from the queue without waiting.

A connection is named by the number of connections made before it. The opener opens
one wire at a time; when an open fails its connection is left behind. A wire or an id
stands beside the connection that it is of, which no step reads. Only the opener has the
key of the parent wire. Other events of the listener are handled at once.
-/

namespace WiringRs

inductive Request (U : UrlCrate) where
  /-- A connection of the opener, with the parent's id and key. -/
  | nested (conn : Nat) (remoteInfo : Option (WireInfo U)) (reply : Option Nat)
  | other (event : WireListenerEvent U)

def Request.conn? {U : UrlCrate} : Request U → Option Nat
  | .nested conn _ _ => some conn
  | .other _ => none

/-- What the listener's loop has in hand after writing the info of a new wire. -/
structure Handling (U : UrlCrate) where
  conn : Nat
  turn : Turn
  wire : WireStream U
  reply : Option Nat

inductive Opener (U : UrlCrate) where
  | idle
  /-- `wire.unwire().await` -/
  | opening (conn : Nat)
  /-- `self.wiring(remote_wire_id).await` -/
  | informed (conn : Nat) (info : WireInfo U)

/-- The connection of the open that is going on. -/
def Opener.conn? {U : UrlCrate} : Opener U → Option Nat
  | .idle => none
  | .opening conn => some conn
  | .informed conn _ => some conn

/-- What the opener has read and has still to announce. -/
def Opener.announces {U : UrlCrate} : Opener U → List (Nat × WireId)
  | .idle => []
  | .opening _ => []
  | .informed conn info => [(conn, info.wireId)]

structure Nested (U : UrlCrate) where
  listener : WireListener U
  opener : Opener U := .idle
  /-- How many connections have been made. -/
  conns : Nat := 0
  /-- The connections that have not reached the listener's inbox. -/
  arriving : List Nat := []
  inbox : List (Request U) := []
  handling : Option (Handling U) := none
  /-- The info that is to be read on a connection. -/
  infos : Nat → Option (WireInfo U) := fun _ => none
  /-- The parent's queue. -/
  queue : List (Nat × WireStream U) := []
  /-- The ids on the parent wire. -/
  announced : List (Nat × WireId) := []
  /-- The id that the reader has read. -/
  reader : Option (Nat × WireId) := none
  /-- What has been put into the queue. -/
  pushed : List (Nat × WireStream U) := []
  /-- The ids in the infos that the opener has read. -/
  informed : List (Nat × WireId) := []
  /-- The ids for which an open has returned `Ok`. -/
  opened : List (Nat × WireId) := []
  /-- The streams that the reader has returned, and the ids read for them. -/
  taken : List ((Nat × WireId) × (Nat × WireStream U)) := []
  /-- How often it has returned an error. -/
  refused : Nat := 0

inductive NestedAction (U : UrlCrate) where
  | connect
  | arrive (conn : Nat) (remoteInfo : Option (WireInfo U)) (reply : Option Nat)
  | post (event : WireListenerEvent U)
  /-- The loop takes the next event; of a nested wire it writes the info. -/
  | recv (turn : Turn)
  /-- It forwards the wire. -/
  | forward
  /-- A receiver of incoming wires is dropped. -/
  | close (incoming : Nat)
  | readInfo
  | announce
  /-- The open fails, or is given up. -/
  | fail
  | readId
  | tryRecv

namespace Nested

variable {U : UrlCrate}

/-- The event goes into the queue of the channel. -/
def Forwards (l : WireListener U) (channel : Nat) : WireListenerEvent U → Prop
  | .incomingWire _ _ (some forwardInfo) _ =>
      l.wires forwardInfo.1 = some (forwardInfo.2, channel)
  | _ => False

instance (l : WireListener U) (channel : Nat) (event : WireListenerEvent U) :
    Decidable (Forwards l channel event) := by
  unfold Forwards
  split <;> infer_instance

/-- The rest of `WireListener::handle` for a wire that is forwarded. -/
def forward (parent : ForwardInfo) (channel : Nat) (s : Nested U) (h : Handling U) :
    Nested U :=
  let l := { s.listener with channels := s.listener.channels + 1 }
  let s := { s with
    listener := (l.forward h.turn h.wire parent h.reply).signalDrop h.wire
    handling := none }
  match l.lookup parent with
  | .ok sender =>
      if sender = channel then
        { s with
          queue := s.queue ++ [(h.conn, h.wire)]
          pushed := s.pushed ++ [(h.conn, h.wire)] }
      else s
  | .error _ => s

def step (parent : ForwardInfo) (channel : Nat) (s : Nested U) :
    NestedAction U → Option (Nested U)
  | .connect =>
      match s.opener with
      | .idle => some { s with
          opener := .opening s.conns
          conns := s.conns + 1
          arriving := s.conns :: s.arriving }
      | _ => none
  | .arrive conn remoteInfo reply =>
      if conn ∈ s.arriving then some { s with
        arriving := s.arriving.erase conn
        inbox := s.inbox ++ [.nested conn remoteInfo reply] }
      else none
  | .post event => some { s with inbox := s.inbox ++ [.other event] }
  | .recv turn =>
      match s.handling, s.inbox with
      | none, .nested conn remoteInfo reply :: inbox => do
          let wire ← s.listener.make turn (.incomingWire [] remoteInfo (some parent) reply)
          some { s with
            inbox := inbox
            handling := some ⟨conn, turn, wire, reply⟩
            infos := if turn.fault.isNone then
              Function.update s.infos conn (some wire.wireInfo) else s.infos }
      | none, .other event :: inbox =>
          -- nobody else has the parent's key
          if Forwards s.listener channel event then none
          else do
            let listener ← s.listener.handle turn event
            some { s with listener := listener, inbox := inbox }
      | _, _ => none
  | .forward => s.handling.map (s.forward parent channel)
  | .close incoming => some { s with
      listener := { s.listener with alive := s.listener.alive.erase incoming } }
  | .readInfo =>
      match s.opener with
      | .opening conn =>
          match s.infos conn with
          | some info => some { s with
              opener := .informed conn info
              infos := Function.update s.infos conn none
              informed := (conn, info.wireId) :: s.informed }
          | none => none
      | _ => none
  | .announce =>
      match s.opener with
      | .informed conn info => some { s with
          opener := .idle
          announced := s.announced ++ [(conn, info.wireId)]
          opened := s.opened ++ [(conn, info.wireId)] }
      | _ => none
  | .fail =>
      match s.opener with
      | .idle => none
      | _ => some { s with opener := .idle }
  | .readId =>
      match s.reader, s.announced with
      | none, o :: announced => some { s with announced := announced, reader := some o }
      | _, _ => none
  | .tryRecv =>
      match s.reader with
      | none => none
      | some o =>
          match s.queue with
          -- the id that was announced is not compared
          | wire :: queue => some { s with
              reader := none, queue := queue, taken := s.taken ++ [(o, wire)] }
          | [] => some { s with reader := none, refused := s.refused + 1 }

end Nested

/-- The parent wire takes its nested wires from the channel. The listener may be in any
state. -/
def nested {U : UrlCrate} (parent : ForwardInfo) (channel : Nat) (listener : WireListener U) :
    Machine (Nested U) (NestedAction U) :=
  ⟨{ listener := listener }, Nested.step parent channel⟩

namespace Nested

variable {U : UrlCrate} {parent : ForwardInfo} {channel : Nat} {s s' : Nested U}

theorem forward_listener (h : Handling U) :
    (s.forward parent channel h).listener
      = WireListener.signalDrop (WireListener.forward
        { s.listener with channels := s.listener.channels + 1 } h.turn h.wire parent
        h.reply) h.wire := by
  unfold forward
  dsimp only
  split
  · split <;> rfl
  · rfl

/-- With nothing in between the two parts are `WireListener::handle`. -/
theorem recv_forward {turn : Turn} {conn : Nat} {remoteInfo : Option (WireInfo U)}
    {reply : Option Nat} {inbox : List (Request U)} (hhandling : s.handling = none)
    (hinbox : s.inbox = .nested conn remoteInfo reply :: inbox)
    (hs : s.step parent channel (.recv turn) = some s') :
    ∃ h, s'.handling = some h ∧
      s.listener.handle turn (.incomingWire [] remoteInfo (some parent) reply)
        = some (s'.forward parent channel h).listener := by
  simp only [step, hhandling, hinbox] at hs
  obtain ⟨wire, hmake, hs⟩ := Option.bind_eq_some_iff.mp hs
  cases hs
  obtain ⟨l, hl⟩ : ∃ l, s.listener.handle turn
      (.incomingWire [] remoteInfo (some parent) reply) = some l := by
    obtain ⟨wireId, hdraw, -⟩ := Option.bind_eq_some_iff.mp hmake
    exact ⟨_, Option.bind_eq_some_iff.mpr ⟨wireId, hdraw, rfl⟩⟩
  obtain ⟨wire', hmake', -, -, -, ⟨_, ⟨⟩, rfl⟩ | ⟨⟨⟩, -⟩⟩ :=
    WireListener.handle_incomingWire_cases hl
  obtain rfl := Option.some.inj (hmake.symm.trans hmake')
  refine ⟨_, rfl, ?_⟩
  rw [forward_listener]
  exact hl

/-! ## What a step does -/

/-- The steps, with what they need and what they change. -/
inductive Moves (parent : ForwardInfo) (channel : Nat) (s : Nested U) :
    NestedAction U → Nested U → Prop
  | connect : s.opener = .idle →
      Moves parent channel s .connect { s with
        opener := .opening s.conns
        conns := s.conns + 1
        arriving := s.conns :: s.arriving }
  | arrive {conn : Nat} {remoteInfo : Option (WireInfo U)} {reply : Option Nat} :
      conn ∈ s.arriving →
      Moves parent channel s (.arrive conn remoteInfo reply) { s with
        arriving := s.arriving.erase conn
        inbox := s.inbox ++ [.nested conn remoteInfo reply] }
  | post {event : WireListenerEvent U} :
      Moves parent channel s (.post event) { s with inbox := s.inbox ++ [.other event] }
  | recv {turn : Turn} {conn : Nat} {remoteInfo : Option (WireInfo U)} {reply : Option Nat}
      {inbox : List (Request U)} {wire : WireStream U} : s.handling = none →
      s.inbox = .nested conn remoteInfo reply :: inbox →
      Moves parent channel s (.recv turn) { s with
        inbox := inbox
        handling := some ⟨conn, turn, wire, reply⟩
        infos := if turn.fault.isNone then
          Function.update s.infos conn (some wire.wireInfo) else s.infos }
  | recvOther {turn : Turn} {event : WireListenerEvent U} {inbox : List (Request U)}
      {l : WireListener U} : s.inbox = .other event :: inbox →
      Moves parent channel s (.recv turn) { s with listener := l, inbox := inbox }
  | forward {h : Handling U} {l : WireListener U} : s.handling = some h →
      s.listener.lookup parent = .ok channel →
      Moves parent channel s .forward { s with
        listener := l
        handling := none
        queue := s.queue ++ [(h.conn, h.wire)]
        pushed := s.pushed ++ [(h.conn, h.wire)] }
  | reject {h : Handling U} {l : WireListener U} : s.handling = some h →
      s.listener.lookup parent ≠ .ok channel →
      Moves parent channel s .forward { s with listener := l, handling := none }
  | close {incoming : Nat} {l : WireListener U} :
      Moves parent channel s (.close incoming) { s with listener := l }
  | readInfo {conn : Nat} {info : WireInfo U} : s.opener = .opening conn →
      s.infos conn = some info →
      Moves parent channel s .readInfo { s with
        opener := .informed conn info
        infos := Function.update s.infos conn none
        informed := (conn, info.wireId) :: s.informed }
  | announce {conn : Nat} {info : WireInfo U} : s.opener = .informed conn info →
      Moves parent channel s .announce { s with
        opener := .idle
        announced := s.announced ++ [(conn, info.wireId)]
        opened := s.opened ++ [(conn, info.wireId)] }
  | fail : s.opener ≠ .idle → Moves parent channel s .fail { s with opener := .idle }
  | readId {o : Nat × WireId} {announced : List (Nat × WireId)} : s.reader = none →
      s.announced = o :: announced →
      Moves parent channel s .readId { s with announced := announced, reader := some o }
  | tryRecv {o : Nat × WireId} {wire : Nat × WireStream U}
      {queue : List (Nat × WireStream U)} : s.reader = some o → s.queue = wire :: queue →
      Moves parent channel s .tryRecv { s with
        reader := none, queue := queue, taken := s.taken ++ [(o, wire)] }
  | refuse {o : Nat × WireId} : s.reader = some o → s.queue = [] →
      Moves parent channel s .tryRecv { s with
        reader := none, refused := s.refused + 1 }

theorem forward_moves {h : Handling U} (hhandling : s.handling = some h) :
    Moves parent channel s .forward (s.forward parent channel h) := by
  have hlookup : WireListener.lookup { s.listener with channels := s.listener.channels + 1 }
      parent = s.listener.lookup parent := rfl
  simp only [forward, hlookup]
  split
  · rename_i sender hsender
    split
    · rename_i heq
      exact .forward hhandling (heq ▸ hsender)
    · rename_i hne
      exact .reject hhandling fun h => hne (Except.ok.inj (hsender.symm.trans h))
  · rename_i e he
    exact .reject hhandling fun h => by cases he.symm.trans h

theorem step_moves {a : NestedAction U} (hs : s.step parent channel a = some s') :
    Moves parent channel s a s' := by
  cases a with
  | connect =>
      cases hopener : s.opener with
      | idle =>
          simp only [step, hopener] at hs
          cases hs
          exact .connect hopener
      | opening | informed =>
          simp only [step, hopener] at hs
          cases hs
  | arrive conn remoteInfo reply =>
      obtain ⟨hmem, hs⟩ := Option.ite_none_right_eq_some.mp hs
      cases hs
      exact .arrive hmem
  | post event =>
      cases hs
      exact .post
  | recv turn =>
      cases hhandling : s.handling with
      | some h => simp only [step, hhandling, reduceCtorEq] at hs
      | none =>
          cases hinbox : s.inbox with
          | nil => simp only [step, hhandling, hinbox, reduceCtorEq] at hs
          | cons request inbox =>
              cases request with
              | nested conn remoteInfo reply =>
                  simp only [step, hhandling, hinbox] at hs
                  obtain ⟨wire, -, hs⟩ := Option.bind_eq_some_iff.mp hs
                  cases hs
                  exact .recv hhandling hinbox
              | other event =>
                  simp only [step, hhandling, hinbox] at hs
                  obtain ⟨-, hs⟩ := Option.ite_none_left_eq_some.mp hs
                  obtain ⟨l, -, hs⟩ := Option.bind_eq_some_iff.mp hs
                  cases hs
                  exact hhandling ▸ .recvOther hinbox
  | forward =>
      obtain ⟨h, hhandling, rfl⟩ := Option.map_eq_some_iff.mp hs
      exact forward_moves hhandling
  | close incoming =>
      cases hs
      exact .close
  | readInfo =>
      cases hopener : s.opener with
      | idle | informed => simp only [step, hopener, reduceCtorEq] at hs
      | opening conn =>
          cases hinfo : s.infos conn with
          | none => simp only [step, hopener, hinfo, reduceCtorEq] at hs
          | some info =>
              simp only [step, hopener, hinfo] at hs
              cases hs
              exact .readInfo hopener hinfo
  | announce =>
      cases hopener : s.opener with
      | idle | opening => simp only [step, hopener, reduceCtorEq] at hs
      | informed conn info =>
          simp only [step, hopener] at hs
          cases hs
          exact .announce hopener
  | fail =>
      cases hopener : s.opener with
      | idle => simp only [step, hopener, reduceCtorEq] at hs
      | opening | informed =>
          simp only [step, hopener] at hs
          cases hs
          exact .fail (by simp [hopener])
  | readId =>
      cases hreader : s.reader with
      | some _ => simp only [step, hreader, reduceCtorEq] at hs
      | none =>
          cases hannounced : s.announced with
          | nil => simp only [step, hreader, hannounced, reduceCtorEq] at hs
          | cons o announced =>
              simp only [step, hreader, hannounced] at hs
              cases hs
              exact .readId hreader hannounced
  | tryRecv =>
      cases hreader : s.reader with
      | none => simp only [step, hreader, reduceCtorEq] at hs
      | some o =>
          cases hqueue : s.queue with
          | nil =>
              simp only [step, hreader, hqueue] at hs
              cases hs
              exact hqueue ▸ .refuse hreader hqueue
          | cons wire queue =>
              simp only [step, hreader, hqueue] at hs
              cases hs
              exact .tryRecv hreader hqueue

/-! ## The connections -/

/-- The connections whose wires have not been refused, by where they are. -/
def places (s : Nested U) : List Nat :=
  s.arriving ++ (s.inbox.filterMap Request.conn? ++
    ((s.handling.map Handling.conn).toList ++ s.pushed.map Prod.fst))

theorem erase_append_perm {conn : Nat} {l : List Nat} (h : conn ∈ l) (m rest : List Nat) :
    (l.erase conn ++ (m ++ conn :: rest)).Perm (l ++ (m ++ rest)) := by
  have hfront : (l.erase conn ++ (m ++ conn :: rest)).Perm
      (conn :: (l.erase conn ++ (m ++ rest))) :=
    (List.perm_middle.append_left _).trans List.perm_middle
  exact hfront.trans ((List.perm_cons_erase h).symm.append_right _)

theorem reject_places {h : Handling U} {l : WireListener U} (hhandling : s.handling = some h) :
    s.places.Perm (h.conn :: places { s with listener := l, handling := none }) := by
  simp only [places, hhandling]
  exact (List.perm_middle.append_left _).trans List.perm_middle

/-- A step moves a connection from one place to the next, or a new one is made, or the
connection of a wire that is refused is dropped. -/
theorem Moves.places {a : NestedAction U} (hm : Moves parent channel s a s') :
    (s'.places.Perm s.places ∧ s'.conns = s.conns) ∨
      (s'.places = s.conns :: s.places ∧ s'.conns = s.conns + 1) ∨
      ∃ h, a = .forward ∧ s.handling = some h ∧ s.listener.lookup parent ≠ .ok channel ∧
        s.places.Perm (h.conn :: s'.places) ∧ s'.conns = s.conns := by
  cases hm with
  | connect => exact Or.inr (Or.inl ⟨rfl, rfl⟩)
  | close | readInfo | announce | fail | readId | tryRecv | refuse =>
      exact Or.inl ⟨List.Perm.refl _, rfl⟩
  | @arrive conn remoteInfo reply hmem =>
      refine Or.inl ⟨?_, rfl⟩
      simp only [Nested.places, List.filterMap_append, List.append_assoc]
      exact erase_append_perm hmem _ _
  | post =>
      refine Or.inl ⟨List.Perm.of_eq ?_, rfl⟩
      simp only [Nested.places, List.filterMap_append]
      rw [List.filterMap_cons_none (f := Request.conn?) rfl, List.filterMap_nil,
        List.append_nil]
  | recvOther hinbox =>
      refine Or.inl ⟨List.Perm.of_eq ?_, rfl⟩
      simp only [Nested.places, hinbox]
      rw [List.filterMap_cons_none (f := Request.conn?) rfl]
  | recv hhandling hinbox =>
      refine Or.inl ⟨?_, rfl⟩
      simp only [Nested.places, hhandling, hinbox]
      rw [List.filterMap_cons_some (f := Request.conn?) rfl]
      exact List.perm_middle.append_left _
  | @forward h l hhandling =>
      refine Or.inl ⟨?_, rfl⟩
      simp only [Nested.places, hhandling, List.map_append]
      exact ((List.perm_append_singleton h.conn _).append_left _).append_left _
  | @reject h l hhandling hlookup =>
      exact Or.inr (Or.inr ⟨h, rfl, hhandling, hlookup, reject_places hhandling, rfl⟩)

/-- A connection that is in no place stays so. -/
def Stays (s s' : Nested U) : Prop :=
  ∀ conn, conn < s.conns → conn ∈ s'.places → conn ∈ s.places

theorem Moves.stays {a : NestedAction U} (hm : Moves parent channel s a s') :
    s.Stays s' := by
  intro conn hlt h
  rcases hm.places with ⟨hperm, -⟩ | ⟨hplaces, -⟩ | ⟨hd, -, -, -, hperm, -⟩
  · exact hperm.mem_iff.mp h
  · rw [hplaces] at h
    cases h with
    | head => exact absurd hlt (Nat.lt_irrefl _)
    | tail _ h => exact h
  · exact hperm.mem_iff.mpr (List.mem_cons_of_mem _ h)

/-- A connection is in one place. An open is given a new connection, and it returns
after reading an info there. -/
structure Placed (s : Nested U) : Prop where
  nodup : s.places.Nodup
  bound : ∀ conn ∈ s.places, conn < s.conns
  infos : ∀ conn, s.infos conn ≠ none → conn < s.conns
  opened : ∀ o ∈ s.opened, o.1 < s.conns ∧ o ∈ s.informed
  distinct : (s.opened.map Prod.fst).Nodup
  current : ∀ conn, s.opener.conn? = some conn →
    conn < s.conns ∧ conn ∉ s.opened.map Prod.fst
  told : ∀ conn info, s.opener = .informed conn info → (conn, info.wireId) ∈ s.informed

theorem Placed.places {a : NestedAction U} (h : s.Placed)
    (hm : Moves parent channel s a s') :
    s'.places.Nodup ∧ ∀ conn ∈ s'.places, conn < s'.conns := by
  rcases hm.places with ⟨hperm, hconns⟩ | ⟨hplaces, hconns⟩ | ⟨hd, -, -, -, hperm, hconns⟩
  · refine ⟨hperm.nodup_iff.mpr h.nodup, ?_⟩
    intro conn hconn
    rw [hconns]
    exact h.bound conn (hperm.mem_iff.mp hconn)
  · rw [hplaces, hconns]
    refine ⟨List.nodup_cons.mpr ⟨fun hmem => Nat.lt_irrefl _ (h.bound _ hmem), h.nodup⟩, ?_⟩
    intro conn hconn
    cases hconn with
    | head => exact Nat.lt_succ_self _
    | tail _ hmem => exact Nat.lt_succ_of_lt (h.bound conn hmem)
  · refine ⟨(List.nodup_cons.mp (hperm.nodup_iff.mp h.nodup)).2, ?_⟩
    intro conn hconn
    rw [hconns]
    exact h.bound conn (hperm.mem_iff.mpr (List.mem_cons_of_mem _ hconn))

theorem Placed.moves {a : NestedAction U} (h : s.Placed)
    (hm : Moves parent channel s a s') : s'.Placed := by
  obtain ⟨hnodup, hbound⟩ := h.places hm
  cases hm with
  | arrive | post | recvOther | forward | reject | close | readId | tryRecv | refuse =>
      exact ⟨hnodup, hbound, h.infos, h.opened, h.distinct, h.current, h.told⟩
  | connect =>
      refine ⟨hnodup, hbound, fun conn hconn => Nat.lt_succ_of_lt (h.infos conn hconn),
        fun o ho => ⟨Nat.lt_succ_of_lt (h.opened o ho).1, (h.opened o ho).2⟩, h.distinct,
        ?_, by rintro _ _ ⟨⟩⟩
      rintro _ ⟨⟩
      refine ⟨Nat.lt_succ_self _, ?_⟩
      intro hmem
      obtain ⟨o, ho, heq⟩ := List.mem_map.mp hmem
      exact Nat.lt_irrefl _ (heq ▸ (h.opened o ho).1)
  | @recv turn conn remoteInfo reply inbox wire hhandling hinbox =>
      refine ⟨hnodup, hbound, ?_, h.opened, h.distinct, h.current, h.told⟩
      intro c hc
      have hconn : conn < s.conns :=
        h.bound conn (by simp [Nested.places, hinbox, Request.conn?])
      by_cases heq : c = conn
      · exact heq ▸ hconn
      · refine h.infos c ?_
        cases hfault : turn.fault.isNone <;> simpa [hfault, heq] using hc
  | @readInfo conn info hopener hinfo =>
      have hcurrent := h.current conn (by rw [hopener]; rfl)
      refine ⟨hnodup, hbound, ?_,
        fun o ho => ⟨(h.opened o ho).1, List.mem_cons_of_mem _ (h.opened o ho).2⟩, h.distinct,
        ?_, ?_⟩
      · intro c hc
        by_cases heq : c = conn
        · exact heq ▸ hcurrent.1
        · exact h.infos c (by simpa [heq] using hc)
      · rintro _ ⟨⟩
        exact hcurrent
      · rintro _ _ ⟨⟩
        exact List.mem_cons_self
  | @announce conn info hopener =>
      have hcurrent := h.current conn (by rw [hopener]; rfl)
      refine ⟨hnodup, hbound, h.infos, ?_, ?_, by rintro _ ⟨⟩, by rintro _ _ ⟨⟩⟩
      · exact List.forall_mem_append.mpr ⟨h.opened,
          List.forall_mem_singleton.mpr ⟨hcurrent.1, h.told conn info hopener⟩⟩
      · rw [List.map_append]
        exact (List.perm_append_singleton _ _).nodup_iff.mpr
          (List.nodup_cons.mpr ⟨hcurrent.2, h.distinct⟩)
  | fail =>
      exact ⟨hnodup, hbound, h.infos, h.opened, h.distinct, by rintro _ ⟨⟩, by rintro _ _ ⟨⟩⟩

/-! ## The two queues -/

/-- The ids and the wires are taken in the order in which they come. -/
structure Queues (s : Nested U) : Prop where
  listed : s.reader.toList ++ s.announced <:+ s.opened
  looked : ∀ p ∈ s.taken, p.1 ∈ s.opened
  wires : s.pushed = s.taken.map Prod.snd ++ s.queue
  count : s.opened.length
    = s.taken.length + s.refused + (s.reader.toList ++ s.announced).length

theorem Queues.moves {a : NestedAction U} (h : s.Queues)
    (hm : Moves parent channel s a s') : s'.Queues := by
  cases hm with
  | connect | arrive | post | recv | recvOther | reject | close | readInfo | fail =>
      exact ⟨h.listed, h.looked, h.wires, h.count⟩
  | forward =>
      refine ⟨h.listed, h.looked, ?_, h.count⟩
      rw [h.wires, List.append_assoc]
  | announce =>
      refine ⟨?_, ?_, h.wires, ?_⟩
      · obtain ⟨looked, hlooked⟩ := h.listed
        exact ⟨looked, by rw [← hlooked]; simp only [List.append_assoc]⟩
      · intro p hp
        exact List.mem_append_left _ (h.looked p hp)
      · have hcount := h.count
        simp only [List.length_append, List.length_singleton] at hcount ⊢
        omega
  | readId hreader hannounced =>
      have hlisted := h.listed
      have hcount := h.count
      rw [hreader, hannounced] at hlisted hcount
      exact ⟨hlisted, h.looked, h.wires, hcount⟩
  | @tryRecv o wire queue hreader hwires =>
      have hlisted := h.listed
      have hcount := h.count
      rw [hreader] at hlisted hcount
      refine ⟨(List.suffix_cons o _).trans hlisted, ?_, ?_, ?_⟩
      · refine List.forall_mem_append.mpr ⟨h.looked, List.forall_mem_singleton.mpr ?_⟩
        exact hlisted.subset List.mem_cons_self
      · rw [h.wires, hwires, List.map_append, List.append_assoc]
        rfl
      · simp only [List.length_append, List.length_singleton, Option.toList_some,
          Option.toList_none, List.length_nil] at hcount ⊢
        omega
  | @refuse o hreader hempty =>
      have hlisted := h.listed
      have hcount := h.count
      rw [hreader] at hlisted hcount
      refine ⟨(List.suffix_cons o _).trans hlisted, h.looked, h.wires, ?_⟩
      simp only [List.length_append, List.length_singleton, Option.toList_some,
        Option.toList_none, List.length_nil] at hcount ⊢
      omega

/-! ## What the opener reads -/

/-- A wire in the queue, as its announcement. -/
def sends (p : Nat × WireStream U) : Nat × WireId := (p.1, p.2.wireInfo.wireId)

def sent (s : Nested U) : List (Nat × WireId) := s.pushed.map sends

theorem sent_fst : s.sent.map Prod.fst = s.pushed.map Prod.fst := by
  rw [sent, List.map_map]
  rfl

theorem sent_push {p : Nat × WireStream U} (h : s'.pushed = s.pushed ++ [p]) :
    s'.sent = s.sent ++ [sends p] := by
  rw [sent, h, List.map_append]
  rfl

theorem Placed.handling_not_sent (h : s.Placed) {hd : Handling U}
    (hhandling : s.handling = some hd) : hd.conn ∉ s.sent.map Prod.fst := by
  intro hsent
  have hnodup := (List.nodup_append.mp (List.nodup_append.mp h.nodup).2.1).2.1
  rw [hhandling, ← sent_fst] at hnodup
  exact (List.nodup_cons.mp hnodup).1 hsent

theorem Placed.inbox_not_sent (h : s.Placed) {conn : Nat} {remoteInfo : Option (WireInfo U)}
    {reply : Option Nat} {inbox : List (Request U)}
    (hinbox : s.inbox = .nested conn remoteInfo reply :: inbox) :
    conn ∉ s.sent.map Prod.fst := by
  intro hsent
  have hnodup := (List.nodup_append.mp h.nodup).2.1
  rw [hinbox, ← sent_fst] at hnodup
  exact (List.nodup_cons.mp hnodup).1
    (List.mem_append_right _ (List.mem_append_right _ hsent))

/-- A connection whose wire is refused is in no place any more. -/
theorem Placed.refused_not_mem (h : s.Placed) {hd : Handling U} {l : WireListener U}
    (hhandling : s.handling = some hd) :
    hd.conn ∉ Nested.places { s with listener := l, handling := none } :=
  (List.nodup_cons.mp ((reject_places hhandling).nodup_iff.mp h.nodup)).1

/-- An info that the opener can read is of a wire that is in the queue, or is still to be
forwarded, or has been refused. -/
def Served (s : Nested U) : Prop :=
  ∀ conn info, s.opener = .opening conn → s.infos conn = some info →
    (conn, info.wireId) ∈ s.sent ∨
      (∃ h, s.handling = some h ∧ sends (h.conn, h.wire) = (conn, info.wireId)) ∨
      conn ∉ s.places

theorem Served.moves {a : NestedAction U} (h : s.Served) (hplaced : s.Placed)
    (hm : Moves parent channel s a s') : s'.Served := by
  intro c info hopener hinfo
  have hplaces : c < s.conns → c ∉ s.places → c ∉ s'.places := fun hlt hnot hmem =>
    hnot (hm.stays c hlt hmem)
  cases hm with
  | readInfo | announce | fail => cases hopener
  | connect =>
      cases hopener
      have hinfo : s.infos s.conns = some info := hinfo
      exact absurd (hplaced.infos s.conns (by simp [hinfo])) (Nat.lt_irrefl _)
  | arrive | post | recvOther | close | readId | tryRecv | refuse =>
      have hlt := (hplaced.current c (congrArg Opener.conn? hopener)).1
      exact (h c info hopener hinfo).imp_right (Or.imp_right (hplaces hlt))
  | @recv turn conn remoteInfo reply inbox wire hhandling hinbox =>
      have hlt := (hplaced.current c (congrArg Opener.conn? hopener)).1
      by_cases hnew : turn.fault.isNone ∧ c = conn
      · obtain ⟨hfault, rfl⟩ := hnew
        obtain rfl : wire.wireInfo = info := by simpa [hfault] using hinfo
        exact Or.inr (Or.inl ⟨_, rfl, rfl⟩)
      · have hold : s.infos c = some info := by
          cases hfault : turn.fault.isNone <;> simp_all
        rcases h c info hopener hold with hsent | ⟨_, hnone, -⟩ | hnot
        · exact Or.inl hsent
        · rw [hhandling] at hnone
          cases hnone
        · exact Or.inr (Or.inr (hplaces hlt hnot))
  | @forward hd l hhandling hlookup =>
      have hlt := (hplaced.current c (congrArg Opener.conn? hopener)).1
      rw [sent_push rfl, List.mem_append, List.mem_singleton]
      rcases h c info hopener hinfo with hsent | ⟨hd', hhandling', hsends⟩ | hnot
      · exact Or.inl (Or.inl hsent)
      · obtain rfl := Option.some.inj (hhandling.symm.trans hhandling')
        exact Or.inl (Or.inr hsends.symm)
      · exact Or.inr (Or.inr (hplaces hlt hnot))
  | @reject hd l hhandling hlookup =>
      have hlt := (hplaced.current c (congrArg Opener.conn? hopener)).1
      rcases h c info hopener hinfo with hsent | ⟨hd', hhandling', hsends⟩ | hnot
      · exact Or.inl hsent
      · obtain rfl := Option.some.inj (hhandling.symm.trans hhandling')
        obtain ⟨rfl, -⟩ := Prod.mk.inj hsends
        exact Or.inr (Or.inr (hplaced.refused_not_mem hhandling))
      · exact Or.inr (Or.inr (hplaces hlt hnot))

/-- What holds in every run. -/
structure Base (s : Nested U) : Prop extends s.Placed, s.Queues where
  served : s.Served

theorem Base.init {listener : WireListener U} : (nested parent channel listener).init.Base where
  nodup := List.nodup_nil
  bound := List.forall_mem_nil _
  infos _ hinfo := absurd rfl hinfo
  opened := List.forall_mem_nil _
  distinct := List.nodup_nil
  current := by rintro _ ⟨⟩
  told := by rintro _ _ ⟨⟩
  listed := List.suffix_refl _
  looked := List.forall_mem_nil _
  wires := rfl
  count := rfl
  served := by rintro _ _ ⟨⟩

theorem Base.moves {a : NestedAction U} (h : s.Base) (hm : Moves parent channel s a s') :
    s'.Base where
  toPlaced := h.toPlaced.moves hm
  toQueues := h.toQueues.moves hm
  served := h.served.moves h.toPlaced hm

end Nested

end WiringRs
