import WiringRs.ServerSteps
import WiringRs.StreamDrops
import WiringRs.StreamMessages

/-!
# The streams of two peers

Two servers run against each other, and their tasks and users take steps in any
order. What holds of one stream in any order of the steps of its two ends holds of
each stream of the servers.
-/

namespace WiringRs

namespace WiredServer

variable {α : Type}

/-! ## The first state -/

theorem view_init_idle (key : StreamKey) : (view key ({} : WiredServer α)).Idle where
  known := by
    obtain ⟨i, r⟩ := key
    cases r with
    | false => simp [view, knows]
    | true =>
        simp only [view, knows, if_true, decide_eq_false_iff_not]
        omega
  helper := rfl
  inbox := rfl
  todo := rfl
  out := rfl
  held := by simp [view]
  closed := by simp [view]
  buf := rfl
  flushing := rfl
  flushed := rfl
  handed := rfl
  drops := rfl
  pending := by simp [view]
  wired := rfl
  queue := rfl

theorem registered_init (i : WireId) (r : Bool) :
    (view (i, r) ({} : WiredServer α)).Registered
      (view (i, !r) ({} : WiredServer α)) where
  role := (Bool.not_not r).symm
  left := .unopened (view_init_idle _) rfl fun _ => (view_init_idle _).known
  right := .unopened (view_init_idle _) rfl fun _ => (view_init_idle _).known

theorem flow_init (key key' : StreamKey) :
    (view key ({} : WiredServer α)).Flow (view key' ({} : WiredServer α)) [] [] where
  flushed := rfl
  waiting := fun _ => ⟨rfl, [], rfl, fun _ => rfl⟩
  line := fun _ _ _ => rfl
  inbox := fun _ _ => List.nil_prefix
  handed := List.nil_prefix

/-! ## The messages -/

/-- Each stream is registered in order, and its messages flow both ways. -/
def Flowing (x y : WiredServer α) : Prop :=
  ∀ i r, (view (i, r) x).Registered (view (i, !r) y) ∧
    (∃ taken rest, (view (i, r) x).Flow (view (i, !r) y) taken rest) ∧
    ∃ taken rest, (view (i, !r) y).Flow (view (i, r) x) taken rest

theorem Flowing.symm {x y : WiredServer α} (h : Flowing x y) : Flowing y x := by
  intro i r
  obtain ⟨hr, hw, hb⟩ := h i !r
  rw [Bool.not_not] at hr hw hb
  exact ⟨hr.symm, hb, hw⟩

theorem Flowing.step {x y x' y' : WiredServer α} {a : ServerAction α} (h : Flowing x y)
    (hs : step x y a = some (x', y')) : Flowing x' y' := by
  intro i r
  obtain ⟨hr, hw, hb⟩ := h i r
  have hlossy : true = false → x.Calm := nofun
  rcases step_follows hs hlossy i r with hstep | ⟨hx, hy⟩
  · obtain ⟨taken, rest, hw⟩ := hw
    obtain ⟨taken', rest', hb⟩ := hb
    exact ⟨hstep.registered hr, hstep.flow_writer hr hw, taken', rest', hstep.flow_reader hr hb⟩
  · rw [hx, hy]
    exact ⟨hr, hw, hb⟩

/-- **Messages are routed.** What a server hands to the read half of a stream is a
prefix of what has been flushed on the write half at the other end. -/
theorem routed {s : WiredServer α × WiredServer α} (h : (serverMachine α).Reachable s)
    (key : StreamKey) :
    s.1.handed key <+: s.2.flushed (key.1, !key.2) ∧
      s.2.handed key <+: s.1.flushed (key.1, !key.2) := by
  have hflowing : Flowing s.1 s.2 :=
    Machine.duo_invariant (fun _ _ => True) h
      (fun i r => ⟨registered_init i r, ⟨[], [], flow_init _ _⟩, [], [], flow_init _ _⟩)
      (fun _ _ => Flowing.symm) (fun _ _ _ _ _ hinv _ => hinv.step)
  obtain ⟨i, r⟩ := key
  obtain ⟨-, -, taken, rest, hb⟩ := hflowing i r
  obtain ⟨-, -, taken', rest', hb'⟩ := hflowing.symm i r
  exact ⟨hb.handed.trans ⟨rest, hb.flushed.symm⟩, hb'.handed.trans ⟨rest', hb'.flushed.symm⟩⟩

/-- The first server opens a stream with an event, and the other one accepts it. -/
def opening : List (Bool × ServerAction Unit) :=
  [(true, .send (some ())), (true, .wiredRecv 1), (true, .wiredCall), (true, .wiredCall),
    (true, .wiredCall), (false, .unwiredRead), (false, .unwiredRead),
    (false, .unwiredConnected), (false, .wiredRecv 0), (false, .helperRecv)]

/-- A message is flushed on the stream, and handed over at the other end. -/
def speaking : List (Bool × ServerAction Unit) :=
  opening ++ [(true, .flush (.ofNat 1, true) .empty), (true, .flushEvent (.ofNat 1, true)),
    (true, .wiredRecv 0), (true, .wiredCall), (false, .unwiredRead), (false, .helperRecv)]

theorem routed_one :
    ((serverMachine Unit).run speaking).2.handed (.ofNat 1, false) = [.empty] ∧
      ((serverMachine Unit).run speaking).2.handed (.ofNat 1, false) <+:
        ((serverMachine Unit).run speaking).1.flushed (.ofNat 1, true) :=
  ⟨by decide, (routed (Machine.reachableBy_run fun _ _ _ => trivial) _).2⟩

/-! ## The drops -/

section

variable {p : WiredServer α}

theorem Calm.sendWired (h : p.Calm) (event : WiredEvent α) : (p.sendWired (some event)).Calm :=
  { h with wRx := fun hmem => (mem_trySend hmem).elim h.wRx nofun }

theorem Calm.sendUnwired (h : p.Calm) (event : UnwiredEvent) :
    (p.sendUnwired (some event)).Calm :=
  { h with uRx := fun hmem => (mem_trySend hmem).elim h.uRx nofun }

theorem Calm.receive (h : p.Calm) (token : Token α) : (p.receive token).Calm := by
  cases token with
  | frame event =>
      cases event with
      | event e => exact h
      | message | drop => exact h.sendUnwired _
  | stream streamId => exact { h.sendWired (.registerWriteHalf streamId) with }

theorem Calm.help (h : p.Calm) (event : UnwiredEvent) : (p.help event).Calm := by
  cases event with
  | registerStream => exact { h with }
  | message =>
      simp only [WiredServer.help]
      split
      · exact { h with }
      · exact h
  | drop streamId isLocal broadcastToWire =>
      simp only [WiredServer.help]
      split
      · split
        · exact { h.sendWired (.drop streamId isLocal false) with }
        · exact { h with }
      · exact h

theorem Calm.call (h : p.Calm) {c : WiredCall α} {p' : WiredServer α}
    (hcall : p.call c = some p') : p'.Calm := by
  cases c with
  | wire event | offer streamId =>
      cases hcall
      exact { h with }
  | notify streamId isLocal =>
      cases hcall
      exact h.sendUnwired _
  | connect =>
      simp only [WiredServer.call] at hcall
      split at hcall
      · rename_i streamId wired _
        cases hcall
        exact { h.sendUnwired (.registerStream streamId true) with }
      · cases hcall

end

/-- Without a shutdown no task is told to end. -/
theorem Calm.step {x y x' y' : WiredServer α} {a : ServerAction α}
    (hx : x.Calm) (hy : y.Calm) (ha : a ≠ .send none)
    (hs : WiredServer.step x y a = some (x', y')) : x'.Calm ∧ y'.Calm := by
  cases a with
  | send event =>
      obtain ⟨-, heq⟩ := Option.ite_none_left_eq_some.mp hs
      cases heq
      cases event with
      | none => exact absurd rfl ha
      | some e => exact ⟨hx.sendWired _, hy⟩
  | flush key m =>
      obtain ⟨-, heq⟩ := Option.ite_none_right_eq_some.mp hs
      cases heq
      exact ⟨{ hx with }, hy⟩
  | flushEvent key =>
      simp only [WiredServer.step] at hs
      split at hs
      · split at hs
        · cases hs
          exact ⟨{ hx with }, hy⟩
        · cases hs
          exact ⟨{ hx.sendWired (.message key.1 key.2) with }, hy⟩
      · cases hs
  | dropRead key | dropWrite key | shutdownWrite key =>
      obtain ⟨-, heq⟩ := Option.ite_none_right_eq_some.mp hs
      cases heq
      exact ⟨{ hx.sendWired (.drop key.1 key.2 true) with }, hy⟩
  | wiredRecv connects =>
      simp only [WiredServer.step] at hs
      split at hs
      · rename_i hwRx
        exact absurd (hwRx ▸ List.mem_cons_self) hx.wRx
      · rename_i hwRx
        cases hs
        exact ⟨{ hx with wRx := fun hmem => hx.wRx (hwRx ▸ List.mem_cons_of_mem _ hmem) }, hy⟩
      · cases hs
  | wiredCall =>
      simp only [WiredServer.step] at hs
      split at hs
      · rename_i c calls _
        obtain ⟨p, hp, heq⟩ := Option.map_eq_some_iff.mp hs
        cases heq
        have hx' : Calm { x with calls := calls } := { hx with }
        exact ⟨hx'.call hp, hy⟩
      · cases hs
  | wiredEnd =>
      obtain ⟨⟨-, -, hclosed, -⟩, -⟩ := Option.ite_none_right_eq_some.mp hs
      cases hx.wClosed.symm.trans hclosed
  | unwiredRead =>
      simp only [WiredServer.step] at hs
      split at hs
      · cases hs
        exact ⟨hx.receive _, { hy with }⟩
      · cases hs
  | unwiredConnected =>
      simp only [WiredServer.step] at hs
      split at hs
      · rename_i streamId _
        cases hs
        exact ⟨{ hx.sendUnwired (.registerStream streamId false) with }, hy⟩
      · cases hs
  | unwiredEof =>
      obtain ⟨⟨-, -, -, hdone⟩, -⟩ := Option.ite_none_right_eq_some.mp hs
      cases hy.wiredDone.symm.trans hdone
  | unwiredEnd =>
      obtain ⟨⟨hdone, -⟩, -⟩ := Option.ite_none_right_eq_some.mp hs
      cases hx.unwiredDone.symm.trans hdone
  | helperRecv =>
      simp only [WiredServer.step] at hs
      split at hs
      · rename_i huRx
        exact absurd (huRx ▸ List.mem_cons_self) hx.uRx
      · rename_i event uRx huRx
        cases hs
        have hx' : Calm { x with uRx := uRx } :=
          { hx with uRx := fun hmem => hx.uRx (huRx ▸ List.mem_cons_of_mem _ hmem) }
        exact ⟨hx'.help event, hy⟩
      · cases hs
  | helperEnd =>
      obtain ⟨⟨-, hclosed, -⟩, -⟩ := Option.ite_none_right_eq_some.mp hs
      cases hx.uClosed.symm.trans hclosed

theorem calm_init : ({} : WiredServer α).Calm :=
  ⟨List.not_mem_nil, List.not_mem_nil, rfl, rfl, rfl, rfl⟩

/-- Each stream is registered in order, and its drops are on their way. -/
structure Dropping (x y : WiredServer α) : Prop where
  calm : x.Calm ∧ y.Calm
  ends : ∀ i r, (view (i, r) x).Registered (view (i, !r) y) ∧
    (view (i, r) x).Drops (view (i, !r) y) ∧ (view (i, !r) y).Drops (view (i, r) x)

theorem Dropping.symm {x y : WiredServer α} (h : Dropping x y) : Dropping y x := by
  refine ⟨h.calm.symm, ?_⟩
  intro i r
  obtain ⟨hr, hx, hy⟩ := h.ends i !r
  rw [Bool.not_not] at hr hx hy
  exact ⟨hr.symm, hy, hx⟩

theorem Dropping.step {x y x' y' : WiredServer α} {a : ServerAction α} (h : Dropping x y)
    (ha : a ≠ .send none) (hs : WiredServer.step x y a = some (x', y')) :
    Dropping x' y' := by
  refine ⟨h.calm.1.step h.calm.2 ha hs, ?_⟩
  intro i r
  obtain ⟨hr, hx, hy⟩ := h.ends i r
  rcases step_follows hs (fun _ => h.calm.1) i r with hstep | ⟨heqx, heqy⟩
  · exact ⟨hstep.registered hr, hstep.drops hr hx hy⟩
  · rw [heqx, heqy]
    exact ⟨hr, hx, hy⟩

/-- No task has an event left, and nothing is on the connection. An event that a task
has received and not finished is one that is left. -/
structure Quiescent (p : WiredServer α) : Prop where
  wRx : p.wRx = []
  calls : p.calls = []
  wire : p.wire = []
  connecting : p.connecting = none
  uRx : p.uRx = []

theorem Quiescent.quiet {p : WiredServer α} (h : p.Quiescent) (key : StreamKey) :
    (view key p).Quiet where
  queue := by simp [view, h.wRx]
  inbox := by simp [view, h.uRx]
  todo := by simp [view, h.calls]
  out := by simp [view, h.wire]
  pending := by simp [view, h.connecting]

/-- One of the servers has opened the stream that `x` knows as `(i, r)`. -/
def Opened (x y : WiredServer α) (i : WireId) (r : Bool) : Prop :=
  0 < i.toNat ∧ i.toNat ≤ (if r then x else y).wired.streamId

theorem Dropping.opened {x y : WiredServer α} (h : Dropping x y) (hx : x.Quiescent)
    (hy : y.Quiescent) (i : WireId) (r : Bool) :
    x.knows (i, r) = true ↔ Opened x y i r := by
  cases r with
  | true => simp [knows, Opened]
  | false =>
      obtain ⟨hr, -⟩ := h.ends i false
      have hiff : x.knows (i, false) = true ↔ y.knows (i, true) = true :=
        ⟨hr.both_known (hx.quiet _) (hy.quiet _), hr.symm.both_known (hy.quiet _) (hx.quiet _)⟩
      rw [hiff]
      simp [knows, Opened]

/-- The two servers agree on the streams that are open. -/
structure Agreed (x y : WiredServer α) : Prop where
  maps : x.wired.streams = x.streams
  ends : ∀ i r, (i, r) ∈ x.wired.streams ↔ (i, !r) ∈ y.wired.streams
  closed : ∀ i r, (i, r) ∈ x.wired.streams ↔
    Opened x y i r ∧ (i, r) ∉ x.closed ∧ (i, !r) ∉ y.closed

theorem Dropping.agreed {x y : WiredServer α} (h : Dropping x y) (hx : x.Quiescent)
    (hy : y.Quiescent) : Agreed x y := by
  have hend (i : WireId) (r : Bool) : (view (i, r) x).Converged (view (i, !r) y) := by
    obtain ⟨hr, hdx, hdy⟩ := h.ends i r
    exact hdx.converged hdy hr (hx.quiet _) (hy.quiet _)
  have hlive (p : WiredServer α) (key : StreamKey) :
      (view key p).wired = .live ↔ key ∈ p.wired.streams := lifeIn_eq_live
  refine ⟨Finset.ext ?_, ?_, ?_⟩
  · rintro ⟨i, r⟩
    rw [← hlive, (hend i r).maps]
    exact lifeIn_eq_live
  · intro i r
    rw [← hlive, (hend i r).ends, hlive]
  · intro i r
    rw [← hlive, ← h.opened hx hy, (hend i r).closed]
    simp only [view, decide_eq_false_iff_not]

/-- **Closing converges.** When no shutdown has been asked for, two servers that come
to rest agree on the streams that are open: those none of whose halves has been
dropped or shut down. Each has told the other of a drop at most once. -/
theorem closing_converges {s : WiredServer α × WiredServer α}
    (h : (serverMachine α).ReachableBy (fun _ a => a.2 ≠ .send none) s) :
    (s.1.Quiescent → s.2.Quiescent → Agreed s.1 s.2 ∧ Agreed s.2 s.1) ∧
      ∀ key, dropsOf key s.1.written ≤ 1 ∧ dropsOf key s.2.written ≤ 1 := by
  have hdropping : Dropping s.1 s.2 := by
    refine Machine.duo_invariant (fun _ a => a ≠ ServerAction.send none) h ?_
      (fun _ _ => Dropping.symm) fun _ _ _ _ _ hinv ha => hinv.step ha
    exact ⟨⟨calm_init, calm_init⟩, fun i r => ⟨registered_init i r,
      .start (view_init_idle _) rfl rfl, .start (view_init_idle _) rfl rfl⟩⟩
  refine ⟨fun h1 h2 => ⟨hdropping.agreed h1 h2, hdropping.symm.agreed h2 h1⟩, ?_⟩
  rintro ⟨i, r⟩
  obtain ⟨-, hd1, -⟩ := hdropping.ends i r
  obtain ⟨-, hd2, -⟩ := hdropping.symm.ends i r
  exact ⟨(Nat.le_add_right _ _).trans hd1.once, (Nat.le_add_right _ _).trans hd2.once⟩

/-- The other server drops its end of the stream, and the news goes round. -/
def closing : List (Bool × ServerAction Unit) :=
  opening ++ [(true, .helperRecv), (false, .dropRead (.ofNat 1, false)),
    (false, .wiredRecv 0), (false, .wiredCall), (false, .wiredCall), (false, .helperRecv),
    (true, .unwiredRead), (true, .helperRecv), (true, .wiredRecv 0), (true, .wiredCall),
    (true, .helperRecv)]

theorem closing_converges_one :
    Agreed ((serverMachine Unit).run closing).1 ((serverMachine Unit).run closing).2 ∧
      ((serverMachine Unit).run closing).1.wired.streams = ∅ :=
  have hrun := closing_converges (s := (serverMachine Unit).run closing)
    (Machine.reachableBy_run fun _ => by simp [closing, opening])
  ⟨(hrun.1 ⟨rfl, rfl, rfl, rfl, rfl⟩ ⟨rfl, rfl, rfl, rfl, rfl⟩).1, by decide⟩

end WiredServer

end WiringRs
