import WiringRs.ServerRest
import WiringRs.StreamArrivals

/-!
# What has been flushed arrives

The messages of a stream are not lost by what happens after them. If an end was not
closed when they were flushed, and the other end is not closed by its user, then they
have been handed to its read half when the servers are quiescent, whether the first end
has been closed since or not, and also if the peers have been shut down.
-/

namespace WiringRs

namespace WiredServer

variable {α : Type}

/-! ## The streams when a task ends -/

section

variable {p : WiredServer α}

theorem view_closeQueue {wRx : List (Option (WiredEvent α))} (hwRx : p.wRx = none :: wRx)
    (key : StreamKey) :
    view key { p with wRx := wRx, wClosed := true } = { view key p with
      queueClosed := (view key p).queueClosed || true
      inboxClosed := (view key p).inboxClosed || false } := by
  simp only [view, hwRx, List.filterMap_cons, WiredEvent.item, Bool.or_true, Bool.or_false]
  rfl

theorem view_closeInbox {uRx : List (Option UnwiredEvent)} (huRx : p.uRx = none :: uRx)
    (key : StreamKey) :
    view key { p with uRx := uRx, uClosed := true } = { view key p with
      queueClosed := (view key p).queueClosed || false
      inboxClosed := (view key p).inboxClosed || true } := by
  simp only [view, huRx, List.filterMap_cons, UnwiredEvent.item, Bool.or_true, Bool.or_false]
  rfl

theorem view_endWired (key : StreamKey) :
    view key { p with
      wiredDone := true
      wired := { p.wired with
        streams := ∅
        removed := p.wired.removed ∪ p.wired.streams } } =
      { view key p with wired := (view key p).wired.drop } := by
  simp only [view, lifeIn_drop]
  rfl

theorem view_endHelper (key : StreamKey) :
    view key { p with
      helperDone := true
      streams := ∅
      dropped := p.dropped ∪ p.streams } =
      { view key p with helper := (view key p).helper.drop } := by
  simp only [view, lifeIn_drop]
  rfl

end

/-! ## Every stream -/

/-- What is owed to the other server on each stream. -/
abbrev Owed := StreamKey → List Message

def Arriving (owed owed' : Owed) (x y : WiredServer α) : Prop :=
  ∀ i r, (view (i, r) x).Arriving (owed (i, r)) (view (i, !r) y) ∧
    (view (i, !r) y).Arriving (owed' (i, !r)) (view (i, r) x)

theorem Arriving.symm {owed owed' : Owed} {x y : WiredServer α} (h : Arriving owed owed' x y) :
    Arriving owed' owed y x := by
  intro i r
  have hi := h i !r
  rw [Bool.not_not] at hi
  exact hi.symm

section

variable {owed owed' : Owed} {x y x' y' : WiredServer α}

/-- A task that has been told the end of the connection has nothing more to read. -/
theorem Winding.uClosed (hxy : Winding x y) (hyx : Winding y x) (hclosed : x.uClosed = true) :
    y.wClosed = true ∧ y.wRx = [] ∧ y.calls = [] ∧ y.wire = [] := by
  obtain ⟨hdone, hwire, -⟩ := hxy.unwired (hxy.told.mp (Or.inr hclosed))
  obtain ⟨hw, hwRx, hcalls⟩ := hyx.wired hdone
  exact ⟨hw, hwRx, hcalls, hwire⟩

/-- A queue is closed, or a task ends. -/
theorem Arriving.ends {a : ServerAction α} (h : Arriving owed owed' x y) (hxy : Winding x y)
    (hyx : Winding y x) (hends : x.Ends a) (hs : WiredServer.step x y a = some (x', y')) :
    Arriving owed owed' x' y' := by
  intro i r
  obtain ⟨hx, hy⟩ := h i r
  cases a with
  | wiredRecv connects =>
      simp only [WiredServer.step] at hs
      split at hs
      · rename_i wRx _ hwRx
        cases hs
        rw [view_closeQueue hwRx]
        exact hx.close hy true false
      · rename_i hwRx
        simp [Ends, hwRx] at hends
      · cases hs
  | helperRecv =>
      simp only [WiredServer.step] at hs
      split at hs
      · rename_i uRx huRx
        cases hs
        rw [view_closeInbox huRx]
        exact hx.close hy false true
      · rename_i huRx
        simp [Ends, huRx] at hends
      · cases hs
  | wiredEnd =>
      obtain ⟨⟨-, hwRx, hclosed, -⟩, heq⟩ := Option.ite_none_right_eq_some.mp hs
      cases heq
      rw [view_endWired]
      exact hx.endWired hy (by simp [view, hwRx]) hclosed
  | helperEnd =>
      obtain ⟨⟨huRx, hclosed, -⟩, heq⟩ := Option.ite_none_right_eq_some.mp hs
      cases heq
      obtain ⟨-, hwRx, hcalls, hwire⟩ := hxy.uClosed hyx hclosed
      rw [view_endHelper]
      exact hx.endHelper hy (by simp [view, huRx]) (by simp [view, hwire])
        (by simp [view, hcalls]) (by simp [view, hwRx]) hclosed
  | _ => exact hends.elim

theorem Arriving.step {a : ServerAction α} (h : Arriving owed owed' x y) (hf : Flowing x y)
    (hxy : Winding x y) (hyx : Winding y x) (hs : WiredServer.step x y a = some (x', y')) :
    Arriving owed owed' x' y' := by
  by_cases hends : x.Ends a
  · exact h.ends hxy hyx hends hs
  · intro i r
    obtain ⟨hx, hy⟩ := h i r
    have hfollow : Follows false (view (i, r) x) (view (i, !r) y) (view (i, r) x')
        (view (i, !r) y') := step_follows_of hs (fun _ => hends) i r
    rcases hfollow with hstep | ⟨heqx, heqy⟩
    · refine hstep.arriving (hf i r).1 hx hy (hf.step hs i r).2.1 ?_ ?_
      · intro hclosed
        have hwire := (hxy.uClosed hyx hclosed).2.2.2
        simp [view, hwire]
      · exact fun hclosed => (hyx.uClosed hxy hclosed).1
    · rw [heqx, heqy]
      exact ⟨hx, hy⟩

end

/-- What holds in every run, and what is owed from some state of it on. -/
structure Running (owed owed' : Owed) (x y : WiredServer α) : Prop where
  flowing : Flowing x y
  winding : Winding x y ∧ Winding y x
  arriving : Arriving owed owed' x y

namespace Running

variable {owed owed' : Owed} {x y x' y' : WiredServer α}

theorem init : Running (fun _ => []) (fun _ => []) ({} : WiredServer α) {} where
  flowing i r := ⟨registered_init i r, ⟨[], [], flow_init _ _⟩, [], [], flow_init _ _⟩
  winding := ⟨winding_init, winding_init⟩
  arriving i r := by
    have hread (key : StreamKey) : (view key ({} : WiredServer α)).readDropped = false := by
      simp [view]
    exact ⟨.start (view_init_idle _) (view_init_idle _) (hread _),
      .start (view_init_idle _) (view_init_idle _) (hread _)⟩

theorem symm (h : Running owed owed' x y) : Running owed' owed y x :=
  ⟨h.flowing.symm, h.winding.symm, h.arriving.symm⟩

theorem step {a : ServerAction α} (h : Running owed owed' x y)
    (hs : WiredServer.step x y a = some (x', y')) : Running owed owed' x' y' :=
  ⟨h.flowing.step hs, h.winding.1.step h.winding.2 hs,
    h.arriving.step h.flowing h.winding.1 h.winding.2 hs⟩

/-- What both have flushed on the streams that they have not closed is owed now. -/
theorem owe (h : Running owed owed' x y) :
    Running (fun key => if key ∈ x.closed then [] else x.flushed key)
      (fun key => if key ∈ y.closed then [] else y.flushed key) x y := by
  refine { h with arriving := fun i r => ?_ }
  obtain ⟨hx, hy⟩ := h.arriving i r
  have hx := hx.owe
  have hy := hy.owe
  simp only [view, decide_eq_true_eq] at hx hy
  exact ⟨hx, hy⟩

theorem leads {s t : WiredServer α × WiredServer α} (h : Running owed owed' s.1 s.2)
    (hlead : (serverMachine α).Leads (fun _ => True) s t) : Running owed owed' t.1 t.2 := by
  refine hlead.invariant (I := fun s => Running owed owed' s.1 s.2) h ?_
  rintro ⟨x, y⟩ ⟨first, a⟩ s' hinv - hs
  cases first with
  | true => exact hinv.step hs
  | false =>
      obtain ⟨⟨y', x'⟩, hstep, rfl⟩ := Option.map_eq_some_iff.mp hs
      exact (hinv.symm.step hstep).symm

/-- What is owed to a user who has not closed the stream has come to them. -/
theorem come (h : Running owed owed' x y) (hx : x.Quiescent) (hy : y.Quiescent)
    {key : StreamKey} (hclosed : (key.1, !key.2) ∉ y.closed) :
    owed key <+: y.handed (key.1, !key.2) := by
  obtain ⟨i, r⟩ := key
  have hdue := (h.arriving i r).1.owed (by simpa [view] using hclosed)
  exact hdue.come (hy.quiet _).inbox (hx.quiet _).out (hx.quiet _).todo (hx.quiet _).queue

end Running

/-- **What has been flushed arrives.** From a state in which an end of a stream is not
closed to one in which the servers are quiescent, whatever happens between: all that
this end had flushed in the former has been handed to the other end in the latter, unless
the user there has closed the stream. -/
theorem flushed_arrives {s t : WiredServer α × WiredServer α}
    (hs : (serverMachine α).Reachable s) (hlead : (serverMachine α).Leads (fun _ => True) s t)
    (h1 : t.1.Quiescent) (h2 : t.2.Quiescent) (key : StreamKey) :
    (key ∉ s.1.closed → (key.1, !key.2) ∉ t.2.closed →
      s.1.flushed key <+: t.2.handed (key.1, !key.2)) ∧
    (key ∉ s.2.closed → (key.1, !key.2) ∉ t.1.closed →
      s.2.flushed key <+: t.1.handed (key.1, !key.2)) := by
  have hrun := (Running.init.leads hs.of_init).owe.leads hlead
  constructor
  · intro hopen hclosed
    simpa [hopen] using hrun.come h1 h2 hclosed
  · intro hopen hclosed
    simpa [hopen] using hrun.symm.come h2 h1 hclosed

/-- A message is flushed on the stream. -/
def asking : List (Bool × ServerAction Unit) :=
  opening ++ [(true, .flush (.ofNat 1, true) .empty), (true, .flushEvent (.ofNat 1, true))]

/-- The write half is dropped before `Wired` has seen the message. -/
def leaving : List (Bool × ServerAction Unit) :=
  [(true, .dropWrite (.ofNat 1, true)), (true, .wiredRecv 0), (true, .wiredCall),
    (true, .wiredRecv 0), (true, .wiredCall), (true, .wiredCall), (false, .unwiredRead),
    (false, .unwiredRead), (false, .helperRecv), (false, .helperRecv), (false, .wiredRecv 0),
    (false, .wiredCall), (false, .helperRecv), (true, .helperRecv), (true, .helperRecv)]

theorem flushed_arrives_leaving :
    ((serverMachine Unit).run (asking ++ leaving)).2.handed (.ofNat 1, false) = [.empty] ∧
      ((serverMachine Unit).run asking).1.flushed (.ofNat 1, true) <+:
        ((serverMachine Unit).run (asking ++ leaving)).2.handed (.ofNat 1, false) :=
  ⟨by decide, (flushed_arrives (Machine.reachableBy_run fun _ _ _ => trivial)
    (Machine.leads_run fun _ _ => trivial) ⟨rfl, rfl, rfl, rfl, rfl⟩ ⟨rfl, rfl, rfl, rfl, rfl⟩
    (.ofNat 1, true)).1 (by decide) (by decide)⟩

end WiredServer

end WiringRs
