import WiringRs.ServerRest

/-!
# Each stream by itself

Two servers carry any number of streams over one connection, with one queue for each
task. Seen from one stream this is a run of its two ends and nothing else: what the
servers do for the other streams, and for the events, is no step of it.
-/

namespace WiringRs

namespace StreamEnd

/-- A step of one of the two ends. -/
def Next {μ : Type} (lossy : Bool) (s t : StreamEnd μ × StreamEnd μ) : Prop :=
  Step lossy s.1 s.2 t.1 t.2 ∨ Step lossy s.2 s.1 t.2 t.1

end StreamEnd

namespace WiredServer

variable {α : Type}

theorem view_init (key : StreamKey) :
    view key ({} : WiredServer α) = { opener := key.2 } := by
  obtain ⟨i, r⟩ := key
  have hknows : knows ({} : WiredServer α) (i, r) = false := (view_init_idle (i, r)).known
  simp only [view, hknows]
  simp [lifeIn, dropsOf]

/-- The two ends of the stream that the first server knows as `key`. -/
def ends (key : StreamKey) (s : WiredServer α × WiredServer α) :
    StreamEnd Message × StreamEnd Message :=
  (view key s.1, view (key.1, !key.2) s.2)

theorem ends_step {lossy : Bool} {s t : WiredServer α × WiredServer α}
    {a : Bool × ServerAction α} (hs : (serverMachine α).step s a = some t)
    (hcalm : lossy = false → s.1.Calm ∧ s.2.Calm) (key : StreamKey) :
    StreamEnd.Next lossy (ends key s) (ends key t) ∨ ends key t = ends key s := by
  obtain ⟨i, r⟩ := key
  obtain ⟨first, a⟩ := a
  cases first with
  | true =>
      rcases step_follows hs (fun h => (hcalm h).1) i r with hstep | ⟨hx, hy⟩
      · exact Or.inl (Or.inl hstep)
      · exact Or.inr (Prod.ext hx hy)
  | false =>
      obtain ⟨⟨y', x'⟩, hs', rfl⟩ := Option.map_eq_some_iff.mp hs
      have hfollow := step_follows hs' (fun h => (hcalm h).2) i !r
      rw [Bool.not_not] at hfollow
      rcases hfollow with hstep | ⟨hy, hx⟩
      · exact Or.inl (Or.inr hstep)
      · exact Or.inr (Prod.ext hx hy)

/-- **Streams do not interfere.** In every run of two servers the two ends of a stream
make a run of the protocol of a single stream; and one in which no queue is closed and
no task ends, if nobody asks for a shutdown. -/
theorem stream_refines {s : WiredServer α × WiredServer α} (key : StreamKey) :
    ((serverMachine α).Reachable s →
      Relation.ReflTransGen (StreamEnd.Next true) ({ opener := key.2 }, { opener := !key.2 })
        (ends key s)) ∧
    ((serverMachine α).ReachableBy (fun _ a => a.2 ≠ .send none) s →
      Relation.ReflTransGen (StreamEnd.Next false) ({ opener := key.2 }, { opener := !key.2 })
        (ends key s)) := by
  have hinit : ends key (serverMachine α).init = ({ opener := key.2 }, { opener := !key.2 }) :=
    Prod.ext (view_init key) (view_init (key.1, !key.2))
  rw [← hinit]
  constructor
  · intro h
    have hlossy : true = false → ∀ s : WiredServer α × WiredServer α, s.1.Calm ∧ s.2.Calm := nofun
    exact h.seen fun s _ _ _ _ hs => ends_step hs (hlossy · s) key
  · intro h
    exact h.seen fun _ _ _ hreach _ hs => ends_step hs (fun _ => calm_of_reachable hreach) key

theorem stream_refines_opening :
    Relation.ReflTransGen (StreamEnd.Next false) ({ opener := true }, { opener := false })
      (ends (.ofNat 1, true) ((serverMachine Unit).run opening)) :=
  (stream_refines (.ofNat 1, true)).2 (Machine.reachableBy_run fun _ => by simp [opening])

end WiredServer

end WiringRs
