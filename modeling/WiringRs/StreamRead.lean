import WiringRs.Compatible
import WiringRs.Delivery
import WiringRs.ReadHalf

/-!
# What can be read of a wired stream

The cursor of a read half is set on a message when its vector is empty, so it is never set
on another one after a message with bytes in it. Of everything that is flushed at the other
end only the first such message can be read, all of it, and then the stream seems to have
ended.
-/

namespace WiringRs

/-- The first message with bytes in it. -/
def firstMessage : List Bytes → Bytes
  | [] => []
  | m :: ms => if m = [] then firstMessage ms else m

theorem firstMessage_append (ms ns : List Bytes) :
    firstMessage (ms ++ ns) = if firstMessage ms = [] then firstMessage ns else firstMessage ms
    := by
  induction ms with
  | nil => rfl
  | cons m ms ih =>
      by_cases hm : m = []
      · simpa [firstMessage, hm] using ih
      · simp [firstMessage, hm]

theorem firstMessage_mono {ms ns : List Bytes} (h : ms <+: ns) :
    firstMessage ms <+: firstMessage ns := by
  obtain ⟨rest, rfl⟩ := h
  rw [firstMessage_append]
  split
  · rename_i hnil
    rw [hnil]
    exact List.nil_prefix
  · exact List.prefix_rfl

namespace ReadAction

/-- The user reads. -/
def IsRead : ReadAction → Prop
  | .pollRead .. => True
  | _ => False

end ReadAction

namespace Reading

variable {s s' : Reading} {cap : Nat} {pos : 0 < cap}

/-- Until the cursor is set on a message with bytes in it nothing has been returned, and
then that message is the first one. -/
structure First (s : Reading) : Prop where
  before : s.half.buf.vec = [] →
    s.returned = [] ∧ firstMessage s.delivered = firstMessage s.half.rx.queue
  after : s.half.buf.vec ≠ [] →
    s.returned ++ s.half.buf.rest = s.half.buf.vec ∧ firstMessage s.delivered = s.half.buf.vec

/-- A read changes nothing, or sets the cursor on the next message, or goes on with the
current one. -/
theorem pollRead_steps (hs : s.step (.pollRead cap pos) = some s') :
    s.half.buf.vec = [] ∧ s.half.rx.queue = [] ∧ s' = s ∨
    (∃ m queue, s.half.buf.vec = [] ∧ s.half.rx.queue = m :: queue ∧
      s' = { s with
        half := ⟨(Cursor.pollRead cap { vec := m }).2, { s.half.rx with queue := queue }⟩
        returned := s.returned ++ (Cursor.pollRead cap { vec := m }).1 }) ∨
    s.half.buf.vec ≠ [] ∧
      s' = { s with
        half := { s.half with buf := (s.half.buf.pollRead cap).2 }
        returned := s.returned ++ (s.half.buf.pollRead cap).1 } := by
  rcases InternalReadHalf.pollRead_cases cap s.half with ⟨hvec, hqueue, -, he⟩ |
    ⟨hvec, hqueue, -, he⟩ | ⟨m, queue, hvec, hqueue, he⟩ | ⟨hvec, he⟩
  · simp only [step, he, Option.some.injEq] at hs
    exact Or.inl ⟨hvec, hqueue, hs.symm⟩
  · simp only [step, he, List.append_nil, Option.some.injEq] at hs
    exact Or.inl ⟨hvec, hqueue, hs.symm⟩
  · simp only [step, he, Option.some.injEq] at hs
    exact Or.inr (Or.inl ⟨m, queue, hvec, hqueue, hs.symm⟩)
  · simp only [step, he, Option.some.injEq] at hs
    exact Or.inr (Or.inr ⟨hvec, hs.symm⟩)

theorem First.step {a : ReadAction} (h : s.First) (hs : s.step a = some s') : s'.First := by
  cases a with
  | dropSenders =>
      cases hs
      exact ⟨h.before, h.after⟩
  | deliver message =>
      obtain ⟨-, heq⟩ := Option.ite_none_right_eq_some.mp hs
      cases heq
      refine ⟨fun hvec => ?_, fun hvec => ?_⟩
      · obtain ⟨hreturned, hfirst⟩ := h.before hvec
        refine ⟨hreturned, ?_⟩
        rw [firstMessage_append, firstMessage_append, hfirst]
      · obtain ⟨hreturned, hfirst⟩ := h.after hvec
        refine ⟨hreturned, ?_⟩
        rw [firstMessage_append, hfirst, if_neg hvec]
  | pollRead cap pos =>
      rcases pollRead_steps hs with ⟨-, -, rfl⟩ | ⟨m, queue, hvec, hqueue, rfl⟩ | ⟨hvec, rfl⟩
      · exact h
      · obtain ⟨hreturned, hfirst⟩ := h.before hvec
        rw [hqueue, firstMessage] at hfirst
        have hread := Cursor.pollRead_rest cap { vec := m }
        refine ⟨fun hm => ?_, fun hm => ⟨?_, ?_⟩⟩
        · have hm : m = [] := hm
          subst hm
          exact ⟨by simp [hreturned, Cursor.pollRead, Cursor.rest], hfirst⟩
        · rw [hreturned]
          exact hread
        · exact hfirst.trans (if_neg hm)
      · obtain ⟨hreturned, hfirst⟩ := h.after hvec
        refine ⟨fun hnil => absurd hnil hvec, fun _ => ⟨?_, hfirst⟩⟩
        dsimp only
        rw [List.append_assoc, Cursor.pollRead_rest]
        exact hreturned

theorem First.returned (h : s.First) : s.returned <+: firstMessage s.delivered := by
  by_cases hvec : s.half.buf.vec = []
  · rw [(h.before hvec).1]
    exact List.nil_prefix
  · obtain ⟨hreturned, hfirst⟩ := h.after hvec
    exact ⟨_, hreturned.trans hfirst.symm⟩

theorem pollRead_enabled (s : Reading) (cap : Nat) (pos : 0 < cap) :
    ∃ s', s.step (.pollRead cap pos) = some s' := by
  simp only [Reading.step]
  split <;> exact ⟨_, rfl⟩

/-- One read with enough room returns the rest of the current message. -/
theorem First.leads_current (h : s.First) (hvec : s.half.buf.vec ≠ []) :
    ∃ s', readMachine.Leads ReadAction.IsRead s s' ∧
      s'.returned = firstMessage s.delivered := by
  obtain ⟨hreturned, hfirst⟩ := h.after hvec
  obtain ⟨s', hs⟩ := pollRead_enabled s (s.half.buf.rest.length + 1) (Nat.succ_pos _)
  refine ⟨s', .single ⟨.pollRead _ (Nat.succ_pos _), trivial, hs⟩, ?_⟩
  rcases pollRead_steps hs with ⟨hnil, -⟩ | ⟨-, -, hnil, -⟩ | ⟨-, rfl⟩
  · exact absurd hnil hvec
  · exact absurd hnil hvec
  · have hall : (s.half.buf.pollRead (s.half.buf.rest.length + 1)).1 = s.half.buf.rest :=
      List.take_of_length_le (Nat.le_succ _)
    rw [hfirst, ← hreturned, hall]

/-- The user can read all of the first message. -/
theorem First.leads (h : s.First) :
    ∃ s', readMachine.Leads ReadAction.IsRead s s' ∧
      s'.returned = firstMessage s.delivered := by
  -- induction on what is in the queue: an empty message is passed over
  generalize hqueue : s.half.rx.queue = queue
  induction queue generalizing s with
  | nil =>
      by_cases hvec : s.half.buf.vec = []
      · obtain ⟨hreturned, hfirst⟩ := h.before hvec
        refine ⟨s, .refl, ?_⟩
        rw [hreturned, hfirst, hqueue]
        rfl
      · exact h.leads_current hvec
  | cons m queue ih =>
      by_cases hvec : s.half.buf.vec = []
      · obtain ⟨s', hs⟩ := pollRead_enabled s 1 Nat.one_pos
        have h' := h.step hs
        rcases pollRead_steps hs with ⟨-, hnil, -⟩ | ⟨m', queue', -, hcons, rfl⟩ | ⟨hne, -⟩
        · cases hqueue.symm.trans hnil
        · cases hqueue.symm.trans hcons
          obtain ⟨t, hlead, ht⟩ := ih h' rfl
          exact ⟨t, .head ⟨.pollRead 1 Nat.one_pos, trivial, hs⟩ hlead, ht⟩
        · exact absurd hvec hne
      · exact h.leads_current hvec

/-- What has been delivered and returned stays. -/
theorem step_grows {a : ReadAction} (hs : s.step a = some s') :
    s.delivered <+: s'.delivered ∧ s.returned <+: s'.returned := by
  cases a with
  | dropSenders =>
      cases hs
      exact ⟨List.prefix_rfl, List.prefix_rfl⟩
  | deliver message =>
      obtain ⟨-, heq⟩ := Option.ite_none_right_eq_some.mp hs
      cases heq
      exact ⟨List.prefix_append .., List.prefix_rfl⟩
  | pollRead cap pos =>
      rcases pollRead_steps hs with ⟨-, -, rfl⟩ | ⟨m, queue, -, -, rfl⟩ | ⟨-, rfl⟩
      · exact ⟨List.prefix_rfl, List.prefix_rfl⟩
      · exact ⟨List.prefix_rfl, List.prefix_append ..⟩
      · exact ⟨List.prefix_rfl, List.prefix_append ..⟩

theorem grows {own : ReadAction → Prop} (hlead : readMachine.Leads own s s') :
    s.delivered <+: s'.delivered ∧ s.returned <+: s'.returned := by
  refine hlead.invariant (I := fun t => s.delivered <+: t.delivered ∧ s.returned <+: t.returned)
    ⟨List.prefix_rfl, List.prefix_rfl⟩ ?_
  intro t a t' h _ hs
  obtain ⟨hdelivered, hreturned⟩ := step_grows hs
  exact ⟨h.1.trans hdelivered, h.2.trans hreturned⟩

/-- Once the first message has been read nothing more is. -/
theorem First.ends (h : s.First) (hall : s.returned = firstMessage s.delivered)
    (hne : s.returned ≠ []) (hlead : readMachine.Leads (fun _ => True) s s') :
    s'.returned = s.returned := by
  have h' : s'.First := hlead.invariant h fun _ _ _ hfirst _ hs => hfirst.step hs
  obtain ⟨⟨rest, hdelivered⟩, hreturned⟩ := grows hlead
  have hsame : firstMessage s'.delivered = s.returned := by
    rw [← hdelivered, firstMessage_append, ← hall, if_neg hne]
  exact (List.IsPrefix.eq_of_length_le hreturned (hsame ▸ h'.returned).length_le).symm

theorem reachable_first (h : readMachine.Reachable s) : s.First :=
  h.invariant ⟨fun _ => ⟨rfl, rfl⟩, fun hne => absurd rfl hne⟩
    fun _ _ _ hfirst _ hs => hfirst.step hs

end Reading

/-- The bytes of a message. -/
def messageBytes (message : Message) : Bytes := message.toList.map Prim.toByte

namespace WiredServer

theorem handed_le {α : Type} {s : WiredServer α × WiredServer α}
    (hs : (serverMachine α).Reachable s) (key : StreamKey) :
    s.2.handed (key.1, !key.2) <+: s.1.flushed key := by
  obtain ⟨-, ⟨taken, rest, hflow⟩, -⟩ := (Running.init.leads hs.of_init).flowing key.1 key.2
  exact hflow.handed.trans ⟨rest, hflow.flushed.symm⟩

/-- **One message for each stream.** Two servers run, and a user reads of a stream what has
been handed to its read half. In every run what they have read is a prefix of the first
message with bytes in it that was flushed at the other end, and from there on the user can
read the first such message that was handed over to its end: of the messages after it, no
byte is ever read. -/
theorem one_message_read {α : Type} {s : WiredServer α × WiredServer α} {r : Reading}
    (hs : (serverMachine α).Reachable s) (hr : readMachine.Reachable r) (key : StreamKey)
    (hdelivered : r.delivered <+: (s.2.handed (key.1, !key.2)).map messageBytes) :
    r.returned <+: firstMessage ((s.1.flushed key).map messageBytes) ∧
    ∃ r', readMachine.Leads ReadAction.IsRead r r' ∧
      r'.returned = firstMessage r.delivered := by
  have hfirst := Reading.reachable_first hr
  refine ⟨hfirst.returned.trans (firstMessage_mono ?_), hfirst.leads⟩
  exact hdelivered.trans ((handed_le hs key).map _)

/-- A message of one byte. -/
def oneByte (b : U8) : Message := ⟨[b], by simp [usizeMax],
  by simp [isizeMax, show memSize U8 = 1 from rfl]⟩

/-- Two messages are flushed on a stream, and handed over. -/
def twice : List (Bool × ServerAction Unit) :=
  opening ++ [(true, .flush (.ofNat 1, true) (oneByte (.ofNat 7))),
    (true, .flushEvent (.ofNat 1, true)),
    (true, .flush (.ofNat 1, true) (oneByte (.ofNat 8))), (true, .flushEvent (.ofNat 1, true)),
    (true, .wiredRecv 0), (true, .wiredCall), (true, .wiredRecv 0), (true, .wiredCall),
    (false, .unwiredRead), (false, .helperRecv), (false, .unwiredRead), (false, .helperRecv)]

/-- The user reads twice. -/
def readTwice : Reading :=
  readMachine.run [.deliver [7], .deliver [8], .pollRead 1 Nat.one_pos, .pollRead 1 Nat.one_pos]

theorem one_message_read_twice :
    readTwice.returned = [7] ∧ readTwice.returned <+:
      firstMessage ((((serverMachine Unit).run twice).1.flushed (.ofNat 1, true)).map
        messageBytes) :=
  ⟨by decide, (one_message_read (Machine.reachableBy_run fun _ _ _ => trivial)
    (Machine.reachableBy_run fun _ _ _ => trivial) (.ofNat 1, true) (by decide)).1⟩

/-- **One value for each stream.** Each value that is wired on a stream is flushed as one
message. The user at the other end, who unwires a compatible type there, gets the first
value once it has been handed over, and afterwards nothing: whatever is wired and handed
over later, no byte is read behind the first value. -/
theorem one_value_read {α γ β : Type} [Wiring γ] [RustType β] [Unwiring β] {W : WTy γ}
    {U : UTy β} {P : γ → Prop} {R : γ → β → Prop} (hc : Compat true W U P R)
    {s : WiredServer α × WiredServer α} {r : Reading} (hs : (serverMachine α).Reachable s)
    (hr : readMachine.Reachable r) (key : StreamKey) {v : γ} {vs : List γ} (hv : P v)
    (hflushed : (s.1.flushed key).map messageBytes = (v :: vs).map (W.encode true))
    (hbytes : W.encode true v ≠ []) (hhanded : r.delivered ≠ [])
    (hdelivered : r.delivered <+: (s.2.handed (key.1, !key.2)).map messageBytes) :
    ∃ r', readMachine.Leads ReadAction.IsRead r r' ∧
      (∃ b, (unwiring : IoM Bytes β) r'.returned = (.ok b, []) ∧ R v b) ∧
      ∀ r'', readMachine.Leads (fun _ => True) r' r'' → r''.returned = r'.returned := by
  have hfirst := Reading.reachable_first hr
  obtain ⟨r', hlead, hreturned⟩ := hfirst.leads
  -- the first message handed over is the first one flushed
  have hvalue : firstMessage r.delivered = W.encode true v := by
    have hprefix := hdelivered.trans ((handed_le hs key).map messageBytes)
    rw [hflushed, List.map_cons] at hprefix
    rcases hd : r.delivered with _ | ⟨m, ms⟩
    · exact absurd hd hhanded
    · rw [hd, List.cons_prefix_cons] at hprefix
      rw [firstMessage, hprefix.1, if_neg hbytes]
  refine ⟨r', hlead, ?_, fun r'' hlater => ?_⟩
  · obtain ⟨b, hb, hR⟩ := hc.decodes_async hv []
    rw [List.append_nil] at hb
    exact ⟨b, by rw [hreturned, hvalue]; exact hb, hR⟩
  · have hall : r'.returned = firstMessage r'.delivered := by
      obtain ⟨rest, hmore⟩ := (Reading.grows hlead).1
      rw [hreturned, ← hmore, firstMessage_append, if_neg (hvalue ▸ hbytes)]
    have hfirst' : r'.First := hlead.invariant hfirst fun _ _ _ h _ hs => h.step hs
    exact hfirst'.ends hall (by rw [hreturned, hvalue]; exact hbytes) hlater

theorem one_value_read_twice :
    ∃ r', readMachine.Leads ReadAction.IsRead readTwice r' ∧
      (∃ n : U8, (unwiring : IoM Bytes U8) r'.returned = (.ok n, []) ∧ n = .ofNat 7) ∧
      ∀ r'', readMachine.Leads (fun _ => True) r' r'' → r''.returned = r'.returned := by
  have hs : (serverMachine Unit).Reachable ((serverMachine Unit).run twice) :=
    Machine.reachableBy_run fun _ _ _ => trivial
  have hflushed : (((serverMachine Unit).run twice).1.flushed (.ofNat 1, true)).map messageBytes =
      [(.ofNat 7 : U8), .ofNat 8].map ((WTy.prim .u8).encode true) := by decide
  exact one_value_read (.prim .u8) hs (Machine.reachableBy_run fun _ _ _ => trivial)
    (.ofNat 1, true) trivial hflushed (by decide) (by decide) (by decide)

end WiredServer

end WiringRs
