import WiringRs.Lib.Machine
import WiringRs.Rust

/-!
# The read half of a wired stream

The messages of a stream arrive on an unbounded channel, and `poll_read` hands
their bytes out through a cursor over the current message. What is returned is
always a prefix of what was delivered. But a cursor over a message is taken
for exhausted when its vector is empty, and never when its position has
reached the end: after the last byte of a message `poll_read` reports the end
of the stream, as it does on an empty message.
-/

namespace WiringRs

/-! ## Channels and cursors -/

inductive Poll (α : Type) where
  | pending
  | ready (a : α)
deriving DecidableEq

/-- An unbounded channel: what was sent and not received yet, and whether a
sender is alive. -/
structure Channel (α : Type) where
  queue : List α := []
  alive : Bool := true
deriving DecidableEq

/-- `poll_recv` -/
def Channel.pollRecv {α : Type} (rx : Channel α) : Poll (Option α) × Channel α :=
  match rx.queue with
  | m :: queue => (.ready (some m), { rx with queue := queue })
  | [] => (if rx.alive then .pending else .ready none, rx)

/-- `std::io::Cursor<Vec<u8>>` -/
structure Cursor where
  vec : Bytes := []
  position : Nat := 0
deriving DecidableEq

namespace Cursor

/-- What lies at and after the position. -/
def rest (c : Cursor) : Bytes := c.vec.drop c.position

/-- `AsyncRead` for a cursor: as many bytes as there is room for. -/
def pollRead (cap : Nat) (c : Cursor) : Bytes × Cursor :=
  (c.rest.take cap, { c with position := c.position + (c.rest.take cap).length })

theorem pollRead_rest (cap : Nat) (c : Cursor) :
    (c.pollRead cap).1 ++ (c.pollRead cap).2.rest = c.rest := by
  have hdrop : (c.pollRead cap).2.rest = c.rest.drop (c.rest.take cap).length := by
    rw [rest, pollRead, rest, List.drop_drop]
  rw [hdrop, pollRead, List.length_take]
  rcases Nat.le_total cap c.rest.length with h | h
  · rw [Nat.min_eq_left h, List.take_append_drop]
  · rw [Nat.min_eq_right h, List.take_of_length_le h, List.drop_length,
      List.append_nil]

theorem pollRead_eq_nil {cap : Nat} (h : 0 < cap) (c : Cursor) :
    (c.pollRead cap).1 = [] ↔ c.rest = [] := by
  rw [pollRead, List.take_eq_nil_iff]
  exact or_iff_right (Nat.ne_of_gt h)

end Cursor

structure InternalReadHalf where
  buf : Cursor := {}
  rx : Channel Bytes := {}
deriving DecidableEq

/-- `poll_read` with room for `cap` bytes: the bytes filled in. None filled in
is the end of the stream. -/
def InternalReadHalf.pollRead (cap : Nat) (r : InternalReadHalf) :
    Poll Bytes × InternalReadHalf :=
  if r.buf.vec.length = 0 then
    match r.rx.pollRecv with
    | (.pending, rx) => (.pending, { r with rx := rx })
    | (.ready (some newMsg), rx) =>
        let (bytes, buf) := Cursor.pollRead cap { vec := newMsg }
        (.ready bytes, { buf := buf, rx := rx })
    | (.ready none, rx) => (.ready [], { r with rx := rx })
  else
    let (bytes, buf) := r.buf.pollRead cap
    (.ready bytes, { r with buf := buf })

namespace InternalReadHalf

/-- The bytes still to be returned. -/
def ahead (r : InternalReadHalf) : Bytes := r.buf.rest ++ r.rx.queue.flatten

/-- The sender side is gone and every byte has been returned. -/
def AtEnd (r : InternalReadHalf) : Prop := r.rx.alive = false ∧ r.ahead = []

/-- The cursor has reached the end of a message, or is about to be set on an
empty one. -/
def Exhausted (r : InternalReadHalf) : Prop :=
  r.buf.vec ≠ [] ∧ r.buf.rest = [] ∨
    r.buf.vec = [] ∧ r.rx.queue.head? = some []

section

variable {cap : Nat} {r r' : InternalReadHalf} {bytes : Bytes}

theorem rest_of_vec_nil (h : r.buf.vec = []) : r.buf.rest = [] := by
  rw [Cursor.rest, h, List.drop_nil]

/-- What a read can do: wait, report the closed channel, start on the next
message, or go on with the current one. -/
theorem pollRead_cases (cap : Nat) (r : InternalReadHalf) :
    (r.buf.vec = [] ∧ r.rx.queue = [] ∧ r.rx.alive = true ∧
      r.pollRead cap = (.pending, r)) ∨
    (r.buf.vec = [] ∧ r.rx.queue = [] ∧ r.rx.alive = false ∧
      r.pollRead cap = (.ready [], r)) ∨
    (∃ m queue, r.buf.vec = [] ∧ r.rx.queue = m :: queue ∧
      r.pollRead cap = (.ready (Cursor.pollRead cap { vec := m }).1,
        ⟨(Cursor.pollRead cap { vec := m }).2, { r.rx with queue := queue }⟩)) ∨
    (r.buf.vec ≠ [] ∧ r.pollRead cap = (.ready (r.buf.pollRead cap).1,
      { r with buf := (r.buf.pollRead cap).2 })) := by
  by_cases hvec : r.buf.vec = []
  · rcases hq : r.rx.queue with _ | ⟨m, queue⟩
    · cases halive : r.rx.alive with
      | true =>
          refine Or.inl ⟨hvec, rfl, rfl, ?_⟩
          simp [pollRead, Channel.pollRecv, hvec, hq, halive]
      | false =>
          refine Or.inr (Or.inl ⟨hvec, rfl, rfl, ?_⟩)
          simp [pollRead, Channel.pollRecv, hvec, hq, halive]
    · refine Or.inr (Or.inr (Or.inl ⟨m, queue, hvec, rfl, ?_⟩))
      simp [pollRead, Channel.pollRecv, hvec, hq]
  · refine Or.inr (Or.inr (Or.inr ⟨hvec, ?_⟩))
    rw [pollRead, if_neg fun h => hvec (List.eq_nil_of_length_eq_zero h)]

/-- What a read returns comes off what is ahead. -/
theorem pollRead_ready (h : r.pollRead cap = (.ready bytes, r')) :
    r.ahead = bytes ++ r'.ahead ∧ r'.rx.alive = r.rx.alive := by
  rcases pollRead_cases cap r with ⟨-, -, -, he⟩ | ⟨-, -, -, he⟩ |
    ⟨m, queue, hvec, hq, he⟩ | ⟨-, he⟩
  · rw [he] at h
    cases h
  · rw [he] at h
    cases h
    exact ⟨rfl, rfl⟩
  · rw [he] at h
    cases h
    have hrest := Cursor.pollRead_rest cap { vec := m }
    refine ⟨?_, rfl⟩
    rw [ahead, ahead, ← List.append_assoc, hrest, rest_of_vec_nil hvec, hq]
    rfl
  · rw [he] at h
    cases h
    refine ⟨?_, rfl⟩
    rw [ahead, ahead, ← List.append_assoc, Cursor.pollRead_rest]

theorem pollRead_pending (h : r.pollRead cap = (.pending, r')) : r' = r := by
  rcases pollRead_cases cap r with ⟨-, -, -, he⟩ | ⟨-, -, -, he⟩ |
    ⟨m, queue, -, -, he⟩ | ⟨-, he⟩
  all_goals
    rw [he] at h
    cases h
  rfl

/-- When a read reports the end of the stream. -/
theorem pollRead_eof (h : 0 < cap) :
    (r.pollRead cap).1 = .ready [] ↔ r.Exhausted ∨
      r.buf.vec = [] ∧ r.rx.queue = [] ∧ r.rx.alive = false := by
  unfold Exhausted
  rcases pollRead_cases cap r with ⟨hvec, hq, halive, he⟩ | ⟨hvec, hq, halive, he⟩ |
    ⟨m, queue, hvec, hq, he⟩ | ⟨hvec, he⟩
  · simp [he, hvec, hq, halive]
  · simp [he, hvec, hq, halive]
  · simp [he, hvec, hq, Cursor.pollRead_eq_nil h, Cursor.rest]
  · simp [he, hvec, Cursor.pollRead_eq_nil h]

theorem atEnd_of_closed (hvec : r.buf.vec = []) (hq : r.rx.queue = [])
    (halive : r.rx.alive = false) : r.AtEnd := by
  refine ⟨halive, ?_⟩
  rw [ahead, rest_of_vec_nil hvec, hq]
  rfl

end

end InternalReadHalf

/-! ## Runs -/

/-- A read half, what was delivered to it and what it has returned. -/
structure Reading where
  half : InternalReadHalf := {}
  delivered : List Bytes := []
  returned : Bytes := []
deriving DecidableEq

inductive ReadAction where
  | deliver (message : Bytes)
  /-- The last sender of the channel is dropped. -/
  | dropSenders
  | pollRead (cap : Nat) (pos : 0 < cap)

namespace Reading

def step (s : Reading) : ReadAction → Option Reading
  | .deliver message =>
      if s.half.rx.alive then some { s with
        half := { s.half with
          rx := { s.half.rx with queue := s.half.rx.queue ++ [message] } }
        delivered := s.delivered ++ [message] }
      else none
  | .dropSenders => some { s with
      half := { s.half with rx := { s.half.rx with alive := false } } }
  | .pollRead cap _ =>
      match s.half.pollRead cap with
      | (.pending, half) => some { s with half := half }
      | (.ready bytes, half) => some { s with
          half := half
          returned := s.returned ++ bytes }

end Reading

def readMachine : Machine Reading ReadAction := ⟨{}, Reading.step⟩

/-- A faithful step: what was returned is a prefix of what was delivered, and
the end of the stream is reported only when the senders are gone and every byte
was returned. -/
def Reading.Faithful (t : Machine.Step Reading ReadAction) : Prop :=
  t.after.returned <+: t.after.delivered.flatten ∧
    ∀ cap pos, t.action = .pollRead cap pos →
      (t.before.half.pollRead cap).1 = .ready [] →
      t.before.half.rx.alive = false ∧
        t.before.returned = t.before.delivered.flatten

/-- A read finds an exhausted cursor only when the stream is at its end. -/
def Reading.ExhaustedAtEnd (s : Reading) (a : ReadAction) : Prop :=
  ∀ cap pos, a = .pollRead cap pos → s.half.Exhausted → s.half.AtEnd

/-- What was delivered is what was returned and what is ahead. -/
def Reading.Inv (s : Reading) : Prop :=
  s.delivered.flatten = s.returned ++ s.half.ahead

theorem Reading.step_inv {s s' : Reading} {a : ReadAction} (h : s.Inv)
    (hs : s.step a = some s') : s'.Inv := by
  unfold Inv at h ⊢
  cases a with
  | deliver message =>
      simp only [step] at hs
      split at hs
      · cases hs
        simp only [InternalReadHalf.ahead, List.flatten_append,
          List.flatten_singleton] at h ⊢
        rw [h, List.append_assoc, List.append_assoc]
      · cases hs
  | dropSenders =>
      cases hs
      exact h
  | pollRead cap pos =>
      simp only [step] at hs
      rcases hr : s.half.pollRead cap with ⟨_ | bytes, half⟩
      · rw [hr] at hs
        cases hs
        rw [InternalReadHalf.pollRead_pending hr]
        exact h
      · rw [hr] at hs
        cases hs
        rw [h, (InternalReadHalf.pollRead_ready hr).1, List.append_assoc]

/-- A step is faithful iff it is no read of an exhausted cursor before the end
of the stream. -/
theorem Reading.faithful_iff {s s' : Reading} {a : ReadAction} (h : s.Inv)
    (hs : s.step a = some s') : Faithful ⟨s, a, s'⟩ ↔ s.ExhaustedAtEnd a := by
  have hprefix : s'.returned <+: s'.delivered.flatten :=
    ⟨s'.half.ahead, (step_inv h hs).symm⟩
  have hall : s.returned = s.delivered.flatten ↔ s.half.ahead = [] := by
    rw [show s.delivered.flatten = _ from h, List.self_eq_append_right]
  simp only [Faithful, ExhaustedAtEnd, hprefix, true_and, hall]
  constructor
  · intro hf cap pos ha hex
    exact hf cap pos ha ((InternalReadHalf.pollRead_eof pos).mpr (Or.inl hex))
  · intro hok cap pos ha heof
    rcases (InternalReadHalf.pollRead_eof pos).mp heof with hex | ⟨hvec, hq, halive⟩
    · exact hok cap pos ha hex
    · exact InternalReadHalf.atEnd_of_closed hvec hq halive

/-- **When a wired stream is read faithfully.** In a run of deliveries and
reads every step is faithful iff no read finds an exhausted cursor (one that
has reached the end of a message, or is set on an empty message) before the
end of the stream. -/
theorem reads_faithful_iff (as : List ReadAction) :
    (∀ t ∈ readMachine.steps {} as, Reading.Faithful t) ↔
      ∀ t ∈ readMachine.steps {} as, t.before.ExhaustedAtEnd t.action :=
  have h0 : Reading.Inv {} := rfl
  Machine.forall_steps_iff
    (fun _ _ _ h hs => ⟨fun _ => Reading.step_inv h hs, Reading.faithful_iff h hs⟩)
    h0 as

/-- One message of one byte, read twice: the second read reports the end of the
stream though the sender is alive. -/
theorem second_read_not_faithful :
    ¬ ∀ t ∈ readMachine.steps {} [.deliver [7], .pollRead 1 (by decide),
      .pollRead 1 (by decide)], Reading.Faithful t := by
  intro h
  have hlast := h _ (List.mem_cons_of_mem _ (List.mem_cons_of_mem _
    List.mem_cons_self))
  exact absurd (hlast.2 1 (by decide) rfl rfl).1 (by decide)

end WiringRs
