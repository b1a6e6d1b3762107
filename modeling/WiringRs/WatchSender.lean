import WiringRs.Lib.Machine
import WiringRs.Lib.Watch

/-!
# A watch sender at a remote

Wiring a `watch::Sender` sends the current value along, and the remote makes a watch
channel of it. A task there forwards what its stream yields, and a task here stores
what comes back. The stream yields the value that it finds first, which is the
initial one if the remote user has not sent anything by then.
-/

namespace WiringRs

/-- Where a value at the remote is from. -/
inductive Source where
  | initial
  | user

/-- A store into the origin's channel. -/
inductive Store (T : Type) where
  | sent (v : T)
  | forwarded (v : T) (source : Source)

inductive WatchTask where
  | notSpawned
  | running
  | finished
deriving DecidableEq

structure WatchSender (T : Type) where
  origin : Watch T
  /-- The last value sent here, or the one the origin had before. -/
  last : T
  stores : List (Store T) := []
  /-- The task of `Sender::wiring`. -/
  task : WatchTask := .notSpawned
  /-- The value on its way to the remote. -/
  init : Option T := none
  /-- The values on their way back. -/
  back : List (T × Source) := []
  remote : Option (Watch (T × Source)) := none
  stream : WatchStream := {}
  /-- The task of `Sender::unwiring`. -/
  remoteTask : WatchTask := .notSpawned
  /-- The remote user has sent a value. -/
  remoteSent : Bool := false

inductive WatchAction (T : Type) where
  /-- A send on one of the clones here. -/
  | send (v : T)
  | subscribe
  | dropReceiver
  /-- The origin is wired, with its current value. -/
  | wire
  | unwire
  | remoteSend (v : T)
  /-- The remote's task writes the next value of its stream. -/
  | forward
  /-- It ends, by an error or an abort, or as the senders there are gone. -/
  | remoteEnd
  /-- The task here stores the next value. -/
  | store
  /-- It ends, as the stream has ended or no receiver is left. -/
  | finish

namespace WatchSender

variable {T : Type}

def step (s : WatchSender T) : WatchAction T → Option (WatchSender T)
  | .send v =>
      match s.origin.send v with
      | some origin =>
          some { s with origin := origin, last := v, stores := .sent v :: s.stores }
      | none => some s
  | .subscribe =>
      some { s with origin := { s.origin with receivers := s.origin.receivers + 1 } }
  | .dropReceiver =>
      some { s with origin := { s.origin with receivers := s.origin.receivers - 1 } }
  | .wire =>
      match s.task with
      | .notSpawned => some { s with init := some s.origin.value, task := .running }
      | _ => none
  | .unwire =>
      match s.init with
      | some v => some { s with
          init := none, remote := some ⟨(v, .initial), 0, 1⟩, remoteTask := .running }
      | none => none
  | .remoteSend v =>
      match s.remote.bind (·.send (v, .user)) with
      | some remote => some { s with remote := some remote, remoteSent := true }
      | none => none
  | .forward =>
      match s.remoteTask, s.remote with
      | .running, some remote =>
          match s.stream.next remote with
          | some (v, stream) => some { s with stream := stream, back := s.back ++ [v] }
          | none => none
      | _, _ => none
  | .remoteEnd =>
      match s.remoteTask with
      | .running => some { s with
          remoteTask := .finished
          -- the receiver is the stream's
          remote := s.remote.map fun w => { w with receivers := w.receivers - 1 } }
      | _ => none
  | .store =>
      match s.task, s.back with
      | .running, (v, source) :: back =>
          match s.origin.send v with
          | some origin => some { s with
              origin := origin, back := back, stores := .forwarded v source :: s.stores }
          | none => some { s with back := back, task := .finished }
      | _, _ => none
  | .finish =>
      match s.task with
      | .running =>
          if s.origin.receivers = 0 ∨ s.back.isEmpty ∧ s.remoteTask = .finished then
            some { s with task := .finished }
          else none
      | _ => none

/-- Every store is of a value sent here or by the remote user, and if the remote user
sends nothing the value is the last one sent here. -/
structure Faithful (s : WatchSender T) : Prop where
  stores : ∀ v, .forwarded v .initial ∉ s.stores
  value : s.remoteSent = false → s.origin.value = s.last

/-- The remote's task takes no value before the remote user has sent one. -/
def SentFirst (s : WatchSender T) (a : WatchAction T) : Prop :=
  a = .forward → s.remoteSent = true

end WatchSender

/-- The origin has a value and receivers. -/
def watchSender {T : Type} (value : T) (receivers : Nat) :
    Machine (WatchSender T) (WatchAction T) :=
  ⟨{ origin := ⟨value, 0, receivers⟩, last := value }, WatchSender.step⟩

namespace WatchSender

variable {T : Type} {s s' : WatchSender T}

/-- Once the remote user has sent a value the remote holds one of the user's, and
before that nothing comes back. -/
structure Inv (s : WatchSender T) : Prop where
  stores : ∀ v, .forwarded v .initial ∉ s.stores
  back : ∀ v ∈ s.back, v.2 = .user
  fresh : s.task = .notSpawned → s.init = none ∧ s.remote = none
  read : s.remote ≠ none → s.init = none
  sent : s.remoteSent = true → ∃ w, s.remote = some w ∧ w.value.2 = .user
  silent : s.remoteSent = false → s.back = [] ∧ s.origin.value = s.last

/-- A send here is the last value. -/
theorem Inv.send {v : T} (h : s.Inv) (hs : s.step (.send v) = some s') : s'.Inv := by
  rcases hsend : s.origin.send v with _ | origin
  · simp only [step, hsend, Option.some.injEq] at hs
    exact hs ▸ h
  · simp only [step, hsend, Option.some.injEq] at hs
    subst hs
    obtain rfl := Watch.send_eq_some hsend
    refine ⟨?_, h.back, h.fresh, h.read, h.sent, ?_⟩
    · intro v' hmem
      rcases List.mem_cons.mp hmem with heq | hmem
      · cases heq
      · exact h.stores v' hmem
    · intro hsilent
      exact ⟨(h.silent hsilent).1, rfl⟩

/-- The value crosses to the remote. -/
theorem Inv.unwire (h : s.Inv) (hs : s.step .unwire = some s') : s'.Inv := by
  rcases hinit : s.init with _ | v
  · simp [step, hinit] at hs
  · simp only [step, hinit, Option.some.injEq] at hs
    subst hs
    refine ⟨h.stores, h.back, ?_, fun _ => rfl, ?_, h.silent⟩
    · intro htask
      cases hinit.symm.trans (h.fresh htask).1
    · intro hsent
      obtain ⟨w, hw, -⟩ := h.sent hsent
      cases hinit.symm.trans (h.read (by rw [hw]; nofun))

/-- What the remote user sends is the remote's value. -/
theorem Inv.remoteSend {v : T} (h : s.Inv) (hs : s.step (.remoteSend v) = some s') :
    s'.Inv := by
  rcases hremote : s.remote with _ | w
  · simp [step, hremote] at hs
  · rcases hsend : w.send (v, .user) with _ | w'
    · simp [step, hremote, hsend] at hs
    · simp only [step, hremote, Option.bind_some, hsend, Option.some.injEq] at hs
      subst hs
      obtain rfl := Watch.send_eq_some hsend
      refine ⟨h.stores, h.back, ?_, fun _ => h.read (by rw [hremote]; nofun),
        fun _ => ⟨_, rfl, rfl⟩, nofun⟩
      intro htask
      cases hremote.symm.trans (h.fresh htask).2

/-- The remote's task writes a value of the remote user. -/
theorem Inv.forward (h : s.Inv) (hok : s.SentFirst .forward)
    (hs : s.step .forward = some s') : s'.Inv := by
  have hsent := hok rfl
  obtain ⟨w, hw, huser⟩ := h.sent hsent
  cases htask : s.remoteTask with
  | notSpawned | finished => simp [step, htask] at hs
  | running =>
      simp only [step, htask, hw, WatchStream.next] at hs
      split_ifs at hs
      cases hs
      refine ⟨h.stores, ?_, ?_, fun _ => h.read (by rw [hw]; nofun),
        fun _ => ⟨w, rfl, huser⟩, ?_⟩
      · intro v hv
        rcases List.mem_append.mp hv with hv | hv
        · exact h.back v hv
        · rw [List.mem_singleton.mp hv, huser]
      · intro hnew
        cases hw.symm.trans (h.fresh hnew).2
      · intro hsilent
        cases hsent.symm.trans hsilent

/-- The task here stores it. -/
theorem Inv.store (h : s.Inv) (hs : s.step .store = some s') : s'.Inv := by
  cases htask : s.task with
  | notSpawned | finished => simp [step, htask] at hs
  | running =>
      rcases hback : s.back with _ | ⟨⟨v, source⟩, back⟩
      · simp [step, htask, hback] at hs
      · have huser : source = .user := h.back (v, source) (hback ▸ List.mem_cons_self)
        have hrest : ∀ v ∈ back, v.2 = .user := fun v hv =>
          h.back v (hback ▸ List.mem_cons_of_mem _ hv)
        have hsent : s.remoteSent ≠ false := fun hsilent => by
          cases hback.symm.trans (h.silent hsilent).1
        rcases hsend : s.origin.send v with _ | origin
        · simp only [step, htask, hback, hsend, Option.some.injEq] at hs
          subst hs
          exact ⟨h.stores, hrest, nofun, h.read, h.sent, fun hs => absurd hs hsent⟩
        · simp only [step, htask, hback, hsend, Option.some.injEq] at hs
          subst hs
          refine ⟨?_, hrest, nofun, h.read, h.sent, fun hs => absurd hs hsent⟩
          intro v' hmem
          rcases List.mem_cons.mp hmem with heq | hmem
          · rw [huser] at heq
            cases heq
          · exact h.stores v' hmem

/-- A step that meets the condition keeps the invariant. -/
theorem step_inv {a : WatchAction T} (h : s.Inv) (hok : s.SentFirst a)
    (hs : s.step a = some s') : s'.Inv := by
  cases a with
  | send v => exact h.send hs
  | subscribe | dropReceiver =>
      cases hs
      exact ⟨h.stores, h.back, h.fresh, h.read, h.sent, h.silent⟩
  | wire =>
      cases htask : s.task with
      | running | finished => simp [step, htask] at hs
      | notSpawned =>
          obtain ⟨-, hremote⟩ := h.fresh htask
          simp only [step, htask, Option.some.injEq] at hs
          subst hs
          exact ⟨h.stores, h.back, nofun, fun hr => absurd hremote hr, h.sent, h.silent⟩
  | unwire => exact h.unwire hs
  | remoteSend v => exact h.remoteSend hs
  | forward => exact h.forward hok hs
  | remoteEnd =>
      cases htask : s.remoteTask with
      | notSpawned | finished => simp [step, htask] at hs
      | running =>
          simp only [step, htask, Option.some.injEq] at hs
          subst hs
          refine ⟨h.stores, h.back, ?_, fun hr => h.read ?_, ?_,
            h.silent⟩
          · intro htask
            obtain ⟨hinit, hremote⟩ := h.fresh htask
            exact ⟨hinit, by rw [hremote]; rfl⟩
          · intro hnone
            exact hr (by rw [hnone]; rfl)
          · intro hsent
            obtain ⟨w, hw, huser⟩ := h.sent hsent
            exact ⟨{ w with receivers := w.receivers - 1 }, by rw [hw]; rfl, huser⟩
  | store => exact h.store hs
  | finish =>
      cases htask : s.task with
      | notSpawned | finished => simp [step, htask] at hs
      | running =>
          simp only [step, htask, Option.ite_none_right_eq_some, Option.some.injEq] at hs
          obtain ⟨-, rfl⟩ := hs
          exact ⟨h.stores, h.back, nofun, h.read, h.sent, h.silent⟩

end WatchSender

/-- **The origin.** In a run in which the remote's task takes no value before the remote
user has sent one, every store into the origin is of a value sent here or by the
remote user, and while the remote user sends nothing the value is the last one sent
here. -/
theorem origin_kept {T : Type} {value : T} {receivers : Nat} {s : WatchSender T}
    (h : (watchSender value receivers).ReachableBy WatchSender.SentFirst s) :
    s.Faithful := by
  have hinv : s.Inv := h.invariant
    ⟨nofun, nofun, fun _ => ⟨rfl, rfl⟩, fun _ => rfl, nofun, fun _ => ⟨rfl, rfl⟩⟩
    fun _ _ _ h hok hs => WatchSender.step_inv h hok hs
  exact ⟨hinv.stores, fun hsilent => (hinv.silent hsilent).2⟩

/-- The remote user sends before the task takes a value. -/
theorem origin_kept_sent :
    ((watchSender 1 1).run [.wire, .unwire, .remoteSend 2]).Faithful :=
  origin_kept <| .step (a := .remoteSend 2) (.step (a := .unwire)
    (.step (a := .wire) .init (by rintro ⟨⟩) rfl) (by rintro ⟨⟩) rfl) (by rintro ⟨⟩) rfl

/-- The initial value comes back over a later one, and the remote user has sent
nothing. -/
theorem echo_not_faithful :
    ∃ s, (watchSender 1 1).Reachable s ∧ s.remoteSent = false ∧ s.last = 2 ∧
      s.origin.value = 1 ∧ ¬ s.Faithful := by
  refine ⟨(watchSender 1 1).run [.wire, .send 2, .unwire, .forward, .store],
    Machine.reachableBy_run (by simp), rfl, rfl, rfl, ?_⟩
  intro h
  exact absurd (h.value rfl) (by decide)

end WiringRs
