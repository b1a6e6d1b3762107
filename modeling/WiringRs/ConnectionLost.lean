import Mathlib.Algebra.Order.BigOperators.Group.List
import WiringRs.Delivery

/-!
# A connection that is lost

The connection of two servers may be lost at any time: then some of what was on it still
comes, and after that a server reads its end. Its own writes may fail, or go nowhere.
What a user is handed then is still a part of what was flushed before, without a gap; the
tasks end, each told by the one before it, and no half of a stream is left with them.

To its reader the other peer is one that has ended and left what still comes on the
connection. It is replaced by such a one, stream by stream.
-/

namespace WiringRs

/-! ## One stream -/

namespace StreamEnd

variable {μ : Type} {x y z x' y' : StreamEnd μ}

/-- An end sees nothing of the other one but what this has sent. -/
theorem Step.of_out {lossy : Bool} (hs : Step lossy x y x' y') (hout : z.out = y.out) :
    Step lossy x z x' { z with out := y'.out } := by
  have hz : { z with out := y.out } = z := by rw [← hout]
  cases hs with
  | flush hheld hflushing hwired => rw [hz]; exact .flush hheld hflushing hwired
  | flushed hflushing hopen => rw [hz]; exact .flushed hflushing hopen
  | aborted hflushing hclosed => rw [hz]; exact .aborted hflushing hclosed
  | close read hheld => rw [hz]; exact .close read hheld
  | «open» hopener hknown => rw [hz]; exact .open hopener hknown
  | wiredRegister hqueue => rw [hz]; exact .wiredRegister hqueue
  | wiredMessage hqueue htodo hwired hbuf =>
      rw [hz]; exact .wiredMessage hqueue htodo hwired hbuf
  | wiredSkip hqueue hskip => rw [hz]; exact .wiredSkip hqueue hskip
  | wiredDrop hqueue htodo hwired => rw [hz]; exact .wiredDrop hqueue htodo hwired
  | wiredIgnore hqueue hwired => rw [hz]; exact .wiredIgnore hqueue hwired
  | write htodo hitem => rw [hz]; exact .write htodo hitem
  | notify htodo => rw [hz]; exact .notify htodo
  | accept hregister hpending => exact .accept (hout.trans hregister) hpending
  | accepted hpending => rw [hz]; exact .accepted hpending
  | read hitems hitem hpending => exact .read (hout.trans hitems) hitem hpending
  | helperRegister hinbox => rw [hz]; exact .helperRegister hinbox
  | helperMessage hinbox => rw [hz]; exact .helperMessage hinbox
  | helperDrop hinbox hhelper => rw [hz]; exact .helperDrop hinbox hhelper
  | helperIgnore hinbox hhelper => rw [hz]; exact .helperIgnore hinbox hhelper
  | closeQueue hlossy => rw [hz]; exact .closeQueue hlossy
  | closeInbox hlossy => rw [hz]; exact .closeInbox hlossy
  | endWired hlossy => rw [hz]; exact .endWired hlossy
  | endHelper hlossy => rw [hz]; exact .endHelper hlossy

/-- What was sent is cut off, behind the registration if this was not received yet. -/
theorem Registration.cut {sent sent' : List (Item μ)} {peer : Bool}
    (h : x.Registration sent peer) (hsent : sent' <+: sent)
    (hfirst : ∀ rest, sent = .register :: rest → sent' ≠ []) : x.Registration sent' peer := by
  cases h with
  | unopened hidle hnil hpeer =>
      subst hnil
      exact .unopened hidle (List.prefix_nil.mp hsent) hpeer
  | coming hidle hopener hpeer rest hregister hrest =>
      subst hregister
      rcases sent' with _ | ⟨item, rest'⟩
      · exact absurd rfl (hfirst rest rfl)
      · obtain ⟨rfl, hmore⟩ := List.cons_prefix_cons.mp hsent
        exact .coming hidle hopener hpeer rest' rfl fun hmem => hrest (hmore.subset hmem)
  | accepting hfresh hpending hopener hpeer hregister hwired honly =>
      exact .accepting hfresh hpending hopener hpeer (fun hmem => hregister (hsent.subset hmem))
        hwired honly
  | settled h => exact .settled { h with sent := fun hmem => h.sent (hsent.subset hmem) }

/-- `z` stands for an end that has sent `out` to `x` and no more, of the messages `ms`. -/
structure Shadow (x : StreamEnd μ) (out : List (Item μ)) (ms : List μ) (z : StreamEnd μ) :
    Prop where
  out : z.out = out
  registered : Registered x z
  flow : ∃ taken rest, Flow z x taken rest ∧ taken <+: ms

/-- Nothing has been sent, not even the registration. -/
theorem Shadow.unopened (h : x.Idle) (opener : Bool) (hopener : x.opener = !opener)
    (ms : List μ) : Shadow x [] ms { opener := opener } where
  out := rfl
  registered := {
    role := hopener
    left := .unopened h rfl fun _ => rfl
    right := by
      refine .unopened ⟨⟨rfl, rfl, rfl, rfl, rfl, rfl, rfl, rfl, rfl, rfl, rfl, rfl⟩,
        rfl, rfl, rfl⟩ ?_ fun _ => h.known
      rw [h.out, h.todo]
      rfl }
  flow := by
    refine ⟨[], [], ⟨rfl, fun _ => ⟨rfl, [], rfl, fun _ => rfl⟩, ?_, ?_, ?_⟩, List.nil_prefix⟩
    · simp [h.handed, h.inbox]
    · simp [h.handed, h.inbox]
    · rw [h.handed]

/-- The end when its tasks have ended, with `out` on the connection of the messages
`come`. -/
def endedAfter (y : StreamEnd μ) (out : List (Item μ)) (come : List μ) : StreamEnd μ :=
  { y with
    out := out
    todo := []
    wired := .dead
    queue := []
    buf := []
    flushed := come }

theorem Flow.cut {taken rest : List μ} (h : Flow y x taken rest) {out : List (Item μ)}
    (hout : out <+: y.out) : ∃ come, come <+: taken ∧ Flow (y.endedAfter out come) x come [] := by
  by_cases hreads : x.helper ≠ .dead ∧ x.readDropped = false ∧ x.inboxClosed = false
  · obtain ⟨hhelper, hread, hopen⟩ := hreads
    refine ⟨x.handed ++ messages (x.inbox ++ out), ?_, {
      flushed := (List.append_nil _).symm
      waiting := fun hwired => absurd rfl hwired
      line := fun _ _ _ => by simp [endedAfter]
      inbox := fun _ _ => ?_
      handed := List.prefix_append _ _ }⟩
    · obtain ⟨more, hmore⟩ := hout
      rw [← h.line hhelper hread hopen, ← hmore]
      simp
    · rw [messages_append, ← List.append_assoc]
      exact List.prefix_append _ _
  · exact ⟨taken, List.prefix_rfl, {
      flushed := (List.append_nil _).symm
      waiting := fun hwired => absurd rfl hwired
      line := fun hhelper hread hopen => absurd ⟨hhelper, hread, hopen⟩ hreads
      inbox := h.inbox
      handed := h.handed }⟩

/-- An end whose registration is still to come has nothing of its stream. -/
theorem Registration.idle {sent rest : List (Item μ)} {peer : Bool}
    (h : x.Registration sent peer) (hsent : sent = .register :: rest) : x.Idle := by
  have hmem : .register ∈ sent := hsent ▸ List.mem_cons_self
  cases h with
  | unopened hidle => exact hidle
  | coming hidle => exact hidle
  | accepting _ _ _ _ hregister => exact absurd hmem hregister
  | settled h => exact absurd hmem h.sent

/-- Whatever part of what an end has sent still comes, there is such an end. -/
theorem exists_shadow (hr : Registered x y) {taken rest : List μ} (hf : Flow y x taken rest)
    {out : List (Item μ)} (hout : out <+: y.out) : ∃ z, Shadow x out taken z := by
  have hwhole : y.Fresh → ∃ z, Shadow x out taken z := by
    intro hfresh
    rw [hfresh.out, List.prefix_nil] at hout
    exact ⟨y, hfresh.out.trans hout.symm, hr, taken, rest, hf, List.prefix_rfl⟩
  cases hr.right with
  | unopened hidle => exact hwhole hidle.toFresh
  | coming hidle => exact hwhole hidle.toFresh
  | accepting hfresh => exact hwhole hfresh
  | settled hy =>
      by_cases hlost : out = [] ∧ x.Idle
      · obtain ⟨rfl, hidle⟩ := hlost
        exact ⟨_, .unopened hidle y.opener hr.role taken⟩
      · obtain ⟨come, hcome, hflow⟩ := hf.cut hout
        have hright : (y.endedAfter out come).Settled (x.out ++ x.todo) x.known :=
          { hy with wired := Or.inr (Or.inl ⟨nofun, List.not_mem_nil⟩) }
        refine ⟨y.endedAfter out come, rfl, ⟨hr.role, ?_, .settled hright⟩, come, [], hflow, hcome⟩
        refine hr.left.cut ?_ fun rest hsent hnil => ?_
        · show out ++ [] <+: y.out ++ y.todo
          rw [List.append_nil]
          exact hout.trans (List.prefix_append _ _)
        · exact hlost ⟨(List.append_nil out).symm.trans hnil, hr.left.idle hsent⟩

/-- A step of the reading end. -/
theorem Shadow.step {ms : List μ} (h : Shadow x y.out ms z) (hs : Step true x y x' y') :
    Shadow x' y'.out ms { z with out := y'.out } := by
  have hstep := hs.of_out h.out
  obtain ⟨taken, rest, hflow, htaken⟩ := h.flow
  exact ⟨rfl, hstep.registered h.registered, taken, rest,
    hstep.flow_reader h.registered hflow, htaken⟩

/-- The user is not given the stream that they were to be given. -/
theorem Shadow.withhold {out : List (Item μ)} {ms : List μ} (h : Shadow x out ms z)
    (hknown : x.known = true) (held : Bool) : Shadow { x with held := held } out ms z := by
  have hsettled := h.registered.left.of_not_fresh fun hf => by
    cases hf.known.symm.trans hknown
  obtain ⟨taken, rest, hflow, htaken⟩ := h.flow
  exact ⟨h.out, h.registered.own rfl rfl rfl rfl (.settled { hsettled with }), taken, rest,
    { hflow with }, htaken⟩

end StreamEnd

/-! ## A server -/

inductive LostAction (α : Type) where
  /-- A step of a task or a user. What is written goes nowhere. -/
  | act (a : ServerAction α)
  /-- The write that `Wired` is about to make fails. -/
  | failWrite

namespace WiredServer

variable {α : Type}

/-- What the reader of a lost connection sees at its other end. -/
def gone (wire : List (Token α)) : WiredServer α :=
  { wire := wire, wiredDone := true, wClosed := true }

/-- The streams that an event was still to open are not opened if its encoding fails. -/
def withoutConnects (calls : List (WiredCall α)) : List (WiredCall α) :=
  calls.filter fun
    | .connect => false
    | _ => true

/-- The two halves of a stream are dropped. -/
def dropStream (p : WiredServer α) (key : StreamKey) : WiredServer α :=
  { (p.sendDrop key).sendDrop key with
    readDropped := insert key p.readDropped
    writeDropped := insert key p.writeDropped }

/-- `self.wire(event)` fails, or the write of a stream id: then the stream is dropped
before the queue is closed. -/
def failWrite (p : WiredServer α) : Option (WiredServer α) :=
  match p.calls with
  | .wire event :: calls =>
      some { p.write (.frame event) with calls := withoutConnects calls, wClosed := true }
  | .offer streamId :: calls =>
      some { (p.write (.stream streamId)).dropStream (streamId, true) with
        calls := withoutConnects calls
        wClosed := true }
  | _ => none

end WiredServer

/-- A server after the loss of its connection, on which `wire` still comes. -/
def lostMachine {α : Type} (p : WiredServer α) (wire : List (Token α)) :
    Machine (WiredServer α × WiredServer α) (LostAction α) :=
  ⟨(p, .gone wire), fun s a =>
    match a with
    | .act a => WiredServer.step s.1 s.2 a
    | .failWrite => s.1.failWrite.map (·, s.2)⟩

/-- What the tasks do, and not the users of the server. -/
def LostAction.Internal {α : Type} : LostAction α → Prop
  | .act a => a.Internal
  | .failWrite => True

namespace WiredServer

variable {α : Type} {x y g x' g' : WiredServer α}

/-! ### What still comes -/

/-- Of each stream comes what an end has sent that had flushed `flushed`. -/
def Coming (flushed : StreamKey → List Message) (x g : WiredServer α) : Prop :=
  ∀ i r, ∃ z, (view (i, r) x).Shadow (view (i, !r) g).out (flushed (i, !r)) z

theorem Coming.start (h : Flowing x y) {wire : List (Token α)} (hwire : wire <+: y.wire) :
    Coming y.flushed x (gone wire) := by
  intro i r
  obtain ⟨hr, -, taken, rest, hflow⟩ := h i r
  have hout : (view (i, !r) (gone wire)).out <+: (view (i, !r) y).out := hwire.filterMap _
  obtain ⟨z, hz⟩ := StreamEnd.exists_shadow hr hflow hout
  obtain ⟨taken', rest', hflow', htaken⟩ := hz.flow
  refine ⟨z, hz.out, hz.registered, taken', rest', hflow', htaken.trans ⟨rest, ?_⟩⟩
  exact hflow.flushed.symm

theorem Coming.follows {flushed : StreamKey → List Message} (h : Coming flushed x g)
    (hs : ∀ i r, Follows true (view (i, r) x) (view (i, !r) g) (view (i, r) x')
      (view (i, !r) g')) : Coming flushed x' g' := by
  intro i r
  obtain ⟨z, hz⟩ := h i r
  rcases hs i r with hstep | ⟨hx, hg⟩
  · exact ⟨_, hz.step hstep⟩
  · exact ⟨z, by rw [hx, hg]; exact hz⟩

theorem view_withoutConnects (key : StreamKey) {calls : List (WiredCall α)} :
    view key { x with calls := withoutConnects calls } = view key { x with calls := calls } := by
  have hcalls : (withoutConnects calls).filterMap (WiredCall.item key)
      = calls.filterMap (WiredCall.item key) := by
    rw [withoutConnects, List.filterMap_filter]
    congr 1
    funext c
    cases c <;> rfl
  simp only [view, hcalls]
  rfl

theorem Coming.close {flushed : StreamKey → List Message} (h : Coming flushed x g) :
    Coming flushed { x with wClosed := true } g :=
  h.follows fun _ _ => Or.inl (.closeQueue rfl)

theorem Coming.withoutConnects {flushed : StreamKey → List Message}
    {calls : List (WiredCall α)} (h : Coming flushed { x with calls := calls } g) :
    Coming flushed { x with calls := withoutConnects calls } g := by
  intro i r
  rw [view_withoutConnects]
  exact h i r

/-- The user is not given the stream, but it is dropped. -/
theorem Coming.dropStream {flushed : StreamKey → List Message} {streamId : WireId}
    (h : Coming flushed { x with held := insert (streamId, true) x.held } g)
    (hknown : x.knows (streamId, true) = true) :
    Coming flushed (x.dropStream (streamId, true)) g := by
  -- as if the user were given it, and dropped it
  let x1 : WiredServer α := { x with held := insert (streamId, true) x.held }
  let x2 : WiredServer α :=
    { x1.sendDrop (streamId, true) with readDropped := insert (streamId, true) x.readDropped }
  have hheld : (streamId, true) ∈ x1.held := Finset.mem_insert_self ..
  have h2 : Coming flushed x2 g :=
    h.follows fun _ _ => close_follows (x := x1) hheld true x1.writeDropped
  have h3 := h2.follows fun i r => close_follows (y := g) (i := i) (r := r) (x := x2) hheld false
    (insert (streamId, true) x.writeDropped)
  intro i r
  obtain ⟨z, hz⟩ := h3 i r
  let p := x.dropStream (streamId, true)
  by_cases hk : (i, r) = (streamId, true)
  · obtain ⟨rfl, rfl⟩ := Prod.mk.injEq .. |>.mp hk
    have hview : view (i, true) { p with held := insert (i, true) p.held } =
        { view (i, true) p with held := true } := view_held_local
    exact ⟨z, (hview ▸ hz).withhold hknown (view (i, true) p).held⟩
  · have hview : view (i, r) { p with held := insert (streamId, true) p.held } = view (i, r) p :=
      view_held_of_ne hk
    exact ⟨z, hview ▸ hz⟩

/-- A write that fails changes nothing of what comes. -/
theorem Coming.failWrite {flushed : StreamKey → List Message} (h : Coming flushed x g)
    (hs : x.failWrite = some x') : Coming flushed x' g := by
  unfold WiredServer.failWrite at hs
  split at hs
  · rename_i event calls hcalls
    cases hs
    have hwrite : Coming flushed ({ x with calls := calls }.write (.frame event)) g :=
      h.follows fun _ _ => wire_follows hcalls
    exact (Coming.withoutConnects (x := x.write (.frame event)) hwrite).close
  · rename_i streamId calls hcalls
    cases hs
    have hknown : x.knows (streamId, true) = true := by
      obtain ⟨z, hz⟩ := h streamId true
      refine (hz.registered.left.of_not_fresh fun hf => ?_).known
      cases hf.todo.symm.trans (todo_cons hcalls (if_pos rfl))
    have hoffer := h.follows fun i r => offer_follows (y := g) (i := i) (r := r) hcalls
    have hdrop := Coming.dropStream (x := { x with calls := calls }.write (.stream streamId))
      hoffer hknown
    exact (Coming.withoutConnects (x := (x.write (.stream streamId)).dropStream (streamId, true))
      hdrop).close
  · cases hs

/-! ### The end of the tasks -/

/-- A task that has ended keeps no stream. -/
structure Cleared (p : WiredServer α) : Prop where
  wired : p.wiredDone = true → p.wired.streams = ∅
  helper : p.helperDone = true → p.streams = ∅

theorem receive_cleared (token : Token α) (h : x.Cleared) : (x.receive token).Cleared := by
  rcases token with ⟨_ | _ | _⟩ | _
  · exact ⟨h.wired, h.helper⟩
  · exact ⟨h.wired, h.helper⟩
  · exact ⟨h.wired, h.helper⟩
  · refine ⟨fun hdone => ?_, h.helper⟩
    have hstreams := h.wired hdone
    simp only [receive]
    split
    · exact hstreams
    · exact hstreams

theorem help_wired (event : UnwiredEvent) : (x.help event).wired = x.wired := by
  cases event with
  | registerStream => rfl
  | message =>
      simp only [help]
      split <;> rfl
  | drop =>
      simp only [help]
      split
      · split <;> rfl
      · rfl

theorem Cleared.step {a : ServerAction α} (h : x.Cleared) (hw : Winding x y)
    (hs : WiredServer.step x y a = some (x', y')) : x'.Cleared := by
  cases a with
  | send event =>
      obtain ⟨-, heq⟩ := Option.ite_none_left_eq_some.mp hs
      cases heq
      exact ⟨h.wired, h.helper⟩
  | flush | dropRead | dropWrite | shutdownWrite | unwiredEof | unwiredEnd =>
      obtain ⟨-, heq⟩ := Option.ite_none_right_eq_some.mp hs
      cases heq
      exact ⟨h.wired, h.helper⟩
  | flushEvent key =>
      simp only [WiredServer.step] at hs
      split at hs
      · split at hs <;> cases hs <;> exact ⟨h.wired, h.helper⟩
      · cases hs
  | wiredRecv connects =>
      simp only [WiredServer.step] at hs
      split at hs
      · cases hs
        exact ⟨h.wired, h.helper⟩
      · rename_i event wRx hcalls hwRx
        cases hs
        refine ⟨fun hdone => ?_, h.helper⟩
        cases hwRx.symm.trans (hw.wired hdone).2.1
      · cases hs
  | wiredCall =>
      simp only [WiredServer.step] at hs
      split at hs
      · rename_i c calls hcalls
        obtain ⟨p, hp, heq⟩ := Option.map_eq_some_iff.mp hs
        cases heq
        have hdone : x.wiredDone ≠ true := by
          intro hdone
          cases hcalls.symm.trans (hw.wired hdone).2.2
        have hsends := Sends.call hp
        refine ⟨fun h' => absurd (hsends.wiredDone.symm.trans h') hdone, ?_⟩
        cases c with
        | wire | notify | offer =>
            cases hp
            exact h.helper
        | connect =>
            simp only [call] at hp
            split at hp
            · cases hp
              exact h.helper
            · cases hp
      · cases hs
  | wiredEnd =>
      obtain ⟨-, heq⟩ := Option.ite_none_right_eq_some.mp hs
      cases heq
      exact ⟨fun _ => rfl, h.helper⟩
  | unwiredRead =>
      simp only [WiredServer.step] at hs
      split at hs
      · cases hs
        exact receive_cleared _ h
      · cases hs
  | unwiredConnected =>
      simp only [WiredServer.step] at hs
      split at hs
      · cases hs
        exact ⟨h.wired, h.helper⟩
      · cases hs
  | helperRecv =>
      simp only [WiredServer.step] at hs
      split at hs
      · cases hs
        exact ⟨h.wired, h.helper⟩
      · rename_i event uRx huRx
        cases hs
        have hsends := Sends.help (p := { x with uRx := uRx }) event
        refine ⟨fun hdone => ?_, fun hdone => ?_⟩
        · rw [help_wired]
          exact h.wired (hsends.wiredDone.symm.trans hdone)
        · cases huRx.symm.trans (hw.helper (hsends.helperDone.symm.trans hdone)).2
      · cases hs
  | helperEnd =>
      obtain ⟨-, heq⟩ := Option.ite_none_right_eq_some.mp hs
      cases heq
      exact ⟨h.wired, fun _ => rfl⟩

theorem cleared {s : WiredServer α × WiredServer α} (h : (serverMachine α).Reachable s) :
    s.1.Cleared ∧ s.2.Cleared := by
  have hinit : ({} : WiredServer α).Cleared := ⟨nofun, nofun⟩
  have hboth := Machine.duo_both (P := fun x y : WiredServer α => x.Cleared ∧ Winding x y)
    (fun _ _ => True) h ⟨hinit, winding_init⟩ ?_
  · exact ⟨hboth.1.1, hboth.2.1⟩
  · rintro x y a x' y' ⟨hx, hxy⟩ ⟨hy, hyx⟩ - hs
    obtain ⟨hxy', hyx'⟩ := hxy.step hyx hs
    obtain ⟨wire, rfl⟩ := step_other hs
    exact ⟨⟨hx.step hxy hs, hxy'⟩, ⟨hy.wired, hy.helper⟩, hyx'⟩

/-- The other end of a lost connection has written all it will. -/
theorem Winding.gone (h : Winding x y) {wire : List (Token α)} (hwire : wire <+: y.wire) :
    Winding x (gone wire) ∧ Winding (gone wire) x := by
  refine ⟨{ h with unwired := fun hdone => ?_ },
    ⟨fun _ => ⟨rfl, rfl, rfl⟩, nofun, by simp [WiredServer.gone], nofun, nofun⟩⟩
  obtain ⟨-, hnil, hconnecting⟩ := h.unwired hdone
  exact ⟨rfl, List.prefix_nil.mp (hnil ▸ hwire), hconnecting⟩

theorem Winding.failWrite (hxg : Winding x g) (hgx : Winding g x) (hs : x.failWrite = some x') :
    Winding x' g ∧ Winding g x' := by
  have hdone : x.wiredDone ≠ true := by
    intro hdone
    rw [WiredServer.failWrite, (hxg.wired hdone).2.2] at hs
    cases hs
  have hother : x'.wiredDone = x.wiredDone → Winding g x' := fun heq =>
    hgx.other heq.trans (absurd · hdone)
  unfold WiredServer.failWrite at hs
  split at hs
  · cases hs
    refine ⟨{ hxg with wired := (absurd · hdone), finished := fun h => ?_ }, hother rfl⟩
    obtain ⟨hu, hh, -⟩ := hxg.finished h
    exact ⟨hu, hh, Or.inr rfl⟩
  · cases hs
    refine ⟨{ hxg with wired := (absurd · hdone), finished := fun h => ?_ }, hother rfl⟩
    obtain ⟨hu, hh, -⟩ := hxg.finished h
    exact ⟨hu, hh, Or.inr rfl⟩
  · cases hs

theorem failWrite_cleared (h : x.Cleared) (hs : x.failWrite = some x') : x'.Cleared := by
  unfold WiredServer.failWrite at hs
  split at hs
  · cases hs
    exact ⟨h.wired, h.helper⟩
  · cases hs
    exact ⟨h.wired, h.helper⟩
  · cases hs

/-! ### The work left -/

theorem work_withoutConnects (calls : List (WiredCall α)) :
    ((withoutConnects calls).map WiredCall.work).sum ≤ (calls.map WiredCall.work).sum :=
  (List.filter_sublist.map _).sum_le_sum fun _ _ => Nat.zero_le _

theorem failWrite_left (hs : x.failWrite = some x') : left x' g < left x g := by
  unfold WiredServer.failWrite at hs
  split at hs
  · rename_i event calls hcalls
    cases hs
    refine left_lt rfl (Nat.add_lt_add_right ?_ _)
    have hle := work_withoutConnects calls
    let p : WiredServer α := { x with calls := withoutConnects calls }.write (.frame event)
    have hwrite : p.work = { x with calls := withoutConnects calls }.work +
        (Token.frame event).work := work_write _
    have hcall : { x with calls := withoutConnects calls }.work + (1 + (Token.frame event).work) ≤
        x.work := by
      simp only [work, queued, tasks, hcalls, List.map_cons, List.sum_cons, WiredCall.work]
      omega
    show p.work < x.work
    omega
  · rename_i streamId calls hcalls
    cases hs
    let p : WiredServer α := { x with calls := withoutConnects calls }.write (.stream streamId)
    let drop : Option (WiredEvent α) := some (.drop streamId true true)
    have hevents : ((p.sendWired drop).sendWired drop).events = x.events := by
      rw [events_sendWired rfl, events_sendWired rfl]
      rfl
    refine left_lt (congrArg (· + g.events) hevents) (Nat.add_lt_add_right ?_ _)
    have hle := work_withoutConnects calls
    have hfirst : (p.sendWired drop).work ≤ p.work + 9 := work_sendWired drop
    have hsecond : ((p.sendWired drop).sendWired drop).work ≤ (p.sendWired drop).work + 9 :=
      work_sendWired drop
    have hwrite : p.work = { x with calls := withoutConnects calls }.work + 4 := work_write _
    have hcall : { x with calls := withoutConnects calls }.work + 24 ≤ x.work := by
      simp only [work, queued, tasks, hcalls, List.map_cons, List.sum_cons, WiredCall.work]
      omega
    show ((p.sendWired drop).sendWired drop).work < x.work
    omega
  · cases hs

/-! ### Every run after the loss -/

structure Lost (flushed : StreamKey → List Message) (x g : WiredServer α) : Prop where
  coming : Coming flushed x g
  winding : Winding x g ∧ Winding g x
  cleared : x.Cleared
  ended : g.wiredDone = true

theorem Lost.step {p : WiredServer α} {wire : List (Token α)} {flushed : StreamKey → List Message}
    {s t : WiredServer α × WiredServer α} {a : LostAction α} (h : Lost flushed s.1 s.2)
    (hs : (lostMachine p wire).step s a = some t) : Lost flushed t.1 t.2 := by
  obtain ⟨x, g⟩ := s
  cases a with
  | act a =>
      obtain ⟨x', g'⟩ := t
      have hx' := h.cleared.step h.winding.1 hs
      have hwinding := h.winding.1.step h.winding.2 hs
      have hcoming : Coming flushed x' g' :=
        h.coming.follows fun i r => step_follows_of hs (fun h => by cases h) i r
      obtain ⟨rest, rfl⟩ := step_other hs
      exact ⟨hcoming, hwinding, hx', h.ended⟩
  | failWrite =>
      obtain ⟨x', hx', rfl⟩ := Option.map_eq_some_iff.mp hs
      exact ⟨h.coming.failWrite hx', h.winding.1.failWrite h.winding.2 hx',
        failWrite_cleared h.cleared hx', h.ended⟩

/-- **A lost connection.** A server of two loses its connection in any reachable state,
and of what the other one has written any part still comes. Whatever its tasks and users do
then, and whichever writes fail: what is handed to a read half are the messages flushed at
the other end before the loss, in order and without a gap; the tasks come to rest; and at
rest all have ended, and none of them keeps a half of a stream, unless the server has no
stream id left. -/
theorem connection_lost {x y : WiredServer α}
    (h : (serverMachine α).Reachable (x, y) ∨ (serverMachine α).Reachable (y, x))
    {wire : List (Token α)} (hwire : wire <+: y.wire) {s : WiredServer α × WiredServer α}
    (hs : (lostMachine x wire).Reachable s) :
    (∀ key, s.1.handed key <+: y.flushed (key.1, !key.2)) ∧
    (lostMachine x wire).Settles LostAction.Internal ∧
    ((lostMachine x wire).AtRest LostAction.Internal s →
      (s.1.Ended ∧ s.1.wired.streams = ∅ ∧ s.1.streams = ∅) ∨ s.1.Exhausted) := by
  have hbefore : Running (fun _ => []) (fun _ => []) x y ∧ x.Cleared := by
    rcases h with h | h
    · exact ⟨Running.init.leads h.of_init, (cleared h).1⟩
    · exact ⟨(Running.init.leads h.of_init).symm, (cleared h).2⟩
  obtain ⟨hrunning, hcleared⟩ := hbefore
  have hlost : Lost y.flushed s.1 s.2 := by
    refine hs.invariant (I := fun s => Lost y.flushed s.1 s.2) ?_ fun _ _ _ hlost _ => hlost.step
    exact ⟨.start hrunning.flowing hwire, hrunning.winding.1.gone hwire, hcleared, rfl⟩
  refine ⟨?_, ?_, fun hrest => ?_⟩
  · rintro ⟨i, r⟩
    obtain ⟨z, hz⟩ := hlost.coming i r
    obtain ⟨taken, rest, hflow, htaken⟩ := hz.flow
    exact hflow.handed.trans htaken
  · refine Machine.settles_of_measure (fun s => left s.1 s.2) ?_
    rintro ⟨x, g⟩ a t ha hs
    cases a with
    | act a => exact step_left ha hs
    | failWrite =>
        obtain ⟨x', hx', rfl⟩ := Option.map_eq_some_iff.mp hs
        exact failWrite_left hx'
  · by_cases hids : s.1.Exhausted
    · exact Or.inr hids
    · have hx (a : ServerAction α) (ha : a.Internal) : WiredServer.step s.1 s.2 a = none :=
        hrest (.act a) ha
      obtain ⟨hunwired, hhelper, hfinished, hask⟩ :=
        hlost.winding.1.readers hx hids hlost.ended
      have hwired := hlost.winding.1.wiredDone hx hids hask
      exact Or.inl ⟨⟨hwired, hunwired, hhelper, hfinished⟩, hlost.cleared.wired hwired,
        hlost.cleared.helper hhelper⟩

/-- Two messages are flushed on a stream, and `Wired` writes them. -/
def twoMessages : List (Bool × ServerAction Unit) :=
  opening ++ [(true, .flush (.ofNat 1, true) .empty), (true, .flushEvent (.ofNat 1, true)),
    (true, .flush (.ofNat 1, true) .empty), (true, .flushEvent (.ofNat 1, true)),
    (true, .wiredRecv 0), (true, .wiredCall), (true, .wiredRecv 0), (true, .wiredCall)]

/-- The other server, to which only the first one comes. -/
def half : WiredServer Unit × WiredServer Unit :=
  let s := (serverMachine Unit).run twoMessages
  (lostMachine s.2 (s.1.wire.take 1)).run [.act .unwiredRead, .act .unwiredEof, .act .helperRecv,
    .act .helperRecv, .act .helperEnd, .act .unwiredEnd, .act (.wiredRecv 0), .act .wiredEnd]

theorem connection_lost_half :
    half.1.handed (.ofNat 1, false) = [.empty] ∧
      half.1.handed (.ofNat 1, false) <+:
        ((serverMachine Unit).run twoMessages).1.flushed (.ofNat 1, true) ∧ half.1.Ended := by
  have hreach : (serverMachine Unit).Reachable ((serverMachine Unit).run twoMessages) :=
    Machine.reachableBy_run fun _ _ _ => trivial
  have hlost := connection_lost (Or.inr hreach)
    (List.take_prefix 1 ((serverMachine Unit).run twoMessages).1.wire) (s := half)
    (Machine.reachableBy_run fun _ _ _ => trivial)
  refine ⟨by decide, hlost.1 (.ofNat 1, false), ?_⟩
  refine ((hlost.2.2 ?_).resolve_right ?_).1
  · rintro (a | _) ha
    · cases a <;> first | exact ha.elim | rfl
    · rfl
  · rintro ⟨calls, hcalls, -⟩
    cases hcalls

end WiredServer

end WiringRs
