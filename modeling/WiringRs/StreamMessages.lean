import WiringRs.Stream

/-!
# The messages of a stream

What the helper of an end hands to its read half is a prefix of what has been
flushed at the other end. The messages flushed are split in those that `Wired` has
taken and those it has not; the former are at the reader, and then in its queue, on
the connection and in the writer's calls, in this order, unless the reader is gone.
-/

namespace WiringRs

namespace StreamEnd

variable {μ : Type}

def messages {ν : Type} (items : List (Item ν)) : List ν :=
  items.filterMap fun
    | .message m => some m
    | _ => none

section

variable {ν : Type} {items : List (Item ν)}

@[simp] theorem messages_nil : messages ([] : List (Item ν)) = [] := rfl

@[simp] theorem messages_append (l r : List (Item ν)) :
    messages (l ++ r) = messages l ++ messages r := List.filterMap_append

@[simp] theorem messages_message (m : ν) :
    messages (.message m :: items) = m :: messages items := rfl

@[simp] theorem messages_register : messages (.register :: items) = messages items := rfl

@[simp] theorem messages_drop (broadcast : Bool) :
    messages (.drop broadcast :: items) = messages items := rfl

@[simp] theorem messages_send_register (closed : Bool) :
    messages (trySend closed items .register) = messages items := by
  cases closed <;> simp

@[simp] theorem messages_send_drop (closed broadcast : Bool) :
    messages (trySend closed items (.drop broadcast)) = messages items := by
  cases closed <;> simp

end

/-- From the end `x` to the end `y`: `Wired` has taken the messages `taken` of those
flushed, and not yet `rest`. -/
structure Flow (x y : StreamEnd μ) (taken rest : List μ) : Prop where
  flushed : x.flushed = taken ++ rest
  /-- There is an event for each message not taken; a message that is being flushed,
  or whose event could not be sent, is behind these. -/
  waiting : x.wired ≠ .dead → (messages x.queue).length = rest.length ∧
    ∃ more, x.buf = rest ++ more ∧ (x.queueClosed = false → more = x.flushing.toList)
  /-- As long as the reader is there, nothing is lost. -/
  line : y.helper ≠ .dead → y.readDropped = false → y.inboxClosed = false →
    y.handed ++ messages (y.inbox ++ (x.out ++ x.todo)) = taken
  inbox : y.helper ≠ .dead → y.readDropped = false →
    y.handed ++ messages y.inbox <+: taken
  handed : y.handed <+: taken

/-- A step of the writing end. -/
theorem Step.flow_writer {lossy : Bool} {x y x' y' : StreamEnd μ}
    (hs : Step lossy x y x' y') (hr : Registered x y) {taken rest : List μ}
    (h : Flow x y taken rest) : ∃ taken rest, Flow x' y' taken rest := by
  cases hs with
  | @flush m _ hflushing =>
      refine ⟨taken, rest, { h with waiting := fun hwired => ?_ }⟩
      obtain ⟨hlen, more, hbuf, hmore⟩ := h.waiting hwired
      refine ⟨hlen, more ++ [m], by rw [hbuf, List.append_assoc], ?_⟩
      intro hopen
      rw [hmore hopen, hflushing]
      rfl
  | @flushed m hflushing hopen =>
      refine ⟨taken, rest ++ [m], { h with flushed := ?_, waiting := fun hwired => ?_ }⟩
      · rw [h.flushed, List.append_assoc]
      · obtain ⟨hlen, more, hbuf, hmore⟩ := h.waiting hwired
        rw [hmore hopen, hflushing] at hbuf
        refine ⟨?_, [], by rw [hbuf, List.append_nil]; rfl, fun _ => rfl⟩
        simp [hopen, hlen]
  | aborted hflushing hclosed =>
      refine ⟨taken, rest, { h with waiting := fun hwired => ?_ }⟩
      obtain ⟨hlen, more, hbuf, -⟩ := h.waiting hwired
      exact ⟨hlen, more, hbuf, fun hopen => by cases hclosed.symm.trans hopen⟩
  | close =>
      refine ⟨taken, rest, { h with waiting := fun hwired => ?_ }⟩
      rw [messages_send_drop]
      exact h.waiting hwired
  | «open» hopener hknown =>
      have hunregistered := (hr.unopened hopener hknown).wired
      refine ⟨taken, rest, { h with waiting := fun _ => ?_, line := ?_ }⟩
      · exact h.waiting (by rw [hunregistered]; nofun)
      · simpa using h.line
  | wiredRegister hqueue =>
      have hunregistered := hr.wired_unregistered hqueue
      refine ⟨taken, rest, { h with waiting := fun _ => ?_ }⟩
      have hwaiting := h.waiting (by rw [hunregistered]; nofun)
      rwa [hqueue] at hwaiting
  | @wiredMessage queue m buf hqueue htodo hwired hbuf =>
      obtain ⟨hlen, more, hmore, hflushing⟩ := h.waiting (by rw [hwired]; nofun)
      rw [hqueue, messages_message, List.length_cons] at hlen
      rcases rest with _ | ⟨m', rest⟩
      · cases hlen
      · rw [hbuf, List.cons_append] at hmore
        obtain ⟨rfl, rfl⟩ := List.cons.inj hmore
        refine ⟨taken ++ [m], rest, {
          flushed := by rw [h.flushed, List.append_assoc]; rfl
          waiting := fun _ => ⟨Nat.succ.inj hlen, more, rfl, hflushing⟩
          line := fun hhelper hread hopen => ?_
          inbox := fun hhelper hread =>
            (h.inbox hhelper hread).trans (List.prefix_append ..)
          handed := h.handed.trans (List.prefix_append ..) }⟩
        rw [← h.line hhelper hread hopen, htodo]
        simp
  | wiredSkip hqueue hskip =>
      refine ⟨taken, rest, { h with waiting := fun hwired => ?_ }⟩
      obtain ⟨hlen, more, hmore, -⟩ := h.waiting hwired
      have hlive : x.wired = .live :=
        (Life.live_iff (hr.wired_registered hqueue nofun)).mpr hwired
      rw [hskip hlive] at hmore
      obtain ⟨rfl, -⟩ := List.append_eq_nil_iff.mp hmore.symm
      rw [hqueue, messages_message] at hlen
      cases hlen
  | @wiredDrop queue broadcast hqueue htodo =>
      refine ⟨taken, rest, { h with waiting := fun hwired => absurd rfl hwired, line := ?_ }⟩
      have hline := h.line
      rw [htodo] at hline
      cases broadcast <;> simpa using hline
  | wiredIgnore hqueue =>
      refine ⟨taken, rest, { h with waiting := fun hwired => ?_ }⟩
      have hwaiting := h.waiting hwired
      rwa [hqueue] at hwaiting
  | write htodo =>
      refine ⟨taken, rest, { h with line := ?_ }⟩
      have hline := h.line
      rw [htodo, List.append_cons] at hline
      exact hline
  | notify htodo =>
      refine ⟨taken, rest, { h with line := ?_ }⟩
      have hline := h.line
      rw [htodo] at hline
      simpa using hline
  | accept hout =>
      refine ⟨taken, rest, { h with waiting := fun hwired => ?_ }⟩
      rw [messages_send_register]
      refine h.waiting fun hdead => hwired ?_
      rw [hdead]
      split <;> rfl
  | accepted => exact ⟨taken, rest, { h with }⟩
  | read hout => exact ⟨taken, rest, { h with }⟩
  | helperRegister => exact ⟨taken, rest, { h with }⟩
  | helperMessage => exact ⟨taken, rest, { h with }⟩
  | helperDrop =>
      refine ⟨taken, rest, { h with waiting := fun hwired => ?_ }⟩
      have hwaiting := h.waiting hwired
      split
      · rwa [messages_send_drop]
      · exact hwaiting
  | helperIgnore => exact ⟨taken, rest, { h with }⟩
  | closeQueue =>
      refine ⟨taken, rest, { h with waiting := fun hwired => ?_ }⟩
      obtain ⟨hlen, more, hbuf, -⟩ := h.waiting hwired
      exact ⟨hlen, more, hbuf, nofun⟩
  | closeInbox => exact ⟨taken, rest, { h with }⟩
  | endWired =>
      refine ⟨taken, rest, { h with waiting := fun hwired => h.waiting fun hdead => ?_ }⟩
      exact hwired (by rw [hdead]; rfl)
  | endHelper => exact ⟨taken, rest, { h with }⟩

/-- A step of the reading end takes nothing from the writer. -/
theorem Step.flow_reader {lossy : Bool} {x y x' y' : StreamEnd μ}
    (hs : Step lossy x y x' y') (hr : Registered x y) {taken rest : List μ}
    (h : Flow y x taken rest) : Flow y' x' taken rest := by
  cases hs with
  | flush => exact { h with }
  | flushed => exact { h with }
  | aborted => exact { h with }
  | close read =>
      refine { h with
        line := fun hhelper hread hopen => ?_
        inbox := fun hhelper hread => ?_ }
      · exact h.line hhelper (Bool.or_eq_false_iff.mp hread).1 hopen
      · exact h.inbox hhelper (Bool.or_eq_false_iff.mp hread).1
  | «open» =>
      have hline := h.line
      have hinbox := h.inbox
      exact { h with line := by simpa using hline, inbox := by simpa using hinbox }
  | wiredRegister => exact { h with }
  | wiredMessage => exact { h with }
  | wiredSkip => exact { h with }
  | wiredDrop => exact { h with }
  | wiredIgnore => exact { h with }
  | write => exact { h with }
  | notify =>
      have hline := h.line
      have hinbox := h.inbox
      exact { h with line := by simpa using hline, inbox := by simpa using hinbox }
  | accept hout =>
      have hline := h.line
      rw [hout] at hline
      exact { h with line := by simpa using hline }
  | accepted =>
      have hline := h.line
      have hinbox := h.inbox
      exact { h with line := by simpa using hline, inbox := by simpa using hinbox }
  | @read item out hout =>
      have hline := h.line
      rw [hout] at hline
      cases hclosed : x.inboxClosed with
      | true => exact { h with line := by simp, inbox := h.inbox }
      | false =>
          have hnew : x.helper ≠ .dead → x.readDropped = false →
              x.handed ++ messages (x.inbox ++ [item] ++ (out ++ y.todo)) = taken := by
            simpa using fun hhelper hread => hline hhelper hread hclosed
          refine { h with
            line := fun hhelper hread _ => hnew hhelper hread
            inbox := fun hhelper hread => ?_ }
          rw [← hnew hhelper hread, messages_append, ← List.append_assoc]
          exact List.prefix_append ..
  | helperRegister hinbox =>
      have hhelper : x.helper ≠ .dead := by
        rw [(hr.of_inbox hinbox).unregistered]
        nofun
      have hline := h.line hhelper
      have hinbox' := h.inbox hhelper
      rw [hinbox] at hline hinbox'
      exact { h with line := fun _ => hline, inbox := fun _ => hinbox' }
  | @helperMessage m inbox hinbox =>
      have hline := h.line
      have hinbox' := h.inbox
      rw [hinbox] at hline hinbox'
      by_cases hlive : x.helper = .live ∧ x.readDropped = false
      · rw [if_pos hlive]
        have hprefix : x.handed ++ [m] ++ messages inbox <+: taken := by
          simpa using hinbox' (by rw [hlive.1]; nofun) hlive.2
        exact { h with
          line := by simpa using hline
          inbox := fun _ _ => hprefix
          handed := (List.prefix_append ..).trans hprefix }
      · -- the stream is registered, so its helper or its reader is gone
        rw [if_neg hlive]
        have hgone : x.helper ≠ .dead → x.readDropped = false → False := by
          intro hhelper hread
          have hregistered := ((hr.of_inbox hinbox).registered nofun).1
          exact hlive ⟨(Life.live_iff hregistered).mpr hhelper, hread⟩
        exact { h with
          line := fun hhelper hread => (hgone hhelper hread).elim
          inbox := fun hhelper hread => (hgone hhelper hread).elim }
  | helperDrop hinbox =>
      exact { h with
        line := fun hhelper => absurd rfl hhelper
        inbox := fun hhelper => absurd rfl hhelper }
  | helperIgnore hinbox =>
      have hline := h.line
      have hinbox' := h.inbox
      rw [hinbox] at hline hinbox'
      exact { h with line := hline, inbox := hinbox' }
  | closeQueue => exact { h with }
  | closeInbox => exact { h with line := nofun }
  | endWired => exact { h with }
  | endHelper =>
      have hdead {life : Life} (hlife : life.drop ≠ .dead) : life ≠ .dead := by
        rintro rfl
        exact hlife rfl
      exact { h with
        line := fun hhelper => h.line (hdead hhelper)
        inbox := fun hhelper => h.inbox (hdead hhelper) }

end StreamEnd

end WiringRs
