import WiringRs.StreamDrops
import WiringRs.StreamMessages

/-!
# The messages that arrive

A drop follows the messages that were flushed before it: it takes the same way, from
`Wired` to the helper of the other end, and nothing overtakes it. So what an end has
flushed before it is closed is at the other end, or ahead of the drop on the way there,
as long as the other end is not closed itself.
-/

namespace WiringRs

theorem Life.live_ne_dead : Life.live ≠ .dead := by decide

theorem Life.of_drop {life : Life} (h : life.drop ≠ .dead) : life ≠ .dead := by
  rintro rfl
  exact h rfl

namespace StreamEnd

variable {μ : Type}

/-! ## Ahead of a drop -/

section

variable {ν : Type}

/-- The messages ahead of the first drop. -/
def early : List (Item ν) → List ν
  | [] => []
  | .register :: items => early items
  | .message m :: items => m :: early items
  | .drop _ :: _ => []

@[simp] theorem early_nil : early ([] : List (Item ν)) = [] := rfl

@[simp] theorem early_register (items : List (Item ν)) :
    early (.register :: items) = early items := rfl

@[simp] theorem early_message (m : ν) (items : List (Item ν)) :
    early (.message m :: items) = m :: early items := rfl

@[simp] theorem early_drop (b : Bool) (items : List (Item ν)) :
    early (.drop b :: items) = [] := rfl

/-- More items do no harm behind the others, and none ahead of a drop. -/
theorem early_append_mono {l r r' : List (Item ν)} (h : early r <+: early r') :
    early (l ++ r) <+: early (l ++ r') := by
  induction l with
  | nil => exact h
  | cons item l ih =>
      cases item with
      | register => exact ih
      | message m => exact (List.prefix_cons_inj m).mpr ih
      | drop b => exact List.prefix_rfl

theorem early_prefix_append (l r : List (Item ν)) : early l <+: early (l ++ r) := by
  have h : early (l ++ []) <+: early (l ++ r) := early_append_mono List.nil_prefix
  rwa [List.append_nil] at h

theorem early_send (closed : Bool) (items : List (Item ν)) (item : Item ν) :
    early items <+: early (trySend closed items item) := by
  cases closed with
  | true => exact List.prefix_rfl
  | false => exact early_prefix_append _ _

@[simp] theorem early_append_drop (items : List (Item ν)) (b : Bool) :
    early (items ++ [.drop b]) = early items := by
  induction items with
  | nil => rfl
  | cons item items ih => cases item <;> simp [ih]

@[simp] theorem early_append_register (items : List (Item ν)) :
    early (items ++ [.register]) = early items := by
  induction items with
  | nil => rfl
  | cons item items ih => cases item <;> simp [ih]

@[simp] theorem early_messages (ms : List ν) : early (ms.map .message) = ms := by
  induction ms with
  | nil => rfl
  | cons m ms ih => rw [List.map_cons, early_message, ih]

/-- A registration may go anywhere. -/
theorem early_insert_register (l r : List (Item ν)) :
    early (l ++ .register :: r) = early (l ++ r) := by
  induction l with
  | nil => rfl
  | cons item l ih => cases item <;> simp [ih]

@[simp] theorem dropping_nil : ¬ Dropping ([] : List (Item ν)) := by simp [Dropping]

theorem dropping_append {l r : List (Item ν)} :
    Dropping (l ++ r) ↔ Dropping l ∨ Dropping r := by
  simp only [Dropping, List.mem_append]
  exact or_or_or_comm

theorem not_dropping_send {closed : Bool} {items : List (Item ν)} {item : Item ν}
    (h : ¬ Dropping items) (hitem : item.isDrop = false) :
    ¬ Dropping (trySend closed items item) := by
  cases closed with
  | true => exact h
  | false =>
      rw [trySend_open, dropping_append, not_or]
      refine ⟨h, ?_⟩
      cases item with
      | register | message => simp [Dropping]
      | drop b => cases hitem

theorem not_dropping_tail {item : Item ν} {items rest : List (Item ν)}
    (h : ¬ Dropping items) (hitems : items = item :: rest) : ¬ Dropping rest := fun hdrop =>
  h (hdrop.imp (mem_tail hitems _) (mem_tail hitems _))

theorem not_dropping_head {b : Bool} {items rest : List (Item ν)} (h : ¬ Dropping items)
    (hitems : items = .drop b :: rest) : False :=
  h (hitems ▸ dropping_cons b rest)

theorem not_dropping_single {item : Item ν} {items : List (Item ν)} (hmem : item ∈ items)
    (h : ¬ Dropping items) : ¬ Dropping [item] := by
  rintro (hdrop | hdrop)
  · exact h (Or.inl ((List.mem_singleton.mp hdrop).symm ▸ hmem))
  · exact h (Or.inr ((List.mem_singleton.mp hdrop).symm ▸ hmem))

/-- Without a drop they are all ahead of it. -/
theorem early_of_not_dropping {items : List (Item ν)} (h : ¬ Dropping items) (r : List (Item ν)) :
    early (items ++ r) = messages items ++ early r := by
  induction items with
  | nil => rfl
  | cons item items ih =>
      have htail : ¬ Dropping items := fun hdrop =>
        h (hdrop.imp (List.mem_cons_of_mem _) (List.mem_cons_of_mem _))
      cases item with
      | register => exact ih htail
      | message m => exact congrArg (m :: ·) (ih htail)
      | drop b => exact absurd (dropping_cons b items) h

end

/-! ## What is due -/

/-- The messages in the channel for which `Wired` has an event, ahead of a drop. -/
def awaited (x : StreamEnd μ) : List μ :=
  if x.wired = .dead then [] else x.buf.take (early x.queue).length

/-- What is ahead of the helper of `y`, in the order in which it comes. -/
def ahead (x y : StreamEnd μ) : List (Item μ) :=
  y.inbox ++ (x.out ++ (x.todo ++ x.awaited.map .message))

/-- The messages `ms` have come to `y`, or will come before a drop. -/
structure Due (x y : StreamEnd μ) (ms : List μ) : Prop where
  line : y.helper ≠ .dead → ms <+: y.handed ++ early (ahead x y)
  handed : y.helper = .dead → ms <+: y.handed

/-- No task of the end drops the stream by itself. -/
structure Reads (y : StreamEnd μ) : Prop where
  readDropped : y.readDropped = false
  queue : y.helper ≠ .dead → ¬ Dropping y.queue
  todo : y.helper ≠ .dead → ¬ Dropping y.todo

/-- No drop is queued or on its way, and the tasks drop the stream only with their
map, after the end of their queue. -/
structure Undropped (x : StreamEnd μ) : Prop where
  queue : ¬ Dropping x.queue
  todo : ¬ Dropping x.todo
  out : ¬ Dropping x.out
  inbox : ¬ Dropping x.inbox
  wired : x.wired = .dead → x.queueClosed = true
  helper : x.helper = .dead → x.inboxClosed = true

section

variable {x y x' y' : StreamEnd μ} {ms : List μ}

theorem Due.mono (h : Due x y ms) (hhelper : y'.helper = y.helper) (hhanded : y'.handed = y.handed)
    (hline : early (ahead x y) <+: early (ahead x' y')) : Due x' y' ms where
  line hlive := by
    rw [hhanded]
    refine (h.line (hhelper ▸ hlive)).trans ?_
    exact (List.prefix_append_right_inj _).mpr hline
  handed hdead := by
    rw [hhanded]
    exact h.handed (hhelper ▸ hdead)

/-- More is waiting at the writer. -/
theorem Due.wait (h : Due x y ms) (hout : x'.out = x.out) (htodo : x'.todo = x.todo)
    (hwaiting : x.awaited <+: x'.awaited) : Due x' y ms := by
  refine h.mono rfl rfl ?_
  rw [ahead, ahead, hout, htodo]
  refine early_append_mono (early_append_mono (early_append_mono ?_))
  rwa [early_messages, early_messages]

theorem awaited_mono (hwired : x'.wired = .dead → x.wired = .dead) (hbuf : x.buf <+: x'.buf)
    (hqueue : (early x.queue).length ≤ (early x'.queue).length) : x.awaited <+: x'.awaited := by
  unfold awaited
  by_cases hdead : x.wired = .dead
  · rw [if_pos hdead]
    exact List.nil_prefix
  · rw [if_neg hdead, if_neg (mt hwired hdead)]
    obtain ⟨more, hmore⟩ := hbuf
    rw [← hmore]
    refine (List.take_prefix_take_left hqueue).trans ?_
    rw [List.take_append]
    exact List.prefix_append ..

theorem awaited_of_nil (h : (early x.queue).length = 0) : x.awaited = [] := by
  unfold awaited
  split
  · rfl
  · rw [h, List.take_zero]

/-- Nothing is left on the way. -/
theorem Due.come (h : Due x y ms) (hinbox : y.inbox = []) (hout : x.out = [])
    (htodo : x.todo = []) (hqueue : x.queue = []) : ms <+: y.handed := by
  by_cases hdead : y.helper = .dead
  · exact h.handed hdead
  · have hline := h.line hdead
    rw [ahead, hinbox, hout, htodo, awaited_of_nil (by rw [hqueue]; rfl)] at hline
    simpa using hline

/-- The end that is about to accept the stream has nothing of it yet. -/
theorem Registered.coming (h : Registered x y) {out : List (Item μ)}
    (hout : y.out = .register :: out) (hpending : x.pending = false) : x.Idle := by
  have hx := h.left
  rw [hout] at hx
  cases hx with
  | unopened hidle => exact hidle
  | coming hidle => exact hidle
  | accepting _ hpending' => cases hpending.symm.trans hpending'
  | settled h => exact absurd List.mem_cons_self h.sent

/-! ## A step of the writing end -/

theorem Step.due_writer (hs : Step false x y x' y') (hr : Registered x y) (h : Due x y ms) :
    Due x' y' ms := by
  cases hs with
  | flush =>
      exact h.wait rfl rfl (awaited_mono id (List.prefix_append ..) Nat.le.refl)
  | flushed | close =>
      refine h.wait rfl rfl (awaited_mono id List.prefix_rfl ?_)
      exact (early_send ..).length_le
  | aborted => exact ⟨h.line, h.handed⟩
  | «open» hopener hknown =>
      have hbuf := (hr.unopened hopener hknown).buf
      refine h.mono rfl rfl ?_
      simp only [ahead, awaited, hbuf, List.take_nil, ite_self]
      exact early_append_mono (early_append_mono List.prefix_rfl)
  | wiredRegister hqueue =>
      have hwired := hr.wired_unregistered hqueue
      refine h.wait rfl rfl (awaited_mono nofun List.prefix_rfl ?_)
      simp [hqueue]
  | wiredMessage hqueue htodo hwired hbuf =>
      refine h.mono rfl rfl ?_
      simp [ahead, awaited, hqueue, htodo, hwired, hbuf]
  | wiredSkip hqueue hskip =>
      refine h.wait rfl rfl ?_
      by_cases hdead : x.wired = .dead
      · simp [awaited, hdead]
      · have hlive := (Life.live_iff (hr.wired_registered hqueue nofun)).mpr hdead
        simp [awaited, hskip hlive]
  | wiredDrop hqueue htodo =>
      refine h.mono rfl rfl ?_
      rw [ahead, ahead, htodo, awaited_of_nil (by rw [hqueue]; rfl)]
      exact early_append_mono (early_append_mono List.nil_prefix)
  | wiredIgnore hqueue =>
      refine h.wait rfl rfl ?_
      rw [awaited_of_nil (by rw [hqueue]; rfl)]
      exact List.nil_prefix
  | write htodo =>
      refine h.mono rfl rfl ?_
      simp [ahead, awaited, htodo]
  | notify htodo =>
      refine h.mono rfl rfl ?_
      rw [ahead, ahead, htodo]
      exact early_append_mono (early_append_mono List.nil_prefix)
  | accept hout hpending =>
      have hbuf := (hr.coming hout hpending).buf
      refine h.mono rfl rfl ?_
      simp only [ahead, awaited, hbuf, List.take_nil, ite_self]
      exact List.prefix_rfl
  | accepted => exact ⟨h.line, h.handed⟩
  | read => exact ⟨h.line, h.handed⟩
  | helperRegister | helperMessage | helperIgnore => exact ⟨h.line, h.handed⟩
  | helperDrop =>
      refine h.wait rfl rfl (awaited_mono id List.prefix_rfl ?_)
      split
      · exact (early_send ..).length_le
      · exact Nat.le.refl
  | closeQueue hlossy | closeInbox hlossy | endWired hlossy | endHelper hlossy => cases hlossy

/-! ## A step of the reading end -/

/-- The reader goes on as long as it is not closed, and what is on its way to a closed
inbox is nothing. -/
theorem Step.due_reader (hs : Step false y x y' x') (hr : Registered y x) (hreads : y.Reads)
    (hin : y.inboxClosed = true → x.out = []) (h : Due x y ms) : Due x' y' ms := by
  cases hs with
  | flush | flushed | aborted | close | wiredRegister | wiredMessage | wiredSkip | wiredDrop
  | wiredIgnore | write => exact ⟨h.line, h.handed⟩
  | «open» | accepted =>
      refine h.mono rfl rfl ?_
      cases hclosed : y.inboxClosed with
      | true => exact List.prefix_rfl
      | false => simp [ahead, early_insert_register]
  | notify htodo =>
      have hdead : y.helper = .dead := by
        by_contra hlive
        exact hreads.todo hlive (htodo ▸ dropping_cons _ _)
      exact ⟨fun hlive => absurd hdead hlive, h.handed⟩
  | accept hout =>
      refine h.mono rfl rfl ?_
      simp [ahead, awaited, hout, early_insert_register]
  | @read item out hout =>
      cases hclosed : y.inboxClosed with
      | true => cases hout.symm.trans (hin hclosed)
      | false =>
          refine h.mono rfl rfl ?_
          simp [ahead, awaited, hout]
  | helperRegister hinbox =>
      have hunregistered := (hr.of_inbox hinbox).unregistered
      refine ⟨fun _ => ?_, nofun⟩
      have hline := h.line (by rw [hunregistered]; nofun)
      rwa [ahead, hinbox] at hline
  | @helperMessage m inbox hinbox =>
      refine ⟨fun hlive => ?_, fun hdead => ?_⟩
      · have hregistered := ((hr.of_inbox hinbox).registered nofun).1
        have hline := h.line hlive
        rw [ahead, hinbox] at hline
        rw [if_pos ⟨(Life.live_iff hregistered).mpr hlive, hreads.readDropped⟩]
        simpa [ahead] using hline
      · rw [if_neg (by rw [hdead]; rintro ⟨⟨⟩, -⟩)]
        exact h.handed hdead
  | helperDrop hinbox hlive =>
      refine ⟨fun hne => absurd rfl hne, fun _ => ?_⟩
      have hline := h.line (by rw [hlive]; nofun)
      rw [ahead, hinbox] at hline
      simpa using hline
  | helperIgnore hinbox hhelper =>
      have hregistered := ((hr.of_inbox hinbox).registered nofun).1
      exact ⟨fun hne => absurd (Life.dead_of hregistered hhelper) hne, h.handed⟩
  | closeQueue hlossy | closeInbox hlossy | endWired hlossy | endHelper hlossy => cases hlossy

/-! ## No drop without a cause -/

/-- A step of one end takes from the other one only what is on the connection. -/
theorem Step.other {lossy : Bool} (hs : Step lossy x y x' y') :
    ∃ out, y' = { y with out := out } := by
  cases hs <;> exact ⟨_, rfl⟩

/-- An end that is closed stays so. -/
theorem Step.closed {lossy : Bool} (hs : Step lossy x y x' y') (h : x'.closed = false) :
    x.closed = false := by
  cases hs with
  | close => cases h
  | _ => exact h

theorem Step.reads (hs : Step false y x y' x') (hr : Registered y x)
    (hclosed : y'.closed = false) (h : y.Reads) : y'.Reads := by
  cases hs with
  | close => cases hclosed
  | flush | aborted | accepted | read | helperMessage | helperIgnore =>
      exact ⟨h.readDropped, h.queue, h.todo⟩
  | flushed =>
      exact ⟨h.readDropped, fun hlive => not_dropping_send (h.queue hlive) rfl, h.todo⟩
  | «open» =>
      refine ⟨h.readDropped, h.queue, fun hlive => ?_⟩
      simpa [Dropping] using h.todo hlive
  | wiredRegister hqueue | wiredSkip hqueue | wiredIgnore hqueue =>
      exact ⟨h.readDropped, fun hlive => not_dropping_tail (h.queue hlive) hqueue, h.todo⟩
  | wiredMessage hqueue =>
      exact ⟨h.readDropped, fun hlive => not_dropping_tail (h.queue hlive) hqueue,
        fun _ => by simp [Dropping]⟩
  | wiredDrop hqueue =>
      exact ⟨h.readDropped, fun hlive => not_dropping_tail (h.queue hlive) hqueue,
        fun hlive => (not_dropping_head (h.queue hlive) hqueue).elim⟩
  | write htodo | notify htodo =>
      exact ⟨h.readDropped, h.queue, fun hlive => not_dropping_tail (h.todo hlive) htodo⟩
  | accept =>
      exact ⟨h.readDropped, fun hlive => not_dropping_send (h.queue hlive) rfl, h.todo⟩
  | helperRegister hinbox =>
      have hlive : y.helper ≠ .dead := by simp [(hr.of_inbox hinbox).unregistered]
      exact ⟨h.readDropped, fun _ => h.queue hlive, fun _ => h.todo hlive⟩
  | helperDrop => exact ⟨h.readDropped, fun hne => absurd rfl hne, fun hne => absurd rfl hne⟩
  | closeQueue hlossy | closeInbox hlossy | endWired hlossy | endHelper hlossy => cases hlossy

theorem Step.undropped (hs : Step false x y x' y') (hclosed : x'.closed = false)
    (hx : x.Undropped) (hy : y.Undropped) : x'.Undropped ∧ y'.Undropped := by
  cases hs with
  | close => cases hclosed
  | flush | aborted => exact ⟨{ hx with }, hy⟩
  | flushed => exact ⟨{ hx with queue := not_dropping_send hx.queue rfl }, hy⟩
  | «open» =>
      exact ⟨{ hx with
        wired := fun hdead => absurd hdead Life.live_ne_dead
        todo := by simpa [Dropping] using hx.todo
        inbox := not_dropping_send hx.inbox rfl }, hy⟩
  | wiredRegister hqueue =>
      exact ⟨{ hx with
        wired := fun hdead => absurd hdead Life.live_ne_dead
        queue := not_dropping_tail hx.queue hqueue }, hy⟩
  | wiredMessage hqueue =>
      exact ⟨{ hx with
        queue := not_dropping_tail hx.queue hqueue
        todo := by simp [Dropping] }, hy⟩
  | wiredSkip hqueue | wiredIgnore hqueue =>
      exact ⟨{ hx with queue := not_dropping_tail hx.queue hqueue }, hy⟩
  | wiredDrop hqueue => exact (not_dropping_head hx.queue hqueue).elim
  | write htodo =>
      refine ⟨{ hx with todo := not_dropping_tail hx.todo htodo, out := ?_ }, hy⟩
      rw [dropping_append, not_or]
      exact ⟨hx.out, not_dropping_single (mem_head htodo) hx.todo⟩
  | notify htodo => exact (not_dropping_head hx.todo htodo).elim
  | accept hout =>
      refine ⟨{ hx with queue := not_dropping_send hx.queue rfl, wired := ?_ },
        { hy with out := not_dropping_tail hy.out hout }⟩
      intro hdead
      by_cases hclosed : x.queueClosed = true
      · exact hclosed
      · rw [if_neg hclosed] at hdead
        exact hx.wired hdead
  | accepted => exact ⟨{ hx with inbox := not_dropping_send hx.inbox rfl }, hy⟩
  | @read item _ hout =>
      refine ⟨{ hx with inbox := not_dropping_send hx.inbox ?_ },
        { hy with out := not_dropping_tail hy.out hout }⟩
      cases item with
      | register | message => rfl
      | drop b => exact (not_dropping_head hy.out hout).elim
  | helperRegister hinbox =>
      exact ⟨{ hx with
        helper := fun hdead => absurd hdead Life.live_ne_dead
        inbox := not_dropping_tail hx.inbox hinbox }, hy⟩
  | helperMessage hinbox | helperIgnore hinbox =>
      exact ⟨{ hx with inbox := not_dropping_tail hx.inbox hinbox }, hy⟩
  | helperDrop hinbox => exact (not_dropping_head hx.inbox hinbox).elim
  | closeQueue hlossy | closeInbox hlossy | endWired hlossy | endHelper hlossy => cases hlossy

/-! ## Everything that was flushed -/

/-- While no channel of the way is closed, all that has been flushed is due. -/
theorem Flow.due {taken rest : List μ} (h : Flow x y taken rest) (hx : x.Undropped)
    (hy : y.Undropped) (hopen : x.queueClosed = false) (hread : y.readDropped = false)
    (hin : y.inboxClosed = false) : Due x y x.flushed := by
  have hwired : x.wired ≠ .dead := fun hdead => by cases hopen.symm.trans (hx.wired hdead)
  have hhelper : y.helper ≠ .dead := fun hdead => by cases hin.symm.trans (hy.helper hdead)
  obtain ⟨hlen, more, hbuf, -⟩ := h.waiting hwired
  have hqueue : early x.queue = messages x.queue := by
    simpa using early_of_not_dropping hx.queue []
  have hwaiting : x.awaited = rest := by
    rw [awaited, if_neg hwired, hqueue, hlen, hbuf, List.take_left']
    rfl
  have hahead : early (ahead x y) = messages (y.inbox ++ (x.out ++ x.todo)) ++ rest := by
    rw [ahead, hwaiting, early_of_not_dropping hy.inbox, early_of_not_dropping hx.out,
      early_of_not_dropping hx.todo, early_messages]
    simp
  have hall : y.handed ++ early (ahead x y) = x.flushed := by
    rw [hahead, ← List.append_assoc, h.line hhelper hread hin, h.flushed]
  exact ⟨fun _ => hall ▸ List.prefix_rfl, fun hdead => absurd hdead hhelper⟩

/-- From `x` to `y`: as long as neither is closed, all that has been flushed is due;
what was owed once is due as long as `y` is not closed. -/
structure Arriving (owed : List μ) (x y : StreamEnd μ) : Prop where
  reads : y.closed = false → y.Reads
  undropped : x.closed = false → y.closed = false → x.Undropped
  due : x.closed = false → y.closed = false → Due x y x.flushed
  owed : y.closed = false → Due x y owed

theorem Due.nil (x y : StreamEnd μ) : Due x y [] :=
  ⟨fun _ => List.nil_prefix, fun _ => List.nil_prefix⟩

theorem Arriving.start (hx : x.Idle) (hy : y.Idle) (hread : y.readDropped = false) :
    Arriving [] x y where
  reads _ := ⟨hread, fun _ => by simp [hy.queue], fun _ => by simp [hy.todo]⟩
  undropped _ _ := by
    constructor <;> simp [hx.queue, hx.todo, hx.out, hx.inbox, hx.wired, hx.helper]
  due _ _ := by
    rw [hx.flushed]
    exact .nil x y
  owed _ := .nil x y

/-- What has been flushed so far is owed from now on. -/
theorem Arriving.owe (h : Arriving ms x y) :
    Arriving (if x.closed then [] else x.flushed) x y := by
  refine { h with owed := fun hcy => ?_ }
  cases hcx : x.closed with
  | true => exact .nil x y
  | false => exact h.due hcx hcy

/-- Only a flush that goes through adds to what is flushed. -/
theorem Step.flushed_eq (hs : Step false x y x' y') :
    x'.queueClosed = x.queueClosed ∧ (x'.flushed = x.flushed ∨ x.queueClosed = false) := by
  cases hs with
  | flushed _ hopen => exact ⟨rfl, Or.inr hopen⟩
  | closeQueue hlossy => cases hlossy
  | _ => exact ⟨rfl, Or.inl rfl⟩

theorem Step.arriving {ms' : List μ} (hs : Step false x y x' y') (hr : Registered x y)
    (hxy : Arriving ms x y) (hyx : Arriving ms' y x) (hflow : ∃ taken rest, Flow x' y' taken rest)
    (hin : x.inboxClosed = true → y.out = [])
    (hclosing : y.inboxClosed = true → x.queueClosed = true) :
    Arriving ms x' y' ∧ Arriving ms' y' x' := by
  obtain ⟨out, rfl⟩ := hs.other
  have hundropped (hcx : x'.closed = false) (hcy : y.closed = false) :=
    hs.undropped hcx (hxy.undropped (hs.closed hcx) hcy) (hyx.undropped hcy (hs.closed hcx))
  have hreader (hcx : x'.closed = false) {ms : List μ} (h : Due y x ms) :=
    hs.due_reader hr (hyx.reads (hs.closed hcx)) hin h
  constructor
  · refine ⟨fun hcy => ?_, fun hcx hcy => (hundropped hcx hcy).1, fun hcx hcy => ?_,
      fun hcy => hs.due_writer hr (hxy.owed hcy)⟩
    · obtain ⟨hread, hqueue, htodo⟩ := hxy.reads hcy
      exact ⟨hread, hqueue, htodo⟩
    · obtain ⟨hclosed, hsame | hopen⟩ := hs.flushed_eq
      · rw [hsame]
        exact hs.due_writer hr (hxy.due (hs.closed hcx) hcy)
      · obtain ⟨taken, rest, hflow⟩ := hflow
        obtain ⟨hux, huy⟩ := hundropped hcx hcy
        refine hflow.due hux huy (hclosed.trans hopen) (hxy.reads hcy).readDropped ?_
        by_contra hin
        cases hopen.symm.trans (hclosing (by simpa using hin))
  · exact ⟨fun hcx => hs.reads hr hcx (hyx.reads (hs.closed hcx)),
      fun hcy hcx => (hundropped hcx hcy).2,
      fun hcy hcx => hreader hcx (hyx.due hcy (hs.closed hcx)),
      fun hcx => hreader hcx (hyx.owed (hs.closed hcx))⟩

/-! ## The ends of the tasks -/

theorem Due.endWired (h : Due x y ms) (hqueue : x.queue = []) :
    Due { x with wired := x.wired.drop } y ms := by
  refine h.wait rfl rfl ?_
  rw [awaited_of_nil (by rw [hqueue]; rfl)]
  exact List.nil_prefix

/-- The helper ends when nothing can come to it any more. -/
theorem Due.endHelper (h : Due x y ms) (hinbox : y.inbox = []) (hout : x.out = [])
    (htodo : x.todo = []) (hqueue : x.queue = []) :
    Due x { y with helper := y.helper.drop } ms := by
  have hms := h.come hinbox hout htodo hqueue
  exact ⟨fun _ => hms.trans (List.prefix_append ..), fun _ => hms⟩

section

variable {ms' : List μ} (hxy : Arriving ms x y) (hyx : Arriving ms' y x)
include hxy hyx

theorem Arriving.close (queueClosed inboxClosed : Bool) :
    let x' := { x with
      queueClosed := x.queueClosed || queueClosed
      inboxClosed := x.inboxClosed || inboxClosed }
    Arriving ms x' y ∧ Arriving ms' y x' := by
  have hwriter {ms : List μ} (h : Due x y ms) : Due { x with
      queueClosed := x.queueClosed || queueClosed
      inboxClosed := x.inboxClosed || inboxClosed } y ms := ⟨h.line, h.handed⟩
  have hreader {ms : List μ} (h : Due y x ms) : Due y { x with
      queueClosed := x.queueClosed || queueClosed
      inboxClosed := x.inboxClosed || inboxClosed } ms := ⟨h.line, h.handed⟩
  refine ⟨⟨hxy.reads, fun hcx hcy => ?_, fun hcx hcy => hwriter (hxy.due hcx hcy),
    fun hcy => hwriter (hxy.owed hcy)⟩, fun hcx => ?_, hyx.undropped,
    fun hcy hcx => hreader (hyx.due hcy hcx), fun hcx => hreader (hyx.owed hcx)⟩
  · have hx := hxy.undropped hcx hcy
    exact { hx with
      wired := fun hdead => by simp [hx.wired hdead]
      helper := fun hdead => by simp [hx.helper hdead] }
  · exact ⟨(hyx.reads hcx).readDropped, (hyx.reads hcx).queue, (hyx.reads hcx).todo⟩

/-- `Wired` ends with its queue closed and empty. -/
theorem Arriving.endWired (hqueue : x.queue = []) (hclosed : x.queueClosed = true) :
    Arriving ms { x with wired := x.wired.drop } y ∧
      Arriving ms' y { x with wired := x.wired.drop } := by
  have hreader {ms : List μ} (h : Due y x ms) : Due y { x with wired := x.wired.drop } ms :=
    ⟨h.line, h.handed⟩
  refine ⟨⟨hxy.reads, fun hcx hcy => ?_, fun hcx hcy => (hxy.due hcx hcy).endWired hqueue,
    fun hcy => (hxy.owed hcy).endWired hqueue⟩, fun hcx => ?_, hyx.undropped,
    fun hcy hcx => hreader (hyx.due hcy hcx), fun hcx => hreader (hyx.owed hcx)⟩
  · exact { hxy.undropped hcx hcy with wired := fun _ => hclosed }
  · exact ⟨(hyx.reads hcx).readDropped, (hyx.reads hcx).queue, (hyx.reads hcx).todo⟩

theorem Arriving.endHelper (hinbox : x.inbox = []) (hout : y.out = []) (htodo : y.todo = [])
    (hqueue : y.queue = []) (hclosed : x.inboxClosed = true) :
    Arriving ms { x with helper := x.helper.drop } y ∧
      Arriving ms' y { x with helper := x.helper.drop } := by
  have hwriter {ms : List μ} (h : Due x y ms) : Due { x with helper := x.helper.drop } y ms :=
    ⟨h.line, h.handed⟩
  have hreader {ms : List μ} (h : Due y x ms) := h.endHelper hinbox hout htodo hqueue
  refine ⟨⟨hxy.reads, fun hcx hcy => ?_, fun hcx hcy => hwriter (hxy.due hcx hcy),
    fun hcy => hwriter (hxy.owed hcy)⟩, fun hcx => ?_, hyx.undropped,
    fun hcy hcx => hreader (hyx.due hcy hcx), fun hcx => hreader (hyx.owed hcx)⟩
  · exact { hxy.undropped hcx hcy with helper := fun _ => hclosed }
  · obtain ⟨hread, hqueue, htodo⟩ := hyx.reads hcx
    exact ⟨hread, fun hlive => hqueue (Life.of_drop hlive), fun hlive => htodo (Life.of_drop hlive)⟩

end

end

end StreamEnd

end WiringRs
