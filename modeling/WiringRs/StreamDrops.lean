import WiringRs.Stream

/-!
# Dropping a stream

While no channel is closed, a drop at either end reaches the four tasks that keep
the stream. Each invariant says where the news of a drop is that some task has and
another has not.
-/

namespace WiringRs

namespace StreamEnd

variable {μ : Type}

/-- A drop is among the items. -/
def Dropping {ν : Type} (items : List (Item ν)) : Prop :=
  .drop true ∈ items ∨ .drop false ∈ items

/-- No task has heard of a drop. -/
structure Kept (x : StreamEnd μ) : Prop where
  queue : ¬ Dropping x.queue
  todo : ¬ Dropping x.todo
  out : ¬ Dropping x.out
  inbox : ¬ Dropping x.inbox
  wired : x.wired ≠ .dead
  helper : x.helper ≠ .dead

/-- How many drops `Wired` is about to write. -/
def writing : List (Item μ) → Nat
  | [] => 0
  | .drop true :: items => writing items + 1
  | _ :: items => writing items

/-- The drops at the end `x`, where `y` is the other one. -/
structure Drops (x y : StreamEnd μ) : Prop where
  queue_open : x.queueClosed = false
  inbox_open : x.inboxClosed = false
  /-- `Wired` tells the helper. -/
  wired : x.wired = .dead → x.helper = .dead ∨ .drop false ∈ x.todo ∨ Dropping x.inbox
  /-- The helper tells `Wired`, unless it was told by it. -/
  helper : x.helper = .dead → x.wired = .dead ∨ Dropping x.queue
  out : .drop false ∉ x.out
  notice : .drop false ∈ x.inbox ∨ .drop false ∈ x.todo → x.wired = .dead
  written : .drop true ∈ x.todo ∨ .drop true ∈ x.out → x.wired = .dead
  received : .drop true ∈ x.inbox → y.wired = .dead
  passed : .drop false ∈ x.queue → y.wired = .dead
  /-- The other end is told, unless it told this one. -/
  other : x.wired = .dead → y.wired = .dead ∨ Dropping y.queue ∨ .drop true ∈ y.inbox ∨
    .drop true ∈ x.out ∨ .drop true ∈ x.todo
  closed : x.closed = true → x.wired = .dead ∨ Dropping x.queue
  /-- There is no other cause. -/
  kept : x.closed = false → y.closed = false → x.Kept
  once : x.drops + writing x.todo ≤ 1
  none : x.wired ≠ .dead → x.drops + writing x.todo = 0

theorem Drops.start {x y : StreamEnd μ} (hx : x.Idle) (hqueue : x.queueClosed = false)
    (hinbox : x.inboxClosed = false) : Drops x y where
  queue_open := hqueue
  inbox_open := hinbox
  wired := by simp [hx.wired]
  helper := by simp [hx.helper]
  out := by simp [hx.out]
  notice := by simp [hx.inbox, hx.todo]
  written := by simp [hx.out, hx.todo]
  received := by simp [hx.inbox]
  passed := by simp [hx.queue]
  other := by simp [hx.wired]
  closed := by simp [hx.closed]
  kept := by
    intro _ _
    constructor <;> simp [Dropping, hx.queue, hx.todo, hx.out, hx.inbox, hx.wired, hx.helper]
  once := by simp [hx.drops, hx.todo, writing]
  none := by simp [hx.drops, hx.todo, writing]

/-! ## Steps that concern no drop -/

/-- The ends differ in nothing that concerns drops. -/
structure Alike (x x' : StreamEnd μ) : Prop where
  queueClosed : x'.queueClosed = x.queueClosed
  inboxClosed : x'.inboxClosed = x.inboxClosed
  queue : ∀ b, .drop b ∈ x'.queue ↔ .drop b ∈ x.queue
  todo : ∀ b, .drop b ∈ x'.todo ↔ .drop b ∈ x.todo
  out : ∀ b, .drop b ∈ x'.out ↔ .drop b ∈ x.out
  inbox : ∀ b, .drop b ∈ x'.inbox ↔ .drop b ∈ x.inbox
  wired : x'.wired = .dead ↔ x.wired = .dead
  helper : x'.helper = .dead ↔ x.helper = .dead
  closed : x'.closed = x.closed
  drops : x'.drops + writing x'.todo = x.drops + writing x.todo

section

variable {x y x' y' : StreamEnd μ}

theorem Alike.refl (x : StreamEnd μ) : Alike x x :=
  ⟨rfl, rfl, fun _ => .rfl, fun _ => .rfl, fun _ => .rfl, fun _ => .rfl, .rfl, .rfl, rfl, rfl⟩

theorem Alike.kept (h : Alike x x') (hx : x.Kept) : x'.Kept where
  queue := by simpa only [Dropping, h.queue] using hx.queue
  todo := by simpa only [Dropping, h.todo] using hx.todo
  out := by simpa only [Dropping, h.out] using hx.out
  inbox := by simpa only [Dropping, h.inbox] using hx.inbox
  wired := by simpa only [ne_eq, h.wired] using hx.wired
  helper := by simpa only [ne_eq, h.helper] using hx.helper

theorem Drops.alike (h : Drops x y) (hx : Alike x x') (hy : Alike y y') : Drops x' y' where
  queue_open := hx.queueClosed.trans h.queue_open
  inbox_open := hx.inboxClosed.trans h.inbox_open
  wired := by simpa only [Dropping, hx.wired, hx.helper, hx.todo, hx.inbox] using h.wired
  helper := by simpa only [Dropping, hx.wired, hx.helper, hx.queue] using h.helper
  out := mt (hx.out false).mp h.out
  notice := by simpa only [hx.wired, hx.todo, hx.inbox] using h.notice
  written := by simpa only [hx.wired, hx.todo, hx.out] using h.written
  received := by simpa only [hy.wired, hx.inbox] using h.received
  passed := by simpa only [hy.wired, hx.queue] using h.passed
  other := by
    simpa only [Dropping, hx.wired, hy.wired, hy.queue, hy.inbox, hx.out, hx.todo] using h.other
  closed := by simpa only [Dropping, hx.wired, hx.queue, hx.closed] using h.closed
  kept hcx hcy := hx.kept (h.kept (hx.closed ▸ hcx) (hy.closed ▸ hcy))
  once := hx.drops ▸ h.once
  none := by simpa only [ne_eq, hx.wired, hx.drops] using h.none

end

/-! ## The steps -/

theorem mem_send_drop {ν : Type} {closed : Bool} (hopen : closed = false)
    (items : List (Item ν)) (c b : Bool) :
    .drop b ∈ trySend closed items (.drop c) ↔ .drop b ∈ items ∨ b = c := by
  simp [hopen]

theorem mem_head {ν : Type} {items rest : List (Item ν)} {item : Item ν}
    (h : items = item :: rest) : item ∈ items := h ▸ List.mem_cons_self

theorem mem_tail {ν : Type} {items rest : List (Item ν)} {item : Item ν}
    (h : items = item :: rest) (b : Bool) (hmem : .drop b ∈ rest) : .drop b ∈ items :=
  h ▸ List.mem_cons_of_mem _ hmem

theorem dropping_cons {ν : Type} (b : Bool) (items : List (Item ν)) :
    Dropping (.drop b :: items) := by
  cases b <;> simp [Dropping]

namespace Drops

variable {x y : StreamEnd μ}

/-- An end that `Wired` has dropped was not kept. -/
theorem not_kept (h : Drops x y) (hdead : x.wired = .dead) (hx : x.closed = false)
    (hy : y.closed = false) : False :=
  (h.kept hx hy).wired hdead

theorem close (hx : Drops x y) (hy : Drops y x) (read : Bool) :
    let x' := { x with
      closed := true
      readDropped := x.readDropped || read
      queue := trySend x.queueClosed x.queue (.drop true) }
    Drops x' y ∧ Drops y x' := by
  have hqueue := mem_send_drop hx.queue_open x.queue true
  refine ⟨{ hx with
    helper := ?_
    passed := ?_
    closed := fun _ => Or.inr (Or.inl ((hqueue true).mpr (Or.inr rfl)))
    kept := nofun }, { hy with
    other := ?_
    kept := fun _ => nofun }⟩
  · grind [Dropping, hx.helper]
  · grind [hx.passed]
  · grind [Dropping, hy.other]

theorem wiredDrop (hx : Drops x y) (hy : Drops y x) {queue : List (Item Unit)} {c : Bool}
    (hqueue : x.queue = .drop c :: queue) (hlive : x.wired = .live) :
    let x' := { x with
      queue := queue
      wired := .dead
      todo := if c then [.drop true, .drop false] else [.drop false] }
    Drops x' y ∧ Drops y x' := by
  have hcalls : (if c then [.drop true, .drop false] else [.drop false] : List (Item μ))
      = (if c then [.drop true] else []) ++ [.drop false] := by cases c <;> rfl
  have hclosed : x.closed = false → y.closed ≠ false := fun hcx hcy =>
    (hx.kept hcx hcy).queue (hqueue ▸ dropping_cons c queue)
  have hdrops : x.drops = 0 := by
    have hnone := hx.none (by rw [hlive]; nofun)
    omega
  refine ⟨{ hx with
    wired := fun _ => Or.inr (Or.inl (by rw [hcalls]; simp))
    helper := fun _ => Or.inl rfl
    notice := fun _ => rfl
    written := fun _ => rfl
    passed := fun hmem => hx.passed (mem_tail hqueue false hmem)
    other := ?_
    closed := fun _ => Or.inl rfl
    kept := fun hcx hcy => absurd hcy (hclosed hcx)
    once := ?_
    none := fun hne => absurd rfl hne }, { hy with
    received := fun _ => rfl
    passed := fun _ => rfl
    other := fun _ => Or.inl rfl
    kept := fun hcy hcx => absurd hcy (hclosed hcx) }⟩
  · -- a drop that is not broadcast came from the other end
    intro _
    cases c with
    | true => simp
    | false => exact Or.inl (hx.passed (mem_head hqueue))
  · rw [hdrops]
    cases c <;> simp [writing]

theorem writeDrop (hx : Drops x y) (hy : Drops y x) {todo : List (Item μ)} (held : Bool)
    (htodo : x.todo = .drop true :: todo) :
    let x' := { x with
      todo := todo
      out := x.out ++ [.drop true]
      held := held
      drops := x.drops + 1 }
    Drops x' y ∧ Drops y x' := by
  have hdead : x.wired = .dead := hx.written (Or.inl (mem_head htodo))
  have honce : x.drops + 1 + writing todo ≤ 1 := by
    have honce := hx.once
    rw [htodo, writing] at honce
    omega
  refine ⟨{ hx with
    wired := ?_
    out := by simpa using hx.out
    notice := fun _ => hdead
    written := fun _ => hdead
    other := fun _ => by simp
    kept := fun hcx hcy => (hx.not_kept hdead hcx hcy).elim
    once := honce
    none := fun hne => absurd hdead hne }, { hy with }⟩
  simpa [htodo] using hx.wired

theorem notify (hx : Drops x y) (hy : Drops y x) {todo : List (Item μ)}
    (htodo : x.todo = .drop false :: todo) :
    let x' := { x with
      todo := todo
      inbox := trySend x.inboxClosed x.inbox (.drop false) }
    Drops x' y ∧ Drops y x' := by
  have hdead : x.wired = .dead := hx.notice (Or.inr (mem_head htodo))
  have hsend := mem_send_drop hx.inbox_open x.inbox false
  have hwriting : writing x.todo = writing todo := by rw [htodo]; rfl
  have htrue : .drop true ∈ x.todo ↔ .drop true ∈ todo := by simp [htodo]
  exact ⟨{ hx with
    wired := fun _ => Or.inr (Or.inr (Or.inr ((hsend false).mpr (Or.inr rfl))))
    notice := fun _ => hdead
    written := fun _ => hdead
    received := fun hmem => hx.received (((hsend true).mp hmem).resolve_right nofun)
    other := by simpa only [htrue] using hx.other
    kept := fun hcx hcy => (hx.not_kept hdead hcx hcy).elim
    once := hwriting ▸ hx.once
    none := hwriting ▸ hx.none }, { hy with other := fun _ => Or.inl hdead }⟩

theorem readDrop (hx : Drops x y) (hy : Drops y x) {out : List (Item μ)}
    (hout : y.out = .drop true :: out) :
    let x' := { x with inbox := trySend x.inboxClosed x.inbox (.drop true) }
    let y' := { y with out := out }
    Drops x' y' ∧ Drops y' x' := by
  have hdead : y.wired = .dead := hy.written (Or.inr (mem_head hout))
  have hsend := mem_send_drop hx.inbox_open x.inbox true
  refine ⟨{ hx with
    wired := ?_
    notice := ?_
    received := fun _ => hdead
    kept := fun hcx hcy => (hy.not_kept hdead hcy hcx).elim }, { hy with
    out := mt (mem_tail hout false) hy.out
    written := fun _ => hdead
    other := fun _ => Or.inr (Or.inr (Or.inl ((hsend true).mpr (Or.inr rfl))))
    kept := fun hcy hcx => (hy.not_kept hdead hcy hcx).elim }⟩
  · exact fun hx' => (hx.wired hx').imp_right <| Or.imp_right <|
      Or.imp ((hsend true).mpr ∘ Or.inl) ((hsend false).mpr ∘ Or.inl)
  · exact fun hmem => hx.notice (hmem.imp_left fun hmem =>
      ((hsend false).mp hmem).resolve_right nofun)

/-- The news is from the other end, and goes to `Wired`. -/
theorem helperPass (hx : Drops x y) (hy : Drops y x) {inbox : List (Item μ)}
    (hinbox : x.inbox = .drop true :: inbox) :
    let x' := { x with
      inbox := inbox
      helper := .dead
      queue := trySend x.queueClosed x.queue (.drop false) }
    Drops x' y ∧ Drops y x' := by
  have hdead : y.wired = .dead := hx.received (mem_head hinbox)
  have hsend := mem_send_drop hx.queue_open x.queue false
  exact ⟨{ hx with
    wired := fun _ => Or.inl rfl
    helper := fun _ => Or.inr (Or.inr ((hsend false).mpr (Or.inr rfl)))
    notice := fun hmem => hx.notice (hmem.imp_left (mem_tail hinbox false))
    received := fun _ => hdead
    passed := fun _ => hdead
    closed := fun hcx => (hx.closed hcx).imp_right <|
      Or.imp ((hsend true).mpr ∘ Or.inl) ((hsend false).mpr ∘ Or.inl)
    kept := fun hcx hcy => (hy.not_kept hdead hcy hcx).elim }, { hy with
    other := fun _ => Or.inr (Or.inl (Or.inr ((hsend false).mpr (Or.inr rfl)))) }⟩

/-- The news is from `Wired`. -/
theorem helperStop (hx : Drops x y) (hy : Drops y x) {inbox : List (Item μ)}
    (hinbox : x.inbox = .drop false :: inbox) :
    let x' := { x with inbox := inbox, helper := .dead }
    Drops x' y ∧ Drops y x' := by
  have hdead : x.wired = .dead := hx.notice (Or.inl (mem_head hinbox))
  exact ⟨{ hx with
    wired := fun _ => Or.inl rfl
    helper := fun _ => Or.inl hdead
    notice := fun _ => hdead
    received := fun hmem => hx.received (mem_tail hinbox true hmem)
    kept := fun hcx hcy => (hx.not_kept hdead hcx hcy).elim }, { hy with
    other := fun _ => Or.inl hdead }⟩

theorem wiredIgnore (hx : Drops x y) (hy : Drops y x) {queue : List (Item Unit)} {c : Bool}
    (hqueue : x.queue = .drop c :: queue) (hdead : x.wired = .dead) :
    let x' := { x with queue := queue }
    Drops x' y ∧ Drops y x' :=
  ⟨{ hx with
    helper := fun _ => Or.inl hdead
    passed := fun hmem => hx.passed (mem_tail hqueue false hmem)
    closed := fun _ => Or.inl hdead
    kept := fun hcx hcy => (hx.not_kept hdead hcx hcy).elim }, { hy with
    other := fun _ => Or.inl hdead }⟩

theorem helperIgnore (hx : Drops x y) (hy : Drops y x) {inbox : List (Item μ)} {c : Bool}
    (hinbox : x.inbox = .drop c :: inbox) (hdead : x.helper = .dead) :
    let x' := { x with inbox := inbox }
    Drops x' y ∧ Drops y x' :=
  ⟨{ hx with
    wired := fun _ => Or.inl hdead
    notice := fun hmem => hx.notice (hmem.imp_left (mem_tail hinbox false))
    received := fun hmem => hx.received (mem_tail hinbox true hmem)
    kept := fun hcx hcy => absurd hdead (hx.kept hcx hcy).helper }, { hy with
    other := fun _ => (hx.helper hdead).imp_right Or.inl }⟩

end Drops

/-- The drops stay accounted for at both ends. -/
theorem Step.drops {x y x' y' : StreamEnd μ} (hs : Step false x y x' y')
    (hr : Registered x y) (hx : Drops x y) (hy : Drops y x) :
    Drops x' y' ∧ Drops y' x' := by
  have hneutral : Alike x x' → Alike y y' → Drops x' y' ∧ Drops y' x' :=
    fun hx' hy' => ⟨hx.alike hx' hy', hy.alike hy' hx'⟩
  cases hs with
  | flush => exact hneutral { Alike.refl x with } (.refl y)
  | flushed _ hopen => exact hneutral { Alike.refl x with queue := by simp [hopen] } (.refl y)
  | aborted => exact hneutral { Alike.refl x with } (.refl y)
  | «open» hopener hknown =>
      have hidle := hr.unopened hopener hknown
      refine hneutral { Alike.refl x with
        inbox := by simp [hx.inbox_open]
        todo := by simp
        wired := by simp [hidle.wired]
        drops := rfl } (.refl y)
  | wiredRegister hqueue =>
      refine hneutral { Alike.refl x with
        queue := by simp [hqueue]
        wired := by simp [hr.wired_unregistered hqueue] } (.refl y)
  | wiredMessage hqueue htodo =>
      refine hneutral { Alike.refl x with
        queue := by simp [hqueue]
        todo := by simp [htodo]
        drops := by rw [htodo]; rfl } (.refl y)
  | wiredSkip hqueue =>
      exact hneutral { Alike.refl x with queue := by simp [hqueue] } (.refl y)
  | accept hout =>
      refine hneutral { Alike.refl x with
        queue := by simp [hx.queue_open]
        wired := by simp [hx.queue_open] }
        { Alike.refl y with out := by simp [hout] }
  | accepted =>
      exact hneutral { Alike.refl x with inbox := by simp [hx.inbox_open] } (.refl y)
  | helperRegister hinbox =>
      refine hneutral { Alike.refl x with
        inbox := by simp [hinbox]
        helper := by simp [(hr.of_inbox hinbox).unregistered] } (.refl y)
  | helperMessage hinbox =>
      exact hneutral { Alike.refl x with inbox := by simp [hinbox] } (.refl y)
  | closeQueue hlossy | closeInbox hlossy | endWired hlossy | endHelper hlossy => cases hlossy
  | close read => exact hx.close hy read
  | wiredDrop hqueue _ hlive => exact hx.wiredDrop hy hqueue hlive
  | wiredIgnore hqueue hlive =>
      exact hx.wiredIgnore hy hqueue (Life.dead_of (hr.wired_registered hqueue nofun) hlive)
  | @write item todo htodo hitem =>
      cases item with
      | register | message =>
          exact hneutral { Alike.refl x with
            todo := by simp [htodo]
            out := by simp
            drops := by rw [htodo]; rfl } (.refl y)
      | drop c =>
          cases c with
          | false => exact absurd rfl hitem
          | true => exact hx.writeDrop hy _ htodo
  | notify htodo => exact hx.notify hy htodo
  | @read item out hout hitem =>
      cases item with
      | register => exact absurd rfl hitem
      | message m =>
          exact hneutral { Alike.refl x with inbox := by simp [hx.inbox_open] }
            { Alike.refl y with out := by simp [hout] }
      | drop c =>
          cases c with
          | false => exact absurd (mem_head hout) hy.out
          | true => exact hx.readDrop hy hout
  | @helperDrop c inbox hinbox hlive =>
      cases c with
      | true => exact hx.helperPass hy hinbox
      | false => exact hx.helperStop hy hinbox
  | helperIgnore hinbox hlive =>
      exact hx.helperIgnore hy hinbox
        (Life.dead_of ((hr.of_inbox hinbox).registered nofun).1 hlive)

/-! ## When nothing is under way -/

/-- Nothing is queued at the end or sent by it. -/
structure Quiet (x : StreamEnd μ) : Prop where
  queue : x.queue = []
  inbox : x.inbox = []
  todo : x.todo = []
  out : x.out = []
  pending : x.pending = false

section

variable {x y : StreamEnd μ}

/-- An end has its stream if the other one has. -/
theorem Registered.both_known (h : Registered x y) (hqx : x.Quiet) (hqy : y.Quiet)
    (hx : x.known = true) : y.known = true := by
  cases h.right with
  | unopened hidle _ hpeer =>
      cases hopener : y.opener with
      | true => exact h.opened hx hopener
      | false => cases hx.symm.trans (hpeer hopener)
  | coming _ _ _ _ hsent =>
      rw [hqx.out, hqx.todo] at hsent
      cases hsent
  | accepting _ hpending => cases hqy.pending.symm.trans hpending
  | settled hy => exact hy.known

/-- An end without its stream has it in no map. -/
theorem Registered.neither_known (h : Registered x y) (hx : x.known = false)
    (hy : y.known = false) : x.wired = .unregistered ∧ x.helper = .unregistered := by
  cases h.left with
  | unopened hidle => exact ⟨hidle.wired, hidle.helper⟩
  | coming _ _ hpeer => cases hpeer.symm.trans hy
  | accepting _ _ _ hpeer => cases hpeer.symm.trans hy
  | settled h => cases h.known.symm.trans hx

theorem Registered.registered (h : Registered x y) (hq : x.Quiet)
    (hqueue : x.queueClosed = false) (hinbox : x.inboxClosed = false)
    (hx : x.known = true) : x.wired ≠ .unregistered ∧ x.helper ≠ .unregistered := by
  have hs := h.left.of_not_fresh fun hf => by cases hf.known.symm.trans hx
  exact ⟨hs.wired.of_nil hqueue hq.queue, hs.helper.of_nil hinbox hq.inbox⟩

/-- What a drop has reached when nothing is under way. -/
structure Converged (x y : StreamEnd μ) : Prop where
  maps : x.wired = .live ↔ x.helper = .live
  ends : x.wired = .live ↔ y.wired = .live
  closed : x.wired = .live ↔ x.known = true ∧ x.closed = false ∧ y.closed = false

theorem Drops.converged (hx : Drops x y) (hy : Drops y x) (hr : Registered x y)
    (hqx : x.Quiet) (hqy : y.Quiet) : Converged x y := by
  cases hk : x.known with
  | false =>
      have hk' : y.known = false := by
        cases hk' : y.known with
        | false => rfl
        | true => cases hk.symm.trans (hr.symm.both_known hqy hqx hk')
      obtain ⟨hwx, hhx⟩ := hr.neither_known hk hk'
      obtain ⟨hwy, -⟩ := hr.symm.neither_known hk' hk
      exact ⟨by simp [hwx, hhx], by simp [hwx, hwy], by simp [hwx, hk]⟩
  | true =>
      have hk' := hr.both_known hqx hqy hk
      obtain ⟨hwx, hhx⟩ := hr.registered hqx hx.queue_open hx.inbox_open hk
      obtain ⟨hwy, -⟩ := hr.symm.registered hqy hy.queue_open hy.inbox_open hk'
      have hmaps : x.wired = .dead ↔ x.helper = .dead := by
        constructor
        · intro h
          simpa [hqx.todo, hqx.inbox, Dropping] using hx.wired h
        · intro h
          simpa [hqx.queue, Dropping] using hx.helper h
      have hends : x.wired = .dead ↔ y.wired = .dead := by
        constructor
        · intro h
          simpa [hqy.queue, hqy.inbox, hqx.out, hqx.todo, Dropping] using hx.other h
        · intro h
          simpa [hqx.queue, hqx.inbox, hqy.out, hqy.todo, Dropping] using hy.other h
      have hclosed : x.wired ≠ .dead ↔ x.closed = false ∧ y.closed = false := by
        constructor
        · intro h
          constructor
          · by_contra hc
            have hdead := hx.closed (Bool.not_eq_false _ ▸ hc)
            simp [hqx.queue, Dropping, h] at hdead
          · by_contra hc
            have hdead := hy.closed (Bool.not_eq_false _ ▸ hc)
            simp [hqy.queue, Dropping, mt hends.mpr h] at hdead
        · rintro ⟨hcx, hcy⟩
          exact (hx.kept hcx hcy).wired
      refine ⟨?_, ?_, ?_⟩
      · rw [Life.live_iff hwx, Life.live_iff hhx, ne_eq, hmaps]
      · rw [Life.live_iff hwx, Life.live_iff hwy, ne_eq, hends]
      · rw [Life.live_iff hwx, hclosed, and_iff_right hk]

end

end StreamEnd

end WiringRs
