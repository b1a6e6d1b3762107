import WiringRs.Nested

/-!
# The order of nested wires

The ids on the parent wire and the wires in its queue come on different connections.
A reader that has an id finds a wire when the wires are forwarded before their openers
read the info. It finds the wire with that id when no wire goes into the queue without
its announcement, or while an announcement is waiting that has no wire.
-/

namespace WiringRs

namespace Nested

variable {U : UrlCrate} {parent : ForwardInfo} {channel : Nat} {s s' : Nested U}

/-! ## Handed over before it is announced -/

/-- The opener can read the info of the wire that is still to be forwarded. -/
def Awaited (s : Nested U) : Prop :=
  ∃ h, s.handling = some h ∧ s.opener = .opening h.conn ∧ s.infos h.conn ≠ none

/-- The opener does not read the info of a wire that is still to be forwarded, and
while it can read it the wire finds its parent. -/
def Timely (parent : ForwardInfo) (channel : Nat) (s : Nested U) (a : NestedAction U) :
    Prop :=
  (a = .readInfo → ¬ s.Awaited) ∧
    (a = .forward → s.Awaited → s.listener.lookup parent = .ok channel)

/-- A wire whose info the opener has read is in the queue by then, also when the open
has returned `Ok`, and the reader has never found the queue empty. -/
structure HandedOver (s : Nested U) : Prop where
  informed : ∀ o ∈ s.informed, o ∈ s.sent
  opened : ∀ o ∈ s.opened, o ∈ s.sent
  refused : s.refused = 0

/-- The wire of an info that the opener can read has not been refused. -/
structure TimelyInv (s : Nested U) : Prop extends s.Base where
  kept : ∀ conn, s.opener = .opening conn → s.infos conn ≠ none → conn ∈ s.places
  informed : ∀ o ∈ s.informed, o ∈ s.sent
  refused : s.refused = 0

/-- While the reader has an id there is a wire in the queue. -/
theorem TimelyInv.queue_ne_nil (h : s.TimelyInv) {o : Nat × WireId}
    (hreader : s.reader = some o) : s.queue ≠ [] := by
  intro hempty
  have hsub : s.opened.map Prod.fst ⊆ s.pushed.map Prod.fst := fun conn hconn => by
    obtain ⟨o, ho, rfl⟩ := List.mem_map.mp hconn
    exact sent_fst ▸ List.mem_map_of_mem (h.informed o (h.opened o ho).2)
  have hle := (List.subperm_of_subset h.distinct hsub).length_le
  have hcount := h.count
  have hwires := congrArg List.length h.wires
  simp only [List.length_map, List.length_append, hreader, hempty, List.length_nil,
    Option.toList_some, List.length_singleton, h.refused] at hle hcount hwires
  omega

theorem TimelyInv.kept_moves {a : NestedAction U} (h : s.TimelyInv)
    (hm : Moves parent channel s a s')
    (hok : a = .forward → s.Awaited → s.listener.lookup parent = .ok channel) :
    ∀ conn, s'.opener = .opening conn → s'.infos conn ≠ none → conn ∈ s'.places := by
  intro c hopener hinfo
  have hplaces : s.opener = .opening c → s.infos c ≠ none → c ∈ s'.places := by
    intro hopener hinfo
    have hmem := h.kept c hopener hinfo
    rcases hm.places with ⟨hperm, -⟩ | ⟨hplaces, -⟩ | ⟨hd, ha, hhandling, hlookup, hperm, -⟩
    · exact hperm.mem_iff.mpr hmem
    · rw [hplaces]
      exact List.mem_cons_of_mem _ hmem
    · cases hperm.mem_iff.mp hmem with
      | head => exact absurd (hok ha ⟨hd, hhandling, hopener, hinfo⟩) hlookup
      | tail _ hmem => exact hmem
  cases hm with
  | readInfo | announce | fail => cases hopener
  | connect =>
      cases hopener
      exact absurd (h.infos s.conns hinfo) (Nat.lt_irrefl _)
  | @recv turn conn remoteInfo reply inbox wire hhandling hinbox =>
      by_cases hnew : c = conn
      · subst hnew
        simp [places]
      · refine hplaces hopener ?_
        cases hfault : turn.fault.isNone <;> simpa [hfault, hnew] using hinfo
  | _ => exact hplaces hopener hinfo

theorem sent_moves {a : NestedAction U} (hm : Moves parent channel s a s') :
    ∀ o ∈ s.sent, o ∈ s'.sent := by
  cases hm with
  | forward => exact List.map_subset _ (List.subset_append_left _ _)
  | _ => exact fun _ => id

theorem TimelyInv.informed_moves {a : NestedAction U} (h : s.TimelyInv)
    (hm : Moves parent channel s a s') (hok : a = .readInfo → ¬ s.Awaited) :
    ∀ o ∈ s'.informed, o ∈ s'.sent := by
  have hsent := sent_moves hm
  cases hm with
  | @readInfo conn info hopener hinfo =>
      refine List.forall_mem_cons.mpr ⟨?_, h.informed⟩
      have hinfo' : s.infos conn ≠ none := by simp [hinfo]
      rcases h.served conn info hopener hinfo with hsent | ⟨hd, hhandling, hsends⟩ | hnot
      · exact hsent
      · obtain ⟨rfl, -⟩ := Prod.mk.inj hsends
        exact absurd ⟨hd, hhandling, hopener, hinfo'⟩ (hok rfl)
      · exact absurd (h.kept conn hopener hinfo') hnot
  | _ => exact fun o ho => hsent o (h.informed o ho)

theorem TimelyInv.refused_moves {a : NestedAction U} (h : s.TimelyInv)
    (hm : Moves parent channel s a s') : s'.refused = 0 := by
  cases hm with
  | refuse hreader hempty => exact absurd hempty (h.queue_ne_nil hreader)
  | _ => exact h.refused

theorem TimelyInv.step {a : NestedAction U} (h : s.TimelyInv)
    (hok : Timely parent channel s a) (hs : s.step parent channel a = some s') :
    s'.TimelyInv where
  toBase := h.toBase.moves (step_moves hs)
  kept := h.kept_moves (step_moves hs) hok.2
  informed := h.informed_moves (step_moves hs) hok.1
  refused := h.refused_moves (step_moves hs)

theorem timelyInv {listener : WireListener U}
    (h : (nested parent channel listener).ReachableBy (Timely parent channel) s) :
    s.TimelyInv :=
  h.invariant
    { toBase := .init
      kept := by rintro _ ⟨⟩
      informed := List.forall_mem_nil _
      refused := rfl }
    fun _ _ _ hinv hok hs => hinv.step hok hs

/-- **A wire is in the queue before its opener knows.** -/
theorem handedOver {listener : WireListener U}
    (h : (nested parent channel listener).ReachableBy (Timely parent channel) s) :
    s.HandedOver where
  informed := (timelyInv h).informed
  opened o ho := (timelyInv h).informed o ((timelyInv h).opened o ho).2
  refused := (timelyInv h).refused

/-- A listener under which one wire is registered. -/
def parentListener : WireListener noUrls where
  connectInfo := listening
  wires := Function.update (fun _ => none) (.ofNat 1) (some (.ofNat 7, 0))
  channels := 1
  alive := {0}

/-- One wire at a time is opened on it. -/
def opens : Machine (Nested noUrls) (NestedAction noUrls) :=
  nested (.ofNat 1, .ofNat 7) 0 parentListener

def makes (wireId : Nat) : NestedAction noUrls :=
  .recv { draws := [.ofNat wireId], accessKey := .ofNat 7 }

theorem handedOver_opened :
    ∃ s : Nested noUrls, s.opened = [(0, .ofNat 2)] ∧ s.HandedOver := by
  have h : opens.ReachableBy (Timely (.ofNat 1, .ofNat 7) 0) _ :=
    .step (a := .announce)
      (.step (a := .readInfo)
        (.step (a := .forward)
          (.step (a := makes 2)
            (.step (a := .arrive 0 none none)
              (.step (a := .connect) .init ⟨by rintro ⟨⟩, by rintro ⟨⟩⟩ rfl)
              ⟨by rintro ⟨⟩, by rintro ⟨⟩⟩ rfl)
            ⟨by rintro ⟨⟩, by rintro ⟨⟩⟩ rfl)
          ⟨by rintro ⟨⟩, fun _ _ => rfl⟩ rfl)
        ⟨by rintro - ⟨_, ⟨⟩, -⟩, by rintro ⟨⟩⟩ rfl)
      ⟨by rintro ⟨⟩, by rintro ⟨⟩⟩ rfl
  exact ⟨_, rfl, handedOver h⟩

/-- The opener reads the info before the wire is forwarded; then the reader looks for
it too early. -/
theorem announced_not_forwarded :
    ∃ s, opens.Reachable s ∧ ¬ s.HandedOver ∧ s.opened = [(0, .ofNat 2)] ∧
      s.refused = 1 := by
  refine ⟨opens.run [.connect, .arrive 0 none none, makes 2, .readInfo, .announce, .readId,
    .tryRecv], Machine.reachableBy_run fun _ _ _ => trivial, ?_, rfl, rfl⟩
  intro h
  exact absurd h.refused (by decide)

/-! ## The wire announced is the wire taken -/

/-- The ids that are announced, or are to be, and have not been looked up. -/
def outstanding (s : Nested U) : List (Nat × WireId) :=
  s.reader.toList ++ (s.announced ++ s.opener.announces)

/-- When a wire goes into the queue its open has not failed, and every other id that is
outstanding has its wire there. No open fails whose wire is in the queue, and the reader
does not look for a wire that is still to be forwarded. -/
structure Orderly (parent : ForwardInfo) (channel : Nat) (s : Nested U)
    (a : NestedAction U) : Prop where
  forward : a = .forward → s.listener.lookup parent = .ok channel →
    ∀ h, s.handling = some h →
      (s.opener.conn? = some h.conn ∨ h.conn ∈ s.outstanding.map Prod.fst) ∧
      ∀ o ∈ s.outstanding, o.1 = h.conn ∨ o.1 ∈ s.queue.map Prod.fst
  fail : a = .fail → ∀ conn, s.opener.conn? = some conn → conn ∉ s.queue.map Prod.fst
  tryRecv : a = .tryRecv → ∀ h o, s.handling = some h → s.reader = some o → h.conn ≠ o.1

/-- The streams that the reader has returned have the ids that it has read for them,
and are those of the opens that announced them. -/
def Paired (s : Nested U) : Prop :=
  ∀ p ∈ s.taken, p.2.2.wireInfo.wireId = p.1.2 ∧ p.2.1 = p.1.1

def queued (s : Nested U) : List (Nat × WireId) := s.queue.map sends

/-- The wires of these announcements have been refused. -/
def Orphans (s : Nested U) (orphans : List (Nat × WireId)) : Prop :=
  ∀ o ∈ orphans, o.1 ∉ s.places

/-- Each wire in the queue has its announcement, and the ids behind have no wire. -/
def Even (s : Nested U) : Prop :=
  ∃ orphans, s.outstanding = s.queued ++ orphans ∧ s.Orphans orphans

/-- The opener has read the info of the wire that is still to be forwarded. -/
def Early (s : Nested U) : Prop :=
  ∃ orphans h, s.handling = some h ∧
    s.outstanding = s.queued ++ (orphans ++ [sends (h.conn, h.wire)]) ∧
    s.Orphans orphans ∧ ∀ conn, s.opener = .opening conn → s.infos conn = none

/-- The last wire in the queue is of the open that is going on. -/
def Late (s : Nested U) : Prop :=
  ∃ conn wireId, s.opener = .opening conn ∧ s.queued = s.outstanding ++ [(conn, wireId)] ∧
    ∀ info, s.infos conn = some info → info.wireId = wireId

def Aligned (s : Nested U) : Prop := s.Even ∨ s.Early ∨ s.Late

structure OrderlyInv (s : Nested U) : Prop extends s.Base where
  aligned : s.Aligned
  matched : ∀ p ∈ s.taken, sends p.2 = p.1

theorem queued_fst : s.queued.map Prod.fst = s.queue.map Prod.fst := by
  rw [queued, List.map_map]
  rfl

theorem queued_push {p : Nat × WireStream U} (h : s'.queue = s.queue ++ [p]) :
    s'.queued = s.queued ++ [sends p] := by
  rw [queued, h, List.map_append]
  rfl

theorem outstanding_informed {conn : Nat} {info : WireInfo U}
    {infos : Nat → Option (WireInfo U)} {informed : List (Nat × WireId)}
    (h : s.opener = .opening conn) :
    outstanding { s with
      opener := .informed conn info, infos := infos, informed := informed }
        = s.outstanding ++ [(conn, info.wireId)] := by
  rw [outstanding, outstanding, h, Opener.announces, Opener.announces, List.append_nil,
    List.append_assoc]

/-- An open that has not failed waits for the info, or its id is outstanding. -/
theorem opening_or_outstanding {conn : Nat}
    (h : s.opener.conn? = some conn ∨ conn ∈ s.outstanding.map Prod.fst) :
    s.opener = .opening conn ∨ conn ∈ s.outstanding.map Prod.fst := by
  refine h.elim ?_ Or.inr
  intro hconn
  cases hopener : s.opener with
  | idle =>
      rw [hopener] at hconn
      cases hconn
  | opening conn' =>
      rw [hopener] at hconn
      cases hconn
      exact Or.inl rfl
  | informed conn' info =>
      rw [hopener] at hconn
      cases hconn
      refine Or.inr (List.mem_map.mpr ⟨(conn, info.wireId), ?_, rfl⟩)
      rw [outstanding, hopener]
      exact List.mem_append_right _ (List.mem_append_right _ List.mem_cons_self)

theorem Base.outstanding_lt (h : s.Base) {o : Nat × WireId} (ho : o ∈ s.outstanding) :
    o.1 < s.conns := by
  rw [outstanding, ← List.append_assoc, List.mem_append] at ho
  rcases ho with ho | ho
  · exact (h.opened o (h.listed.subset ho)).1
  · cases hopener : s.opener with
    | idle | opening =>
        rw [hopener] at ho
        cases ho
    | informed conn info =>
        rw [hopener] at ho
        obtain rfl := List.mem_singleton.mp ho
        exact (h.current conn (by rw [hopener]; rfl)).1

theorem Base.queue_subset_pushed (h : s.Base) : s.queue ⊆ s.pushed := by
  rw [h.wires]
  exact List.subset_append_right _ _

theorem Base.queue_mem_places (h : s.Base) {conn : Nat} (hconn : conn ∈ s.queue.map Prod.fst) :
    conn ∈ s.places :=
  List.mem_append_right _ (List.mem_append_right _ (List.mem_append_right _
    (List.map_subset _ h.queue_subset_pushed hconn)))

theorem Base.opening_not_outstanding (h : s.Base) {conn : Nat}
    (hopener : s.opener = .opening conn) : conn ∉ s.outstanding.map Prod.fst := by
  rw [outstanding, hopener, Opener.announces, List.append_nil]
  intro hmem
  exact (h.current conn (by rw [hopener]; rfl)).2 (List.map_subset _ h.listed.subset hmem)

/-- What is queued is not in the listener's hand. -/
theorem Base.handling_not_queued (h : s.Base) {hd : Handling U}
    (hhandling : s.handling = some hd) : hd.conn ∉ s.queued.map Prod.fst := by
  intro hmem
  refine h.handling_not_sent hhandling ?_
  rw [sent_fst]
  exact List.map_subset _ h.queue_subset_pushed (queued_fst ▸ hmem)

/-- The announcements that are outstanding keep being orphans. -/
theorem Base.orphans_of_stays (h : s.Base) (hstays : s.Stays s')
    {orphans : List (Nat × WireId)} (hsub : ∀ o ∈ orphans, o ∈ s.outstanding)
    (horphans : s.Orphans orphans) : s'.Orphans orphans := fun o ho hmem =>
  horphans o ho (hstays o.1 (h.outstanding_lt (hsub o ho)) hmem)

/-- A wire that has been sent for the open that is going on has not been taken. -/
theorem OrderlyInv.queued_of_sent (h : s.OrderlyInv) {conn : Nat} {wireId : WireId}
    (hopener : s.opener = .opening conn) (hsent : (conn, wireId) ∈ s.sent) :
    (conn, wireId) ∈ s.queued := by
  rw [sent, h.wires, List.map_append, List.mem_append] at hsent
  refine hsent.resolve_left ?_
  intro htaken
  obtain ⟨wire, hwire, hsends⟩ := List.mem_map.mp htaken
  obtain ⟨p, hp, rfl⟩ := List.mem_map.mp hwire
  have hopened := h.looked p hp
  rw [← h.matched p hp, hsends] at hopened
  exact (h.current conn (by rw [hopener]; rfl)).2 (List.mem_map_of_mem hopened)

/-! ### The steps -/

theorem Even.frame (heven : s.Even) (h : s.Base) (hstays : s.Stays s')
    (houtstanding : s'.outstanding = s.outstanding)
    (hqueued : s'.queued = s.queued) : s'.Even := by
  obtain ⟨orphans, hout, horphans⟩ := heven
  refine ⟨orphans, ?_, h.orphans_of_stays hstays ?_ horphans⟩
  · rw [houtstanding, hqueued, hout]
  · rw [hout]
    exact fun o => List.mem_append_right _

theorem Early.frame (hearly : s.Early) (h : s.Base) (hstays : s.Stays s')
    (houtstanding : s'.outstanding = s.outstanding)
    (hqueued : s'.queued = s.queued) (hhandling : s'.handling = s.handling)
    (hinfos : ∀ conn, s'.opener = .opening conn →
      s'.infos conn = none ∨ s.opener = .opening conn ∧ s'.infos conn = s.infos conn) :
    s'.Early := by
  obtain ⟨orphans, hd, hhd, hout, horphans, hnone⟩ := hearly
  refine ⟨orphans, hd, hhandling.trans hhd, ?_, h.orphans_of_stays hstays ?_ horphans, ?_⟩
  · rw [houtstanding, hqueued, hout]
  · rw [hout]
    exact fun o ho => List.mem_append_right _ (List.mem_append_left _ ho)
  · intro conn hopener
    rcases hinfos conn hopener with hnew | ⟨hold, heq⟩
    · exact hnew
    · exact heq.trans (hnone conn hold)

/-- A step that leaves the queue and the announcements as they are. -/
theorem OrderlyInv.aligned_frame (h : s.OrderlyInv) (hstays : s.Stays s')
    (houtstanding : s'.outstanding = s.outstanding)
    (hqueued : s'.queued = s.queued) (hhandling : s'.handling = s.handling)
    (hopener : s'.opener = s.opener) (hinfos : s'.infos = s.infos) : s'.Aligned := by
  rcases h.aligned with heven | hearly | hlate
  · exact Or.inl (heven.frame h.toBase hstays houtstanding hqueued)
  · refine Or.inr (Or.inl (hearly.frame h.toBase hstays houtstanding hqueued hhandling ?_))
    intro conn hopening
    exact Or.inr ⟨hopener ▸ hopening, by rw [hinfos]⟩
  · refine Or.inr (Or.inr ?_)
    unfold Late
    rw [hopener, hinfos, hqueued, houtstanding]
    exact hlate

/-- An open begins, or returns: no wire in the queue is ahead of it. -/
theorem OrderlyInv.aligned_turn (h : s.OrderlyInv) (hstays : s.Stays s')
    (hopener : ∀ conn, s.opener ≠ .opening conn)
    (houtstanding : s'.outstanding = s.outstanding) (hqueued : s'.queued = s.queued)
    (hhandling : s'.handling = s.handling)
    (hinfos : ∀ conn, s'.opener = .opening conn → s'.infos conn = none) : s'.Aligned := by
  rcases h.aligned with heven | hearly | ⟨conn, -, hopening, -⟩
  · exact Or.inl (heven.frame h.toBase hstays houtstanding hqueued)
  · exact Or.inr (Or.inl (hearly.frame h.toBase hstays houtstanding hqueued hhandling
      fun conn hopening => Or.inl (hinfos conn hopening)))
  · exact absurd hopening (hopener conn)

theorem OrderlyInv.aligned_connect (h : s.OrderlyInv)
    (hm : Moves parent channel s .connect s') : s'.Aligned := by
  have hstays := hm.stays
  cases hm with
  | connect hidle =>
      refine h.aligned_turn hstays (by simp [hidle]) ?_ rfl rfl ?_
      · rw [outstanding, outstanding, hidle]
        rfl
      · rintro _ ⟨⟩
        by_contra hinfo
        exact Nat.lt_irrefl _ (h.infos s.conns hinfo)

theorem OrderlyInv.aligned_announce (h : s.OrderlyInv)
    (hm : Moves parent channel s .announce s') : s'.Aligned := by
  have hstays := hm.stays
  cases hm with
  | announce hopener =>
      refine h.aligned_turn hstays (by simp [hopener]) ?_ rfl rfl (by rintro _ ⟨⟩)
      rw [outstanding, outstanding, hopener, Opener.announces, Opener.announces,
        List.append_nil]

theorem OrderlyInv.aligned_recv {turn : Turn} (h : s.OrderlyInv)
    (hm : Moves parent channel s (.recv turn) s') : s'.Aligned := by
  have hstays := hm.stays
  cases hm with
  | recvOther hinbox => exact h.aligned_frame hstays rfl rfl rfl rfl rfl
  | @recv _ conn remoteInfo reply inbox wire hhandling hinbox =>
      rcases h.aligned with heven | ⟨_, _, hhd, -⟩ | ⟨c, wireId, hopener, hqueued, hinfos⟩
      · exact Or.inl (heven.frame h.toBase hstays rfl rfl)
      · rw [hhandling] at hhd
        cases hhd
      · have hne : c ≠ conn := by
          rintro rfl
          refine h.inbox_not_sent hinbox ?_
          rw [sent_fst]
          refine List.map_subset _ h.queue_subset_pushed ?_
          rw [← queued_fst, hqueued]
          exact List.mem_map_of_mem (List.mem_append_right _ List.mem_cons_self)
        refine Or.inr (Or.inr ⟨c, wireId, hopener, hqueued, ?_⟩)
        intro info hinfo
        refine hinfos info ?_
        cases hfault : turn.fault.isNone <;> simpa [hfault, hne] using hinfo

theorem OrderlyInv.aligned_forward (h : s.OrderlyInv)
    (hm : Moves parent channel s .forward s') (hok : Orderly parent channel s .forward) :
    s'.Aligned := by
  have hstays := hm.stays
  cases hm with
  | @reject hd l hhandling hlookup =>
      rcases h.aligned with heven | ⟨orphans, hd', hhd, hout, horphans, -⟩ | hlate
      · exact Or.inl (heven.frame h.toBase hstays rfl rfl)
      · -- its announcement is left without a wire
        obtain rfl := Option.some.inj (hhandling.symm.trans hhd)
        refine Or.inl ⟨orphans ++ [sends (hd.conn, hd.wire)], hout, ?_⟩
        refine List.forall_mem_append.mpr ⟨h.orphans_of_stays hstays ?_ horphans, ?_⟩
        · rw [hout]
          exact fun o ho => List.mem_append_right _ (List.mem_append_left _ ho)
        · exact List.forall_mem_singleton.mpr (h.refused_not_mem hhandling)
      · exact Or.inr (Or.inr hlate)
  | @forward hd l hhandling hlookup =>
      obtain ⟨hstands, hwires⟩ := hok.forward rfl hlookup hd hhandling
      have hfree := h.handling_not_queued hhandling
      have hnil {orphans : List (Nat × WireId)} (hsub : ∀ o ∈ orphans, o ∈ s.outstanding)
          (horphans : s.Orphans orphans) : orphans = [] := by
        refine List.eq_nil_iff_forall_not_mem.mpr ?_
        intro o ho
        refine horphans o ho ?_
        rcases hwires o (hsub o ho) with heq | hmem
        · rw [heq]
          exact List.mem_append_right _ (List.mem_append_right _ (by simp [hhandling]))
        · exact h.queue_mem_places hmem
      rcases h.aligned with ⟨orphans, hout, horphans⟩ | ⟨orphans, hd', hhd, hout, horphans, -⟩ |
        ⟨conn, wireId, hopener, hqueued, -⟩
      · obtain rfl := hnil (by rw [hout]; exact fun o => List.mem_append_right _) horphans
        rw [List.append_nil] at hout
        have hopener := (opening_or_outstanding hstands).resolve_right (hout ▸ hfree)
        refine Or.inr (Or.inr ⟨hd.conn, hd.wire.wireInfo.wireId, hopener, ?_, ?_⟩)
        · refine (queued_push rfl).trans ?_
          rw [← hout]
          rfl
        · intro info hinfo
          rcases h.served hd.conn info hopener hinfo with hsent | ⟨hd', hhd, hsends⟩ | hnot
          · exact absurd (List.mem_map_of_mem hsent) (h.handling_not_sent hhandling)
          · obtain rfl := Option.some.inj (hhandling.symm.trans hhd)
            exact (Prod.mk.inj hsends).2.symm
          · refine absurd ?_ hnot
            exact List.mem_append_right _ (List.mem_append_right _ (by simp [hhandling]))
      · obtain rfl := Option.some.inj (hhandling.symm.trans hhd)
        obtain rfl := hnil (by
          rw [hout]
          exact fun o ho => List.mem_append_right _ (List.mem_append_left _ ho)) horphans
        refine Or.inl ⟨[], ?_, by rintro _ ⟨⟩⟩
        rw [queued_push rfl, List.append_nil]
        exact hout
      · rw [hqueued, List.map_append, List.mem_append, not_or] at hfree
        cases hopener.symm.trans ((opening_or_outstanding hstands).resolve_right hfree.1)
        exact absurd List.mem_cons_self hfree.2

theorem OrderlyInv.aligned_readInfo (h : s.OrderlyInv)
    (hm : Moves parent channel s .readInfo s') : s'.Aligned := by
  have hstays := hm.stays
  cases hm with
  | @readInfo conn info hopener hinfo =>
      have hnot := h.opening_not_outstanding hopener
      rcases h.aligned with ⟨orphans, hout, horphans⟩ | ⟨_, _, -, -, -, hnone⟩ |
        ⟨conn', wireId, hopener', hqueued, hinfos⟩
      · have hsub : ∀ o ∈ orphans, o ∈ s.outstanding := by
          rw [hout]
          exact fun o => List.mem_append_right _
        have horphans' := h.orphans_of_stays hstays hsub horphans
        rcases h.served conn info hopener hinfo with hsent | ⟨hd, hhandling, hsends⟩ | hnowhere
        · refine absurd (List.mem_map.mpr ⟨(conn, info.wireId), ?_, rfl⟩) hnot
          rw [hout]
          exact List.mem_append_left _ (h.queued_of_sent hopener hsent)
        · refine Or.inr (Or.inl ⟨orphans, hd, hhandling, ?_, horphans', by rintro _ ⟨⟩⟩)
          refine (outstanding_informed hopener).trans ?_
          rw [hout, hsends, List.append_assoc]
          rfl
        · refine Or.inl ⟨orphans ++ [(conn, info.wireId)], ?_, ?_⟩
          · refine (outstanding_informed hopener).trans ?_
            rw [hout, List.append_assoc]
            rfl
          · refine List.forall_mem_append.mpr ⟨horphans', List.forall_mem_singleton.mpr ?_⟩
            exact fun hmem => hnowhere (hstays conn
              (h.current conn (by rw [hopener]; rfl)).1 hmem)
      · cases hinfo.symm.trans (hnone conn hopener)
      · -- the opener catches up
        cases hopener.symm.trans hopener'
        obtain rfl := hinfos info hinfo
        refine Or.inl ⟨[], ?_, List.forall_mem_nil _⟩
        refine (outstanding_informed hopener).trans ?_
        rw [← hqueued, List.append_nil]
        rfl

theorem OrderlyInv.aligned_fail (h : s.OrderlyInv)
    (hm : Moves parent channel s .fail s') (hok : Orderly parent channel s .fail) :
    s'.Aligned := by
  have hstays := hm.stays
  have hfail := hok.fail rfl
  rw [← queued_fst] at hfail
  cases hm with
  | fail hne =>
      cases hopener : s.opener with
      | idle => exact absurd hopener hne
      | opening conn =>
          have hsame : outstanding { s with opener := .idle } = s.outstanding := by
            rw [outstanding, outstanding, hopener]
            rfl
          rcases h.aligned with heven | hearly | ⟨conn', wireId, hopener', hqueued, -⟩
          · exact Or.inl (heven.frame h.toBase hstays hsame rfl)
          · exact Or.inr (Or.inl (hearly.frame h.toBase hstays hsame rfl rfl
              (by rintro _ ⟨⟩)))
          · refine absurd ?_ (hfail conn' (by rw [hopener']; rfl))
            rw [hqueued]
            exact List.mem_map_of_mem (List.mem_append_right _ List.mem_cons_self)
      | informed conn info =>
          have hlast : s.outstanding
              = outstanding { s with opener := .idle } ++ [(conn, info.wireId)] := by
            simp only [outstanding, hopener, Opener.announces, List.append_nil,
              List.append_assoc]
          have hnot := hfail conn (by rw [hopener]; rfl)
          rcases h.aligned with ⟨orphans, hout, horphans⟩ | ⟨orphans, hd, -, hout, horphans, -⟩ |
            ⟨_, _, hopener', -⟩
          · rcases orphans.eq_nil_or_concat' with rfl | ⟨rest, o, rfl⟩
            · rw [List.append_nil, hlast] at hout
              refine absurd ?_ hnot
              rw [← hout]
              exact List.mem_map_of_mem (List.mem_append_right _ List.mem_cons_self)
            · rw [hlast, ← List.append_assoc] at hout
              have hsame := (List.append_inj' hout rfl).1
              exact Or.inl ⟨rest, hsame, fun o ho => horphans o (List.mem_append_left _ ho)⟩
          · rw [hlast, ← List.append_assoc] at hout
            exact Or.inl ⟨orphans, (List.append_inj' hout rfl).1, horphans⟩
          · cases hopener.symm.trans hopener'

/-- The reader looks the first outstanding id up. -/
theorem OrderlyInv.tryRecv (h : s.OrderlyInv) (hm : Moves parent channel s .tryRecv s')
    (hok : Orderly parent channel s .tryRecv) :
    s'.Aligned ∧ ∀ p ∈ s'.taken, sends p.2 = p.1 := by
  have hlook := hok.tryRecv rfl
  cases hm with
  | @tryRecv o wire queue hreader hqueue =>
      have hhead : s.outstanding = o :: outstanding { s with
          reader := none, queue := queue, taken := s.taken ++ [(o, wire)] } := by
        rw [outstanding, hreader]
        rfl
      have hqueued : s.queued = sends wire :: queue.map sends := by
        rw [queued, hqueue]
        rfl
      rcases h.aligned with ⟨orphans, hout, horphans⟩ |
        ⟨orphans, hd, hhd, hout, horphans, hnone⟩ | ⟨conn, wireId, hopener, hout, hinfos⟩
      · rw [hhead, hqueued] at hout
        obtain ⟨rfl, hrest⟩ := List.cons.inj hout
        exact ⟨Or.inl ⟨orphans, hrest, horphans⟩,
          List.forall_mem_append.mpr ⟨h.matched, List.forall_mem_singleton.mpr rfl⟩⟩
      · rw [hhead, hqueued] at hout
        obtain ⟨rfl, hrest⟩ := List.cons.inj hout
        exact ⟨Or.inr (Or.inl ⟨orphans, hd, hhd, hrest, horphans, hnone⟩),
          List.forall_mem_append.mpr ⟨h.matched, List.forall_mem_singleton.mpr rfl⟩⟩
      · rw [hhead, hqueued] at hout
        obtain ⟨rfl, hrest⟩ := List.cons.inj hout
        exact ⟨Or.inr (Or.inr ⟨conn, wireId, hopener, hrest, hinfos⟩),
          List.forall_mem_append.mpr ⟨h.matched, List.forall_mem_singleton.mpr rfl⟩⟩
  | @refuse o hreader hempty =>
      have hhead : s.outstanding = o :: outstanding { s with
          reader := none, refused := s.refused + 1 } := by
        rw [outstanding, hreader]
        rfl
      have hqueued : s.queued = [] := by
        rw [queued, hempty]
        rfl
      refine ⟨?_, h.matched⟩
      rcases h.aligned with ⟨orphans, hout, horphans⟩ |
        ⟨orphans, hd, hhd, hout, horphans, hnone⟩ | ⟨conn, wireId, -, hout, -⟩
      · rw [hhead, hqueued, List.nil_append] at hout
        subst hout
        refine Or.inl ⟨_, ?_, fun o ho => horphans o (List.mem_cons_of_mem _ ho)⟩
        exact (congrArg (· ++ _) hqueued).symm
      · rw [hhead, hqueued, List.nil_append] at hout
        cases orphans with
        | nil =>
            obtain ⟨rfl, -⟩ := List.cons.inj hout
            exact absurd rfl (hlook hd _ hhd hreader)
        | cons o' orphans =>
            obtain ⟨rfl, hrest⟩ := List.cons.inj hout
            refine Or.inr (Or.inl ⟨orphans, hd, hhd, hrest.trans ?_,
              fun o ho => horphans o (List.mem_cons_of_mem _ ho), hnone⟩)
            exact (congrArg (· ++ _) hqueued).symm
      · rw [hhead, hqueued] at hout
        cases hout

theorem OrderlyInv.aligned_moves {a : NestedAction U} (h : s.OrderlyInv)
    (hm : Moves parent channel s a s') (hok : Orderly parent channel s a) : s'.Aligned := by
  have hstays := hm.stays
  cases a with
  | connect => exact h.aligned_connect hm
  | arrive | post | close =>
      cases hm
      exact h.aligned_frame hstays rfl rfl rfl rfl rfl
  | recv turn => exact h.aligned_recv hm
  | forward => exact h.aligned_forward hm hok
  | readInfo => exact h.aligned_readInfo hm
  | announce => exact h.aligned_announce hm
  | fail => exact h.aligned_fail hm hok
  | readId =>
      cases hm with
      | readId hreader hannounced =>
          refine h.aligned_frame hstays ?_ rfl rfl rfl rfl
          rw [outstanding, outstanding, hreader, hannounced]
          rfl
  | tryRecv => exact (h.tryRecv hm hok).1

theorem OrderlyInv.matched_moves {a : NestedAction U} (h : s.OrderlyInv)
    (hm : Moves parent channel s a s') (hok : Orderly parent channel s a) :
    ∀ p ∈ s'.taken, sends p.2 = p.1 := by
  cases a with
  | tryRecv => exact (h.tryRecv hm hok).2
  | _ =>
      cases hm
      all_goals exact h.matched

theorem OrderlyInv.step {a : NestedAction U} (h : s.OrderlyInv)
    (hok : Orderly parent channel s a) (hs : s.step parent channel a = some s') :
    s'.OrderlyInv where
  toBase := h.toBase.moves (step_moves hs)
  aligned := h.aligned_moves (step_moves hs) hok
  matched := h.matched_moves (step_moves hs) hok

/-- **The wire taken is the wire announced.** -/
theorem taken_announced {listener : WireListener U}
    (h : (nested parent channel listener).ReachableBy (Orderly parent channel) s) :
    s.Paired := by
  have hinv : s.OrderlyInv := h.invariant
    { toBase := .init
      aligned := Or.inl ⟨[], rfl, List.forall_mem_nil _⟩
      matched := List.forall_mem_nil _ }
    fun _ _ _ hinv hok hs => hinv.step hok hs
  intro p hp
  rw [← hinv.matched p hp]
  exact ⟨rfl, rfl⟩

theorem orderly_of_ne {a : NestedAction U} (hforward : a ≠ .forward) (hfail : a ≠ .fail)
    (htryRecv : a ≠ .tryRecv) : Orderly parent channel s a :=
  ⟨fun h => absurd h hforward, fun h => absurd h hfail, fun h => absurd h htryRecv⟩

/-- An open fails before the next one succeeds. -/
theorem taken_announced_failed :
    ∃ s : Nested noUrls, s.taken.map Prod.fst = [(1, .ofNat 2)] ∧ s.Paired := by
  have h : opens.ReachableBy (Orderly (.ofNat 1, .ofNat 7) 0) _ :=
    .step (a := .tryRecv)
      (.step (a := .readId)
        (.step (a := .announce)
          (.step (a := .readInfo)
            (.step (a := .forward)
              (.step (a := makes 2)
                (.step (a := .arrive 1 none none)
                  (.step (a := .connect)
                    (.step (a := .fail)
                      (.step (a := .connect) .init (orderly_of_ne nofun nofun nofun) rfl)
                      ⟨by rintro ⟨⟩, by rintro - _ ⟨⟩; decide, by rintro ⟨⟩⟩ rfl)
                    (orderly_of_ne nofun nofun nofun) rfl)
                  (orderly_of_ne nofun nofun nofun) rfl)
                (orderly_of_ne nofun nofun nofun) rfl)
              ⟨by rintro - - _ ⟨⟩; exact ⟨Or.inl rfl, by rintro _ ⟨⟩⟩, by rintro ⟨⟩,
                by rintro ⟨⟩⟩ rfl)
            (orderly_of_ne nofun nofun nofun) rfl)
          (orderly_of_ne nofun nofun nofun) rfl)
        (orderly_of_ne nofun nofun nofun) rfl)
      ⟨by rintro ⟨⟩, by rintro ⟨⟩, by rintro - _ _ ⟨⟩⟩ rfl
  exact ⟨_, rfl, taken_announced h⟩

/-- An open fails after its wire has been forwarded; the next wire is taken for it. -/
theorem stale_taken :
    ∃ s, opens.Reachable s ∧ ¬ s.Paired ∧
      s.taken.map (fun p => (p.1.2, p.2.2.wireInfo.wireId)) = [(.ofNat 3, .ofNat 2)] := by
  refine ⟨opens.run [.connect, .arrive 0 none none, makes 2, .forward, .fail,
    .connect, .arrive 1 none none, makes 3, .forward, .readInfo, .announce, .readId,
    .tryRecv], Machine.reachableBy_run fun _ _ _ => trivial, ?_, rfl⟩
  intro h
  exact absurd (h _ List.mem_cons_self).1 (by decide)

end Nested

end WiringRs
