import WiringRs.ServerView

/-!
# Every step is a step of one stream

A step of a server is a step of the one stream it is about, and no step of any
other. The tasks end and the channels close for all streams at once.
-/

namespace WiringRs

namespace WiredServer

variable {α : Type}

/-- The two ends take a step, or none. -/
def Follows (lossy : Bool) (x y x' y' : StreamEnd Message) : Prop :=
  StreamEnd.Step lossy x y x' y' ∨ x' = x ∧ y' = y

section

variable {lossy : Bool} {x y : WiredServer α} {i : WireId} {r : Bool}

theorem flush_follows {key : StreamKey} {m : Message} (hheld : key ∈ x.held)
    (hflushing : x.flushing key = none) (hremoved : key ∉ x.wired.removed) :
    Follows lossy (view (i, r) x) (view (i, !r) y) (view (i, r) { x with
        wired := { x.wired with
          buf := Function.update x.wired.buf key (x.wired.buf key ++ [m]) }
        flushing := Function.update x.flushing key (some m) }) (view (i, !r) y) := by
  by_cases hk : (i, r) = key
  · subst hk
    refine Or.inl ?_
    have h : StreamEnd.Step lossy (view (i, r) x) (view (i, !r) y) _ _ :=
      .flush (m := m) (decide_eq_true hheld) hflushing (lifeIn_ne_dead hremoved)
    simp only [view, Function.update_self]
    exact h
  · refine Or.inr ⟨?_, rfl⟩
    simp only [view, Function.update_of_ne hk]
    rfl

theorem aborted_follows {key : StreamKey} {m : Message} (hflushing : x.flushing key = some m)
    (hclosed : x.wClosed = true) :
    Follows lossy (view (i, r) x) (view (i, !r) y)
      (view (i, r) { x with flushing := Function.update x.flushing key none })
      (view (i, !r) y) := by
  by_cases hk : (i, r) = key
  · subst hk
    refine Or.inl ?_
    have h : StreamEnd.Step lossy (view (i, r) x) (view (i, !r) y) _ _ :=
      .aborted hflushing hclosed
    simp only [view, Function.update_self]
    exact h
  · refine Or.inr ⟨?_, rfl⟩
    simp only [view, Function.update_of_ne hk]
    rfl

theorem flushed_follows {key : StreamKey} {m : Message} (hflushing : x.flushing key = some m)
    (hopen : x.wClosed = false) :
    Follows lossy (view (i, r) x) (view (i, !r) y)
      (view (i, r) { x.sendWired (some (.message key.1 key.2)) with
        flushing := Function.update x.flushing key none
        flushed := Function.update x.flushed key (x.flushed key ++ [m]) })
      (view (i, !r) y) := by
  by_cases hk : (i, r) = key
  · subst hk
    refine Or.inl ?_
    have hitem : WiredEvent.item (α := α) (i, r) (some (.message i r)) = some (.message ()) :=
      if_pos rfl
    have h : StreamEnd.Step lossy (view (i, r) x) (view (i, !r) y) _ _ :=
      .flushed hflushing hopen
    simp only [view, sendWired, filterMap_trySend_some hitem, Function.update_self]
    exact h
  · refine Or.inr ⟨?_, rfl⟩
    have hitem : WiredEvent.item (α := α) (i, r) (some (.message key.1 key.2)) = none :=
      if_neg (Ne.symm hk)
    simp only [view, sendWired, filterMap_trySend_none hitem, Function.update_of_ne hk]
    rfl

/-- The drop of a half, or the shutdown of the write half. -/
theorem close_follows {key : StreamKey} (hheld : key ∈ x.held) (read : Bool)
    (writeDropped : Finset StreamKey) :
    Follows lossy (view (i, r) x) (view (i, !r) y)
      (view (i, r) { x.sendDrop key with
        readDropped := if read then insert key x.readDropped else x.readDropped
        writeDropped := writeDropped })
      (view (i, !r) y) := by
  by_cases hk : (i, r) = key
  · subst hk
    refine Or.inl ?_
    have hitem : WiredEvent.item (α := α) (i, r) (some (.drop i r true)) = some (.drop true) :=
      if_pos rfl
    have h : StreamEnd.Step lossy (view (i, r) x) (view (i, !r) y) _ _ :=
      .close read (decide_eq_true hheld)
    have hread : decide ((i, r) ∈ if read then insert (i, r) x.readDropped else x.readDropped)
        = (decide ((i, r) ∈ x.readDropped) || read) := by
      cases read <;> simp
    simp only [view, sendDrop, sendWired, filterMap_trySend_some hitem, hread,
      Finset.mem_insert_self, decide_true]
    exact h
  · refine Or.inr ⟨?_, rfl⟩
    have hitem : WiredEvent.item (α := α) (i, r) (some (.drop key.1 key.2 true)) = none :=
      if_neg (Ne.symm hk)
    have hread : (i, r) ∈ (if read then insert key x.readDropped else x.readDropped)
        ↔ (i, r) ∈ x.readDropped := by
      cases read <;> simp [hk]
    simp only [view, sendDrop, sendWired, filterMap_trySend_none hitem, hread,
      Finset.mem_insert, hk, false_or]
    rfl

/-! ### `Wired` -/

theorem handle_message_nil {w : Wired} {key : StreamKey} {connects : Nat}
    (hlive : key ∈ w.streams) (hbuf : w.buf key = []) :
    w.handle connects (.message key.1 key.2 : WiredEvent α) = (w, []) := by
  simp only [Wired.handle, hlive, if_true, hbuf]

theorem handle_message_cons {w : Wired} {key : StreamKey} {m : Message} {ms : List Message}
    {connects : Nat} (hlive : key ∈ w.streams) (hbuf : w.buf key = m :: ms) :
    w.handle connects (.message key.1 key.2 : WiredEvent α) =
      ({ w with buf := Function.update w.buf key ms },
        [.wire (.message key.1 (!key.2) m)]) := by
  simp only [Wired.handle, hlive, if_true, hbuf]

/-- `Wired` receives an event about another stream. -/
theorem view_handle_none {event : WiredEvent α} {wRx : List (Option (WiredEvent α))}
    {key : StreamKey} (hcalls : x.calls = []) (hwRx : x.wRx = some event :: wRx)
    (hitem : WiredEvent.item key (some event) = none) (connects : Nat) :
    view key { x with
      wRx := wRx
      wired := (x.wired.handle connects event).1
      calls := (x.wired.handle connects event).2 } = view key x := by
  cases event with
  | event e =>
      have hconnects : (List.replicate connects (WiredCall.connect (α := α))).filterMap
          (WiredCall.item key) = [] := by
        simp [List.filterMap_eq_nil_iff, WiredCall.item]
      simp only [view, Wired.handle, hwRx, hcalls, List.filterMap_cons, hitem, hconnects]
      rfl
  | registerWriteHalf streamId =>
      have hk : key ≠ (streamId, false) := fun hk => by simp [WiredEvent.item, hk] at hitem
      simp only [view, Wired.handle, hwRx, List.filterMap_cons, hitem,
        lifeIn_insert_live_of_ne hk, hcalls]
      rfl
  | message streamId isLocal =>
      have hk : key ≠ (streamId, isLocal) := fun hk => by simp [WiredEvent.item, hk] at hitem
      by_cases hlive : (streamId, isLocal) ∈ x.wired.streams
      · cases hbuf : x.wired.buf (streamId, isLocal) with
        | nil =>
            rw [handle_message_nil hlive hbuf]
            simp only [view, hwRx, List.filterMap_cons, hitem, hcalls]
            rfl
        | cons m ms =>
            have hcall : Token.item (α := α) key (.frame (.message streamId (!isLocal) m))
                = none := if_neg (by rw [Bool.not_not]; exact Ne.symm hk)
            rw [handle_message_cons hlive hbuf]
            simp only [view, hwRx, List.filterMap_cons, hitem, hcalls, WiredCall.item, hcall,
              Function.update_of_ne hk]
            rfl
      · simp only [view, Wired.handle, hlive, if_false, hwRx, List.filterMap_cons, hitem,
          hcalls]
        rfl
  | drop streamId isLocal broadcastToRemote =>
      have hk : key ≠ (streamId, isLocal) := fun hk => by simp [WiredEvent.item, hk] at hitem
      by_cases hlive : (streamId, isLocal) ∈ x.wired.streams
      · have hcalled : ((if broadcastToRemote then [.wire (.drop streamId !isLocal)] else []) ++
            [.notify streamId isLocal] : List (WiredCall α)).filterMap (WiredCall.item key)
            = [] := by
          cases broadcastToRemote <;> simp [WiredCall.item, Token.item, Ne.symm hk]
        simp only [view, Wired.handle, hlive, if_true, hwRx, List.filterMap_cons, hitem,
          lifeIn_erase_of_ne hk, hcalled, hcalls]
        rfl
      · simp only [view, Wired.handle, hlive, if_false, hwRx, List.filterMap_cons, hitem,
          hcalls]
        rfl

theorem wiredRecv_follows {event : WiredEvent α} {wRx : List (Option (WiredEvent α))}
    (hcalls : x.calls = []) (hwRx : x.wRx = some event :: wRx) (connects : Nat) :
    Follows lossy (view (i, r) x) (view (i, !r) y)
      (view (i, r) { x with
        wRx := wRx
        wired := (x.wired.handle connects event).1
        calls := (x.wired.handle connects event).2 })
      (view (i, !r) y) := by
  cases hitem : WiredEvent.item (i, r) (some event) with
  | none => exact Or.inr ⟨view_handle_none hcalls hwRx hitem connects, rfl⟩
  | some item =>
      refine Or.inl ?_
      have htodo : (view (i, r) x).todo = [] := by
        simp only [view, hcalls, List.filterMap_nil]
      have hqueue : (view (i, r) x).queue
          = item :: wRx.filterMap (WiredEvent.item (i, r)) := by
        simp only [view, hwRx, List.filterMap_cons, hitem]
      cases event with
      | event e => cases hitem
      | registerWriteHalf streamId =>
          obtain ⟨hk, heq⟩ := Option.ite_none_right_eq_some.mp hitem
          cases hk
          cases heq
          have h : StreamEnd.Step lossy (view (i, false) x) (view (i, !false) y) _ _ :=
            .wiredRegister hqueue
          simp only [view, Wired.handle, lifeIn_insert_live, hcalls] at h ⊢
          exact h
      | message streamId isLocal =>
          obtain ⟨hk, heq⟩ := Option.ite_none_right_eq_some.mp hitem
          cases hk
          cases heq
          by_cases hlive : (i, r) ∈ x.wired.streams
          · cases hbuf : x.wired.buf (i, r) with
            | nil =>
                have h : StreamEnd.Step lossy (view (i, r) x) (view (i, !r) y) _ _ :=
                  .wiredSkip hqueue fun _ => hbuf
                rw [handle_message_nil hlive hbuf]
                simp only [view, hcalls] at h ⊢
                exact h
            | cons m ms =>
                have hcall : Token.item (α := α) (i, r) (.frame (.message i (!r) m))
                    = some (.message m) := if_pos (by rw [Bool.not_not])
                have h : StreamEnd.Step lossy (view (i, r) x) (view (i, !r) y) _ _ :=
                  .wiredMessage hqueue htodo (lifeIn_eq_live.mpr hlive) hbuf
                rw [handle_message_cons hlive hbuf]
                simp only [view, Function.update_self, List.filterMap_cons, WiredCall.item,
                  hcall, List.filterMap_nil]
                exact h
          · have h : StreamEnd.Step lossy (view (i, r) x) (view (i, !r) y) _ _ :=
              .wiredSkip hqueue fun hwired => absurd (lifeIn_eq_live.mp hwired) hlive
            simp only [view, Wired.handle, hlive, if_false, hcalls] at h ⊢
            exact h
      | drop streamId isLocal broadcastToRemote =>
          obtain ⟨hk, heq⟩ := Option.ite_none_right_eq_some.mp hitem
          cases hk
          cases heq
          by_cases hlive : (i, r) ∈ x.wired.streams
          · have hcalled : ((if broadcastToRemote then [.wire (.drop i !r)] else []) ++
                [.notify i r] : List (WiredCall α)).filterMap (WiredCall.item (i, r))
                = if broadcastToRemote then [.drop true, .drop false] else [.drop false] := by
              cases broadcastToRemote <;> simp [WiredCall.item, Token.item]
            have h : StreamEnd.Step lossy (view (i, r) x) (view (i, !r) y) _ _ :=
              .wiredDrop hqueue htodo (lifeIn_eq_live.mpr hlive)
            simp only [view, Wired.handle, hlive, if_true, lifeIn_erase, hcalled]
            exact h
          · have h : StreamEnd.Step lossy (view (i, r) x) (view (i, !r) y) _ _ :=
              .wiredIgnore hqueue (mt lifeIn_eq_live.mp hlive)
            simp only [view, Wired.handle, hlive, if_false, hcalls] at h ⊢
            exact h

/-! ### The calls of `Wired` -/

section

variable {c : WiredCall α} {calls : List (WiredCall α)}

theorem view_calls_none {key : StreamKey} (hcalls : x.calls = c :: calls)
    (hitem : c.item key = none) : view key { x with calls := calls } = view key x := by
  simp only [view, hcalls, List.filterMap_cons, hitem]
  rfl

theorem todo_cons {key : StreamKey} {item : Item Message} (hcalls : x.calls = c :: calls)
    (hitem : c.item key = some item) :
    (view key x).todo = item :: calls.filterMap (WiredCall.item key) := by
  simp only [view, hcalls, List.filterMap_cons, hitem]

theorem Token.item_frame {key : StreamKey} {event : WiringEvent α} {item : Item Message}
    (hitem : Token.item key (.frame event) = some item) :
    item ≠ .drop false ∧ item.isRegister = false := by
  cases event with
  | event e => cases hitem
  | message streamId isLocal m | drop streamId isLocal =>
      obtain ⟨-, hitem⟩ := Option.ite_none_right_eq_some.mp hitem
      cases hitem
      exact ⟨nofun, rfl⟩

theorem wire_follows {event : WiringEvent α} (hcalls : x.calls = .wire event :: calls) :
    Follows lossy (view (i, r) x) (view (i, !r) y)
      (view (i, r) ({ x with calls := calls }.write (.frame event))) (view (i, !r) y) := by
  cases hitem : Token.item (i, r) (.frame event) with
  | none =>
      refine Or.inr ⟨?_, rfl⟩
      rw [view_write_none hitem, view_calls_none hcalls hitem]
  | some item =>
      refine Or.inl ?_
      obtain ⟨hne, hregister⟩ := Token.item_frame hitem
      have h : StreamEnd.Step lossy (view (i, r) x) (view (i, !r) y) _ _ :=
        .write (todo_cons hcalls hitem) hne
      rw [hregister, Bool.or_false] at h
      rw [view_write_some hitem]
      exact h

theorem notify_follows {streamId : WireId} {isLocal : Bool}
    (hcalls : x.calls = .notify streamId isLocal :: calls) :
    Follows lossy (view (i, r) x) (view (i, !r) y)
      (view (i, r) ({ x with calls := calls }.sendUnwired
        (some (.drop streamId isLocal false)))) (view (i, !r) y) := by
  by_cases hk : (streamId, isLocal) = (i, r)
  · refine Or.inl ?_
    have hitem : UnwiredEvent.item (i, r) (some (.drop streamId isLocal false))
        = some (.drop false) := if_pos hk
    have h : StreamEnd.Step lossy (view (i, r) x) (view (i, !r) y) _ _ :=
      .notify (todo_cons hcalls (if_pos hk))
    rw [view_sendUnwired_some hitem]
    exact h
  · refine Or.inr ⟨?_, rfl⟩
    have hitem : UnwiredEvent.item (i, r) (some (.drop streamId isLocal false)) = none :=
      if_neg hk
    rw [view_sendUnwired_none hitem, view_calls_none hcalls (if_neg hk)]

theorem offer_follows {streamId : WireId} (hcalls : x.calls = .offer streamId :: calls) :
    Follows lossy (view (i, r) x) (view (i, !r) y)
      (view (i, r) { { x with calls := calls }.write (.stream streamId) with
        held := insert (streamId, true) x.held }) (view (i, !r) y) := by
  by_cases hk : (streamId, true) = (i, r)
  · obtain ⟨rfl, rfl⟩ := Prod.mk.injEq .. |>.mp hk
    refine Or.inl ?_
    have hitem : Token.item (α := α) (streamId, true) (.stream streamId) = some .register :=
      if_pos rfl
    have h : StreamEnd.Step lossy (view (streamId, true) x) (view (streamId, !true) y) _ _ :=
      .write (todo_cons hcalls hitem) nofun
    rw [Item.isRegister, Bool.or_true] at h
    have hheld := view_held_local (p := { x with calls := calls }.write (.stream streamId))
      (i := streamId)
    rw [view_write_some hitem] at hheld
    exact hheld ▸ h
  · refine Or.inr ⟨?_, rfl⟩
    have hitem : Token.item (α := α) (i, r) (.stream streamId) = none := if_neg hk
    have hheld := view_held_of_ne (p := { x with calls := calls }.write (.stream streamId))
      (Ne.symm hk)
    rw [view_write_none hitem, view_calls_none hcalls hitem] at hheld
    exact hheld

theorem toNat_streamId {n : Nat} (h : n < 2 ^ 64) : (.ofNat n : WireId).toNat = n :=
  Prim.toNat_ofNat (h.trans_eq (by decide))

/-- The next id is that of no stream so far, and of the next one. -/
theorem knows_connect {p : WiredServer α} (h : x.wired.streamId + 1 < 2 ^ 64)
    (hid : p.wired.streamId = x.wired.streamId + 1) (hheld : p.held = x.held) :
    x.knows (.ofNat (x.wired.streamId + 1), true) = false ∧
      p.knows (.ofNat (x.wired.streamId + 1), true) = true ∧
      ∀ key, key ≠ (.ofNat (x.wired.streamId + 1), true) → p.knows key = x.knows key := by
  simp only [knows, if_true, toNat_streamId h, hid, hheld, decide_eq_true_eq,
    decide_eq_false_iff_not]
  refine ⟨by omega, by omega, ?_⟩
  rintro ⟨i, r⟩ hk
  cases r with
  | false => rfl
  | true =>
      have hi : i.toNat ≠ x.wired.streamId + 1 := fun hi =>
        hk (by rw [Prod.mk.injEq, Prim.ext_iff, toNat_streamId h]; exact ⟨hi, rfl⟩)
      simp only [if_true, decide_eq_decide]
      omega

theorem connect_follows {streamId : WireId} {wired : Wired}
    (hcalls : x.calls = .connect :: calls) (hconnect : x.wired.connect = some (streamId, wired)) :
    Follows lossy (view (i, r) x) (view (i, !r) y)
      (view (i, r) ({ x with wired := wired, calls := .offer streamId :: calls }.sendUnwired
        (some (.registerStream streamId true)))) (view (i, !r) y) := by
  obtain ⟨hlt, heq⟩ := Option.ite_none_right_eq_some.mp hconnect
  cases heq
  obtain ⟨hfresh, hknown, hother⟩ := knows_connect hlt (p := { x with
    wired := { x.wired with
      streamId := x.wired.streamId + 1
      streams := insert (.ofNat (x.wired.streamId + 1), true) x.wired.streams }
    calls := .offer (.ofNat (x.wired.streamId + 1)) :: calls }) rfl rfl
  by_cases hk : (i, r) = (.ofNat (x.wired.streamId + 1), true)
  · refine Or.inl ?_
    have hevent : UnwiredEvent.item (i, r)
        (some (.registerStream (.ofNat (x.wired.streamId + 1)) true)) = some .register :=
      if_pos hk.symm
    have hcall : WiredCall.item (α := α) (i, r) (.offer (.ofNat (x.wired.streamId + 1)))
        = some .register := if_pos hk.symm
    rw [view_sendUnwired_some hevent]
    rw [← hk] at hfresh hknown ⊢
    have h : StreamEnd.Step lossy (view (i, r) x) (view (i, !r) y) _ _ :=
      .open (congrArg Prod.snd hk) hfresh
    simp only [view, hcalls, hknown, List.filterMap_cons, hcall, lifeIn_insert_live] at h ⊢
    exact h
  · refine Or.inr ⟨?_, rfl⟩
    have hevent : UnwiredEvent.item (i, r)
        (some (.registerStream (.ofNat (x.wired.streamId + 1)) true)) = none :=
      if_neg (Ne.symm hk)
    have hcall : WiredCall.item (α := α) (i, r) (.offer (.ofNat (x.wired.streamId + 1)))
        = none := if_neg (Ne.symm hk)
    rw [view_sendUnwired_none hevent]
    simp only [view, hcalls, hother _ hk, List.filterMap_cons, hcall,
      lifeIn_insert_live_of_ne hk]
    rfl

end

/-! ### `Unwired` -/

section

variable {token : Token α} {wire : List (Token α)}

theorem flip_eq {streamId : WireId} {isLocal : Bool} :
    (streamId, !isLocal) = (i, !r) ↔ (streamId, isLocal) = (i, r) := by
  simp

theorem view_wire_none {key : StreamKey} (hwire : y.wire = token :: wire)
    (hitem : token.item key = none) : view key { y with wire := wire } = view key y := by
  simp only [view, hwire, List.filterMap_cons, hitem]
  rfl

theorem out_cons {key : StreamKey} {item : Item Message} (hwire : y.wire = token :: wire)
    (hitem : token.item key = some item) :
    (view key y).out = item :: wire.filterMap (Token.item key) := by
  simp only [view, hwire, List.filterMap_cons, hitem]

theorem pending_eq_false (hconnecting : x.connecting = none) {key : StreamKey} :
    (view key x).pending = false := by
  simp [view, hconnecting]

/-- A frame about a stream is passed on to the helper. -/
theorem read_follows {event : UnwiredEvent} (item : Item Message)
    (hconnecting : x.connecting = none) (hwire : y.wire = token :: wire)
    (hitem : item ≠ .register)
    (hsame : token.item (i, !r) = UnwiredEvent.item (i, r) (some event))
    (hevent : ∀ item', token.item (i, !r) = some item' → item' = item) :
    Follows lossy (view (i, r) x) (view (i, !r) y)
      (view (i, r) (x.sendUnwired (some event))) (view (i, !r) { y with wire := wire }) := by
  cases htoken : token.item (i, !r) with
  | none =>
      refine Or.inr ⟨?_, view_wire_none hwire htoken⟩
      rw [view_sendUnwired_none (hsame ▸ htoken)]
  | some item' =>
      cases hevent item' htoken
      refine Or.inl ?_
      have h : StreamEnd.Step lossy (view (i, r) x) (view (i, !r) y) _ _ :=
        .read (out_cons hwire htoken) hitem (pending_eq_false hconnecting)
      rw [view_sendUnwired_some (hsame ▸ htoken)]
      exact h

theorem accept_follows {streamId : WireId} (hconnecting : x.connecting = none)
    (hwire : y.wire = .stream streamId :: wire) :
    Follows lossy (view (i, r) x) (view (i, !r) y)
      (view (i, r) (x.receive (.stream streamId))) (view (i, !r) { y with wire := wire }) := by
  by_cases hk : (i, r) = (streamId, false)
  · obtain ⟨rfl, rfl⟩ := Prod.mk.injEq .. |>.mp hk
    refine Or.inl ?_
    have htoken : Token.item (α := α) (i, !false) (.stream i) = some .register := if_pos rfl
    have hevent : WiredEvent.item (α := α) (i, false) (some (.registerWriteHalf i))
        = some .register := if_pos rfl
    have h : StreamEnd.Step lossy (view (i, false) x) (view (i, !false) y) _ _ :=
      .accept (out_cons hwire htoken) (pending_eq_false hconnecting)
    cases hclosed : x.wClosed with
    | false =>
        simp only [view, receive, sendWired, filterMap_trySend_some hevent, hclosed,
          Bool.false_eq_true, if_false, decide_true, and_self] at h ⊢
        exact h
    | true =>
        simp only [view, receive, sendWired, filterMap_trySend_some hevent, hclosed,
          if_true, lifeIn_insert_gone, decide_true, and_self] at h ⊢
        exact h
  · have htoken : Token.item (α := α) (i, !r) (.stream streamId) = none := by
      refine if_neg fun heq => hk ?_
      simpa using heq.symm
    have hevent : WiredEvent.item (α := α) (i, r) (some (.registerWriteHalf streamId)) = none :=
      if_neg (Ne.symm hk)
    have hpending : ¬ (some streamId = some i ∧ r = false) := by
      rintro ⟨⟨⟩, rfl⟩
      exact hk rfl
    refine Or.inr ⟨?_, view_wire_none hwire htoken⟩
    cases hclosed : x.wClosed with
    | false =>
        simp only [view, receive, sendWired, filterMap_trySend_none hevent, hclosed,
          Bool.false_eq_true, if_false, hpending, hconnecting, reduceCtorEq, false_and]
        rfl
    | true =>
        simp only [view, receive, sendWired, filterMap_trySend_none hevent, hclosed,
          if_true, lifeIn_insert_gone_of_ne hk, hpending, hconnecting, reduceCtorEq, false_and]
        rfl

theorem receive_follows (hconnecting : x.connecting = none) (hwire : y.wire = token :: wire) :
    Follows lossy (view (i, r) x) (view (i, !r) y)
      (view (i, r) (x.receive token)) (view (i, !r) { y with wire := wire }) := by
  cases token with
  | frame event =>
      cases event with
      | event e => exact Or.inr ⟨rfl, view_wire_none hwire rfl⟩
      | message streamId isLocal m =>
          refine read_follows (.message m) hconnecting hwire nofun ?_ ?_
          · simp only [Token.item, UnwiredEvent.item, flip_eq]
          · intro item' h
            exact (Option.some.inj (Option.ite_none_right_eq_some.mp h).2).symm
      | drop streamId isLocal =>
          refine read_follows (.drop true) hconnecting hwire nofun ?_ ?_
          · simp only [Token.item, UnwiredEvent.item, flip_eq]
          · intro item' h
            exact (Option.some.inj (Option.ite_none_right_eq_some.mp h).2).symm
  | stream streamId => exact accept_follows hconnecting hwire

end

theorem connected_follows {streamId : WireId} (hconnecting : x.connecting = some streamId) :
    Follows lossy (view (i, r) x) (view (i, !r) y)
      (view (i, r) { x.sendUnwired (some (.registerStream streamId false)) with
        connecting := none
        held := insert (streamId, false) x.held }) (view (i, !r) y) := by
  by_cases hk : (i, r) = (streamId, false)
  · obtain ⟨rfl, rfl⟩ := Prod.mk.injEq .. |>.mp hk
    refine Or.inl ?_
    have hevent : UnwiredEvent.item (i, false) (some (.registerStream i false))
        = some .register := if_pos rfl
    have h : StreamEnd.Step lossy (view (i, false) x) (view (i, !false) y) _ _ :=
      .accepted (by simp [view, hconnecting])
    simp only [view, knows, sendUnwired, filterMap_trySend_some hevent,
      Finset.mem_insert_self, decide_true, Bool.false_eq_true, if_false, reduceCtorEq,
      false_and, decide_false] at h ⊢
    exact h
  · have hevent : UnwiredEvent.item (i, r) (some (.registerStream streamId false)) = none :=
      if_neg (Ne.symm hk)
    have hpending : ¬ (some streamId = some i ∧ r = false) := by
      rintro ⟨⟨⟩, rfl⟩
      exact hk rfl
    refine Or.inr ⟨?_, rfl⟩
    simp only [view, knows, sendUnwired, filterMap_trySend_none hevent, hconnecting,
      Finset.mem_insert, hk, false_or, hpending, reduceCtorEq, false_and]

/-! ### The helper -/

section

variable {uRx : List (Option UnwiredEvent)}

/-- The helper receives an event about another stream. -/
theorem view_help_none {event : UnwiredEvent} {key : StreamKey}
    (huRx : x.uRx = some event :: uRx) (hitem : UnwiredEvent.item key (some event) = none) :
    view key ({ x with uRx := uRx }.help event) = view key x := by
  cases event with
  | registerStream streamId isLocal =>
      have hk : key ≠ (streamId, isLocal) := fun hk => by simp [UnwiredEvent.item, hk] at hitem
      simp only [view, help, lifeIn_insert_live_of_ne hk, huRx, List.filterMap_cons, hitem]
      rfl
  | message streamId isLocal m =>
      have hk : key ≠ (streamId, isLocal) := fun hk => by simp [UnwiredEvent.item, hk] at hitem
      by_cases hlive : (streamId, isLocal) ∈ x.streams ∧ (streamId, isLocal) ∉ x.readDropped
      · simp only [help, if_pos hlive, view, Function.update_of_ne hk, huRx,
          List.filterMap_cons, hitem]
        rfl
      · simp only [help, if_neg hlive, view, huRx, List.filterMap_cons, hitem]
        rfl
  | drop streamId isLocal broadcastToWire =>
      have hk : key ≠ (streamId, isLocal) := fun hk => by simp [UnwiredEvent.item, hk] at hitem
      have hpassed : WiredEvent.item (α := α) key (some (.drop streamId isLocal false))
          = none := if_neg (Ne.symm hk)
      by_cases hlive : (streamId, isLocal) ∈ x.streams
      · cases broadcastToWire with
        | true =>
            simp only [help, if_pos hlive, if_true, view, sendWired,
              filterMap_trySend_none hpassed, lifeIn_erase_of_ne hk, huRx, List.filterMap_cons,
              hitem]
            rfl
        | false =>
            simp only [help, if_pos hlive, Bool.false_eq_true, if_false, view,
              lifeIn_erase_of_ne hk, huRx, List.filterMap_cons, hitem]
            rfl
      · simp only [help, if_neg hlive, view, huRx, List.filterMap_cons, hitem]
        rfl

theorem helperRecv_follows {event : UnwiredEvent} (huRx : x.uRx = some event :: uRx) :
    Follows lossy (view (i, r) x) (view (i, !r) y)
      (view (i, r) ({ x with uRx := uRx }.help event)) (view (i, !r) y) := by
  cases hitem : UnwiredEvent.item (i, r) (some event) with
  | none => exact Or.inr ⟨view_help_none huRx hitem, rfl⟩
  | some item =>
      refine Or.inl ?_
      have hinbox : (view (i, r) x).inbox
          = item :: uRx.filterMap (UnwiredEvent.item (i, r)) := by
        simp only [view, huRx, List.filterMap_cons, hitem]
      cases event with
      | registerStream streamId isLocal =>
          obtain ⟨hk, heq⟩ := Option.ite_none_right_eq_some.mp hitem
          cases hk
          cases heq
          have h : StreamEnd.Step lossy (view (i, r) x) (view (i, !r) y) _ _ :=
            .helperRegister hinbox
          simp only [view, help, lifeIn_insert_live]
          exact h
      | message streamId isLocal m =>
          obtain ⟨hk, heq⟩ := Option.ite_none_right_eq_some.mp hitem
          cases hk
          cases heq
          have h : StreamEnd.Step lossy (view (i, r) x) (view (i, !r) y) _ _ :=
            .helperMessage hinbox
          have hguard : ((i, r) ∈ x.streams ∧ (i, r) ∉ x.readDropped) ↔
              ((view (i, r) x).helper = .live ∧ (view (i, r) x).readDropped = false) := by
            simp only [view, lifeIn_eq_live, decide_eq_false_iff_not]
          by_cases hlive : (i, r) ∈ x.streams ∧ (i, r) ∉ x.readDropped
          · rw [if_pos (hguard.mp hlive)] at h
            simp only [help, if_pos hlive, view, Function.update_self]
            exact h
          · rw [if_neg (mt hguard.mpr hlive)] at h
            simp only [help, if_neg hlive]
            exact h
      | drop streamId isLocal broadcastToWire =>
          obtain ⟨hk, heq⟩ := Option.ite_none_right_eq_some.mp hitem
          cases hk
          cases heq
          by_cases hlive : (i, r) ∈ x.streams
          · have h : StreamEnd.Step lossy (view (i, r) x) (view (i, !r) y) _ _ :=
              .helperDrop hinbox (lifeIn_eq_live.mpr hlive)
            cases broadcastToWire with
            | true =>
                have hpassed : WiredEvent.item (α := α) (i, r) (some (.drop i r false))
                    = some (.drop false) := if_pos rfl
                simp only [help, if_pos hlive, if_true, view, sendWired,
                  filterMap_trySend_some hpassed, lifeIn_erase]
                exact h
            | false =>
                simp only [help, if_pos hlive, Bool.false_eq_true, if_false, view,
                  lifeIn_erase]
                exact h
          · have h : StreamEnd.Step lossy (view (i, r) x) (view (i, !r) y) _ _ :=
              .helperIgnore hinbox (mt lifeIn_eq_live.mp hlive)
            simp only [help, if_neg hlive]
            exact h

end

/-! ### The ends of the tasks -/

theorem closeQueue_follows {wRx : List (Option (WiredEvent α))} (hlossy : lossy = true)
    (hwRx : x.wRx = none :: wRx) :
    Follows lossy (view (i, r) x) (view (i, !r) y)
      (view (i, r) { x with wRx := wRx, wClosed := true }) (view (i, !r) y) := by
  refine Or.inl ?_
  have h : StreamEnd.Step lossy (view (i, r) x) (view (i, !r) y) _ _ := .closeQueue hlossy
  simp only [view, hwRx, List.filterMap_cons, WiredEvent.item] at h ⊢
  exact h

theorem closeInbox_follows {uRx : List (Option UnwiredEvent)} (hlossy : lossy = true)
    (huRx : x.uRx = none :: uRx) :
    Follows lossy (view (i, r) x) (view (i, !r) y)
      (view (i, r) { x with uRx := uRx, uClosed := true }) (view (i, !r) y) := by
  refine Or.inl ?_
  have h : StreamEnd.Step lossy (view (i, r) x) (view (i, !r) y) _ _ := .closeInbox hlossy
  simp only [view, huRx, List.filterMap_cons, UnwiredEvent.item] at h ⊢
  exact h

theorem endWired_follows (hlossy : lossy = true) :
    Follows lossy (view (i, r) x) (view (i, !r) y)
      (view (i, r) { x with
        wiredDone := true
        wired := { x.wired with
          streams := ∅
          removed := x.wired.removed ∪ x.wired.streams } }) (view (i, !r) y) := by
  refine Or.inl ?_
  have h : StreamEnd.Step lossy (view (i, r) x) (view (i, !r) y) _ _ := .endWired hlossy
  simp only [view, lifeIn_drop]
  exact h

theorem endHelper_follows (hlossy : lossy = true) :
    Follows lossy (view (i, r) x) (view (i, !r) y)
      (view (i, r) { x with
        helperDone := true
        streams := ∅
        dropped := x.dropped ∪ x.streams }) (view (i, !r) y) := by
  refine Or.inl ?_
  have h : StreamEnd.Step lossy (view (i, r) x) (view (i, !r) y) _ _ := .endHelper hlossy
  simp only [view, lifeIn_drop]
  exact h

/-! ### The step -/

/-- No task of the server is told to end. -/
structure Calm (p : WiredServer α) : Prop where
  wRx : none ∉ p.wRx
  uRx : none ∉ p.uRx
  wClosed : p.wClosed = false
  uClosed : p.uClosed = false
  wiredDone : p.wiredDone = false
  unwiredDone : p.unwiredDone = false

/-- The step closes a queue, or ends a task. -/
def Ends (x : WiredServer α) : ServerAction α → Prop
  | .wiredRecv _ => none ∈ x.wRx.head?
  | .helperRecv => none ∈ x.uRx.head?
  | .wiredEnd | .helperEnd => True
  | _ => False

/-- **A step is a step of one stream.** Whatever the stream `i`, a step of the
server `x` is one of its two ends, or none of it. -/
theorem step_follows_of {x y x' y' : WiredServer α} {a : ServerAction α}
    (hs : step x y a = some (x', y')) (hends : lossy = false → ¬ x.Ends a) (i : WireId)
    (r : Bool) :
    Follows lossy (view (i, r) x) (view (i, !r) y) (view (i, r) x') (view (i, !r) y') := by
  have hend (h : x.Ends a) : lossy = true := by
    cases lossy with
    | true => rfl
    | false => exact absurd h (hends rfl)
  cases a with
  | send event =>
      obtain ⟨-, heq⟩ := Option.ite_none_left_eq_some.mp hs
      cases heq
      exact Or.inr ⟨view_sendWired_none (by cases event <;> rfl), rfl⟩
  | flush key m =>
      obtain ⟨⟨hheld, -, hflushing, hremoved⟩, heq⟩ := Option.ite_none_right_eq_some.mp hs
      cases heq
      exact flush_follows hheld hflushing hremoved
  | flushEvent key =>
      cases hflushing : x.flushing key with
      | none => simp [step, hflushing] at hs
      | some m =>
          simp only [step, hflushing] at hs
          split at hs
          · cases hs
            exact aborted_follows hflushing ‹_›
          · rename_i hclosed
            cases hs
            exact flushed_follows hflushing (Bool.eq_false_of_not_eq_true hclosed)
  | dropRead key =>
      obtain ⟨⟨hheld, -⟩, heq⟩ := Option.ite_none_right_eq_some.mp hs
      cases heq
      exact close_follows hheld true x.writeDropped
  | dropWrite key =>
      obtain ⟨⟨hheld, -⟩, heq⟩ := Option.ite_none_right_eq_some.mp hs
      cases heq
      exact close_follows hheld false (insert key x.writeDropped)
  | shutdownWrite key =>
      obtain ⟨⟨hheld, -⟩, heq⟩ := Option.ite_none_right_eq_some.mp hs
      cases heq
      exact close_follows hheld false x.writeDropped
  | wiredRecv connects =>
      simp only [step] at hs
      split at hs
      · rename_i wRx hcalls hwRx
        cases hs
        exact closeQueue_follows (hend (by simp [Ends, hwRx])) hwRx
      · rename_i event wRx hcalls hwRx
        cases hs
        exact wiredRecv_follows hcalls hwRx connects
      · cases hs
  | wiredCall =>
      cases hcalls : x.calls with
      | nil => simp [step, hcalls] at hs
      | cons c calls =>
          simp only [step, hcalls] at hs
          obtain ⟨p, hp, heq⟩ := Option.map_eq_some_iff.mp hs
          cases heq
          cases c with
          | wire event =>
              cases hp
              exact wire_follows hcalls
          | notify streamId isLocal =>
              cases hp
              exact notify_follows hcalls
          | connect =>
              cases hconnect : x.wired.connect with
              | none => simp [call, hconnect] at hp
              | some new =>
                  simp only [call, hconnect] at hp
                  cases hp
                  exact connect_follows hcalls hconnect
          | offer streamId =>
              cases hp
              exact offer_follows hcalls
  | wiredEnd =>
      obtain ⟨-, heq⟩ := Option.ite_none_right_eq_some.mp hs
      cases heq
      exact endWired_follows (hend trivial)
  | unwiredRead =>
      simp only [step] at hs
      split at hs
      · cases hs
        exact receive_follows ‹_› ‹_›
      · cases hs
  | unwiredConnected =>
      cases hconnecting : x.connecting with
      | none => simp [step, hconnecting] at hs
      | some streamId =>
          simp only [step, hconnecting] at hs
          cases hs
          exact connected_follows hconnecting
  | unwiredEof =>
      obtain ⟨-, heq⟩ := Option.ite_none_right_eq_some.mp hs
      cases heq
      have h : view (i, r) (x.sendUnwired none) = view (i, r) x := view_sendUnwired_none rfl
      exact Or.inr ⟨h, rfl⟩
  | unwiredEnd =>
      obtain ⟨-, heq⟩ := Option.ite_none_right_eq_some.mp hs
      cases heq
      have h : view (i, r) (x.sendWired none) = view (i, r) x := view_sendWired_none rfl
      exact Or.inr ⟨h, rfl⟩
  | helperRecv =>
      simp only [step] at hs
      split at hs
      · rename_i uRx huRx
        cases hs
        exact closeInbox_follows (hend (by simp [Ends, huRx])) huRx
      · cases hs
        exact helperRecv_follows ‹_›
      · cases hs
  | helperEnd =>
      obtain ⟨-, heq⟩ := Option.ite_none_right_eq_some.mp hs
      cases heq
      exact endHelper_follows (hend trivial)

/-- A calm server closes no queue and ends no task. -/
theorem Calm.not_ends {x y x' y' : WiredServer α} {a : ServerAction α} (h : x.Calm)
    (hs : step x y a = some (x', y')) : ¬ x.Ends a := by
  intro hends
  cases a with
  | wiredRecv => exact h.wRx (List.mem_of_mem_head? hends)
  | helperRecv => exact h.uRx (List.mem_of_mem_head? hends)
  | wiredEnd =>
      obtain ⟨⟨-, -, hclosed, -⟩, -⟩ := Option.ite_none_right_eq_some.mp hs
      cases h.wClosed.symm.trans hclosed
  | helperEnd =>
      obtain ⟨⟨-, hclosed, -⟩, -⟩ := Option.ite_none_right_eq_some.mp hs
      cases h.uClosed.symm.trans hclosed
  | _ => exact hends

theorem step_follows {x y x' y' : WiredServer α} {a : ServerAction α}
    (hs : step x y a = some (x', y')) (hcalm : lossy = false → x.Calm) (i : WireId)
    (r : Bool) :
    Follows lossy (view (i, r) x) (view (i, !r) y) (view (i, r) x') (view (i, !r) y') :=
  step_follows_of hs (fun hlossy => (hcalm hlossy).not_ends hs) i r

end

end WiredServer

end WiringRs
