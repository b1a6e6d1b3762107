import WiringRs.Unwiring

/-!
# Slots and their guard

`sync_unwiring_array` and `sync_unwiring_vec` decode into slots that are uninitialised
at first. A guard owns the slots and counts those that have been written; when an
element does not decode, it drops as many. At the end the slots are taken out of the
guard, which then finds nothing to drop.

The slots, the guard and the drops are explicit here, with a log of what happens to
the slots. Elsewhere the two decoders are the loops they come down to.
-/

namespace WiringRs

/-- What happens to a slot. -/
inductive SlotEvent (α : Type) where
  | write (i : Nat) (a : α)
  | drop (i : Nat) (a : α)

/-- `[MaybeUninit<T>]`: `none` is a slot that holds no value, or no longer. -/
abbrev Slots (α : Type) := List (Option α)

/-- `SafeInitArray` and `SafeInitVec`, around an `Option<[MaybeUninit<T>; N]>` and a
`Vec<MaybeUninit<T>>`. -/
structure SafeInit (γ : Type) where
  data : γ
  initializedCount : Nat

/-- The locals of the decoders. -/
structure Frame (γ α : Type) where
  v : SafeInit γ
  log : List (SlotEvent α)

section

variable {α β γ σ τ : Type}

/-- A call on the wire. -/
def onWire (x : IoM σ β) : IoM (σ × τ) β := fun s =>
  let r := x s.1
  (r.1, r.2, s.2)

/-! ## Drops -/

/-- `std::ptr::drop_in_place(slots[i].as_mut_ptr())` -/
def dropInPlace (slots : Slots α) (i : Nat) : IoM (List (SlotEvent α)) (Slots α) :=
  fun log => match slots[i]? with
    | none => (.error .panic, log)
    -- no value to drop
    | some none => (.error .ub, log)
    | some (some a) => (.ok (slots.set i none), log ++ [.drop i a])

/-- `for i in 0..self.initialized_count { .. }` -/
def dropSlots (slots : Slots α) (count : Nat) : IoM (List (SlotEvent α)) Unit := do
  let _ ← (List.range count).foldlM dropInPlace slots
  pure ()

/-- `Drop for SafeInitArray` -/
def dropArray (v : SafeInit (Option (Slots α))) : IoM (List (SlotEvent α)) Unit :=
  match v.data with
  | some array => dropSlots array v.initializedCount
  | none => pure ()

/-- `Drop for SafeInitVec` -/
def dropVec (v : SafeInit (Slots α)) : IoM (List (SlotEvent α)) Unit :=
  if v.data.length > 0 then dropSlots v.data v.initializedCount else pure ()

/-- The guard lives as long as the body runs, and is dropped however it ends. -/
def guarded (drop : SafeInit γ → IoM (List (SlotEvent α)) Unit) (v : SafeInit γ)
    (body : IoM (σ × Frame γ α) β) : IoM (σ × List (SlotEvent α)) β := fun s =>
  match body (s.1, ⟨v, s.2⟩) with
  | (.error .ub, s') => (.error .ub, s'.1, s'.2.log)
  | (r, s') => match drop s'.2.v s'.2.log with
    | (.ok _, log) => (r, s'.1, log)
    | (.error e, log) => (.error e, s'.1, log)

/-! ## The decoders -/

/-- `*i = MaybeUninit::new(Self::sync_unwiring(wire)?); v.initialized_count += 1;`, where
`inside` finds the slots in what the guard holds. -/
def initSlot (inside : (Slots α → Slots α) → γ → γ) (x : IoM σ α) (i : Nat) :
    IoM (σ × Frame γ α) Unit := do
  let a ← onWire x
  fun (s, f) => (.ok (), s, {
    v := ⟨inside (fun slots => slots.set i (some a)) f.v.data, f.v.initializedCount + 1⟩
    log := f.log ++ [.write i a] })

/-- `mem::take(&mut v.data)`, which leaves a default. -/
def takeData (default : γ) : IoM (σ × Frame γ α) γ := fun (s, f) =>
  (.ok f.v.data, s, { f with v := { f.v with data := default } })

/-- `MaybeUninit::array_assume_init(data)`, or a `transmute` of the `Vec`. -/
def assumeInit (data : Slots α) : IoM σ (List α) :=
  match data.mapM fun slot => slot with
  | some l => pure l
  | none => Act.stop .ub

/-- `Option::take(&mut v.array)`, and its contents. -/
def takeArray : IoM (σ × Frame (Option (Slots α)) α) (List α) := do
  let array ← takeData none
  match array with
  | some data => assumeInit data
  | none => Act.fail ⟨.unexpectedEof, "Unable to unwrap fixed array"⟩

/-- `std::mem::take(&mut v.vec)`, and its contents. -/
def takeVec : IoM (σ × Frame (Slots α) α) (List α) := do
  let data ← takeData []
  assumeInit data

/-- `v.array.as_mut()` -/
def asMut : IoM (σ × Frame γ α) γ := fun (s, f) => (.ok f.v.data, s, f)

/-- `sync_unwiring_array`, for elements that `x` decodes. -/
def SafeInit.syncUnwiringArray (x : IoM σ α) (N : Nat) :
    IoM (σ × List (SlotEvent α)) (List α) :=
  guarded dropArray ⟨some (List.replicate N none), 0⟩ do
    let array ← asMut
    match array with
    | some d => do
        (List.range d.length).forM (initSlot Option.map x)
        takeArray
    | none => Act.fail ⟨.unexpectedEof, "Unable to take fixed array"⟩

/-- `v.vec.set_len(len)`, of an empty vector. -/
def setLen (len : Nat) : IoM (σ × Frame (Slots α) α) Unit := fun (s, f) =>
  (.ok (), s, { f with v := { f.v with data := List.replicate len none } })

/-- `sync_unwiring_vec`. The length is read and the memory reserved before there is a
guard. -/
def SafeInit.syncUnwiringVec [RustType α] [Unwire σ] (x : IoM σ α) :
    IoM (σ × List (SlotEvent α)) (List α) := do
  let len ← onWire Unwire.syncUnwireU64
  if CapacityFits α len.toNat then
    guarded dropVec ⟨[], 0⟩ do
      setLen len.toNat
      (List.range len.toNat).forM (initSlot (fun f => f) x)
      takeVec
  else Act.panic

/-! ## What they do to the slots -/

/-- Up to `n` elements decode to `l`; with `some e`, the next one stops. -/
inductive Elements (x : IoM σ α) :
    Nat → σ → List α → Option (Stop IoError) → σ → Prop where
  | done {s : σ} : Elements x 0 s [] none s
  | stopped {n : Nat} {s s' : σ} {e : Stop IoError} (h : x s = (.error e, s')) :
      Elements x (n + 1) s [] (some e) s'
  | next {n : Nat} {s s' s'' : σ} {a : α} {l : List α} {r : Option (Stop IoError)}
      (h : x s = (.ok a, s')) (hl : Elements x n s' l r s'') :
      Elements x (n + 1) s (a :: l) r s''

/-- The elements are written to the slots from `i` on, one after another. -/
def writes : Nat → List α → List (SlotEvent α)
  | _, [] => []
  | i, a :: l => .write i a :: writes (i + 1) l

/-- The slots from `i` on are dropped, one after another. -/
def drops : Nat → List α → List (SlotEvent α)
  | _, [] => []
  | i, a :: l => .drop i a :: drops (i + 1) l

/-- How a loop over the elements ends. -/
def Ended : Option (Stop IoError) → Except (Stop IoError) Unit
  | none => .ok ()
  | some e => .error e

namespace Elements

variable {x : IoM σ α} {n : Nat} {s s' : σ} {l : List α} {r : Option (Stop IoError)}

theorem total (x : IoM σ α) (n : Nat) (s : σ) : ∃ l r s', Elements x n s l r s' := by
  induction n generalizing s with
  | zero => exact ⟨[], none, s, .done⟩
  | succ n ih =>
      rcases hx : x s with ⟨e | a, s1⟩
      · exact ⟨[], some e, s1, .stopped hx⟩
      · obtain ⟨l, r, s', h⟩ := ih s1
        exact ⟨a :: l, r, s', .next hx h⟩

theorem length_le (h : Elements x n s l r s') : l.length ≤ n := by
  induction h with
  | done => exact Nat.le_refl 0
  | stopped => exact Nat.zero_le _
  | next _ _ ih => exact Nat.succ_le_succ ih

theorem length_eq (h : Elements x n s l none s') : l.length = n := by
  generalize hr : (none : Option (Stop IoError)) = r at h
  induction h with
  | done => rfl
  | stopped => cases hr
  | next _ _ ih => exact congrArg Nat.succ (ih hr)

end Elements

variable {x : IoM σ α} {n : Nat} {s s' : σ} {l : List α} {r : Option (Stop IoError)}

theorem onWire_eq {t : τ} {o : Except (Stop IoError) β} {y : IoM σ β} (h : y s = (o, s')) :
    onWire y (s, t) = (o, s', t) := by
  rw [onWire, h]

/-- The slots while the elements `done` have been decoded, of `n` more. -/
def slotsOf (done : List α) (n : Nat) : Slots α := done.map some ++ List.replicate n none

theorem set_slotsOf (done : List α) (n : Nat) (a : α) :
    (slotsOf done (n + 1)).set done.length (some a) = slotsOf (done ++ [a]) n := by
  rw [slotsOf, List.set_append_right _ _ (by rw [List.length_map]), List.length_map, Nat.sub_self,
    List.replicate_succ, List.set_cons_zero, slotsOf, List.map_append, List.append_assoc]
  rfl

/-- **The loop.** The guard counts the slots that hold a value: the first ones. -/
theorem forM_initSlot (inside : (Slots α → Slots α) → γ → γ) (hold : Slots α → γ)
    (hinside : ∀ f slots, inside f (hold slots) = hold (f slots))
    (h : Elements x n s l r s') (done : List α) (log : List (SlotEvent α)) :
    (List.range' done.length n).forM (initSlot inside x)
        (s, ⟨⟨hold (slotsOf done n), done.length⟩, log⟩) =
      (Ended r, s', ⟨⟨hold (slotsOf (done ++ l) (n - l.length)), (done ++ l).length⟩,
        log ++ writes done.length l⟩) := by
  induction h generalizing done log with
  | done =>
      rw [List.append_nil, writes, List.append_nil]
      rfl
  | stopped hx =>
      rw [List.append_nil, writes, List.append_nil]
      exact Act.bind_error (Act.bind_error (onWire_eq hx))
  | @next n s0 s1 _ a l _ hx h ih =>
      have hslot : initSlot inside x done.length
          (s0, ⟨⟨hold (slotsOf done (n + 1)), done.length⟩, log⟩) =
            (.ok (), s1, ⟨⟨hold (slotsOf (done ++ [a]) n), done.length + 1⟩,
              log ++ [.write done.length a]⟩) := by
        refine (Act.bind_ok (onWire_eq hx)).trans ?_
        simp only [hinside, set_slotsOf]
      have hlen : (done ++ [a]).length = done.length + 1 := List.length_append
      have hnext := ih (done ++ [a]) (log ++ [.write done.length a])
      rw [hlen, List.append_assoc, List.append_assoc] at hnext
      refine (Act.bind_ok hslot).trans (hnext.trans ?_)
      rw [List.length_cons, Nat.add_sub_add_right]
      rfl

/-- **The guard.** It drops the slots that hold a value, once each. -/
theorem foldlM_dropInPlace (before : Slots α) (l : List α) (rest : Slots α)
    (log : List (SlotEvent α)) :
    (List.range' before.length l.length).foldlM dropInPlace (before ++ (l.map some ++ rest)) log =
      (.ok (before ++ (List.replicate l.length none ++ rest)),
        log ++ drops before.length l) := by
  induction l generalizing before log with
  | nil =>
      rw [drops, List.append_nil]
      rfl
  | cons a l ih =>
      have hdrop : dropInPlace (before ++ ((a :: l).map some ++ rest)) before.length log =
          (.ok (before ++ [none] ++ (l.map some ++ rest)),
            log ++ [.drop before.length a]) := by
        have hget : (before ++ ((a :: l).map some ++ rest))[before.length]? =
            some (some a) := by
          rw [List.getElem?_append_right (Nat.le_refl _), Nat.sub_self]
          rfl
        have hset : (before ++ ((a :: l).map some ++ rest)).set before.length none =
            before ++ [none] ++ (l.map some ++ rest) := by
          rw [List.set_append_right _ _ (Nat.le_refl _), Nat.sub_self, List.append_assoc]
          rfl
        simp only [dropInPlace, hget, hset]
      have hlen : (before ++ [none]).length = before.length + 1 := List.length_append
      have hnext := ih (before ++ [none]) (log ++ [.drop before.length a])
      rw [hlen, List.append_assoc log] at hnext
      refine (Act.bind_ok hdrop).trans (hnext.trans ?_)
      rw [List.length_cons, List.replicate_succ, List.append_assoc]
      rfl

theorem dropSlots_slotsOf (l : List α) (n : Nat) (log : List (SlotEvent α)) :
    dropSlots (slotsOf l n) l.length log = (.ok (), log ++ drops 0 l) := by
  have h := foldlM_dropInPlace [] l (List.replicate n none) log
  rw [dropSlots, List.range_eq_range']
  exact Act.bind_ok h

/-- An array and a vector of no elements are not dropped at all, which is the same. -/
theorem dropVec_slotsOf (l : List α) (n : Nat) (log : List (SlotEvent α)) :
    dropVec ⟨slotsOf l n, l.length⟩ log = (.ok (), log ++ drops 0 l) := by
  by_cases hpos : (slotsOf l n).length > 0
  · rw [dropVec, if_pos hpos]
    exact dropSlots_slotsOf l n log
  · have hnil : l = [] := by
      rw [slotsOf, List.length_append, List.length_map] at hpos
      exact List.length_eq_zero_iff.mp (by omega)
    rw [dropVec, if_neg hpos, hnil, drops, List.append_nil]
    rfl

theorem assumeInit_slotsOf (l : List α) :
    (assumeInit (slotsOf l 0) : IoM σ (List α)) = pure l := by
  have h : (slotsOf l 0).mapM (fun slot => slot) = some l := by
    rw [slotsOf, List.replicate_zero, List.append_nil]
    induction l with
    | nil => rfl
    | cons a l ih => simp [ih]
  rw [assumeInit, h]

/-- How a decoder leaves the wire and the slots: with all elements written and handed
out, or with those before the stop dropped again. Nothing is modelled after an access
out of bounds. -/
def settled (l : List α) (s' : σ) (log : List (SlotEvent α)) :
    Option (Stop IoError) → Except (Stop IoError) (List α) × σ × List (SlotEvent α)
  | none => (.ok l, s', log ++ writes 0 l)
  | some .ub => (.error .ub, s', log ++ writes 0 l)
  | some e => (.error e, s', log ++ writes 0 l ++ drops 0 l)

section

variable {drop : SafeInit γ → IoM (List (SlotEvent α)) Unit} {v w : SafeInit γ}
  {body : IoM (σ × Frame γ α) β} {log log' : List (SlotEvent α)} {f : Frame γ α}

theorem guarded_ok {b : β} (hbody : body (s, ⟨v, log⟩) = (.ok b, s', f))
    (hdrop : drop f.v f.log = (.ok (), log')) :
    guarded drop v body (s, log) = (.ok b, s', log') := by
  simp only [guarded, hbody, hdrop]

theorem guarded_ub (hbody : body (s, ⟨v, log⟩) = (.error .ub, s', f)) :
    guarded drop v body (s, log) = (.error .ub, s', f.log) := by
  simp only [guarded, hbody]

theorem guarded_error {e : Stop IoError} (hbody : body (s, ⟨v, log⟩) = (.error e, s', f))
    (hne : e ≠ .ub) (hdrop : drop f.v f.log = (.ok (), log')) :
    guarded drop v body (s, log) = (.error e, s', log') := by
  cases e with
  | ub => exact absurd rfl hne
  | err | panic => simp only [guarded, hbody, hdrop]

/-- A guard with the slots of `l` drops these, if it is not relieved of them at the end. -/
theorem guarded_settled {body : IoM (σ × Frame γ α) (List α)}
    {fill : IoM (σ × Frame γ α) Unit} (finish : IoM (σ × Frame γ α) (List α)) {v' : SafeInit γ}
    (hbody : body (s, ⟨v, log⟩) = (do
      fill
      finish) (s, ⟨v', log⟩))
    (hfill : fill (s, ⟨v', log⟩) = (Ended r, s', ⟨w, log ++ writes 0 l⟩))
    (hdrop : drop w (log ++ writes 0 l) = (.ok (), log ++ writes 0 l ++ drops 0 l))
    (hfinish : r = none → ∃ w', finish (s', ⟨w, log ++ writes 0 l⟩) =
      (.ok l, s', ⟨w', log ++ writes 0 l⟩) ∧
        drop w' (log ++ writes 0 l) = (.ok (), log ++ writes 0 l)) :
    guarded drop v body (s, log) = settled l s' log r := by
  cases r with
  | none =>
      obtain ⟨w', hw, htaken⟩ := hfinish rfl
      exact guarded_ok (hbody.trans ((Act.bind_ok hfill).trans hw)) htaken
  | some e =>
      have hstop := hbody.trans (Act.bind_error hfill)
      cases e with
      | ub => exact guarded_ub hstop
      | err | panic => exact guarded_error hstop (by rintro ⟨⟩) hdrop

end

/-- **An array under construction.** -/
theorem SafeInit.syncUnwiringArray_settled (h : Elements x n s l r s')
    (log : List (SlotEvent α)) :
    SafeInit.syncUnwiringArray x n (s, log) = settled l s' log r := by
  have hfill := forM_initSlot Option.map some (fun _ _ => rfl) h [] log
  rw [List.length_nil, ← List.range_eq_range', List.nil_append] at hfill
  refine guarded_settled takeArray ?_ hfill (dropSlots_slotsOf l _ _) ?_
  · have hn : (slotsOf ([] : List α) n).length = n := List.length_replicate
    show ((List.range (slotsOf ([] : List α) n).length).forM (initSlot Option.map x) >>=
      fun _ => takeArray) (s, _) = _
    rw [hn]
    rfl
  · rintro rfl
    refine ⟨⟨none, l.length⟩, ?_, rfl⟩
    rw [h.length_eq, Nat.sub_self]
    show (assumeInit (slotsOf l 0) : IoM (σ × Frame (Option (Slots α)) α) (List α)) _ = _
    rw [assumeInit_slotsOf]
    rfl

/-- **A vector under construction**, once its length is read. -/
theorem SafeInit.vec_settled (h : Elements x n s l r s') (log : List (SlotEvent α)) :
    guarded dropVec ⟨[], 0⟩ (do
      setLen n
      (List.range n).forM (initSlot (fun f => f) x)
      takeVec) (s, log) = settled l s' log r := by
  have hfill := forM_initSlot (fun f => f) (fun slots => slots) (fun _ _ => rfl) h [] log
  rw [List.length_nil, ← List.range_eq_range', List.nil_append] at hfill
  refine guarded_settled takeVec rfl hfill (dropVec_slotsOf l _ _) ?_
  rintro rfl
  refine ⟨⟨[], l.length⟩, ?_, rfl⟩
  rw [h.length_eq, Nat.sub_self]
  show (assumeInit (slotsOf l 0) : IoM (σ × Frame (Slots α) α) (List α)) _ = _
  rw [assumeInit_slotsOf]
  rfl

/-- **Failed decodes drop exactly what was built.** Up to `n` elements decode, or those
before one that stops. With all of them the slots are written once each, in order, and
handed out; with an error or a panic the slots written so far are dropped again, once
each, and there are no others. -/
theorem SafeInit.drops_exactly [RustType α] [Unwire σ] (x : IoM σ α) :
    (∀ N s log, ∃ l r s', Elements x N s l r s' ∧
      SafeInit.syncUnwiringArray x N (s, log) = settled l s' log r) ∧
    ∀ s log, match (Unwire.syncUnwireU64 : IoM σ U64) s with
      | (.error e, s') => SafeInit.syncUnwiringVec x (s, log) = (.error e, s', log)
      | (.ok len, s') =>
          if CapacityFits α len.toNat then
            ∃ l r s'', Elements x len.toNat s' l r s'' ∧
              SafeInit.syncUnwiringVec x (s, log) = settled l s'' log r
          else SafeInit.syncUnwiringVec x (s, log) = (.error .panic, s', log) := by
  constructor
  · intro N s log
    obtain ⟨l, r, s', h⟩ := Elements.total x N s
    exact ⟨l, r, s', h, syncUnwiringArray_settled h log⟩
  · intro s log
    rcases hlen : (Unwire.syncUnwireU64 : IoM σ U64) s with ⟨e | len, s'⟩
    · exact Act.bind_error (onWire_eq hlen)
    · have hrun : SafeInit.syncUnwiringVec x (s, log) = _ := Act.bind_ok (onWire_eq hlen)
      by_cases hfits : CapacityFits α len.toNat
      · obtain ⟨l, r, s'', h⟩ := Elements.total x len.toNat s'
        rw [if_pos hfits] at hrun
        simp only [if_pos hfits]
        exact ⟨l, r, s'', h, hrun.trans (vec_settled h log)⟩
      · rw [if_neg hfits] at hrun
        simp only [if_neg hfits]
        exact hrun

/-! ## The loops they come down to -/

theorem Elements.times_ok (h : Elements x n s l none s') :
    ∃ v, Act.times n x s = (.ok v, s') ∧ v.toList = l := by
  generalize hr : (none : Option (Stop IoError)) = r at h
  induction h with
  | done => exact ⟨List.Vector.nil, rfl, rfl⟩
  | stopped => cases hr
  | @next n _ _ _ a l _ hx _ ih =>
      obtain ⟨v, hv, hl⟩ := ih hr
      refine ⟨a ::ᵥ v, ?_, by rw [List.Vector.toList_cons, hl]⟩
      exact (Act.bind_ok hx).trans (Act.bind_ok hv)

theorem Elements.times_error {e : Stop IoError} (h : Elements x n s l (some e) s') :
    Act.times n x s = (.error e, s') := by
  generalize hr : some e = r at h
  induction h with
  | done => cases hr
  | stopped hx =>
      cases hr
      exact Act.bind_error hx
  | next hx _ ih => exact (Act.bind_ok hx).trans (Act.bind_error (ih hr))

/-- Outcome and wire are those of `n` calls in a row. -/
theorem settled_times (h : Elements x n s l r s') (log : List (SlotEvent α)) :
    ∃ log', settled l s' log r =
      ((Act.times n x s).1.map List.Vector.toList, (Act.times n x s).2, log') := by
  cases r with
  | none =>
      obtain ⟨v, hv, rfl⟩ := h.times_ok
      rw [hv]
      exact ⟨_, rfl⟩
  | some e =>
      rw [h.times_error]
      cases e <;> exact ⟨_, rfl⟩

section

variable [RustType α] [Unwiring α] [Unwire σ]

theorem safeInit_array_refines (N : Nat) (s : σ) (log : List (SlotEvent α)) :
    ∃ log', SafeInit.syncUnwiringArray (syncUnwiring : IoM σ α) N (s, log) =
      (((syncUnwiringArray : IoM σ (List.Vector α N)) s).1.map List.Vector.toList,
        ((syncUnwiringArray : IoM σ (List.Vector α N)) s).2, log') := by
  obtain ⟨l, r, s', h⟩ := Elements.total (syncUnwiring : IoM σ α) N s
  rw [SafeInit.syncUnwiringArray_settled h]
  exact settled_times h log

theorem safeInit_vec_refines (s : σ) (log : List (SlotEvent α)) :
    ∃ log', SafeInit.syncUnwiringVec (syncUnwiring : IoM σ α) (s, log) =
      (((syncUnwiringVec : IoM σ (Vec α)) s).1.map Vec.toList,
        ((syncUnwiringVec : IoM σ (Vec α)) s).2, log') := by
  rcases hlen : (Unwire.syncUnwireU64 : IoM σ U64) s with ⟨e | len, s'⟩
  · rw [show (syncUnwiringVec : IoM σ (Vec α)) s = _ from Act.bind_error hlen]
    exact ⟨log, Act.bind_error (onWire_eq hlen)⟩
  · rw [show (syncUnwiringVec : IoM σ (Vec α)) s = _ from Act.bind_ok hlen,
      show SafeInit.syncUnwiringVec (syncUnwiring : IoM σ α) (s, log) = _ from
        Act.bind_ok (onWire_eq hlen), collect]
    by_cases hfits : CapacityFits α len.toNat
    · obtain ⟨l, r, s'', h⟩ := Elements.total (syncUnwiring : IoM σ α) len.toNat s'
      obtain ⟨log', hlog'⟩ := settled_times h log
      rw [if_pos hfits, dif_pos hfits, SafeInit.vec_settled h, hlog']
      refine ⟨log', ?_⟩
      rcases htimes : Act.times len.toNat (syncUnwiring : IoM σ α) s' with ⟨e | data, t⟩
      · rw [Act.bind_error htimes]
        rfl
      · rw [Act.bind_ok htimes]
        rfl
    · rw [if_neg hfits, dif_neg hfits]
      exact ⟨log, rfl⟩

end

end

end WiringRs
