import WiringRs.FixedSize
import WiringRs.Lib.Decodes
import WiringRs.Unwiring

/-!
# The second encoder

`concat_array` writes a value into the first `FIXED_SIZE` bytes of a buffer. It is
implemented apart from `sync_wiring`, for every type of a fixed size, and the fields
of a `#[fixed]` group are wired by it. `WTy.fill` is what it makes of these bytes.

The two encoders differ at a unit struct, which is wired as 0 and copied as 1, and at
an enum with a field list, which is not copied at all.
-/

namespace WiringRs

open Wiring

/-! ## Parts of a buffer -/

/-- `[0; n]` -/
abbrev zeros (n : Nat) : Bytes := List.replicate n 0

theorem length_zeros {n : Nat} : (zeros n).length = n := List.length_replicate

theorem split_length {m n : Nat} {a : Bytes} (ha : a.length = m + n) :
    ∃ x y, a = x ++ y ∧ x.length = m ∧ y.length = n := by
  refine ⟨a.take m, a.drop m, (List.take_append_drop ..).symm, ?_, ?_⟩
  · rw [List.length_take]
    omega
  · rw [List.length_drop]
    omega

/-- The parts replace one stretch of the buffer after another. -/
def fillAll {ι : Type} (size : ι → Nat) (fill : ι → Bytes → Bytes) : List ι → Bytes → Bytes
  | [], _ => []
  | i :: l, a => fill i (a.take (size i)) ++ fillAll size fill l (a.drop (size i))

/-- `f` replaces the first `size` bytes `a` of a buffer by `fill a`. -/
def Replaces (size : Nat) (fill : Bytes → Bytes)
    (f : Bytes → Except (Stop IoError) Bytes) : Prop :=
  ∀ a rest, a.length = size → (fill a).length = size ∧ f (a ++ rest) = .ok (fill a ++ rest)

section

variable {ι : Type} {size : ι → Nat} {fill : ι → Bytes → Bytes}

theorem fillAll_append {i : ι} {l : List ι} {a b : Bytes} (ha : a.length = size i) :
    fillAll size fill (i :: l) (a ++ b) = fill i a ++ fillAll size fill l b := by
  rw [fillAll, List.take_left' ha, List.drop_left' ha]

/-- A buffer for a list of parts begins with the one of the first part. -/
theorem split_parts {i : ι} {l : List ι} {a : Bytes}
    (ha : a.length = ((i :: l).map size).sum) :
    ∃ x y, a = x ++ y ∧ x.length = size i ∧ y.length = (l.map size).sum := by
  rw [List.map_cons, List.sum_cons] at ha
  exact split_length ha

theorem length_fillAll {l : List ι}
    (h : ∀ i ∈ l, ∀ a, a.length = size i → (fill i a).length = size i) :
    ∀ a, a.length = (l.map size).sum → (fillAll size fill l a).length = (l.map size).sum := by
  induction l with
  | nil => exact fun _ _ => rfl
  | cons i l ih =>
      intro a ha
      obtain ⟨x, y, rfl, hx, hy⟩ := split_parts ha
      rw [fillAll_append hx, List.length_append, h i List.mem_cons_self x hx,
        ih (fun j hj => h j (List.mem_cons_of_mem _ hj)) y hy]
      rfl

/-- The parts fill a buffer with given bytes if each of them does. -/
theorem fillAll_eq_iff {g : ι → Bytes} {l : List ι}
    (hfill : ∀ i ∈ l, ∀ a, a.length = size i → (fill i a).length = size i)
    (hg : ∀ i ∈ l, (g i).length = size i) :
    (∀ a, a.length = (l.map size).sum → fillAll size fill l a = l.flatMap g) ↔
      ∀ i ∈ l, ∀ a, a.length = size i → fill i a = g i := by
  induction l with
  | nil => simp [fillAll]
  | cons i l ih =>
      have ih := ih (fun j hj => hfill j (List.mem_cons_of_mem _ hj))
        fun j hj => hg j (List.mem_cons_of_mem _ hj)
      rw [List.forall_mem_cons, ← ih]
      have hsplit (x y : Bytes) (hx : x.length = size i) :
          fillAll size fill (i :: l) (x ++ y) = (i :: l).flatMap g ↔
            fill i x = g i ∧ fillAll size fill l y = l.flatMap g := by
        rw [fillAll_append hx, List.flatMap_cons]
        refine ⟨fun h => List.append_inj h ?_, fun h => by rw [h.1, h.2]⟩
        rw [hfill i List.mem_cons_self x hx, hg i List.mem_cons_self]
      have hlen (x y : Bytes) (hx : x.length = size i) (hy : y.length = (l.map size).sum) :
          (x ++ y).length = ((i :: l).map size).sum := by
        rw [List.length_append, hx, hy, List.map_cons, List.sum_cons]
      constructor
      · intro h
        constructor
        · intro x hx
          exact ((hsplit x (zeros _) hx).mp (h _ (hlen x _ hx length_zeros))).1
        · intro y hy
          exact ((hsplit (zeros _) y length_zeros).mp (h _ (hlen _ y length_zeros hy))).2
      · rintro ⟨hi, hl⟩ a ha
        obtain ⟨x, y, rfl, hx, hy⟩ := split_parts ha
        exact (hsplit x y hx).mpr ⟨hi x hx, hl y hy⟩

end

namespace Replaces

variable {n : Nat} {fill : Bytes → Bytes} {f : Bytes → Except (Stop IoError) Bytes}

theorem copyPrefix {bytes : Bytes} (h : bytes.length = n) :
    Replaces n (fun _ => bytes) (WiringRs.copyPrefix bytes) := by
  intro a rest ha
  refine ⟨h, ?_⟩
  rw [WiringRs.copyPrefix, if_pos (by rw [List.length_append]; omega),
    List.drop_left' (ha.trans h.symm)]

theorem copyPrefixUnchecked {bytes : Bytes} (h : bytes.length = n) :
    Replaces n (fun _ => bytes) (WiringRs.copyPrefixUnchecked bytes) := by
  intro a rest ha
  refine ⟨h, ?_⟩
  rw [WiringRs.copyPrefixUnchecked, if_pos (by rw [List.length_append]; omega),
    List.drop_left' (ha.trans h.symm)]

theorem id (n : Nat) : Replaces n (fun a => a) fun buf => .ok buf :=
  fun _ _ ha => ⟨ha, rfl⟩

/-- On a part of the buffer, what lies around it stays. -/
theorem onRange (h : Replaces n fill f) (before a rest after : Bytes) {start stop : Nat}
    (ha : a.length = n) (hstart : before.length = start)
    (hstop : start + (a ++ rest).length = stop) :
    WiringRs.onRange start stop f (before ++ (a ++ rest) ++ after) =
      .ok (before ++ (fill a ++ rest) ++ after) := by
  have hlen : (before ++ (a ++ rest)).length = stop := by
    rw [List.length_append, hstart, hstop]
  have hle : start ≤ stop ∧ stop ≤ (before ++ (a ++ rest) ++ after).length := by
    rw [List.length_append, hlen]
    omega
  have hbefore : (before ++ (a ++ rest) ++ after).take start = before := by
    rw [List.append_assoc, List.take_left' hstart]
  rw [WiringRs.onRange, if_pos hle, hbefore, List.take_left' hlen, List.drop_left' hlen,
    List.drop_left' hstart, (h a rest ha).2]
  rfl

theorem onPart (h : Replaces n fill f) (before a after : Bytes) {start : Nat}
    (ha : a.length = n) (hstart : before.length = start) :
    WiringRs.onRange start (start + n) f (before ++ (a ++ after)) =
      .ok (before ++ (fill a ++ after)) := by
  have hrange := h.onRange before a [] after ha hstart rfl
  simp only [List.append_nil, ha, List.append_assoc] at hrange
  exact hrange

theorem onStart (h : Replaces n fill f) (a after : Bytes) (ha : a.length = n) :
    WiringRs.onRange 0 n f (a ++ after) = .ok (fill a ++ after) := by
  have hpart := h.onPart [] a after ha rfl
  rwa [List.length_nil, Nat.zero_add] at hpart

theorem onEnd (h : Replaces n fill f) (before a rest : Bytes) {start : Nat}
    (ha : a.length = n) (hstart : before.length = start) :
    WiringRs.onRange start (before ++ (a ++ rest)).length f (before ++ (a ++ rest)) =
      .ok (before ++ (fill a ++ rest)) := by
  have hstop : start + (a ++ rest).length = (before ++ (a ++ rest)).length := by
    rw [← hstart, ← List.length_append]
  have hrange := h.onRange before a rest [] ha hstart hstop
  rwa [List.append_nil, List.append_nil] at hrange

theorem onSplit {m : Nat} {fill' : Bytes → Bytes} {g : Bytes → Except (Stop IoError) Bytes}
    (hf : Replaces n fill f) (hg : Replaces m fill' g) (a b rest : Bytes)
    (ha : a.length = n) (hb : b.length = m) :
    WiringRs.onSplit n f g (a ++ b ++ rest) = .ok (fill a ++ fill' b ++ rest) := by
  have hle : n ≤ (a ++ b ++ rest).length := by
    rw [List.length_append, List.length_append]
    omega
  have hleft := (hf a [] ha).2
  rw [List.append_nil, List.append_nil] at hleft
  rw [WiringRs.onSplit, if_pos hle, List.append_assoc, List.take_left' ha, List.drop_left' ha,
    hleft]
  show (do
    let right ← g (b ++ rest)
    Except.ok (fill a ++ right)) = _
  rw [(hg b rest hb).2]
  exact congrArg Except.ok (List.append_assoc ..).symm

end Replaces

/-! ## What `concat_array` makes of a buffer -/

/-- What `concat_array` of a value leaves of the first `FIXED_SIZE` bytes. -/
def WTy.fill : {α : Type} → {w : Wiring α} → @WTy α w → α → Bytes → Bytes
  | _, _, WTy.prim _, n, _ => n.toBeBytes
  | _, _, WTy.usize, n, _ => lenBytes n.toNat
  | _, _, WTy.bool, b, _ => (boolU8 b).toBeBytes
  | _, _, WTy.unitStruct, _, _ => [1]
  | _, _, @WTy.array α _ T _, v, a => fillAll (fun _ => fixedSize α) T.fill v.toList a
  | _, _, @WTy.pair α _ _ _ T TT, p, a =>
      T.fill p.1 (a.take (fixedSize α)) ++ TT.fill p.2 (a.drop (fixedSize α))
  | _, _, @WTy.triple α β _ _ _ _ T TT TTT, p, a =>
      let b := a.drop (fixedSize α)
      T.fill p.fst (a.take (fixedSize α)) ++ (TT.fill p.snd (b.take (fixedSize β)) ++
        TTT.fill p.trd (b.drop (fixedSize β)))
  | _, _, @WTy.struct n _ ty _ T, s, a => fillAll (fun f => fixedSize (ty f))
      (fun f => (T f).fill (s.field f)) (List.finRange n) a
  | _, _, WTy.enum d _, e, a => if d.unit e.variant then e.idx.toBeBytes else a
  -- the trait's method, with a `FIXED_SIZE` of zero
  | _, _, _, _, a => a

theorem concatArrayFrom_replaces {α : Type} [Wiring α] {fill : α → Bytes → Bytes}
    (h : ∀ v, Replaces (fixedSize α) (fill v) (concatArray v)) (l : List α)
    (before a rest : Bytes) (ha : a.length = (l.map fun _ => fixedSize α).sum) :
    concatArrayFrom l before.length (before ++ (a ++ rest)) =
      .ok (before ++ (fillAll (fun _ => fixedSize α) fill l a ++ rest)) := by
  induction l generalizing before a with
  | nil =>
      obtain rfl := List.length_eq_zero_iff.mp ha
      rfl
  | cons v l ih =>
      obtain ⟨x, y, rfl, hx, hy⟩ := split_parts ha
      have hnext := ih (before ++ fill v x) y hy
      rw [List.length_append, (h v x [] hx).1, List.append_assoc] at hnext
      rw [concatArrayFrom, fillAll_append hx, List.append_assoc,
        (h v).onPart before x (y ++ rest) hx rfl]
      exact hnext.trans (by simp only [List.append_assoc])

theorem concatFields_replaces {n : Nat} {d : StructDecl n} {ty : Fin n → Type}
    [∀ i, Wiring (ty i)] {s : Struct d ty} {fill : Fin n → Bytes → Bytes}
    (h : ∀ f, Replaces (fixedSize (ty f)) (fill f) (concatArray (s.field f)))
    (fs : List (Fin n)) : Replaces (sizes ty fs)
      (fillAll (fun f => fixedSize (ty f)) fill fs) (concatFields s fs) := by
  induction fs with
  | nil =>
      intro a rest ha
      obtain rfl := List.length_eq_zero_iff.mp ha
      exact ⟨rfl, rfl⟩
  | cons f fs ih =>
      intro a rest ha
      obtain ⟨x, y, rfl, hx, hy⟩ := split_parts ha
      rw [fillAll_append hx]
      refine ⟨?_, (h f).onSplit ih x y rest hx hy⟩
      rw [List.length_append, (h f x [] hx).1, (ih y [] hy).1]
      rfl

theorem prim_replaces {t : PrimTy} (n : Prim t) :
    Replaces t.size (fun _ => n.toBeBytes) (concatArray n) := by
  cases t with
  | f32 => exact .copyPrefixUnchecked n.length_toBeBytes
  | _ => exact .copyPrefix n.length_toBeBytes

theorem WTy.replaces : {α : Type} → {w : Wiring α} → (T : @WTy α w) → (v : α) →
    Replaces (fixedSize α) (T.fill v) (concatArray v)
  | _, _, WTy.prim t, n => by
      have h := prim_replaces n
      cases t <;> exact h
  | _, _, WTy.usize, _ => .copyPrefix (length_lenBytes _)
  | _, _, WTy.bool, b => .copyPrefix (boolU8 b).length_toBeBytes
  | _, _, WTy.unitStruct, _ => .copyPrefix rfl
  | _, _, WTy.char, _ | _, _, WTy.unit, _ | _, _, WTy.string, _ | _, _, WTy.str, _
  | _, _, WTy.url _, _ | _, _, WTy.slice _, _ | _, _, WTy.arrayRef _ _, _
  | _, _, WTy.vec _, _ | _, _, WTy.boxSlice _, _ | _, _, WTy.box _, _ | _, _, WTy.arc _, _
  | _, _, WTy.hashSet _, _ | _, _, WTy.option _, _ | _, _, WTy.connectInfo _, _
  | _, _, WTy.wireInfo _, _ | _, _, WTy.wiringEvent _, _ => .id 0
  | _, _, @WTy.array α _ T N, v => by
      intro a rest ha
      have hsum : (v.toList.map fun _ => fixedSize α).sum = fixedSize α * N := by
        rw [List.map_const', List.sum_replicate_nat, v.toList_length, Nat.mul_comm]
      have ha' := ha.trans hsum.symm
      refine ⟨?_, concatArrayFrom_replaces T.replaces v.toList [] a rest ha'⟩
      refine (length_fillAll (fun u _ b hb => ?_) a ha').trans hsum
      exact (T.replaces u b [] hb).1
  | _, _, @WTy.pair α β _ _ T TT, p => by
      intro a rest ha
      obtain ⟨x, y, rfl, hx, hy⟩ := split_length ha
      rw [fill, List.take_left' hx, List.drop_left' hx, List.length_append]
      refine ⟨?_, (T.replaces p.1).onSplit (TT.replaces p.2) x y rest hx hy⟩
      rw [(T.replaces p.1 x [] hx).1, (TT.replaces p.2 y [] hy).1]
      rfl
  | _, _, @WTy.triple α β γ _ _ _ T TT TTT, p => by
      intro a rest ha
      rw [show fixedSize (Triple α β γ) = fixedSize α + (fixedSize β + fixedSize γ) from
        Nat.add_assoc ..] at ha
      obtain ⟨x, yz, rfl, hx, hyz⟩ := split_length ha
      obtain ⟨y, z, rfl, hy, hz⟩ := split_length hyz
      have hx' := (T.replaces p.fst x [] hx).1
      have hy' := (TT.replaces p.snd y [] hy).1
      have hz' := (TTT.replaces p.trd z [] hz).1
      have hfill : (WTy.triple T TT TTT).fill p (x ++ (y ++ z)) =
          T.fill p.fst x ++ (TT.fill p.snd y ++ TTT.fill p.trd z) := by
        rw [fill, List.take_left' hx, List.drop_left' hx, List.take_left' hy,
          List.drop_left' hy]
      rw [hfill]
      constructor
      · simp only [List.length_append, hx', hy', hz']
        exact (Nat.add_assoc ..).symm
      · have h1 := (T.replaces p.fst).onStart x (y ++ (z ++ rest)) hx
        have h2 := (TT.replaces p.snd).onPart (T.fill p.fst x) y (z ++ rest) hy hx'
        have h3 := (TTT.replaces p.trd).onEnd (T.fill p.fst x ++ TT.fill p.snd y) z rest hz
          (List.length_append.trans (congrArg₂ (· + ·) hx' hy'))
        simp only [List.append_assoc] at h3 ⊢
        show (onRange 0 (fixedSize α) (concatArray p.fst) _ >>= _) = _
        rw [h1]
        show (onRange (fixedSize α) (fixedSize α + fixedSize β) (concatArray p.snd) _ >>= _) = _
        rw [h2]
        exact h3
  | _, _, WTy.struct _ T, s =>
      concatFields_replaces (fun f => (T f).replaces (s.field f)) (List.finRange _)
  | _, _, WTy.enum d T, e => by
      show Replaces d.tag.size (fun a => if d.unit e.variant then e.idx.toBeBytes else a)
        fun buf => if d.unit e.variant then concatArray e.idx buf else .ok buf
      cases d.unit e.variant with
      | true => exact prim_replaces e.idx
      | false => exact .id _

/-! ## Types that are copied -/

/-- What `concat_array` leaves does not depend on what was there: there is no enum
variant with a field list. -/
def WTy.Overwrites : {α : Type} → {w : Wiring α} → @WTy α w → Prop
  | _, _, WTy.array T N => N = 0 ∨ T.Overwrites
  | _, _, WTy.pair T TT => T.Overwrites ∧ TT.Overwrites
  | _, _, WTy.triple T TT TTT => T.Overwrites ∧ TT.Overwrites ∧ TTT.Overwrites
  | _, _, WTy.struct _ T => ∀ f, (T f).Overwrites
  | _, _, WTy.enum d _ => ∀ v, d.unit v = true
  | _, _, _ => True

/-- `concat_array` leaves what `sync_wiring` writes: besides, there is no unit struct,
but as a field of a `#[fixed]` group, which is copied in both. -/
def WTy.Copied : {α : Type} → {w : Wiring α} → @WTy α w → Prop
  | _, _, WTy.unitStruct => False
  | _, _, WTy.array T N => N = 0 ∨ T.Copied
  | _, _, WTy.pair T TT => T.Copied ∧ TT.Copied
  | _, _, WTy.triple T TT TTT => T.Copied ∧ TT.Copied ∧ TTT.Copied
  | _, _, WTy.struct d T => ∀ f, (.field f ∈ d.calls.syncWiringCalls → (T f).Copied) ∧
      (.field f ∉ d.calls.syncWiringCalls → (T f).Overwrites)
  | _, _, WTy.enum d _ => ∀ v, d.unit v = true
  | _, _, _ => True

/-- `concat_array` of every value leaves `g` of it. -/
abbrev WTy.Leaves {α : Type} [Wiring α] (T : WTy α) (g : α → Bytes) : Prop :=
  ∀ v a, a.length = fixedSize α → T.fill v a = g v

/-- What `concat_array` leaves of a zeroed buffer. -/
abbrev WTy.blank {α : Type} [Wiring α] (T : WTy α) (v : α) : Bytes :=
  T.fill v (zeros (fixedSize α))

theorem WTy.length_blank {α : Type} [Wiring α] (T : WTy α) (v : α) :
    (T.blank v).length = fixedSize α := (T.replaces v _ [] length_zeros).1

theorem fillAll_zeros {ι : Type} {size : ι → Nat} {fill : ι → Bytes → Bytes} (l : List ι) :
    fillAll size fill l (zeros (l.map size).sum) =
      l.flatMap fun i => fill i (zeros (size i)) := by
  induction l with
  | nil => rfl
  | cons i l ih =>
      rw [List.map_cons, List.sum_cons, zeros, List.replicate_add, fillAll_append length_zeros,
        ih, List.flatMap_cons]

theorem forall_array_iff {α : Type} {P : α → Prop} {N : Nat} :
    (∀ a : List.Vector α N, ∀ v ∈ a.toList, P v) ↔ N = 0 ∨ ∀ v, P v := by
  constructor
  · intro h
    refine (Nat.eq_zero_or_pos N).imp_right fun hN v => ?_
    refine h (.replicate N v) v ?_
    rw [show (List.Vector.replicate N v).toList = List.replicate N v from rfl]
    exact List.mem_replicate.mpr ⟨Nat.ne_of_gt hN, rfl⟩
  · rintro (rfl | hv) a v hmem
    · rw [List.eq_nil_of_length_eq_zero a.toList_length] at hmem
      cases hmem
    · exact hv v

section

variable {α β : Type} [Wiring α] [Wiring β] {T : WTy α} {TT : WTy β}

theorem array_leaves_iff (N : Nat) {g : α → Bytes} (hg : ∀ v, (g v).length = fixedSize α) :
    (WTy.array T N).Leaves (fun a => a.toList.flatMap g) ↔ N = 0 ∨ T.Leaves g := by
  rw [← forall_array_iff]
  refine forall_congr' fun v => ?_
  rw [← fillAll_eq_iff (fun u _ a ha => (T.replaces u a [] ha).1) fun u _ => hg u]
  have hsum : (v.toList.map fun _ => fixedSize α).sum = fixedSize α * N := by
    rw [List.map_const', List.sum_replicate_nat, v.toList_length, Nat.mul_comm]
  rw [hsum]
  rfl

theorem pair_leaves_iff {g : α → Bytes} {g' : β → Bytes}
    (hg : ∀ v, (g v).length = fixedSize α) :
    (WTy.pair T TT).Leaves (fun p => g p.1 ++ g' p.2) ↔ T.Leaves g ∧ TT.Leaves g' := by
  have hsplit (p : α × β) (x y : Bytes) (hx : x.length = fixedSize α) :
      (WTy.pair T TT).fill p (x ++ y) = g p.1 ++ g' p.2 ↔
        T.fill p.1 x = g p.1 ∧ TT.fill p.2 y = g' p.2 := by
    rw [WTy.fill, List.take_left' hx, List.drop_left' hx]
    refine ⟨fun h => List.append_inj h ?_, fun h => by rw [h.1, h.2]⟩
    rw [(T.replaces p.1 x [] hx).1, hg]
  have hlen (x y : Bytes) (hx : x.length = fixedSize α) (hy : y.length = fixedSize β) :
      (x ++ y).length = fixedSize (α × β) := by
    rw [List.length_append, hx, hy]
    rfl
  obtain ⟨a⟩ := T.nonempty
  obtain ⟨b⟩ := TT.nonempty
  constructor
  · intro h
    constructor
    · intro v x hx
      exact ((hsplit (v, b) x (zeros _) hx).mp (h _ _ (hlen x _ hx length_zeros))).1
    · intro v y hy
      exact ((hsplit (a, v) (zeros _) y length_zeros).mp
        (h _ _ (hlen _ y length_zeros hy))).2
  · rintro ⟨h, h'⟩ p buf hbuf
    obtain ⟨x, y, rfl, hx, hy⟩ := split_length hbuf
    exact (hsplit p x y hx).mpr ⟨h _ _ hx, h' _ _ hy⟩

/-- A triple is a pair in a pair, as far as its bytes go. -/
theorem triple_leaves_iff {γ : Type} [Wiring γ] {TTT : WTy γ} {g : α → Bytes}
    {g' : β → Bytes} {g'' : γ → Bytes} (hg : ∀ v, (g v).length = fixedSize α)
    (hg' : ∀ v, (g' v).length = fixedSize β) :
    (WTy.triple T TT TTT).Leaves (fun p => g p.fst ++ (g' p.snd ++ g'' p.trd)) ↔
      T.Leaves g ∧ TT.Leaves g' ∧ TTT.Leaves g'' := by
  rw [← pair_leaves_iff hg', ← pair_leaves_iff hg]
  have hsize : fixedSize (Triple α β γ) = fixedSize (α × β × γ) := Nat.add_assoc ..
  constructor
  · exact fun h p a ha => h ⟨p.1, p.2.1, p.2.2⟩ a (ha.trans hsize.symm)
  · exact fun h p a ha => h (p.fst, p.snd, p.trd) a (ha.trans hsize)

end

theorem struct_leaves_iff {n : Nat} {d : StructDecl n} {ty : Fin n → Type}
    [∀ i, Wiring (ty i)] {T : ∀ i, WTy (ty i)} {g : ∀ f, ty f → Bytes}
    (hg : ∀ f v, (g f v).length = fixedSize (ty f)) :
    (WTy.struct d T).Leaves (fun s => (List.finRange n).flatMap fun f => g f (s.field f)) ↔
      ∀ f, (T f).Leaves (g f) := by
  have hiff (s : Struct d ty) := fillAll_eq_iff (l := List.finRange n)
    (g := fun f => g f (s.field f)) (fun f _ a ha => ((T f).replaces (s.field f) a [] ha).1)
    fun f _ => hg f (s.field f)
  constructor
  · intro h f v
    let fields : ∀ i, ty i := Function.update (fun i => (T i).nonempty.some) f v
    have hf : ∀ a, a.length = fixedSize (ty f) → (T f).fill (fields f) a = g f (fields f) :=
      (hiff ⟨fields⟩).mp (h ⟨fields⟩) f (List.mem_finRange f)
    rwa [show fields f = v from Function.update_self f v _] at hf
  · exact fun h s => (hiff s).mpr fun f _ => h f (s.field f)

/-- An enum leaves what was there of a value whose variant has a field list. -/
theorem unit_of_leaves {d : EnumDecl} {ty : (v : Fin d.variants) → Fin (d.arity v) → Type}
    [∀ v i, Wiring (ty v i)] {T : ∀ v i, WTy (ty v i)} {g : Enum d ty → Bytes}
    (h : (WTy.enum d T).Leaves g) (v : Fin d.variants) : d.unit v = true := by
  refine Bool.eq_true_of_not_eq_false fun hv => ?_
  let e : Enum d ty := ⟨v, fun i => (T v i).nonempty.some⟩
  have hfill (a : Bytes) (ha : a.length = d.tag.size) : a = g e := by
    have heq := h e a ha
    rwa [WTy.fill, if_neg (by rw [show d.unit e.variant = false from hv]; simp)] at heq
  have hpos : 0 < d.tag.size := by cases d.tag <;> decide
  have hsame := (hfill (zeros _) length_zeros).trans
    (hfill (List.replicate d.tag.size 1) List.length_replicate).symm
  rw [zeros, List.replicate_inj] at hsame
  rcases hsame.2 with h0 | h0
  · omega
  · exact absurd h0 (by decide)

/-- A type with the trait's method leaves no bytes at all. -/
theorem leaves_of_zero {α : Type} [Wiring α] {T : WTy α} {g : α → Bytes}
    (hfixed : fixedSize α = 0) (hfill : ∀ v, T.fill v [] = []) (hg : ∀ v, (g v).length = 0) :
    T.Leaves g := by
  intro v a ha
  obtain rfl := List.length_eq_zero_iff.mp (ha.trans hfixed)
  rw [hfill, List.length_eq_zero_iff.mp (hg v)]

theorem WTy.overwrites_iff : {α : Type} → {w : Wiring α} → (T : @WTy α w) →
    (T.Overwrites ↔ T.Leaves T.blank)
  | _, _, WTy.prim _ | _, _, WTy.usize | _, _, WTy.bool | _, _, WTy.unitStruct =>
      iff_of_true trivial fun _ _ _ => rfl
  | _, _, WTy.char | _, _, WTy.unit | _, _, WTy.string | _, _, WTy.str | _, _, WTy.url _
  | _, _, WTy.slice _ | _, _, WTy.arrayRef _ _ | _, _, WTy.vec _ | _, _, WTy.boxSlice _
  | _, _, WTy.box _ | _, _, WTy.arc _ | _, _, WTy.hashSet _ | _, _, WTy.option _
  | _, _, WTy.connectInfo _ | _, _, WTy.wireInfo _ | _, _, WTy.wiringEvent _ =>
      iff_of_true trivial (leaves_of_zero rfl (fun _ => rfl) fun _ => rfl)
  | _, _, @WTy.array α _ T N => by
      have hblank (a : List.Vector α N) :
          (WTy.array T N).blank a = a.toList.flatMap T.blank := by
        have hsum : (a.toList.map fun _ => fixedSize α).sum = fixedSize α * N := by
          rw [List.map_const', List.sum_replicate_nat, a.toList_length, Nat.mul_comm]
        have hzeros := @fillAll_zeros α (fun _ => fixedSize α) T.fill a.toList
        rwa [hsum] at hzeros
      rw [show (WTy.array T N).blank = fun a => _ from funext hblank,
        array_leaves_iff N T.length_blank, ← T.overwrites_iff]
      exact Iff.rfl
  | _, _, @WTy.pair α β _ _ T TT => by
      have hblank (p : α × β) : (WTy.pair T TT).blank p = T.blank p.1 ++ TT.blank p.2 := by
        show (WTy.pair T TT).fill p (zeros (fixedSize α + fixedSize β)) = _
        rw [fill, zeros, List.replicate_add, List.take_left' length_zeros,
          List.drop_left' length_zeros]
      rw [show (WTy.pair T TT).blank = fun p => _ from funext hblank,
        pair_leaves_iff T.length_blank, ← T.overwrites_iff, ← TT.overwrites_iff]
      exact Iff.rfl
  | _, _, @WTy.triple α β γ _ _ _ T TT TTT => by
      have hblank (p : Triple α β γ) : (WTy.triple T TT TTT).blank p =
          T.blank p.fst ++ (TT.blank p.snd ++ TTT.blank p.trd) := by
        show (WTy.triple T TT TTT).fill p (zeros (fixedSize α + fixedSize β + fixedSize γ)) = _
        rw [fill, zeros, Nat.add_assoc, List.replicate_add, List.replicate_add,
          List.take_left' length_zeros, List.drop_left' length_zeros,
          List.take_left' length_zeros, List.drop_left' length_zeros]
      rw [show (WTy.triple T TT TTT).blank = fun p => _ from funext hblank,
        triple_leaves_iff T.length_blank TT.length_blank, ← T.overwrites_iff,
        ← TT.overwrites_iff, ← TTT.overwrites_iff]
      exact Iff.rfl
  | _, _, @WTy.struct n d ty _ T => by
      have hblank (s : Struct d ty) : (WTy.struct d T).blank s =
          (List.finRange n).flatMap fun f => (T f).blank (s.field f) :=
        fillAll_zeros (List.finRange n)
      rw [show (WTy.struct d T).blank = fun s => _ from funext hblank,
        struct_leaves_iff fun f => (T f).length_blank]
      exact forall_congr' fun f => (T f).overwrites_iff
  | _, _, WTy.enum d T => by
      constructor
      · intro h e a _
        rw [blank, fill, fill, if_pos (h e.variant), if_pos (h e.variant)]
      · exact unit_of_leaves

/-! ## Groups -/

section

variable {n : Nat} {d : StructDecl n} {ty : Fin n → Type} [∀ i, Wiring (ty i)]
  {T : ∀ i, WTy (ty i)}

/-- The middle fields of a group are copied behind one another. -/
theorem foldlM_mid_eq (s : Struct d ty) (fs : List (Fin n)) (before a rest : Bytes)
    (ha : a.length = sizes ty fs) :
    (fs.map ConcatCall.mid).foldlM (concatCall s) (before ++ (a ++ rest), before.length) =
      .ok (before ++ (fillAll (fun f => fixedSize (ty f)) (fun f => (T f).fill (s.field f))
        fs a ++ rest), before.length + sizes ty fs) := by
  induction fs generalizing before a with
  | nil =>
      obtain rfl := List.length_eq_zero_iff.mp ha
      rfl
  | cons f fs ih =>
      obtain ⟨x, y, rfl, hx, hy⟩ := split_parts ha
      have hpart := ((T f).replaces (s.field f)).onPart before x (y ++ rest) hx rfl
      have hlen := ((T f).replaces (s.field f) x [] hx).1
      have hnext := ih (before ++ (T f).fill (s.field f) x) y hy
      rw [List.length_append, hlen, List.append_assoc] at hnext
      have hcall : concatCall s (before ++ (x ++ y ++ rest), before.length) (.mid f) =
          .ok (before ++ ((T f).fill (s.field f) x ++ (y ++ rest)),
            before.length + fixedSize (ty f)) := by
        rw [concatCall, List.append_assoc x, hpart]
        rfl
      rw [List.map_cons, foldlM_cons_ok hcall, hnext, fillAll_append hx, sizes, sizes,
        List.map_cons, List.sum_cons, Nat.add_assoc]
      simp only [List.append_assoc]

/-- A group writes what its fields leave of a zeroed buffer. -/
theorem groupContents_eq_blank (s : Struct d ty) {fs : List (Fin n)}
    {calls : List (ConcatCall (Fin n))} (hc : (Call.group fs calls).Filled) :
    groupContents s fs calls = fs.flatMap fun f => (T f).blank (s.field f) := by
  obtain ⟨f, mids, g, hfs, rfl⟩ := hc
  let blank f := (T f).blank (s.field f)
  have hlen f : (blank f).length = fixedSize (ty f) := (T f).length_blank (s.field f)
  have hmids : (mids.flatMap blank).length = sizes ty mids := by
    rw [← fillAll_zeros mids]
    exact length_fillAll (fun f _ a ha => ((T f).replaces (s.field f) a [] ha).1) _ length_zeros
  have hzeros : zeros (sizes ty fs) = zeros (fixedSize (ty f)) ++
      (zeros (sizes ty mids) ++ zeros (fixedSize (ty g))) := by
    have hsizes : sizes ty fs = fixedSize (ty f) + (sizes ty mids + fixedSize (ty g)) := by
      simp [hfs, sizes]
    rw [hsizes, zeros, List.replicate_add, List.replicate_add]
  -- the first field is handed the whole buffer
  have hstart : concatCall s (zeros (sizes ty fs), 0) (.start f) =
      .ok (blank f ++ (zeros (sizes ty mids) ++ zeros (fixedSize (ty g))),
        (blank f).length) := by
    rw [concatCall, hzeros, ((T f).replaces (s.field f) _ _ length_zeros).2, hlen]
    rfl
  have hfold : (mids.map .mid).foldlM (concatCall s) (blank f ++ (zeros (sizes ty mids) ++
      zeros (fixedSize (ty g))), (blank f).length) =
        .ok (blank f ++ mids.flatMap blank ++ zeros (fixedSize (ty g)),
          (blank f).length + sizes ty mids) := by
    have hmid := foldlM_mid_eq (T := T) s mids (blank f) _ (zeros (fixedSize (ty g))) length_zeros
    rw [fillAll_zeros mids] at hmid
    exact hmid.trans (by rw [List.append_assoc])
  have hbefore : (blank f ++ mids.flatMap blank).length =
      (blank f).length + sizes ty mids := by
    rw [List.length_append, hmids]
  have hlast : concatCall s (blank f ++ mids.flatMap blank ++ zeros (fixedSize (ty g)),
      (blank f).length + sizes ty mids) (.last g) =
        .ok (blank f ++ mids.flatMap blank ++ blank g,
          (blank f).length + sizes ty mids + fixedSize (ty g)) := by
    have hpart := ((T g).replaces (s.field g)).onPart _ (zeros _) [] length_zeros hbefore
    rw [List.append_nil, List.append_nil] at hpart
    rw [concatCall, hpart]
    rfl
  have hall : (ConcatCall.start f :: (mids.map .mid ++ [ConcatCall.last g])).foldlM
      (concatCall s) (zeros (sizes ty fs), 0) =
        .ok (blank f ++ mids.flatMap blank ++ blank g,
          (blank f).length + sizes ty mids + fixedSize (ty g)) := by
    rw [foldlM_cons_ok hstart, foldlM_append_ok hfold, foldlM_cons_ok hlast]
    rfl
  have hfull : (blank f ++ mids.flatMap blank ++ blank g).length =
      (blank f).length + sizes ty mids + fixedSize (ty g) := by
    rw [List.length_append, hbefore, hlen g]
  refine groupContents_eq ?_
  show (do
    let p ← List.foldlM (concatCall s) (zeros (sizes ty fs), 0) _
    Except.ok (p.1.take p.2)) = _
  rw [List.cons_append, hall]
  show Except.ok (List.take _ _) = _
  rw [List.take_of_length_le (Nat.le_of_eq hfull), hfs]
  simp [blank]

end

/-- The field is copied into the buffer of a group. -/
def StructDecl.Grouped {n : Nat} (d : StructDecl n) (f : Fin n) : Prop :=
  ∃ fs calls, Call.group fs calls ∈ d.calls.syncWiringCalls ∧ f ∈ fs

/-- Every field is wired once, alone or in a group. -/
theorem StructDecl.grouped_iff {n : Nat} {d : StructDecl n} {f : Fin n} :
    d.Grouped f ↔ .field f ∉ d.calls.syncWiringCalls := by
  obtain ⟨-, -, hcov⟩ := d.covers
  have hnodup : (d.calls.syncWiringCalls.flatMap Call.fields).Nodup := by
    rw [hcov.fields_eq]
    exact List.nodup_finRange n
  constructor
  · rintro ⟨fs, calls, hgroup, hf⟩ halone
    have hsymm : Std.Symm (Function.onFun List.Disjoint (Call.fields (ι := Fin n))) :=
      ⟨fun _ _ h => List.Disjoint.symm h⟩
    have hdisjoint := (List.nodup_flatMap.mp hnodup).2.forall halone hgroup (by rintro ⟨⟩)
    exact hdisjoint List.mem_cons_self hf
  · intro halone
    have hmem := List.mem_finRange f
    rw [← hcov.fields_eq, List.mem_flatMap] at hmem
    obtain ⟨c, hc, hf⟩ := hmem
    cases c with
    | field g =>
        obtain rfl := List.mem_singleton.mp hf
        exact absurd hc halone
    | group fs calls => exact ⟨fs, calls, hc, hf⟩

section

variable {n : Nat} {d : StructDecl n} {ty : Fin n → Type} [∀ i, Wiring (ty i)]
  {T : ∀ i, WTy (ty i)}

/-- `sync_wiring` writes the fields in declaration order, those in groups as
`concat_array` leaves them. -/
theorem struct_encode_eq (s : Struct d ty) {g : Fin n → Bytes}
    (halone : ∀ f, .field f ∈ d.calls.syncWiringCalls → g f = (T f).encode false (s.field f))
    (hgrouped : ∀ f, d.Grouped f → g f = (T f).blank (s.field f)) :
    (WTy.struct d T).encode false s = (List.finRange n).flatMap g := by
  obtain ⟨-, -, hcov⟩ := d.covers
  rw [← hcov.fields_eq, List.flatMap_assoc]
  refine (struct_format (T := T) false s).trans (List.flatMap_congr fun c hc => ?_)
  cases c with
  | field f =>
      rw [Call.fields, List.flatMap_singleton, halone f hc]
      rfl
  | group fs calls =>
      rw [Call.fields, List.flatMap_congr fun f hf => hgrouped f ⟨fs, calls, hc, hf⟩]
      exact groupContents_eq_blank s (hcov.filled _ hc)

/-- A struct of constant size is copied if its fields are, those in groups as they
are left there. -/
theorem struct_copied_iff (hconst : (WTy.struct d T).ConstSize)
    (hcopied : ∀ f, (T f).ConstSize → ((T f).Copied ↔ (T f).Leaves ((T f).encode false))) :
    (WTy.struct d T).Copied ↔ (WTy.struct d T).Leaves ((WTy.struct d T).encode false) := by
  classical
  let g (f : Fin n) (v : ty f) : Bytes :=
    if .field f ∈ d.calls.syncWiringCalls then (T f).encode false v else (T f).blank v
  have hg f v : (g f v).length = fixedSize (ty f) := by
    by_cases halone : .field f ∈ d.calls.syncWiringCalls
    · simp only [g, halone, if_true]
      exact (T f).constSize_iff.mp (hconst f halone) v
    · simp only [g, halone, if_false]
      exact (T f).length_blank v
  have hencode : (WTy.struct d T).encode false =
      fun s : Struct d ty => (List.finRange n).flatMap fun f => g f (s.field f) := by
    refine funext fun s => struct_encode_eq s ?_ ?_
    · intro f halone
      simp only [g, halone, if_true]
    · intro f hgrouped
      simp only [g, StructDecl.grouped_iff.mp hgrouped, if_false]
  rw [hencode, struct_leaves_iff hg]
  refine forall_congr' fun f => ?_
  by_cases halone : .field f ∈ d.calls.syncWiringCalls
  · simp only [halone, not_true_eq_false, false_imp_iff, true_imp_iff, and_true]
    rw [hcopied f (hconst f halone)]
    simp only [g, halone, if_true]
  · simp only [halone, not_false_iff, false_imp_iff, true_imp_iff, true_and]
    rw [(T f).overwrites_iff]
    simp only [g, halone, if_false]

end

/-- **`Copied` decides whether `concat_array` leaves what `sync_wiring` writes.** -/
theorem WTy.copied_iff : {α : Type} → {w : Wiring α} → (T : @WTy α w) → T.ConstSize →
    (T.Copied ↔ T.Leaves (T.encode false))
  | _, _, WTy.prim _, _ | _, _, WTy.usize, _ | _, _, WTy.bool, _ =>
      iff_of_true trivial fun _ _ _ => rfl
  | _, _, WTy.unitStruct, _ => by
      refine iff_of_false id fun h => ?_
      cases h ⟨⟩ [0] rfl
  | _, _, WTy.arrayRef T N, h => iff_of_true trivial
      (leaves_of_zero rfl (fun _ => rfl) ((WTy.arrayRef T N).constSize_iff.mp h))
  | _, _, WTy.box T, h => iff_of_true trivial
      (leaves_of_zero rfl (fun _ => rfl) ((WTy.box T).constSize_iff.mp h))
  | _, _, WTy.arc T, h => iff_of_true trivial
      (leaves_of_zero rfl (fun _ => rfl) ((WTy.arc T).constSize_iff.mp h))
  | _, _, WTy.array T N, h => by
      rcases h with rfl | h
      · refine iff_of_true (Or.inl rfl) fun a buf _ => ?_
        rw [fill, encode, List.eq_nil_of_length_eq_zero a.toList_length]
        rfl
      · rw [Copied, T.copied_iff h]
        exact (array_leaves_iff N (T.constSize_iff.mp h)).symm
  | _, _, WTy.pair T TT, h => by
      rw [Copied, T.copied_iff h.1, TT.copied_iff h.2]
      exact (pair_leaves_iff (T.constSize_iff.mp h.1)).symm
  | _, _, WTy.triple T TT TTT, h => by
      have hencode : (WTy.triple T TT TTT).encode false = fun p => T.encode false p.fst ++
          (TT.encode false p.snd ++ TTT.encode false p.trd) :=
        funext fun p => List.append_assoc ..
      rw [Copied, T.copied_iff h.1, TT.copied_iff h.2.1, TTT.copied_iff h.2.2, hencode]
      exact (triple_leaves_iff (T.constSize_iff.mp h.1) (TT.constSize_iff.mp h.2.1)).symm
  | _, _, WTy.struct d T, h => struct_copied_iff h fun f hf => (T f).copied_iff hf
  | _, _, WTy.enum d T, _ => by
      refine ⟨fun hunit e a _ => ?_, unit_of_leaves⟩
      have hfields : List.finRange (d.arity e.variant) = [] := by
        rw [← List.length_eq_zero_iff, List.length_finRange]
        exact d.unit_arity _ (hunit _)
      rw [fill, if_pos (hunit _), encode, hfields, List.flatMap_nil, List.append_nil]

/-! ## Transparent groups -/

/-- What `sync_wiring` of a value writes. -/
def syncBytes {α : Type} [Wiring α] (v : α) : Bytes := (syncWiring v ([] : Bytes)).2

theorem WTy.syncBytes_eq {α : Type} [Wiring α] (T : WTy α) (v : α) :
    syncBytes v = T.encode false v :=
  congrArg Prod.snd ((T.encoder.syncWiring_emits v).run [])

/-- The groups of a struct do not change its synchronous encoding. -/
structure GroupsTransparent {n : Nat} (d : StructDecl n) (ty : Fin n → Type)
    [∀ i, Wiring (ty i)] [∀ i, RustType (ty i)] [∀ i, Unwiring (ty i)]
    [RustType (Struct d ty)] : Prop where
  /-- The fields' own encodings are written, in declaration order. -/
  syncWiring_eq : ∀ s : Struct d ty, syncWiring s ([] : Bytes) =
    (.ok (), (List.finRange n).flatMap fun f => syncBytes (s.field f))
  /-- The derived decoder reads the struct where the fields' decoders read them. -/
  reads : ∀ s : Struct d ty,
    (∀ f, Decodes (syncUnwiring : IoM Bytes (ty f)) (syncBytes (s.field f))
      fun v => v = s.field f) →
    Decodes (syncUnwiring : IoM Bytes (Struct d ty)) (syncBytes s) fun v => v = s
  concatArray_eq : ∀ f, d.Grouped f → ∀ (v : ty f) buf, fixedSize (ty f) ≤ buf.length →
    concatArray v buf = .ok (syncBytes v ++ buf.drop (fixedSize (ty f)))

section

variable {n : Nat} {d : StructDecl n} {ty : Fin n → Type} [∀ i, Wiring (ty i)]
  {T : ∀ i, WTy (ty i)}

theorem concatArray_eq_iff {α : Type} [Wiring α] (T : WTy α) :
    (∀ (v : α) buf, fixedSize α ≤ buf.length →
      concatArray v buf = .ok (syncBytes v ++ buf.drop (fixedSize α))) ↔
      T.Leaves (T.encode false) := by
  constructor
  · intro h v a ha
    have hfill := (T.replaces v a [] ha).2
    rw [h v _ (by rw [List.append_nil, ha]), List.append_nil, List.append_nil,
      List.drop_of_length_le (Nat.le_of_eq ha), List.append_nil, T.syncBytes_eq] at hfill
    exact (Except.ok.inj hfill).symm
  · intro h v buf hle
    have hlen : (buf.take (fixedSize α)).length = fixedSize α := by
      rw [List.length_take, Nat.min_eq_left hle]
    have hfill := (T.replaces v _ (buf.drop (fixedSize α)) hlen).2
    rwa [List.take_append_drop, h v _ hlen, ← T.syncBytes_eq] at hfill

/-- **When groups are transparent.** For fields in groups whose values take
`FIXED_SIZE` bytes: exactly where each of these fields is copied. -/
theorem groupsTransparent_iff [∀ i, RustType (ty i)] [∀ i, Unwiring (ty i)]
    [RustType (Struct d ty)] (T : ∀ i, WTy (ty i))
    (hsize : ∀ f, d.Grouped f → ∀ v : ty f, (syncBytes v).length = fixedSize (ty f)) :
    GroupsTransparent d ty ↔ ∀ f, d.Grouped f → (T f).Copied := by
  have hcopied f (hf : d.Grouped f) : (T f).Copied ↔ (T f).Leaves ((T f).encode false) := by
    refine (T f).copied_iff ((T f).constSize_iff.mpr fun v => ?_)
    rw [← (T f).syncBytes_eq]
    exact hsize f hf v
  constructor
  · exact fun h f hf => (hcopied f hf).mpr ((concatArray_eq_iff (T f)).mp (h.concatArray_eq f hf))
  · intro h
    have hleaves f (hf : d.Grouped f) := (hcopied f hf).mp (h f hf)
    have hencode (s : Struct d ty) : (WTy.struct d T).encode false s =
        (List.finRange n).flatMap fun f => syncBytes (s.field f) := by
      refine struct_encode_eq s (fun f _ => (T f).syncBytes_eq _) fun f hf => ?_
      rw [(T f).syncBytes_eq]
      exact (hleaves f hf _ _ length_zeros).symm
    refine ⟨fun s => ?_, fun s hfields => ?_, fun f hf => ?_⟩
    · rw [← hencode]
      exact ((WTy.struct d T).encoder.syncWiring_emits s).run []
    · rw [(WTy.struct d T).syncBytes_eq, hencode]
      exact (Decodes.sequence hfields).map fun field hfield => by
        rw [funext hfield]
    · exact (concatArray_eq_iff (T f)).mpr (hleaves f hf)

end

/-- `struct Marks { #[fixed] first: Mark, second: Mark }` -/
def marksDecl : StructDecl 2 :=
  let group := [Call.group [⟨0, Nat.two_pos⟩, Fin.last 1]
    [.start ⟨0, Nat.two_pos⟩, .last (Fin.last 1)]]
  { checks := true
    attrs i := if i.val = 0 then [.path] else []
    pos := Nat.two_pos
    calls := {
      fieldCount := 2
      wiringCalls := group
      wiringRefCalls := group
      syncWiringCalls := group }
    expanded := rfl
    closed := rfl }

theorem groupsTransparent_u32 :
    letI : RustType (Struct marksDecl fun _ => U32) := ⟨8, "marks::Marks"⟩
    GroupsTransparent marksDecl fun _ => U32 := by
  let : RustType (Struct marksDecl fun _ => U32) := ⟨8, "marks::Marks"⟩
  refine (groupsTransparent_iff (fun _ => WTy.prim .u32) fun _ _ v => ?_).mpr fun _ _ => trivial
  rw [(WTy.prim .u32).syncBytes_eq]
  exact v.length_toBeBytes

/-- Two unit structs in a group are written as `[1, 1]`, where each of them alone is
written as `[0]`. -/
theorem marks_not_groupsTransparent :
    letI : RustType UnitStruct := ⟨0, "marks::Mark"⟩
    letI : RustType (Struct marksDecl fun _ => UnitStruct) := ⟨0, "marks::Marks"⟩
    (∀ v : UnitStruct, (syncBytes v).length = fixedSize UnitStruct) ∧
      ¬ GroupsTransparent marksDecl fun _ => UnitStruct := by
  let : RustType UnitStruct := ⟨0, "marks::Mark"⟩
  let : RustType (Struct marksDecl fun _ => UnitStruct) := ⟨0, "marks::Marks"⟩
  refine ⟨fun v => by cases v; rfl, fun h => ?_⟩
  cases h.syncWiring_eq ⟨fun _ => ⟨⟩⟩

end WiringRs
