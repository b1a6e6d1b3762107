import WiringRs.Encoders

/-!
# Fixed sizes

`sync_wiring_slice` reserves `len * FIXED_SIZE` bytes for a type that is not
`MIXED` and then writes the elements without looking at the capacity. That is
right when every value of the type takes exactly `FIXED_SIZE` bytes, which
`ConstSize` decides from the way the type is built.

`MIXED` is not that decision: for a pair it asks the first component twice and
the second one never.
-/

namespace WiringRs

open Wiring

/-- Every value of the type takes exactly `FIXED_SIZE` bytes. -/
def WTy.ConstSize : {α : Type} → {w : Wiring α} → @WTy α w → Prop
  | _, _, WTy.prim _ | _, _, WTy.usize | _, _, WTy.bool | _, _, WTy.unitStruct =>
      True
  | _, _, WTy.char | _, _, WTy.unit | _, _, WTy.string | _, _, WTy.str
  | _, _, WTy.url _ | _, _, WTy.slice _ | _, _, WTy.vec _ | _, _, WTy.boxSlice _
  | _, _, WTy.hashSet _ | _, _, WTy.option _ | _, _, WTy.connectInfo _
  | _, _, WTy.wireInfo _ | _, _, WTy.wiringEvent _ => False
  | _, _, @WTy.array α _ T N => N = 0 ∨ T.ConstSize
  -- `FIXED_SIZE` keeps its default of zero here
  | _, _, @WTy.arrayRef α _ T N => N = 0 ∨ T.ConstSize ∧ fixedSize α = 0
  | _, _, @WTy.box α _ T | _, _, @WTy.arc α _ T =>
      T.ConstSize ∧ fixedSize α = 0
  | _, _, WTy.pair T TT => T.ConstSize ∧ TT.ConstSize
  | _, _, WTy.triple T TT TTT => T.ConstSize ∧ TT.ConstSize ∧ TTT.ConstSize
  -- a field in a `#[fixed]` group takes its `FIXED_SIZE` whatever its type
  | _, _, WTy.struct d T =>
      ∀ f, .field f ∈ d.calls.syncWiringCalls → (T f).ConstSize
  -- the tag alone is `FIXED_SIZE`
  | _, _, @WTy.enum _ ty _ T =>
      ∀ v i, (T v i).ConstSize ∧ fixedSize (ty v i) = 0

/-! ## Every type has a value -/

theorem WTy.nonempty : {α : Type} → {w : Wiring α} → @WTy α w → Nonempty α
  | _, _, WTy.prim _ => ⟨.ofNat 0⟩
  | _, _, WTy.usize => ⟨⟨0, by decide⟩⟩
  | _, _, WTy.char => ⟨'a'⟩
  | _, _, WTy.unit => ⟨()⟩
  | _, _, WTy.bool => ⟨true⟩
  | _, _, WTy.string => ⟨emptyString⟩
  | _, _, WTy.str => ⟨⟨emptyString⟩⟩
  | _, _, WTy.url U => U.nonempty.map Url.mk
  | _, _, WTy.slice _ => ⟨⟨Vec.empty⟩⟩
  | _, _, WTy.vec _ => ⟨Vec.empty⟩
  | _, _, WTy.boxSlice _ => ⟨⟨Vec.empty⟩⟩
  | _, _, WTy.hashSet _ => ⟨⟨[], List.nodup_nil, .inl rfl⟩⟩
  | _, _, WTy.option _ => ⟨none⟩
  | _, _, WTy.arrayRef T N => T.nonempty.map fun v => ⟨.replicate N v⟩
  | _, _, WTy.array T N => T.nonempty.map (.replicate N)
  | _, _, WTy.box T => T.nonempty.map Box.mk
  | _, _, WTy.arc T => T.nonempty.map Arc.mk
  | _, _, WTy.pair T TT => T.nonempty.elim fun a => TT.nonempty.map fun b => (a, b)
  | _, _, WTy.triple T TT TTT => T.nonempty.elim fun a =>
      TT.nonempty.elim fun b => TTT.nonempty.map fun c => ⟨a, b, c⟩
  | _, _, WTy.connectInfo _ => ⟨.tcpStream emptyString⟩
  | _, _, WTy.wireInfo _ => ⟨⟨.ofNat 0, .ofNat 0, .tcpStream emptyString⟩⟩
  | _, _, WTy.wiringEvent _ => ⟨.drop (.ofNat 0) true⟩
  | _, _, WTy.struct _ T => ⟨⟨fun i => (T i).nonempty.some⟩⟩
  | _, _, WTy.unitStruct => ⟨⟨⟩⟩
  | _, _, WTy.enum d T => ⟨⟨⟨0, d.pos⟩, fun i => (T _ i).nonempty.some⟩⟩

/-! ## Sums of lengths

No part is shorter than its share, so a whole of the right length has no part
that is longer. -/

theorem length_flatMap_eq_iff {α : Type} {l : List α} {g : α → Bytes} {k : α → Nat}
    (h : ∀ a ∈ l, k a ≤ (g a).length) :
    (l.flatMap g).length = (l.map k).sum ↔ ∀ a ∈ l, (g a).length = k a := by
  induction l with
  | nil => simp
  | cons a l ih =>
      have ha := h a (List.mem_cons_self ..)
      have hl := fun b hb => h b (List.mem_cons_of_mem _ hb)
      have hge := sum_le_length_flatMap hl
      rw [List.flatMap_cons, List.length_append, List.map_cons, List.sum_cons,
        List.forall_mem_cons, ← ih hl]
      omega

theorem append_length_eq_iff {a b : Bytes} {m n : Nat} (ha : m ≤ a.length)
    (hb : n ≤ b.length) :
    (a ++ b).length = m + n ↔ a.length = m ∧ b.length = n := by
  rw [List.length_append]; omega

/-- The elements of every array take `k` bytes each. -/
theorem array_length_eq_iff {α : Type} {e : α → Bytes} {k : Nat}
    (h : ∀ v, k ≤ (e v).length) (N : Nat) :
    (∀ a : List.Vector α N, (a.toList.flatMap e).length = k * N) ↔
      N = 0 ∨ ∀ v, (e v).length = k := by
  have hiff : ∀ a : List.Vector α N, (a.toList.flatMap e).length = k * N ↔
      ∀ v ∈ a.toList, (e v).length = k := by
    intro a
    rw [← length_flatMap_eq_iff (k := fun _ => k) fun v _ => h v,
      List.map_const', List.sum_replicate_nat, a.toList_length, Nat.mul_comm]
  simp only [hiff]
  constructor
  · intro ha
    refine Nat.eq_zero_or_pos N |>.imp_right fun hN v => ?_
    refine ha (.replicate N v) v ?_
    rw [show (List.Vector.replicate N v).toList = List.replicate N v from rfl]
    exact List.mem_replicate.mpr ⟨Nat.ne_of_gt hN, rfl⟩
  · rintro (rfl | hv) a v hmem
    · exact absurd hmem (by
        rw [List.eq_nil_of_length_eq_zero a.toList_length]; exact List.not_mem_nil)
    · exact hv v

/-! ## `ConstSize` decides the size -/

/-- Every value of the type takes `FIXED_SIZE` bytes. -/
abbrev Constant {α : Type} [Wiring α] (T : WTy α) : Prop :=
  ∀ v, (T.encode false v).length = fixedSize α

section

variable {α β γ : Type} [Wiring α] [Wiring β] [Wiring γ] {T : WTy α}
  {TT : WTy β} {TTT : WTy γ}

/-- A type with a positive encoding and the default `FIXED_SIZE` of zero. -/
theorem not_constant (hz : fixedSize α = 0)
    (hpos : ∀ v, 0 < (T.encode false v).length) : False ↔ Constant T := by
  refine ⟨False.elim, ?_⟩
  intro h
  obtain ⟨v⟩ := T.nonempty
  have := h v
  have := hpos v
  omega

theorem constant_zero_iff (hT : T.ConstSize ↔ Constant T) :
    T.ConstSize ∧ fixedSize α = 0 ↔ ∀ v, (T.encode false v).length = 0 := by
  rw [hT]
  constructor
  · rintro ⟨h, hz⟩ v
    rw [h v, hz]
  · intro h
    obtain ⟨v⟩ := T.nonempty
    have hz : fixedSize α = 0 := by
      have := T.encoder.fixedSize_le v
      have hv : (T.format false v).length = 0 := h v
      omega
    exact ⟨fun v => (h v).trans hz.symm, hz⟩

theorem prefixed_pos (b : Bytes) : 0 < (prefixed b).length := by
  rw [prefixed, List.length_append, length_lenBytes]; omega

theorem lenBytes_append_pos (n : Nat) (b : Bytes) :
    0 < (lenBytes n ++ b).length := by
  rw [List.length_append, length_lenBytes]; omega

theorem pair_constSize (h : T.ConstSize ↔ Constant T)
    (hh : TT.ConstSize ↔ Constant TT) :
    (WTy.pair T TT).ConstSize ↔ Constant (WTy.pair T TT) := by
  show T.ConstSize ∧ TT.ConstSize ↔ ∀ p : α × β,
    (T.encode false p.1 ++ TT.encode false p.2).length = fixedSize α + fixedSize β
  have hiff := fun p : α × β =>
    append_length_eq_iff (T.encoder.fixedSize_le p.1) (TT.encoder.fixedSize_le p.2)
  rw [h, hh]
  obtain ⟨a⟩ := T.nonempty
  obtain ⟨b⟩ := TT.nonempty
  constructor
  · rintro ⟨h1, h2⟩ p
    exact (hiff p).mpr ⟨h1 _, h2 _⟩
  · intro hp
    exact ⟨fun v => ((hiff (v, b)).mp (hp _)).1, fun v => ((hiff (a, v)).mp (hp _)).2⟩

theorem triple_constSize (h : T.ConstSize ↔ Constant T)
    (hh : TT.ConstSize ↔ Constant TT) (hhh : TTT.ConstSize ↔ Constant TTT) :
    (WTy.triple T TT TTT).ConstSize ↔ Constant (WTy.triple T TT TTT) := by
  have hp := pair_constSize (pair_constSize h hh) hhh
  have hassoc : (WTy.triple T TT TTT).ConstSize ↔
      (WTy.pair (WTy.pair T TT) TTT).ConstSize := and_assoc.symm
  rw [hassoc, hp]
  exact ⟨fun hc p => hc ((p.fst, p.snd), p.trd),
    fun hc p => hc ⟨p.1.1, p.1.2, p.2⟩⟩

theorem box_constSize (h : T.ConstSize ↔ Constant T) :
    (WTy.box T).ConstSize ↔ Constant (WTy.box T) :=
  (constant_zero_iff h).trans ⟨fun hv b => hv b.inner, fun hb v => hb ⟨v⟩⟩

theorem arc_constSize (h : T.ConstSize ↔ Constant T) :
    (WTy.arc T).ConstSize ↔ Constant (WTy.arc T) :=
  (constant_zero_iff h).trans ⟨fun hv b => hv b.inner, fun hb v => hb ⟨v⟩⟩

theorem array_constSize (N : Nat) (h : T.ConstSize ↔ Constant T) :
    (WTy.array T N).ConstSize ↔ Constant (WTy.array T N) := by
  show N = 0 ∨ T.ConstSize ↔ ∀ a : List.Vector α N,
    (a.toList.flatMap (T.encode false)).length = fixedSize α * N
  rw [array_length_eq_iff T.encoder.fixedSize_le, h]

theorem arrayRef_constSize (N : Nat) (h : T.ConstSize ↔ Constant T) :
    (WTy.arrayRef T N).ConstSize ↔ Constant (WTy.arrayRef T N) := by
  have hz := array_length_eq_iff (e := T.encode false) (fun _ => Nat.zero_le _) N
  show N = 0 ∨ T.ConstSize ∧ fixedSize α = 0 ↔ ∀ a : ArrayRef α N,
    (a.array.toList.flatMap (T.encode false)).length = 0
  rw [constant_zero_iff h, ← hz, Nat.zero_mul]
  exact ⟨fun ha a => ha a.array, fun ha a => ha ⟨a⟩⟩

end

theorem struct_constSize {n : Nat} {d : StructDecl n} {ty : Fin n → Type}
    [∀ i, Wiring (ty i)] {T : ∀ i, WTy (ty i)}
    (h : ∀ i, (T i).ConstSize ↔ Constant (T i)) :
    (WTy.struct d T).ConstSize ↔ Constant (WTy.struct d T) := by
  obtain ⟨-, -, hcov⟩ := d.covers
  have henc := fun i => (T i).encoder
  have hiff : ∀ s : Struct d ty, ((WTy.struct d T).encode false s).length
      = fixedSize (Struct d ty) ↔ ∀ c ∈ d.calls.syncWiringCalls,
        (callBytes s (fun f => (T f).format false (s.field f)) id c).length
          = sizes ty c.fields := by
    intro s
    have hsize : fixedSize (Struct d ty)
        = (d.calls.syncWiringCalls.map fun c => sizes ty c.fields).sum := by
      rw [← sizes_flatMap, hcov.fields_eq]; rfl
    rw [hsize, ← length_flatMap_eq_iff fun c hc =>
      sizes_le_callBytes henc s (hcov.filled c hc)]
    exact Eq.congr_left (congrArg List.length (struct_format false s))
  constructor
  · intro hc s
    refine (hiff s).mpr fun c hmem => ?_
    cases c with
    | field f => exact (h f).mp (hc f hmem) (s.field f)
    | group fs calls => exact length_groupContents henc s (hcov.filled _ hmem)
  · intro hs f hmem
    refine (h f).mpr fun v => ?_
    let fields : ∀ i, ty i := Function.update (fun i => (T i).nonempty.some) f v
    have hf : ((T f).encode false (fields f)).length = fixedSize (ty f) :=
      (hiff ⟨fields⟩).mp (hs _) _ hmem
    rwa [show fields f = v from Function.update_self f v _] at hf

theorem enum_constSize {d : EnumDecl}
    {ty : (v : Fin d.variants) → Fin (d.arity v) → Type}
    [∀ v i, Wiring (ty v i)] {T : ∀ v i, WTy (ty v i)}
    (h : ∀ v i, (T v i).ConstSize ↔ Constant (T v i)) :
    (WTy.enum d T).ConstSize ↔ Constant (WTy.enum d T) := by
  have hiff : ∀ e : Enum d ty, ((WTy.enum d T).encode false e).length
      = fixedSize (Enum d ty) ↔
        ∀ i, ((T e.variant i).encode false (e.field i)).length = 0 := by
    intro e
    show (e.idx.toBeBytes ++ _).length = d.tag.size ↔ _
    have hsum := length_flatMap_eq_iff (l := List.finRange (d.arity e.variant))
      (g := fun i => (T e.variant i).encode false (e.field i)) (k := fun _ => 0)
      fun _ _ => Nat.zero_le _
    rw [List.map_const', List.sum_replicate_nat, Nat.mul_zero] at hsum
    rw [List.length_append, e.idx.length_toBeBytes]
    refine ⟨fun heq i => hsum.mp (by omega) i (List.mem_finRange i), ?_⟩
    intro hi
    have := hsum.mpr fun i _ => hi i
    omega
  show (∀ v i, (T v i).ConstSize ∧ fixedSize (ty v i) = 0) ↔ _
  simp only [constant_zero_iff (h _ _)]
  constructor
  · exact fun hv e => (hiff e).mpr fun i => hv _ i _
  · intro he v i x
    let fields : ∀ j, ty v j := Function.update (fun j => (T v j).nonempty.some) i x
    have hi : ((T v i).encode false (fields i)).length = 0 :=
      (hiff ⟨v, fields⟩).mp (he _) i
    rwa [show fields i = x from Function.update_self i x _] at hi

/-- **`ConstSize` decides the size.** -/
theorem WTy.constSize_iff : {α : Type} → {w : Wiring α} → (T : @WTy α w) →
    (T.ConstSize ↔ Constant T)
  | _, _, WTy.prim t => iff_of_true trivial fun n =>
      n.length_toBeBytes.trans (by cases t <;> rfl)
  | _, _, WTy.usize => iff_of_true trivial fun _ => length_lenBytes _
  | _, _, WTy.bool => iff_of_true trivial fun b => (boolU8 b).length_toBeBytes
  | _, _, WTy.unitStruct => iff_of_true trivial fun _ => rfl
  | _, _, WTy.char => not_constant rfl fun c =>
      Nat.lt_of_lt_of_eq (by decide) (charU32 c).length_toBeBytes.symm
  | _, _, WTy.unit => not_constant rfl fun _ => Nat.zero_lt_one
  | _, _, WTy.string => not_constant rfl fun _ => prefixed_pos _
  | _, _, WTy.str => not_constant rfl fun _ => prefixed_pos _
  | _, _, WTy.url _ => not_constant rfl fun _ => prefixed_pos _
  | _, _, WTy.slice _ => not_constant rfl fun _ => lenBytes_append_pos _ _
  | _, _, WTy.vec _ => not_constant rfl fun _ => lenBytes_append_pos _ _
  | _, _, WTy.boxSlice _ => not_constant rfl fun _ => lenBytes_append_pos _ _
  | _, _, WTy.hashSet _ => not_constant rfl fun _ => lenBytes_append_pos _ _
  | _, _, WTy.option _ => not_constant rfl fun
      | none => Nat.zero_lt_one
      | some _ => Nat.succ_pos _
  | _, _, WTy.connectInfo _ => not_constant rfl fun
      | .tcpStream _ => Nat.succ_pos _
      | .url _ => Nat.succ_pos _
  | _, _, WTy.wireInfo _ => not_constant rfl fun w => by
      show 0 < (w.wireId.toBeBytes ++ _ ++ _).length
      rw [List.length_append, List.length_append, w.wireId.length_toBeBytes,
        PrimTy.size]
      omega
  | _, _, WTy.wiringEvent _ => not_constant rfl fun
      | .event _ => Nat.succ_pos _
      | .message _ _ _ => Nat.succ_pos _
      | .drop _ _ => Nat.succ_pos _
  | _, _, WTy.array T N => array_constSize N T.constSize_iff
  | _, _, WTy.arrayRef T N => arrayRef_constSize N T.constSize_iff
  | _, _, WTy.box T => box_constSize T.constSize_iff
  | _, _, WTy.arc T => arc_constSize T.constSize_iff
  | _, _, WTy.pair T TT => pair_constSize T.constSize_iff TT.constSize_iff
  | _, _, WTy.triple T TT TTT =>
      triple_constSize T.constSize_iff TT.constSize_iff TTT.constSize_iff
  | _, _, WTy.struct _ T => struct_constSize fun i => (T i).constSize_iff
  | _, _, WTy.enum _ T => enum_constSize fun v i => (T v i).constSize_iff

/-! ## The unchecked slice encoder -/

/-- The slice encoder is the trait's, or that of `u8`, which only makes checked
writes. -/
theorem syncWiringSlice_cases {α : Type} [Wiring α] (T : WTy α) {σ : Type} [Wire σ]
    (l : List α) : (syncWiringSlice l : IoM σ Unit) = (do
      lenSyncWiring l.length
      if mixed α then l.forM syncWiring
      else do
        let add ← Act.lift (usizeMul (Wire.overflowChecks σ) l.length (fixedSize α))
        Wire.reserveCapacity add
        Unchecked.run (l.forM syncWiring)) ∨
    ∃ b, (syncWiringSlice l : IoM σ Unit) = (do
      lenSyncWiring l.length
      Wire.syncWireAll true b) := by
  cases T with
  | prim t =>
      cases t with
      | u8 => exact Or.inr ⟨_, rfl⟩
      | _ => exact Or.inl rfl
  | _ => exact Or.inl rfl

theorem length_slice {α : Type} [Wiring α] {T : WTy α} (h : Constant T) (l : List α) :
    (l.flatMap (T.encode false)).length = l.length * fixedSize α := by
  have := length_flatMap_eq_iff (l := l) (g := T.encode false)
    (k := fun _ => fixedSize α) fun v _ => T.encoder.fixedSize_le v
  rw [List.map_const', List.sum_replicate_nat] at this
  exact this.mpr fun v _ => h v

/-- The product `len * FIXED_SIZE` is not wrapped, or to so much that no vector has
the room for it behind a length prefix. -/
def ReservesAll (checks : Bool) (len size : Nat) : Prop :=
  checks = true ∨ len * size ≤ usizeMax ∨ isizeMax < 8 + len * size % 2 ^ 64

instance {checks : Bool} {len size : Nat} : Decidable (ReservesAll checks len size) :=
  inferInstanceAs (Decidable (_ ∨ _ ∨ _))

/-- What can be reserved is enough. -/
theorem reservesAll_iff {checks : Bool} {len size : Nat} : ReservesAll checks len size ↔
    ∀ add, usizeMul checks len size = .ok add → 8 + add ≤ isizeMax → len * size ≤ add := by
  rw [ReservesAll, usizeMul]
  by_cases hle : len * size ≤ usizeMax
  · rw [if_pos hle]
    refine iff_of_true (.inr (.inl hle)) fun add hadd _ => ?_
    rw [← Except.ok.inj hadd]
  · cases checks with
    | true =>
        rw [if_neg hle, if_pos rfl]
        refine iff_of_true (.inl rfl) fun add hadd _ => ?_
        cases hadd
    | false =>
        have hlt : len * size % 2 ^ 64 < len * size := by
          rw [usizeMax] at hle
          omega
        rw [if_neg hle, if_neg Bool.false_ne_true]
        constructor
        · rintro (hc | hle' | hgt) add hadd hroom
          · cases hc
          · exact absurd hle' hle
          · rw [← Except.ok.inj hadd] at hroom
            omega
        · intro h
          refine .inr (.inr (Nat.lt_of_not_le fun hroom => ?_))
          exact Nat.not_le.mpr hlt (h _ rfl hroom)

theorem usizeMul_inBounds {σ : Type} (checks : Bool) (a b : Nat) (s : σ) :
    (Act.lift (usizeMul checks a b) : IoM σ Nat).InBounds s := by
  rw [Act.InBounds, Act.lift_apply, usizeMul]
  split_ifs <;> (intro h; cases h)

/-- Elements of `FIXED_SIZE` bytes stay within the reserved capacity. -/
theorem syncWiringSlice_inBounds {α : Type} [Wiring α] {T : WTy α}
    (hm : mixed α = false) (h : Constant T) {checks : Bool} {grow : Nat → Nat → Nat}
    (w : VecWire checks grow) {l : List α}
    (hall : ReservesAll checks l.length (fixedSize α)) :
    (syncWiringSlice l).InBounds w := by
  rcases syncWiringSlice_cases (σ := VecWire checks grow) T l with heq | ⟨b, heq⟩
  · rw [heq, hm]
    refine .bind (VecWire.extendFromSlice_inBounds _ w) fun _ w1 hprefix => ?_
    have hlen : 8 ≤ w1.bytes.length := by
      rw [VecWire.extendFromSlice_bytes hprefix, List.length_append, Prim.length_toBeBytes,
        PrimTy.size]
      omega
    refine .bind (usizeMul_inBounds _ _ _ w1) fun add w2 hlift => ?_
    obtain ⟨hadd, rfl⟩ := Prod.mk.inj hlift
    refine .bind (VecWire.reserve_inBounds add w1) fun _ w3 hres => ?_
    rcases VecWire.reserve_cases add w1 with hpanic | ⟨w3', hok, hbytes, hroom⟩
    · cases hpanic.symm.trans hres
    · cases hok.symm.trans hres
      have hfits : w3.bytes.length + add ≤ isizeMax := Nat.le_trans hroom w3.fits
      rw [hbytes] at hfits
      have hle : (l.flatMap (T.encode false)).length ≤ add := by
        rw [length_slice h]
        exact reservesAll_iff.mp hall add hadd (by omega)
      exact (Unchecked.run_emits (Emits.forM fun v _ =>
        T.encoder.syncWiring_emits v)).inBounds (Sink.room_mono hle hroom)
  · rw [heq]
    exact .bind (VecWire.extendFromSlice_inBounds _ w) fun _ w1 _ =>
      VecWire.extendFromSlice_inBounds b w1

/-- The type's values take `FIXED_SIZE` bytes each, and its slice encoder, compiled
with or without overflow checks, writes the slice within the capacity of a
`Vec<u8>`. -/
structure ExactlySized (checks : Bool) {α : Type} [RustType α] [Wiring α]
    (s : Slice α) : Prop where
  syncWiring_length : ∀ v : α, ∃ b, syncWiring v ([] : Bytes) = (.ok (), b) ∧
    b.length = fixedSize α
  /-- What is reserved behind the length prefix, unless that panics, is enough for
  the elements. -/
  reserved : ∀ add out, usizeMul checks s.vec.toList.length (fixedSize α) = .ok add →
    8 + add ≤ isizeMax → s.vec.toList.forM syncWiring ([] : Bytes) = (.ok (), out) →
    out.length ≤ add
  slice_inBounds : ∀ (grow : Nat → Nat → Nat) (w : VecWire checks grow),
    (syncWiringSlice s.vec.toList).InBounds w

theorem slice_run {α : Type} [Wiring α] (T : WTy α) (l : List α) :
    l.forM syncWiring ([] : Bytes) = (.ok (), l.flatMap (T.encode false)) :=
  (Emits.forM fun v _ => T.encoder.syncWiring_emits v).run []

theorem ExactlySized.constant {checks : Bool} {α : Type} [RustType α] [Wiring α]
    {s : Slice α} (h : ExactlySized checks s) (T : WTy α) : Constant T := by
  intro v
  obtain ⟨b, hb, hl⟩ := h.syncWiring_length v
  rw [(T.encoder.syncWiring_emits v).run []] at hb
  exact (congrArg (fun p => p.2.length) hb).trans hl

theorem ExactlySized.reservesAll {checks : Bool} {α : Type} [RustType α] [Wiring α]
    {s : Slice α} (h : ExactlySized checks s) (T : WTy α) :
    ReservesAll checks s.vec.toList.length (fixedSize α) := by
  refine reservesAll_iff.mpr fun add hadd hroom => ?_
  rw [← length_slice (h.constant T)]
  exact h.reserved add _ hadd hroom (slice_run T _)

/-- **A slice of a type that is not `MIXED` is written as reserved exactly when
`ConstSize` holds of the type and the product that is reserved is the true one.**
With overflow checks it always is; without, it may also be wrapped to more than any
vector holds, and reserving that panics. -/
theorem exactlySized_iff_constSize {α : Type} [RustType α] [Wiring α] (T : WTy α)
    (hm : mixed α = false) (checks : Bool) (s : Slice α) :
    ExactlySized checks s ↔
      T.ConstSize ∧ ReservesAll checks s.vec.toList.length (fixedSize α) := by
  rw [T.constSize_iff]
  constructor
  · intro h
    exact ⟨h.constant T, h.reservesAll T⟩
  · rintro ⟨hconst, hall⟩
    refine ⟨fun v => ⟨_, (T.encoder.syncWiring_emits v).run [], hconst v⟩,
      fun add out hadd hroom hout => ?_,
      fun _ w => syncWiringSlice_inBounds hm hconst w hall⟩
    cases (slice_run T _).symm.trans hout
    rw [length_slice hconst]
    exact reservesAll_iff.mp hall add hadd hroom

theorem exactlySized_pair_u8 :
    letI : RustType (U8 × U8) := ⟨2, "(u8, u8)"⟩
    ExactlySized false (Slice.mk ⟨[((.ofNat 1 : U8), (.ofNat 2 : U8))], by decide⟩) := by
  let : RustType (U8 × U8) := ⟨2, "(u8, u8)"⟩
  exact (exactlySized_iff_constSize (.pair (.prim .u8) (.prim .u8)) rfl false _).mpr
    ⟨⟨trivial, trivial⟩, .inr (.inl (by decide))⟩

/-- The growth of `Vec`: at least twice the capacity, and at least eight. -/
def amortized (capacity needed : Nat) : Nat := max needed (max (2 * capacity) 8)

/-- `(u8, String)` is not `MIXED`, has `FIXED_SIZE` one and is longer: a slice
of one such pair is written past the end of the vector. And `[Mark; 2]` takes two
bytes on the wire and none in memory: for 2^63 of these nothing is reserved without
overflow checks. -/
theorem pair_u8_string_not_exactlySized :
    letI : RustType (U8 × RString) := ⟨32, "(u8, alloc::string::String)"⟩
    letI : RustType (List.Vector UnitStruct 2) := ⟨0, "[Mark; 2]"⟩
    mixed (U8 × RString) = false ∧ mixed (List.Vector UnitStruct 2) = false ∧
    (∀ s : Slice (U8 × RString), ¬ ExactlySized true s) ∧
    (syncWiringSlice [((.ofNat 1 : U8),
      RString.ofChars (List.replicate 16 'a') (by decide))]
      (VecWire.new : VecWire true amortized)).1 = .error .ub ∧
    ∃ s : Slice (List.Vector UnitStruct 2), ¬ ExactlySized false s := by
  let : RustType (U8 × RString) := ⟨32, "(u8, alloc::string::String)"⟩
  let : RustType (List.Vector UnitStruct 2) := ⟨0, "[Mark; 2]"⟩
  refine ⟨rfl, rfl, ?_, by decide, ?_⟩
  · intro s h
    obtain ⟨b, hb, hl⟩ := h.syncWiring_length (.ofNat 1, emptyString)
    have h9 : b = 1 :: lenBytes 0 := (congrArg Prod.snd hb).symm
    rw [h9, List.length_cons, length_lenBytes] at hl
    exact absurd hl (by decide)
  · let marks : List (List.Vector UnitStruct 2) :=
      List.replicate (2 ^ 63) (.replicate 2 ⟨⟩)
    have hlen : marks.length = 2 ^ 63 := List.length_replicate
    refine ⟨⟨⟨marks, by rw [hlen]; decide⟩⟩, fun h => ?_⟩
    have hall := h.reservesAll (.array .unitStruct 2)
    rw [hlen] at hall
    exact absurd hall (by decide)

end WiringRs
