import WiringRs.FixedElements
import WiringRs.Overreads

/-!
# A fresh buffer reader

The first value a `BufUnWire` reads is the one the checked slice reader has: the
two decoders take the same values off the same bytes, what they take is of the
shape the pre-pass measures (`UTy.takesWord`), and the pre-pass stands at the start
of the buffer as the reader does.

The exception is an array whose elements take no bytes. Decoding any number of
them succeeds, but the pre-pass multiplies the lengths of nested arrays first.
-/

namespace WiringRs

/-! ## What a decoder takes -/

namespace TakesWord

theorem headed {α : Type} {t : PrimTy} {f : Prim t → IoM Bytes α}
    {L : Prim t → Language UInt8} (h : ∀ v, TakesWord (f v) (L v)) :
    TakesWord (syncUnwiring >>= f) (WiringRs.headed L) := by
  intro s a r hs
  obtain ⟨v, s', hv, hf⟩ := Act.bind_eq_ok.mp hs
  obtain ⟨l, hl, rfl⟩ := h v s' a r hf
  refine ⟨v.toBeBytes ++ l, ⟨v, l, rfl, hl⟩, ?_⟩
  rw [List.append_assoc]
  exact (ReadsPrim.syncUnwiring t).ok_iff.mp hv

theorem string [RustType RString] :
    TakesWord (syncUnwiring : IoM Bytes RString) UTy.string.shape := by
  refine headed (t := .u64) fun len s str r h => ?_
  obtain ⟨hle, -, rfl⟩ := readString_eq_ok.mp h
  refine ⟨s.take len.toNat, ?_, (List.take_append_drop ..).symm⟩
  rw [mem_stretch, List.length_take, Nat.min_eq_left hle]

end TakesWord

/-- The types the reader is used with have a constant size where they are not
`MIXED`. -/
theorem UTy.constSize_of_core : {α : Type} → {r : RustType α} → {u : Unwiring α} →
    (T : @UTy α r u) → T.Core → Unwiring.mixed α = false → T.ConstSize
  | _, _, _, UTy.prim _, hcore, _ => hcore
  | _, _, _, UTy.unitStruct, _, _ => trivial
  | _, _, _, UTy.array T _, hcore, hmixed => Or.inr (T.constSize_of_core hcore hmixed)
  | _, _, _, UTy.struct _ T, hcore, hmixed => by
      intro i
      have hi := List.any_eq_false.mp hmixed i (List.mem_finRange i)
      exact (T i).constSize_of_core (hcore i) (Bool.eq_false_iff.mpr hi)

/-- **A decoder takes what the pre-pass measures.** -/
theorem UTy.takesWord : {α : Type} → {r : RustType α} → {u : Unwiring α} →
    (T : @UTy α r u) → T.Core → TakesWord (syncUnwiring : IoM Bytes α) T.shape
  | _, _, _, UTy.prim t, _ => .prim t
  | _, _, _, UTy.unit, _ => .unit
  | _, _, _, UTy.bool, _ => (TakesWord.prim .u8).map
  | _, _, _, UTy.string, _ => .string
  | _, _, _, UTy.array T N, hcore => (T.takesWord hcore).times N
  | _, _, _, @UTy.vec α _ _ T _, hcore => by
      refine TakesWord.headed (t := .u64) fun count => .guard fun _ => ?_
      cases hmixed : Unwiring.mixed α with
      | true => exact ((T.takesWord hcore).times count.toNat).map
      | false =>
          have hword := T.takesWord_constSize (T.constSize_of_core hcore hmixed)
          have htimes := hword.times count.toNat
          rw [stretch_pow] at htimes
          exact htimes.map
  | _, _, _, UTy.option T, hcore => by
      refine TakesWord.headed (t := .u8) fun variant => ?_
      by_cases h0 : variant.toNat = 0
      · simp only [h0, if_true, Nat.zero_ne_one, if_false]
        exact .pure none
      · by_cases h1 : variant.toNat = 1
        · simp only [h1, if_true, Nat.one_ne_zero, if_false]
          exact (T.takesWord hcore).map
        · simp only [h0, h1, if_false]
          exact .stop _
  | _, _, _, UTy.struct _ T, hcore =>
      (TakesWord.sequence fun i => (T i).takesWord (hcore i)).map
  | _, _, _, UTy.unitStruct, _ => TakesWord.unit.map
  | _, _, _, UTy.enum d T, hcore => by
      refine TakesWord.headed fun taged => ?_
      unfold EnumDecl.matchTag
      by_cases hlt : taged.toNat < d.variants
      · simp only [hlt, dif_pos]
        exact (TakesWord.sequence fun i => (T _ i).takesWord (hcore _ i)).map
      · simp only [hlt, dif_neg, not_false_iff]
        exact .stop _

/-! ## Agreement -/

/-- A slice of bytes, which fits memory. -/
structure Buffer where
  bytes : Bytes
  fits : bytes.length ≤ isizeMax

section

variable (α : Type) [RustType α] [Unwiring α]

/-- `n` values decode from the slice, and take its first `k` bytes. -/
structure DecodesIn (n k : Nat) (b : Buffer) : Prop where
  count : n < 2 ^ 64
  le : k ≤ b.bytes.length
  decode : ∃ v, Act.times n (syncUnwiring : IoM Bytes α) b.bytes = (.ok v, b.bytes.drop k)

/-- The buffer reader and its pre-pass agree with the slice reader. -/
structure AgreesOn (b : Buffer) : Prop where
  /-- The first value of a fresh reader. -/
  unwire_iff : ∀ v k,
    (∃ r, UnsafeReader.syncUnwire α (.new b.bytes) = (.ok v, r) ∧ r.position = k) ↔
      k ≤ b.bytes.length ∧ (syncUnwiring : IoM Bytes α) b.bytes = (.ok v, b.bytes.drop k)
  bytesLength_eq : ∀ n k, DecodesIn α n k b →
    (bytesLength α n : IoM Bytes Nat) b.bytes = (.ok k, b.bytes.drop k)
  /-- No decode of the `n` values reads past the first `k` bytes. -/
  inBounds : ∀ n k s, (bytesLength α n : IoM Bytes Nat) b.bytes = (.ok k, s) →
    k ≤ b.bytes.length ∧ Act.InBounds
      (Act.times n (syncUnwiring : IoM UnsafeReader α)) (.new (b.bytes.take k))

end

section

variable {α : Type} [RustType α] [Unwiring α] {T : UTy α} {b : Buffer} {n k : Nat}

theorem DecodesIn.take_mem {L : Language UInt8} (h : DecodesIn α n k b)
    (hword : TakesWord (syncUnwiring : IoM Bytes α) L) : b.bytes.take k ∈ L ^ n := by
  obtain ⟨v, hv⟩ := h.decode
  obtain ⟨l, hl, hb⟩ := hword.times n _ _ _ hv
  have hk := (List.take_append_drop k b.bytes).trans hb
  rwa [List.append_cancel_right hk]

theorem bytesLength_eq_iff (T : UTy α) (hk : k ≤ b.bytes.length) :
    (bytesLength α n : IoM Bytes Nat) b.bytes = (.ok k, b.bytes.drop k) ↔
      b.bytes.take k ∈ T.shape ^ n ∧ ¬ T.Spills n b.bytes := by
  rw [(T.gauges n).ok_iff, and_comm]
  refine and_congr_left fun _ => ?_
  constructor
  · rintro ⟨l, hl, hb, rfl⟩
    rwa [hb, List.take_left]
  · intro hmem
    refine ⟨_, hmem, (List.take_append_drop ..).symm, ?_⟩
    rw [List.length_take, Nat.min_eq_left hk]

/-- What decodes is measured, unless a number passes `u64`. -/
theorem DecodesIn.bytesLength (h : DecodesIn α n k b) (hcore : T.Core)
    (hspills : ¬ T.Spills n b.bytes) :
    (bytesLength α n : IoM Bytes Nat) b.bytes = (.ok k, b.bytes.drop k) :=
  (bytesLength_eq_iff T h.le).mpr ⟨h.take_mem (T.takesWord hcore), hspills⟩

theorem DecodesIn.one {v : α} (hle : k ≤ b.bytes.length)
    (h : (syncUnwiring : IoM Bytes α) b.bytes = (.ok v, b.bytes.drop k)) :
    DecodesIn α 1 k b :=
  ⟨by decide, hle, v ::ᵥ .nil, by rw [Act.times_succ, Act.bind_ok h]; rfl⟩

/-- A reader that has read `k` bytes of the buffer stands there. -/
theorem position_eq {r : UnsafeReader} (hr : r.Valid) (hslice : r.slice = b.bytes)
    (hk : k ≤ b.bytes.length) (hrest : r.rest = b.bytes.drop k) : r.position = k := by
  have hlen := congrArg List.length hrest
  rw [UnsafeReader.rest, hslice, List.length_drop, List.length_drop] at hlen
  rw [UnsafeReader.Valid, r.len_eq, hslice] at hr
  omega

/-- The first value of a fresh reader, where the pre-pass measures it. -/
theorem unwire_new_iff (hcore : T.Core)
    (h : ∀ k, DecodesIn α 1 k b → ¬ T.Spills 1 b.bytes) (v : α) (k : Nat) :
    (∃ r, UnsafeReader.syncUnwire α (.new b.bytes) = (.ok v, r) ∧ r.position = k) ↔
      k ≤ b.bytes.length ∧ (syncUnwiring : IoM Bytes α) b.bytes = (.ok v, b.bytes.drop k) := by
  let call : CoreCall := ⟨α, T, hcore⟩
  have hvalid : (UnsafeReader.new b.bytes).Valid := Nat.zero_le _
  constructor
  · rintro ⟨r, hunwire, rfl⟩
    change call.unwire _ = _ at hunwire
    by_cases hrun : call.LetRun (.new b.bytes)
    · rw [CoreCall.unwire_letRun hrun] at hunwire
      obtain ⟨hr, hslice, hdecode⟩ := T.overreads.of_reader hvalid hunwire
      have hle : r.position ≤ r.slice.length := r.len_eq ▸ hr
      change r.slice = b.bytes at hslice
      have hrest : r.rest = b.bytes.drop r.position := by
        rw [UnsafeReader.rest, hslice]
      exact ⟨hslice ▸ hle, hrest ▸ hdecode⟩
    · obtain ⟨e, -, hstop⟩ := CoreCall.unwire_not_letRun hrun
      cases hstop.symm.trans hunwire
  · rintro ⟨hle, hdecode⟩
    have hin := DecodesIn.one hle hdecode
    have hrun : call.LetRun (.new b.bytes) := by
      have hfits := b.fits
      rw [isizeMax] at hfits
      refine ⟨k, _, hin.bytesLength hcore (h k hin), ?_, ?_⟩
      · show 0 + k < 2 ^ 64
        omega
      · show 0 + k ≤ b.bytes.length
        omega
    obtain ⟨r, hr⟩ := T.overreads.of_slice hvalid hdecode
    obtain ⟨hr', hslice, hrest⟩ := T.overreads.of_reader hvalid hr
    refine ⟨r, (CoreCall.unwire_letRun hrun).trans hr, position_eq hr' hslice hle ?_⟩
    exact (Prod.mk.inj (hrest.symm.trans hdecode)).2

/-- The measured bytes are all that the decoder reads. -/
theorem times_inBounds (hcore : T.Core) {s : Bytes}
    (h : (bytesLength α n : IoM Bytes Nat) b.bytes = (.ok k, s)) :
    k ≤ b.bytes.length ∧ Act.InBounds
      (Act.times n (syncUnwiring : IoM UnsafeReader α)) (.new (b.bytes.take k)) := by
  obtain ⟨l, hb, rfl, hl⟩ := (T.gauges n).alone h
  rw [hb, List.take_left, List.length_append]
  obtain ⟨m, -, -, -, hreads⟩ := (T.measured hcore n l).ok hl
  exact ⟨Nat.le_add_right _ _, (hreads.of_turns _ (Nat.zero_le _) rfl).1⟩

theorem agreesOn_of_not_spills (hcore : T.Core)
    (h : ∀ n k, DecodesIn α n k b → ¬ T.Spills n b.bytes) : AgreesOn α b :=
  ⟨unwire_new_iff hcore (h 1), fun n k hin => hin.bytesLength hcore (h n k hin),
    fun _ _ _ => times_inBounds hcore⟩

/-- A buffer holds no more elements than bytes if each of them takes bytes. -/
theorem DecodesIn.not_spills (h : DecodesIn α n k b) (hcore : T.Core) (hfilled : T.Filled) :
    ¬ T.Spills n b.bytes := by
  have hlen := List.length_take_le' k b.bytes
  have hfits := b.fits
  rw [isizeMax] at hfits
  have hnot := T.not_spills hfilled n _ (b.bytes.drop k) (h.take_mem (T.takesWord hcore))
    (by omega)
  rwa [List.take_append_drop] at hnot

/-- **When a fresh reader agrees with the slice reader.** No number that the pre-pass
computes for the values that decode passes `u64`. -/
theorem agreesOn_iff (T : UTy α) (hcore : T.Core) (b : Buffer) :
    AgreesOn α b ↔ ∀ n k, DecodesIn α n k b → ¬ T.Spills n b.bytes := by
  constructor
  · intro h n k hin hspills
    have hpanic := (T.gauges n).panic_iff.mpr hspills
    rw [h.bytesLength_eq n k hin] at hpanic
    cases hpanic
  · exact agreesOn_of_not_spills hcore

/-- Types whose arrays have elements that take bytes agree on every buffer. -/
theorem agreesOn_of_filled (T : UTy α) (hcore : T.Core) (hfilled : T.Filled) (b : Buffer) :
    AgreesOn α b :=
  agreesOn_of_not_spills hcore fun _ _ hin => hin.not_spills hcore hfilled

end

theorem agreesOn_u16 : AgreesOn U16 ⟨[1, 2], by decide⟩ := by
  refine (agreesOn_iff (.prim .u16) ⟨by decide, by decide⟩ _).mpr fun n k hin => ?_
  have hmem := hin.take_mem (.prim .u16)
  rw [stretch_pow, mem_stretch, List.length_take, Nat.min_eq_left hin.le] at hmem
  have hle : k ≤ 2 := hin.le
  show ¬ 2 ^ 64 ≤ PrimTy.u16.size * n
  omega

/-! ## Arrays of nothing -/

/-- Elements that take no bytes leave the slice alone, however many they are. -/
theorem times_of_empty {α : Type} {x : IoM Bytes α} {a : α} {s : Bytes}
    (h : x s = (.ok a, s)) (n : Nat) :
    ∃ v, Act.times n x s = (.ok v, s) := by
  induction n with
  | zero => exact ⟨_, rfl⟩
  | succ n ih =>
      obtain ⟨v, hv⟩ := ih
      exact ⟨a ::ᵥ v, by rw [Act.times_succ, Act.bind_ok h, Act.bind_ok hv]; rfl⟩

/-- `[T; N]` has no padding. -/
@[reducible] def arrayType (α : Type) [RustType α] (N : Nat) :
    RustType (List.Vector α N) :=
  ⟨memSize α * N, "[" ++ typeName α ++ "; " ++ toString N ++ "]"⟩

/-- `[[[u8; 0]; 2^32]; 2^32]` decodes from no bytes at all, but the pre-pass multiplies
the two lengths. -/
theorem empty_arrays_not_agreesOn :
    letI : RustType (List.Vector U8 0) := arrayType U8 0
    letI : RustType (List.Vector (List.Vector U8 0) (2 ^ 32)) := arrayType _ _
    letI : RustType (List.Vector (List.Vector (List.Vector U8 0) (2 ^ 32)) (2 ^ 32)) :=
      arrayType _ _
    ¬ AgreesOn (List.Vector (List.Vector (List.Vector U8 0) (2 ^ 32)) (2 ^ 32))
      ⟨[], Nat.zero_le _⟩ := by
  let : RustType (List.Vector U8 0) := arrayType U8 0
  let : RustType (List.Vector (List.Vector U8 0) (2 ^ 32)) := arrayType _ _
  let : RustType (List.Vector (List.Vector (List.Vector U8 0) (2 ^ 32)) (2 ^ 32)) :=
    arrayType _ _
  intro h
  obtain ⟨v, hv⟩ := times_of_empty (x := (syncUnwiring : IoM Bytes (List.Vector U8 0)))
    (s := []) rfl (2 ^ 32)
  obtain ⟨w, hw⟩ := times_of_empty hv (2 ^ 32)
  cases h.bytesLength_eq 1 0 (.one (Nat.zero_le _) hw)

end WiringRs
