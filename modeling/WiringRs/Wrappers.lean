import WiringRs.FreshReader

/-!
# Wrappers and collections

`Box<T>`, `Arc<T>`, the sets, the maps and `Url` keep the default pre-pass, which takes
the in-memory size of a type for the length of its encoding, whatever the bytes are.
`Box<[T]>` hands the pre-pass on to its elements: it measures `count` of them where
there are `count` slices, each behind its length. So the reader rejects valid
encodings of such a type and reads past the buffer on invalid ones, except where the
two lengths happen to be the same.
-/

namespace WiringRs

/-- The wrappers and collections of core types. -/
def UTy.Wrapper : {α : Type} → {r : RustType α} → {u : Unwiring α} →
    @UTy α r u → Prop
  | _, _, _, UTy.box T | _, _, _, UTy.arc T | _, _, _, UTy.boxSlice T
  | _, _, _, UTy.hashSet T | _, _, _, UTy.btreeSet T => T.Core
  | _, _, _, UTy.hashMap K V | _, _, _, UTy.btreeMap K V => K.Core ∧ V.Core
  | _, _, _, UTy.url _ => True
  | _, _, _, _ => False

/-- The pre-pass takes the first `k` bytes for `n` values: they are `n` times the
size of the type in memory, or `n` elements of a `Box<[T]>`. -/
def UTy.Charges : {α : Type} → {r : RustType α} → {u : Unwiring α} →
    @UTy α r u → (n k : Nat) → Bytes → Prop
  | _, _, _, UTy.boxSlice T, n, k, b => b.take k ∈ T.shape ^ n ∧ ¬ T.Spills n b
  | α, _, _, _, n, k, _ => k = memSize α * n

/-- The bytes are enough for what the pre-pass takes a value to be. -/
def UTy.Admits : {α : Type} → {r : RustType α} → {u : Unwiring α} →
    @UTy α r u → Bytes → Prop
  | _, _, _, UTy.boxSlice T, b => (∃ l ∈ T.shape, ∃ r, b = l ++ r) ∧ ¬ T.Spills 1 b
  | α, _, _, _, b => memSize α ≤ b.length

/-! ## The pre-pass -/

section

variable {α : Type} [RustType α] [Unwiring α] {T : UTy α} {b : Buffer} {n k : Nat}

/-- `n` times a size is a length like any other. -/
theorem take_mem_stretch_pow_iff {size : Nat} (hk : k ≤ b.bytes.length) :
    b.bytes.take k ∈ stretch size ^ n ∧ ¬ 2 ^ 64 ≤ size * n ↔ k = size * n := by
  have hfits := b.fits
  rw [isizeMax] at hfits
  rw [stretch_pow, mem_stretch, List.length_take, Nat.min_eq_left hk]
  omega

theorem UTy.charges_iff (hT : T.Wrapper) (hk : k ≤ b.bytes.length) :
    (bytesLength α n : IoM Bytes Nat) b.bytes = (.ok k, b.bytes.drop k) ↔
      T.Charges n k b.bytes := by
  rw [bytesLength_eq_iff T hk]
  cases T with
  | boxSlice => exact Iff.rfl
  | box | arc | hashSet | btreeSet | hashMap | btreeMap | url =>
      exact take_mem_stretch_pow_iff hk
  | _ => exact hT.elim

/-- A size is passed over where there are as many bytes. -/
theorem exists_stretch_iff {size : Nat} :
    (∃ l ∈ stretch size, ∃ r, b.bytes = l ++ r) ∧ ¬ 2 ^ 64 ≤ size * 1 ↔
      size ≤ b.bytes.length := by
  have hfits := b.fits
  rw [isizeMax] at hfits
  constructor
  · rintro ⟨⟨l, hl, r, hb⟩, -⟩
    rw [hb, List.length_append, mem_stretch.mp hl]
    exact Nat.le_add_right _ _
  · intro hle
    refine ⟨⟨_, ?_, _, (List.take_append_drop size b.bytes).symm⟩, by omega⟩
    rw [mem_stretch, List.length_take, Nat.min_eq_left hle]

theorem UTy.admits_iff (hT : T.Wrapper) : T.Admits b.bytes ↔
    ∃ len s, (bytesLength α 1 : IoM Bytes Nat) b.bytes = (.ok len, s) := by
  have hiff : ((∃ l ∈ T.shape, ∃ r, b.bytes = l ++ r) ∧ ¬ T.Spills 1 b.bytes) ↔
      ∃ len s, (bytesLength α 1 : IoM Bytes Nat) b.bytes = (.ok len, s) := by
    have hgauges := T.gauges 1
    rw [pow_one] at hgauges
    constructor
    · rintro ⟨⟨l, hl, r, hb⟩, hspills⟩
      exact ⟨_, _, hgauges.ok_iff.mpr ⟨hspills, l, hl, hb, rfl⟩⟩
    · rintro ⟨len, s, h⟩
      obtain ⟨hspills, l, hl, hb, -⟩ := hgauges.ok_iff.mp h
      exact ⟨⟨l, hl, s, hb⟩, hspills⟩
  rw [← hiff]
  cases T with
  | boxSlice => exact Iff.rfl
  | box | arc | hashSet | btreeSet | hashMap | btreeMap | url =>
      exact exists_stretch_iff.symm
  | _ => exact hT.elim

/-- The pre-pass itself reads a slice, with all its checks. -/
theorem UTy.bytesLength_inBounds (hT : T.Wrapper) (s : Bytes) :
    Act.InBounds (bytesLength α 1 : IoM Bytes Nat) s := by
  have hdefault (size : Nat) : Act.InBounds (mulU64 size 1 >>= advanceBy : IoM Bytes Nat) s :=
    (Measured.mulU64 (.advanceBy fun h => Reads.unwireSlice h)).inBounds
  cases T with
  | boxSlice T => exact (T.measured hT 1 s).inBounds
  | box | arc | hashSet | btreeSet | hashMap | btreeMap | url => exact hdefault _
  | _ => exact hT.elim

/-! ## The guard -/

/-- A measured value is let run: it has been found in the buffer. -/
theorem syncUnwire_new_ok (T : UTy α) {len : Nat} {s : Bytes}
    (h : (bytesLength α 1 : IoM Bytes Nat) b.bytes = (.ok len, s)) :
    UnsafeReader.syncUnwire α (.new b.bytes) =
      (syncUnwiring : IoM UnsafeReader α) (.new b.bytes) := by
  obtain ⟨-, l, -, hb, rfl⟩ := (T.gauges 1).ok_iff.mp h
  have hle : 0 + l.length ≤ b.bytes.length := by
    rw [hb, List.length_append]
    omega
  have hlt : 0 + l.length < 2 ^ 64 := by
    have hfits := b.fits
    rw [isizeMax] at hfits
    omega
  unfold UnsafeReader.syncUnwire
  simp only [UnsafeReader.new, h, addU64, hlt, if_true, pure_bind]
  exact congrFun (if_pos hle) _

theorem syncUnwire_new_error {e : Stop IoError} {s : Bytes}
    (h : (bytesLength α 1 : IoM Bytes Nat) b.bytes = (.error e, s)) :
    UnsafeReader.syncUnwire α (.new b.bytes) = (.error e, .new b.bytes) := by
  unfold UnsafeReader.syncUnwire
  simp only [UnsafeReader.new, h]

/-- The reader reads past the buffer where the guard admits bytes that run short. -/
theorem UTy.syncUnwire_inBounds_iff (hT : T.Wrapper) :
    Act.InBounds (UnsafeReader.syncUnwire α) (.new b.bytes) ↔
      (T.Admits b.bytes → ¬ T.RunsShort b.bytes) := by
  rw [T.admits_iff hT]
  rcases h : (bytesLength α 1 : IoM Bytes Nat) b.bytes with ⟨e | len, s⟩
  · refine iff_of_true ?_ ?_
    · rw [Act.InBounds, syncUnwire_new_error h]
      intro he
      exact T.bytesLength_inBounds hT b.bytes (by rw [h]; exact congrArg _ (Except.error.inj he))
    · rintro ⟨len, s', h'⟩
      cases h'
  · have hub := T.overreads.ub_iff (r := .new b.bytes) (Nat.zero_le _)
    rw [Act.InBounds, syncUnwire_new_ok T h, Ne, hub]
    exact ⟨fun hshort _ => hshort, fun hshort => hshort ⟨len, s, rfl⟩⟩

/-! ## Exactness -/

variable (α) in
/-- The pre-pass is exact on the buffer: the reader does not reject what decodes, and
does not read past the buffer on what does not. -/
structure PrePassExact (b : Buffer) : Prop where
  bytesLength_eq : ∀ n k, DecodesIn α n k b →
    (bytesLength α n : IoM Bytes Nat) b.bytes = (.ok k, b.bytes.drop k)
  accepted : ∀ v k, k ≤ b.bytes.length →
    (syncUnwiring : IoM Bytes α) b.bytes = (.ok v, b.bytes.drop k) →
    ∃ r, UnsafeReader.syncUnwire α (.new b.bytes) = (.ok v, r)
  inBounds : Act.InBounds (UnsafeReader.syncUnwire α) (.new b.bytes)

/-- **When the pre-pass of a wrapper is exact.** What it takes for the values that
decode is what they take, and it does not admit bytes that run short. -/
theorem prePassExact_iff (T : UTy α) (hT : T.Wrapper) (b : Buffer) :
    PrePassExact α b ↔
      (∀ n k, DecodesIn α n k b → T.Charges n k b.bytes) ∧
      (T.Admits b.bytes → ¬ T.RunsShort b.bytes) := by
  constructor
  · intro h
    refine ⟨fun n k hin => ?_, (T.syncUnwire_inBounds_iff hT).mp h.inBounds⟩
    exact (T.charges_iff hT hin.le).mp (h.bytesLength_eq n k hin)
  · rintro ⟨hcharges, hshort⟩
    have hexact n k (hin : DecodesIn α n k b) :=
      (T.charges_iff hT hin.le).mpr (hcharges n k hin)
    refine ⟨hexact, ?_, (T.syncUnwire_inBounds_iff hT).mpr hshort⟩
    intro v k hle hdecode
    rw [syncUnwire_new_ok T (hexact 1 k (.one hle hdecode))]
    exact T.overreads.of_slice (Nat.zero_le _) hdecode

end

/-- A `Box<u64>` takes eight bytes in memory and on the wire. -/
theorem prePassExact_box_u64 :
    letI : RustType (Box U64) := ⟨8, "alloc::boxed::Box<u64>"⟩
    PrePassExact (Box U64) ⟨List.replicate 8 0, by decide⟩ := by
  let : RustType (Box U64) := ⟨8, "alloc::boxed::Box<u64>"⟩
  refine (prePassExact_iff (.box (.prim .u64)) ⟨by decide, by decide⟩ _).mpr ⟨?_, ?_⟩
  · intro n k hin
    have hmem := hin.take_mem (TakesWord.prim .u64).map
    rwa [stretch_pow, mem_stretch, List.length_take, Nat.min_eq_left hin.le] at hmem
  · exact fun _ => Nat.lt_irrefl 8

/-- A `Box<u8>` takes one byte, and its pre-pass eight. In the eight bytes of the other
buffer a `Box<String>` is announced with one byte more: the pre-pass is content with the
eight, and the reader reads a ninth. -/
theorem box_not_prePassExact :
    letI : RustType RString := ⟨24, "alloc::string::String"⟩
    letI : RustType (Box U8) := ⟨8, "alloc::boxed::Box<u8>"⟩
    letI : RustType (Box RString) := ⟨8, "alloc::boxed::Box<alloc::string::String>"⟩
    ¬ PrePassExact (Box U8) ⟨[7], by decide⟩ ∧
      ¬ PrePassExact (Box RString) ⟨[0, 0, 0, 0, 0, 0, 0, 1], by decide⟩ := by
  let : RustType RString := ⟨24, "alloc::string::String"⟩
  let : RustType (Box U8) := ⟨8, "alloc::boxed::Box<u8>"⟩
  let : RustType (Box RString) := ⟨8, "alloc::boxed::Box<alloc::string::String>"⟩
  constructor
  · intro h
    obtain ⟨r, hr⟩ := h.accepted ⟨.ofNat 7⟩ 1 (by decide) rfl
    cases hr
  · intro h
    exact h.inBounds rfl

end WiringRs
