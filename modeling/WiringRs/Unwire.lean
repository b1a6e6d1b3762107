import WiringRs.Rust

/-!
# Readers

The synchronous side of the `Unwire` trait: a source of bytes, with the methods
a reader may override. Two sources are modelled: a slice (`Bytes`, what is left
of it) and the `UnsafeReader`, which reads through a raw pointer and has no
check of its own. An asynchronous stream is the list of the bytes that arrive
before it ends.
-/

namespace WiringRs

/-- `vec![0u8; len]`, or a `String` of that length. -/
def allocBytes {σ : Type} (len : Nat) : IoM σ Unit :=
  if len ≤ isizeMax then pure () else Act.panic

class Unwire (σ : Type) where
  /-- `std::io::Read::read_exact` into a buffer of the given length. -/
  readExact : Nat → IoM σ Bytes
  syncUnwireU8 : IoM σ U8 := do
    let b ← readExact 1
    pure (.fromBeBytes b)
  syncUnwireU16 : IoM σ U16 := do
    let b ← readExact 2
    pure (.fromBeBytes b)
  syncUnwireF32 : IoM σ F32 := do
    let b ← readExact 4
    pure (.fromBeBytes b)
  syncUnwireU32 : IoM σ U32 := do
    let b ← readExact 4
    pure (.fromBeBytes b)
  syncUnwireExact : Nat → IoM σ Bytes := readExact
  advancePosition : Nat → IoM σ Unit := fun _ => pure ()
  syncUnwireU64 : IoM σ U64 := do
    let b ← readExact 8
    pure (.fromBeBytes b)
  syncUnwireString : IoM σ RString := do
    let len ← syncUnwireU64
    allocBytes len.toNat
    let b ← readExact len.toNat
    Act.lift (fromUtf8 b)

/-! ## Slices -/

/-- `read_exact` on a slice: a short one is emptied. -/
def readExactSlice (n : Nat) : IoM Bytes Bytes := fun slice =>
  if n ≤ slice.length then (.ok (slice.take n), slice.drop n)
  else (.error (.err eof), [])

/-- `split_at(n)` after a check of the length, which leaves a short slice as it
was. -/
def splitSlice (n : Nat) (e : IoError) : IoM Bytes Bytes := fun slice =>
  if n > slice.length then (.error (.err e), slice)
  else (.ok (slice.take n), slice.drop n)

instance : Unwire Bytes where
  readExact := readExactSlice
  advancePosition amt := do
    let _ ← splitSlice amt ⟨.unexpectedEof, "failed to advance the position"⟩
    pure ()
  syncUnwireF32 := do
    let a ← splitSlice 4 eof
    pure (.fromBeBytes a)
  syncUnwireU64 := do
    let a ← splitSlice 8 eof
    pure (.fromBeBytes a)

/-! ## The unsafe reader -/

structure UnsafeReader where
  slice : Bytes
  sourceBufferLen : Nat
  position : Nat
  len_eq : sourceBufferLen = slice.length

namespace UnsafeReader

def new (sourceBuffer : Bytes) : UnsafeReader where
  slice := sourceBuffer
  sourceBufferLen := sourceBuffer.length
  position := 0
  len_eq := rfl

/-- What lies at and after the position. -/
def rest (r : UnsafeReader) : Bytes := r.slice.drop r.position

/-- `n` bytes through the raw pointer at the position: out of bounds unless
they all lie below `source_buffer_len`. -/
def unwireSlice (n : Nat) : IoM UnsafeReader Bytes := fun r =>
  if r.position + n ≤ r.sourceBufferLen then
    (.ok (r.rest.take n), { r with position := r.position + n })
  else (.error .ub, r)

/-- `u64::from_be(ptr.read_unaligned())`, and the other widths. -/
def unwirePrim (t : PrimTy) : IoM UnsafeReader (Prim t) := do
  let b ← unwireSlice t.size
  pure (.fromBeBytes b)

instance : Unwire UnsafeReader where
  readExact := unwireSlice
  syncUnwireU8 := unwirePrim .u8
  syncUnwireU16 := unwirePrim .u16
  syncUnwireF32 := unwirePrim .f32
  syncUnwireU32 := unwirePrim .u32
  syncUnwireExact := unwireSlice
  advancePosition amt := fun r =>
    (.ok (), { r with position := r.position + amt })
  syncUnwireU64 := unwirePrim .u64
  syncUnwireString := do
    let len ← unwirePrim .u64
    let slice ← unwireSlice len.toNat
    Act.lift (fromUtf8 slice)

end UnsafeReader

/-! ## Asynchronous streams -/

/-- `read_u8` to `read_f64` of the asynchronous reader. -/
def asyncReadPrim (t : PrimTy) : IoM Bytes (Prim t) := do
  let b ← readExactSlice t.size
  pure (.fromBeBytes b)

/-- `take(len).read_to_string(..)`: the bytes up to `len` or to the end of the
stream, whichever comes first. -/
def readToString (len : Nat) : IoM Bytes RString := fun stream =>
  (fromUtf8 (stream.take len), stream.drop len)

/-! ## What a successful read returns -/

section

variable {n : Nat} {s r : Bytes} {e : IoError}

theorem readExactSlice_eq_ok {b : Bytes} :
    readExactSlice n s = (.ok b, r) ↔ n ≤ s.length ∧ b = s.take n ∧ r = s.drop n := by
  unfold readExactSlice
  split
  · simp [*, Prod.ext_iff, eq_comm]
  · simp [*]

theorem splitSlice_eq_ok {b : Bytes} :
    splitSlice n e s = (.ok b, r) ↔ n ≤ s.length ∧ b = s.take n ∧ r = s.drop n := by
  unfold splitSlice
  split
  · rename_i h
    simp [Nat.not_le.mpr h]
  · rename_i h
    simp [Nat.not_lt.mp h, Prod.ext_iff, eq_comm]

theorem asyncReadPrim_eq_ok {t : PrimTy} {v : Prim t} :
    asyncReadPrim t s = (.ok v, r) ↔
      t.size ≤ s.length ∧ v = .fromBeBytes (s.take t.size) ∧ r = s.drop t.size := by
  unfold asyncReadPrim
  rw [Act.bind_eq_ok]
  simp only [readExactSlice_eq_ok, Act.pure_apply]
  constructor
  · rintro ⟨b, s', ⟨hle, rfl, rfl⟩, h⟩
    obtain ⟨hv, rfl⟩ := Prod.mk.inj h
    exact ⟨hle, (Except.ok.inj hv).symm, rfl⟩
  · rintro ⟨hle, rfl, rfl⟩
    exact ⟨_, _, ⟨hle, rfl, rfl⟩, rfl⟩

end

end WiringRs
