import WiringRs.Derive
import WiringRs.Wire

/-!
# The encoders

The `Wiring` trait and its implementations. Each type has three encoders: the
asynchronous one by value (`wiring`), the asynchronous one by reference
(`wiringRef`) and the synchronous one (`syncWiring`), with variants for slices,
vectors and arrays that a type may override. An asynchronous encoder awaits
one write after another on a wire it owns, so it is a call on the byte list
handed over so far; a synchronous one is generic over the wire.

`concatArray` writes a value into a caller's buffer, for the types whose
encoding has a fixed size. It is a function of the buffer's contents.
-/

namespace WiringRs

/-! ## Buffers -/

/-- `buf[..n].copy_from_slice(&bytes)` for `n` bytes. -/
def copyPrefix (bytes buf : Bytes) : Except (Stop IoError) Bytes :=
  if bytes.length ≤ buf.length then .ok (bytes ++ buf.drop bytes.length)
  else .error .panic

/-- `ptr::copy_nonoverlapping` to the start of the buffer. -/
def copyPrefixUnchecked (bytes buf : Bytes) : Except (Stop IoError) Bytes :=
  if bytes.length ≤ buf.length then .ok (bytes ++ buf.drop bytes.length)
  else .error .ub

/-- A call on `&mut buf[start..end]`. -/
def onRange (start stop : Nat) (f : Bytes → Except (Stop IoError) Bytes)
    (buf : Bytes) : Except (Stop IoError) Bytes :=
  if start ≤ stop ∧ stop ≤ buf.length then do
    let r ← f ((buf.take stop).drop start)
    .ok (buf.take start ++ r ++ buf.drop stop)
  else .error .panic

/-- Calls on the two halves of `buf.split_at_mut(mid)`. -/
def onSplit (mid : Nat) (f g : Bytes → Except (Stop IoError) Bytes)
    (buf : Bytes) : Except (Stop IoError) Bytes :=
  if mid ≤ buf.length then do
    let left ← f (buf.take mid)
    let right ← g (buf.drop mid)
    .ok (left ++ right)
  else .error .panic

/-! ## The trait -/

/-- `len.wiring(wire)`, for a `usize`. -/
def lenWiring (len : Nat) : IoM Bytes Unit := emit (usizeU64 len).toBeBytes

/-- `len.sync_wiring(wire)`, for a `usize`. -/
def lenSyncWiring {σ : Type} [Wire σ] (len : Nat) : IoM σ Unit :=
  Wire.syncWireU64 (usizeU64 len)

class Wiring (α : Type) where
  fixedSize : Nat := 0
  /-- Indicates if type is mixed of dynamic and fixed fields. -/
  mixed : Bool := true
  concatArray : α → Bytes → Except (Stop IoError) Bytes := fun _ buf => .ok buf
  wiringRef : α → IoM Bytes Unit
  wiring : α → IoM Bytes Unit := wiringRef
  wiringSlice : List α → IoM Bytes Unit := fun slice => do
    lenWiring slice.length
    slice.forM wiringRef
  wiringVec : List α → IoM Bytes Unit := fun v => do
    lenWiring v.length
    v.forM wiring
  wiringArrayRef : {N : Nat} → List.Vector α N → IoM Bytes Unit :=
    fun array => array.toList.forM wiringRef
  wiringArray : {N : Nat} → List.Vector α N → IoM Bytes Unit :=
    fun array => array.toList.forM wiring
  wiringArc : Arc α → IoM Bytes Unit := fun arc => wiringRef arc.inner
  syncWiring : {σ : Type} → [Wire σ] → α → IoM σ Unit
  syncWiringArray : {σ : Type} → [Wire σ] → {N : Nat} → List.Vector α N →
      IoM σ Unit := fun array => array.toList.forM syncWiring
  syncWiringSlice : {σ : Type} → [Wire σ] → List α → IoM σ Unit := fun {σ} _ slice => do
    lenSyncWiring slice.length
    if mixed then slice.forM syncWiring
    else do
      let add ← Act.lift (usizeMul (Wire.overflowChecks σ) slice.length fixedSize)
      Wire.reserveCapacity add
      Unchecked.run (slice.forM syncWiring)

/-! ## Integers, floats and bool -/

/-- The implementations of the integers and floats, which differ in `MIXED`
and in the call the synchronous encoder makes. -/
@[reducible] def primWiring (t : PrimTy) (mixed : Bool)
    (syncWiring : {σ : Type} → [Wire σ] → Prim t → IoM σ Unit) :
    Wiring (Prim t) where
  fixedSize := t.size
  mixed := mixed
  concatArray n buf := copyPrefix n.toBeBytes buf
  wiringRef n := emit n.toBeBytes
  syncWiring := syncWiring

/-- `wire.sync_wire_all::<true>(&self.to_be_bytes())` -/
def syncWireBytes {σ : Type} [Wire σ] {t : PrimTy} (n : Prim t) : IoM σ Unit :=
  Wire.syncWireAll true n.toBeBytes

@[reducible] def u8Wiring : Wiring (Prim .u8) :=
  { primWiring .u8 false syncWireBytes with
    wiringSlice := fun slice => do
      lenWiring slice.length
      emit (slice.map Prim.toByte)
    wiringArray := fun array => emit (array.toList.map Prim.toByte)
    syncWiringSlice := fun slice => do
      lenSyncWiring slice.length
      Wire.syncWireAll true (slice.map Prim.toByte)
    syncWiringArray := fun array =>
      Wire.syncWireAll true (array.toList.map Prim.toByte) }

@[reducible] def i8Wiring : Wiring (Prim .i8) := primWiring .i8 false syncWireBytes

@[reducible] def u16Wiring : Wiring (Prim .u16) := primWiring .u16 false syncWireBytes

@[reducible] def i16Wiring : Wiring (Prim .i16) := primWiring .i16 false syncWireBytes

@[reducible] def u32Wiring : Wiring (Prim .u32) :=
  { primWiring .u32 false syncWireBytes with
    -- the array's bytes are flattened and written in one go
    syncWiringArray := fun array =>
      Wire.syncWireAll true (array.toList.flatMap Prim.toBeBytes) }

@[reducible] def i32Wiring : Wiring (Prim .i32) :=
  primWiring .i32 false fun n => Wire.writeAll n.toBeBytes

@[reducible] def f32Wiring : Wiring (Prim .f32) :=
  { primWiring .f32 false fun n => Wire.syncWireF32 n with
    concatArray := fun n buf => copyPrefixUnchecked n.toBeBytes buf }

@[reducible] def u64Wiring : Wiring (Prim .u64) :=
  primWiring .u64 false fun n => Wire.syncWireU64 n

@[reducible] def i64Wiring : Wiring (Prim .i64) := primWiring .i64 false syncWireBytes

/-- `MIXED` keeps its default here. -/
@[reducible] def f64Wiring : Wiring (Prim .f64) := primWiring .f64 true syncWireBytes

@[reducible] def u128Wiring : Wiring (Prim .u128) := primWiring .u128 false syncWireBytes

@[reducible] def i128Wiring : Wiring (Prim .i128) := primWiring .i128 false syncWireBytes

instance (t : PrimTy) : Wiring (Prim t) :=
  match t with
  | .u8 => u8Wiring
  | .i8 => i8Wiring
  | .u16 => u16Wiring
  | .i16 => i16Wiring
  | .u32 => u32Wiring
  | .i32 => i32Wiring
  | .u64 => u64Wiring
  | .i64 => i64Wiring
  | .u128 => u128Wiring
  | .i128 => i128Wiring
  | .f32 => f32Wiring
  | .f64 => f64Wiring

open Wiring

instance : Wiring Usize where
  fixedSize := 8
  wiringRef n := lenWiring n.toNat
  syncWiring n := lenSyncWiring n.toNat
  concatArray n buf := copyPrefix (usizeU64 n.toNat).toBeBytes buf

instance : Wiring Char where
  wiringRef c := wiring (charU32 c)
  syncWiring c := syncWiring (charU32 c)

/-- `()` is wired as a byte, so that the other end sees it. -/
instance : Wiring Unit where
  wiringRef _ := wiring (.ofNat 0 : U8)
  syncWiring _ := syncWiring (.ofNat 0 : U8)

instance : Wiring Bool where
  fixedSize := 1
  mixed := false
  wiringRef b := emit (boolU8 b).toBeBytes
  syncWiring b := syncWiring (boolU8 b)
  concatArray b buf := copyPrefix (boolU8 b).toBeBytes buf

/-! ## Strings -/

/-- `T::wiring_slice` for the bytes of a string. -/
def bytesWiring (bytes : Bytes) : IoM Bytes Unit := do
  lenWiring bytes.length
  emit bytes

instance : Wiring RString where
  wiringRef s := bytesWiring s.bytes
  syncWiring s := do
    lenSyncWiring s.bytes.length
    Wire.syncWireAll true s.bytes

instance : Wiring Str where
  wiringRef s := bytesWiring s.str.bytes
  syncWiring s := do
    lenSyncWiring s.str.bytes.length
    Wire.syncWireAll true s.str.bytes

instance {U : UrlCrate} : Wiring (Url U) where
  wiringRef u := wiring (Str.mk u.asStr)
  syncWiring u := syncWiring (Str.mk u.asStr)

/-! ## Pointers and collections -/

section

variable {α β γ : Type} [Wiring α] [Wiring β] [Wiring γ]

instance [RustType α] : Wiring (Slice α) where
  wiringRef s := wiringSlice s.vec.toList
  syncWiring s := syncWiringSlice s.vec.toList

instance {N : Nat} : Wiring (ArrayRef α N) where
  wiringRef a := wiringArrayRef a.array
  syncWiring a := syncWiringArray a.array

/-- The elements fill one range of the buffer after another. -/
def concatArrayFrom : List α → Nat → Bytes → Except (Stop IoError) Bytes
  | [], _, buf => .ok buf
  | elem :: elems, start, buf => do
      let stop := start + fixedSize α
      let buf ← onRange start stop (concatArray elem) buf
      concatArrayFrom elems stop buf

instance {N : Nat} : Wiring (List.Vector α N) where
  fixedSize := fixedSize α * N
  mixed := mixed α
  wiring a := wiringArray a
  wiringRef a := wiringArrayRef a
  syncWiring a := syncWiringArray a
  concatArray a buf := concatArrayFrom a.toList 0 buf

instance [RustType α] : Wiring (Vec α) where
  wiring v := wiringVec v.toList
  wiringRef v := wiringSlice v.toList
  syncWiring v := syncWiringSlice v.toList

instance [RustType α] : Wiring (BoxSlice α) where
  wiring b := wiring b.vec
  wiringRef b := wiring (Slice.mk b.vec)
  syncWiring b := syncWiring (Slice.mk b.vec)

instance : Wiring (Box α) where
  wiring b := wiring b.inner
  wiringRef b := wiringRef b.inner
  syncWiring b := syncWiring b.inner

instance : Wiring (Arc α) where
  wiring a := wiringArc a
  wiringRef a := wiringRef a.inner
  syncWiring a := syncWiring a.inner

instance [RustType α] : Wiring (HashSet α) where
  wiring s := do
    wiring (usizeU64 s.toList.length)
    s.toList.forM wiring
  wiringRef s := do
    lenWiring s.toList.length
    s.toList.forM wiringRef
  syncWiring s := do
    lenSyncWiring s.toList.length
    s.toList.forM syncWiring

instance : Wiring (Option α) where
  wiring
    | some t => do
        wiring (.ofNat 1 : U8)
        wiring t
    | none => wiring (.ofNat 0 : U8)
  wiringRef
    | some t => do
        wiring (.ofNat 1 : U8)
        wiringRef t
    | none => wiring (.ofNat 0 : U8)
  syncWiring
    | some t => do
        syncWiring (.ofNat 1 : U8)
        syncWiring t
    | none => syncWiring (.ofNat 0 : U8)

/-! ## Tuples -/

/-- Without the `generic_const_exprs` feature. `MIXED` is
`T::MIXED || T::MIXED`: the second component is not asked. -/
instance : Wiring (α × β) where
  fixedSize := fixedSize α + fixedSize β
  mixed := mixed α || mixed α
  wiring p := do
    wiring p.1
    wiring p.2
  wiringRef p := do
    wiringRef p.1
    wiringRef p.2
  syncWiring p := do
    syncWiring p.1
    syncWiring p.2
  concatArray p := onSplit (fixedSize α) (concatArray p.1) (concatArray p.2)

instance : Wiring (Triple α β γ) where
  fixedSize := fixedSize α + fixedSize β + fixedSize γ
  wiring p := do
    wiring p.fst
    wiring p.snd
    wiring p.trd
  wiringRef p := do
    wiringRef p.fst
    wiringRef p.snd
    wiringRef p.trd
  syncWiring p := do
    syncWiring p.fst
    syncWiring p.snd
    syncWiring p.trd
  concatArray p buf := do
    let buf ← onRange 0 (fixedSize α) (concatArray p.fst) buf
    let buf ← onRange (fixedSize α) (fixedSize α + fixedSize β)
      (concatArray p.snd) buf
    onRange (fixedSize α + fixedSize β) buf.length (concatArray p.trd) buf

end

/-! ## The handshake and the wired stream -/

instance {U : UrlCrate} : Wiring (ConnectInfo U) where
  wiringRef
    | .tcpStream addr => do
        wiring (.ofNat 0 : U8)
        wiringRef addr
    | .url url => do
        wiring (.ofNat 1 : U8)
        wiringRef url
  syncWiring
    | .tcpStream addr => do
        syncWiring (.ofNat 0 : U8)
        syncWiring addr
    | .url url => do
        syncWiring (.ofNat 1 : U8)
        syncWiring url

instance {U : UrlCrate} : Wiring (WireInfo U) where
  wiring w := do
    wiring w.wireId
    wiring w.accessKey
    wiring w.connectInfo
  wiringRef w := do
    wiringRef w.wireId
    wiringRef w.accessKey
    wiringRef w.connectInfo
  syncWiring w := do
    syncWiring w.wireId
    syncWiring w.accessKey
    syncWiring w.connectInfo

instance {α : Type} [Wiring α] : Wiring (WiringEvent α) where
  wiring
    | .event event => do
        wiring (.ofNat 0 : U8)
        wiring event
    | .message streamId isLocal message => do
        wiring (.ofNat 1 : U8)
        wiring streamId
        wiring isLocal
        wiring message
    | .drop streamId isLocal => do
        wiring (.ofNat 2 : U8)
        wiring streamId
        wiring isLocal
  wiringRef
    | .event event => do
        wiring (.ofNat 0 : U8)
        wiringRef event
    | .message streamId isLocal message => do
        wiring (.ofNat 1 : U8)
        wiringRef streamId
        wiringRef isLocal
        wiringRef message
    | .drop streamId isLocal => do
        wiring (.ofNat 2 : U8)
        wiringRef streamId
        wiringRef isLocal
  syncWiring
    | .event event => do
        syncWiring (.ofNat 0 : U8)
        syncWiring event
    | .message streamId isLocal message => do
        syncWiring (.ofNat 1 : U8)
        syncWiring streamId
        syncWiring isLocal
        syncWiring message
    | .drop streamId isLocal => do
        syncWiring (.ofNat 2 : U8)
        syncWiring streamId
        syncWiring isLocal

/-! ## Derived structs -/

section

variable {n : Nat} {d : StructDecl n} {ty : Fin n → Type} [∀ i, Wiring (ty i)]

/-- The buffer of a group and the index into it. -/
def concatCall (s : Struct d ty) : Bytes × Nat → ConcatCall (Fin n) →
    Except (Stop IoError) (Bytes × Nat)
  | (a, _), .start f => do
      let a ← concatArray (s.field f) a
      .ok (a, fixedSize (ty f))
  | (a, i), .mid f => do
      let a ← onRange i (i + fixedSize (ty f)) (concatArray (s.field f)) a
      .ok (a, i + fixedSize (ty f))
  | (a, i), .last f => do
      let a ← onRange i (i + fixedSize (ty f)) (concatArray (s.field f)) a
      .ok (a, i + fixedSize (ty f))

/-- The bytes a group hands to its write call. -/
def groupBytes (s : Struct d ty) (sizes : List (Fin n))
    (calls : List (ConcatCall (Fin n))) : Except (Stop IoError) Bytes := do
  let len := (sizes.map fun f => fixedSize (ty f)).sum
  let (a, i) ← calls.foldlM (concatCall s) (List.replicate len 0, 0)
  .ok (a.take i)

/-- A generated encoder body: fields are wired by `field`, groups written by
`write`. -/
def runCalls {σ : Type} (s : Struct d ty) (field : Fin n → IoM σ Unit)
    (write : Bytes → IoM σ Unit) (calls : List (Call (Fin n))) : IoM σ Unit :=
  calls.forM fun
    | .field f => field f
    | .group sizes calls => do
        let a ← Act.lift (groupBytes s sizes calls)
        write a

/-- `concat_array` splits the buffer at one field after another. -/
def concatFields (s : Struct d ty) :
    List (Fin n) → Bytes → Except (Stop IoError) Bytes
  | [], buf => .ok buf
  | f :: fs, buf =>
      onSplit (fixedSize (ty f)) (concatArray (s.field f)) (concatFields s fs) buf

instance : Wiring (Struct d ty) where
  fixedSize := ((List.finRange n).map fun f => fixedSize (ty f)).sum
  mixed := (List.finRange n).any fun f => mixed (ty f)
  -- a group is a `&[u8]` here, which writes its length first
  wiring s := runCalls s (fun f => wiring (s.field f)) bytesWiring
    d.calls.wiringCalls
  wiringRef s := runCalls s (fun f => wiringRef (s.field f)) bytesWiring
    d.calls.wiringRefCalls
  syncWiring s := runCalls s (fun f => syncWiring (s.field f))
    (Wire.syncWireAll true) d.calls.syncWiringCalls
  concatArray s buf := concatFields s (List.finRange n) buf

end

instance : Wiring UnitStruct where
  fixedSize := 1
  mixed := false
  wiring _ := wiring ()
  wiringRef _ := wiringRef ()
  syncWiring _ := syncWiring ()
  concatArray _ buf := copyPrefix [1] buf

/-! ## Derived enums -/

section

variable {d : EnumDecl} {ty : (v : Fin d.variants) → Fin (d.arity v) → Type}
  [∀ v i, Wiring (ty v i)]

/-- `#idx as #tag` -/
def Enum.idx (e : Enum d ty) : Prim d.tag := .ofNat e.variant

instance : Wiring (Enum d ty) where
  fixedSize := d.tag.size
  wiring e := do
    wiring e.idx
    (List.finRange _).forM fun i => wiring (e.field i)
  wiringRef e := do
    wiring e.idx
    (List.finRange _).forM fun i => wiringRef (e.field i)
  syncWiring e := do
    syncWiring e.idx
    (List.finRange _).forM fun i => syncWiring (e.field i)
  -- only unit variants are supported for concat
  concatArray e buf := if d.unit e.variant then concatArray e.idx buf else .ok buf

end

end WiringRs
