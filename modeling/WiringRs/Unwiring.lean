import Mathlib.Data.List.FinRange
import WiringRs.Derive
import WiringRs.Unwire

/-!
# The decoders

The `Unwiring` trait and its implementations: an asynchronous decoder over the
bytes of a stream, a synchronous one over any reader, and `bytesLength`, the
pre-pass that measures the bytes of `count` values without building them.

Arithmetic on `u64` is checked: an overflow is a panic.
-/

namespace WiringRs

section

variable {σ : Type}

/-- `a + b` on `u64`. -/
def addU64 (a b : Nat) : IoM σ Nat :=
  if a + b < 2 ^ 64 then pure (a + b) else Act.panic

/-- `a * b` on `u64`. -/
def mulU64 (a b : Nat) : IoM σ Nat :=
  if a * b < 2 ^ 64 then pure (a * b) else Act.panic

/-- Advance by `len` bytes and report them. -/
def advanceBy [Unwire σ] (len : Nat) : IoM σ Nat := do
  Unwire.advancePosition len
  pure len

end

/-! ## The trait -/

class Unwiring (α : Type) [RustType α] where
  fixedSize : Nat := 0
  mixed : Bool := true
  unwiring : IoM Bytes α
  syncUnwiring : {σ : Type} → [Unwire σ] → IoM σ α := Act.fail
    ⟨.unsupported, "Type doesn't support sync unwiring: " ++ typeName α⟩
  /-- The length of `count` values, the length prefixes included. -/
  bytesLength : {σ : Type} → [Unwire σ] → Nat → IoM σ Nat := fun count => do
    let len ← mulU64 (memSize α) count
    advanceBy len

section

variable {σ α : Type} [Unwire σ] [RustType α] [Unwiring α]

/-- `wire.unwiring::<T>()` -/
abbrev unwiring : IoM Bytes α := Unwiring.unwiring

/-- `wire.sync_unwiring::<T>()` -/
abbrev syncUnwiring : IoM σ α := Unwiring.syncUnwiring

/-- `T::bytes_length(wire, count)` -/
abbrev bytesLength (α : Type) [RustType α] [Unwiring α] (count : Nat) : IoM σ Nat :=
  Unwiring.bytesLength α count

/-- `Vec::with_capacity(len)`, then `len` values. -/
def collect (len : Nat) (x : IoM σ α) : IoM σ (Vec α) :=
  if h : CapacityFits α len then do
    let data ← Act.times len x
    pure ⟨data.toList, by rw [data.toList_length]; exact h⟩
  else Act.panic

def unwiringVec : IoM Bytes (Vec α) := do
  let len ← asyncReadPrim .u64
  collect len.toNat unwiring

def unwiringArray {N : Nat} : IoM Bytes (List.Vector α N) :=
  Act.times N unwiring

def syncUnwiringVec : IoM σ (Vec α) := do
  let len ← Unwire.syncUnwireU64
  collect len.toNat syncUnwiring

def syncUnwiringArray {N : Nat} : IoM σ (List.Vector α N) :=
  Act.times N syncUnwiring

end

/-! ## Integers, floats, `()` and bool -/

/-- The implementations of the integers and floats, which differ in the two
constants and in the call the synchronous decoder makes. -/
@[reducible] def primUnwiring (t : PrimTy) (fixedSize : Nat)
    (syncUnwiring : {σ : Type} → [Unwire σ] → IoM σ (Prim t)) :
    Unwiring (Prim t) where
  fixedSize := fixedSize
  mixed := false
  unwiring := asyncReadPrim t
  syncUnwiring := syncUnwiring

/-- `wire.read_exact(&mut buf)?; Ok(Self::from_be_bytes(buf))` -/
def syncReadPrim {σ : Type} [Unwire σ] (t : PrimTy) : IoM σ (Prim t) := do
  let buf ← Unwire.readExact t.size
  pure (.fromBeBytes buf)

@[reducible] def u8Unwiring : Unwiring (Prim .u8) :=
  primUnwiring .u8 1 Unwire.syncUnwireU8

@[reducible] def i8Unwiring : Unwiring (Prim .i8) :=
  primUnwiring .i8 1 do
    let n ← Unwire.syncUnwireU8
    pure n.cast

@[reducible] def u16Unwiring : Unwiring (Prim .u16) :=
  primUnwiring .u16 2 Unwire.syncUnwireU16

@[reducible] def i16Unwiring : Unwiring (Prim .i16) :=
  primUnwiring .i16 2 do
    let n ← Unwire.syncUnwireU16
    pure n.cast

@[reducible] def u32Unwiring : Unwiring (Prim .u32) :=
  primUnwiring .u32 4 Unwire.syncUnwireU32

@[reducible] def i32Unwiring : Unwiring (Prim .i32) :=
  primUnwiring .i32 4 do
    let n ← Unwire.syncUnwireU32
    pure n.cast

/-- `FIXED_SIZE` keeps its default of zero, for both floats. -/
@[reducible] def f32Unwiring : Unwiring (Prim .f32) :=
  primUnwiring .f32 0 Unwire.syncUnwireF32

@[reducible] def u64Unwiring : Unwiring (Prim .u64) :=
  primUnwiring .u64 8 Unwire.syncUnwireU64

@[reducible] def i64Unwiring : Unwiring (Prim .i64) :=
  primUnwiring .i64 8 do
    let n ← Unwire.syncUnwireU64
    pure n.cast

@[reducible] def f64Unwiring : Unwiring (Prim .f64) :=
  primUnwiring .f64 0 (syncReadPrim .f64)

@[reducible] def u128Unwiring : Unwiring (Prim .u128) :=
  primUnwiring .u128 16 (syncReadPrim .u128)

@[reducible] def i128Unwiring : Unwiring (Prim .i128) :=
  primUnwiring .i128 16 (syncReadPrim .i128)

instance (t : PrimTy) : Unwiring (Prim t) :=
  match t with
  | .u8 => u8Unwiring
  | .i8 => i8Unwiring
  | .u16 => u16Unwiring
  | .i16 => i16Unwiring
  | .u32 => u32Unwiring
  | .i32 => i32Unwiring
  | .u64 => u64Unwiring
  | .i64 => i64Unwiring
  | .u128 => u128Unwiring
  | .i128 => i128Unwiring
  | .f32 => f32Unwiring
  | .f64 => f64Unwiring

instance : Unwiring Unit where
  unwiring := do
    let n ← asyncReadPrim .u8
    if n.toNat = 0 then pure ()
    else Act.fail ⟨.invalidData, "Unexpected u8 data for ()"⟩
  syncUnwiring := do
    let n ← Unwire.syncUnwireU8
    if n.toNat = 0 then pure ()
    else Act.fail ⟨.invalidData, "Unexpected u8 unwiring data for ()"⟩
  bytesLength count := advanceBy (1 * count)

instance : Unwiring Bool where
  unwiring := do
    let n ← asyncReadPrim .u8
    pure (n.toNat != 0)
  syncUnwiring := do
    let r ← Unwire.syncUnwireU8
    pure (r.toNat != 0)

/-! ## Strings -/

instance [RustType RString] : Unwiring RString where
  unwiring := do
    let len ← asyncReadPrim .u64
    readToString len.toNat
  syncUnwiring := Unwire.syncUnwireString
  bytesLength count := do
    let total ← mulU64 8 count
    Act.iter count (fun total => do
      let len ← Unwire.syncUnwireU64
      let total ← addU64 total len.toNat
      Unwire.advancePosition len.toNat
      pure total) total

/-- `Url::from_str(&url)`, with its error text mapped to an `InvalidData`. -/
def urlFromStr {σ : Type} {U : UrlCrate} (s : RString) (msg : String → String) :
    IoM σ (Url U) :=
  match Url.fromStr s with
  | .ok u => pure u
  | .error e => Act.fail ⟨.invalidData, msg e⟩

instance {U : UrlCrate} [RustType RString] [RustType (Url U)] :
    Unwiring (Url U) where
  unwiring := do
    let url ← unwiring
    urlFromStr url fun _ => "Unable to unwire Url from String"
  syncUnwiring := do
    let url ← syncUnwiring
    urlFromStr url id

/-! ## Pointers and collections -/

section

variable {α β γ : Type} [RustType α] [RustType β] [RustType γ] [Unwiring α]
  [Unwiring β] [Unwiring γ]

instance {N : Nat} [RustType (List.Vector α N)] :
    Unwiring (List.Vector α N) where
  fixedSize := Unwiring.fixedSize α * N
  mixed := Unwiring.mixed α
  unwiring := unwiringArray
  syncUnwiring := syncUnwiringArray
  bytesLength count := do
    let n ← mulU64 N count
    bytesLength α n

instance [RustType (Arc α)] : Unwiring (Arc α) where
  unwiring := do
    let v ← unwiring
    pure ⟨v⟩
  syncUnwiring := do
    let v ← syncUnwiring
    pure ⟨v⟩

instance [RustType (Box α)] : Unwiring (Box α) where
  unwiring := do
    let v ← unwiring
    pure ⟨v⟩
  syncUnwiring := do
    let v ← syncUnwiring
    pure ⟨v⟩

/-- The pre-pass is the one of `count` elements. -/
instance [RustType (BoxSlice α)] : Unwiring (BoxSlice α) where
  unwiring := do
    let vec ← unwiringVec
    pure ⟨vec⟩
  syncUnwiring := do
    let vec ← syncUnwiringVec
    pure ⟨vec⟩
  bytesLength count := bytesLength α count

instance [RustType (Vec α)] : Unwiring (Vec α) where
  unwiring := unwiringVec
  syncUnwiring := syncUnwiringVec
  bytesLength count := do
    let total ← mulU64 8 count
    Act.iter count (fun total => do
      let thisCount ← Unwire.syncUnwireU64
      if !Unwiring.mixed α then do
        let len ← mulU64 (Unwiring.fixedSize α) thisCount.toNat
        let total ← addU64 total len
        Unwire.advancePosition len
        pure total
      else do
        let len ← bytesLength α thisCount.toNat
        addU64 total len) total

/-- `HashSet::with_capacity(len)`, then `len` insertions. -/
def collectSet [DecidableEq α] {σ : Type} (len : Nat) (x : IoM σ α) :
    IoM σ (HashSet α) :=
  if h : HashFits α len then do
    let data ← Act.times len x
    pure ⟨insertAll data.toList, insertAll_nodup _, h.mono (by
      have := insertAll_length data.toList
      rwa [data.toList_length] at this)⟩
  else Act.panic

instance [DecidableEq α] [RustType (HashSet α)] : Unwiring (HashSet α) where
  unwiring := do
    let len ← asyncReadPrim .u64
    collectSet len.toNat unwiring
  syncUnwiring := do
    let len ← Unwire.syncUnwireU64
    collectSet len.toNat syncUnwiring

/-- A key and its value. -/
def entry {σ : Type} (x : IoM σ α) (y : IoM σ β) : IoM σ (α × β) := do
  let k ← x
  let v ← y
  pure (k, v)

/-- Inserting the entries into a map, in order. -/
def insertEntries [DecidableEq α] (l : List (α × β)) : AList fun _ : α => β :=
  l.foldl (fun map e => map.insert e.1 e.2) ∅

/-- `HashMap::with_capacity(len)`, then `len` insertions. -/
def collectMap [DecidableEq α] [RustType (α × β)] {σ : Type} (len : Nat)
    (x : IoM σ α) (y : IoM σ β) : IoM σ (AList fun _ : α => β) :=
  if HashFits (α × β) len then do
    let data ← Act.times len (entry x y)
    pure (insertEntries data.toList)
  else Act.panic

instance [DecidableEq α] [RustType (α × β)] [RustType (HashMap α β)] :
    Unwiring (HashMap α β) where
  unwiring := do
    let len ← asyncReadPrim .u64
    let map ← collectMap len.toNat unwiring unwiring
    pure ⟨map⟩
  syncUnwiring := do
    let len ← Unwire.syncUnwireU64
    let map ← collectMap len.toNat syncUnwiring syncUnwiring
    pure ⟨map⟩

/-- `BTreeMap::new()`, then `len` insertions. -/
instance [DecidableEq α] [RustType (BTreeMap α β)] :
    Unwiring (BTreeMap α β) where
  unwiring := do
    let len ← asyncReadPrim .u64
    let data ← Act.times len.toNat (entry unwiring unwiring)
    pure ⟨insertEntries data.toList⟩
  syncUnwiring := do
    let len ← Unwire.syncUnwireU64
    let data ← Act.times len.toNat (entry syncUnwiring syncUnwiring)
    pure ⟨insertEntries data.toList⟩

instance [DecidableEq α] [RustType (BTreeSet α)] : Unwiring (BTreeSet α) where
  unwiring := do
    let len ← asyncReadPrim .u64
    let data ← Act.times len.toNat unwiring
    pure ⟨insertAll data.toList, insertAll_nodup _⟩
  syncUnwiring := do
    let len ← Unwire.syncUnwireU64
    let data ← Act.times len.toNat syncUnwiring
    pure ⟨insertAll data.toList, insertAll_nodup _⟩

/-- The error of a variant byte that is neither 0 nor 1. -/
def unexpectedVariant (α : Type) [RustType α] : IoError :=
  ⟨.invalidData, "Unwiring " ++ typeName α ++ " unexpected variant"⟩

instance [RustType (Option α)] : Unwiring (Option α) where
  unwiring := do
    let variant ← asyncReadPrim .u8
    if variant.toNat = 0 then pure none
    else if variant.toNat = 1 then do
      let t ← unwiring
      pure (some t)
    else Act.fail (unexpectedVariant (Option α))
  syncUnwiring := do
    let variant ← Unwire.syncUnwireU8
    if variant.toNat = 0 then pure none
    else if variant.toNat = 1 then do
      let t ← syncUnwiring
      pure (some t)
    else Act.fail (unexpectedVariant (Option α))
  bytesLength count := Act.iter count (fun total => do
    let variant ← Unwire.syncUnwireU8
    if variant.toNat = 1 then do
      let len ← bytesLength α 1
      addU64 total len
    else pure total) (1 * count)

/-- Here `MIXED` asks whether both are mixed. -/
instance [RustType (α × β)] : Unwiring (α × β) where
  fixedSize := Unwiring.fixedSize α + Unwiring.fixedSize β
  mixed := Unwiring.mixed α && Unwiring.mixed β
  unwiring := do
    let a ← unwiring
    let b ← unwiring
    pure (a, b)
  syncUnwiring := do
    let a ← syncUnwiring
    let b ← syncUnwiring
    pure (a, b)
  bytesLength count := Act.iter count (fun total => do
    let len ← bytesLength α 1
    let total ← addU64 total len
    let len ← bytesLength β 1
    addU64 total len) 0

instance [RustType (Triple α β γ)] : Unwiring (Triple α β γ) where
  fixedSize := Unwiring.fixedSize α + Unwiring.fixedSize β + Unwiring.fixedSize γ
  mixed := Unwiring.mixed α && Unwiring.mixed β && Unwiring.mixed γ
  unwiring := do
    let a ← unwiring
    let b ← unwiring
    let c ← unwiring
    pure ⟨a, b, c⟩
  syncUnwiring := do
    let a ← syncUnwiring
    let b ← syncUnwiring
    let c ← syncUnwiring
    pure ⟨a, b, c⟩
  bytesLength count := Act.iter count (fun total => do
    let len ← bytesLength α 1
    let total ← addU64 total len
    let len ← bytesLength β 1
    let total ← addU64 total len
    let len ← bytesLength γ 1
    addU64 total len) 0

end

/-! ## Derived structs -/

section

variable {n : Nat} {d : StructDecl n} {ty : Fin n → Type} [∀ i, RustType (ty i)]
  [∀ i, Unwiring (ty i)]

/-- The lengths of the given fields, added to a running total. -/
def fieldsLength {σ : Type} [Unwire σ] (ty : Fin n → Type) [∀ i, RustType (ty i)]
    [∀ i, Unwiring (ty i)] : List (Fin n) → Nat → IoM σ Nat
  | [], total => pure total
  | f :: fs, total => do
      let len ← bytesLength (ty f) 1
      let total ← addU64 total len
      fieldsLength ty fs total

instance [RustType (Struct d ty)] : Unwiring (Struct d ty) where
  fixedSize := ((List.finRange n).map fun f => Unwiring.fixedSize (ty f)).sum
  mixed := (List.finRange n).any fun f => Unwiring.mixed (ty f)
  unwiring := do
    let field ← Act.sequence n fun _ => unwiring
    pure ⟨field⟩
  syncUnwiring := do
    let field ← Act.sequence n fun _ => syncUnwiring
    pure ⟨field⟩
  bytesLength count :=
    Act.iter count (fieldsLength ty (List.finRange n)) 0

end

instance [RustType UnitStruct] : Unwiring UnitStruct where
  fixedSize := 1
  mixed := false
  unwiring := do
    unwiring (α := Unit)
    pure ⟨⟩
  syncUnwiring := do
    syncUnwiring (α := Unit)
    pure ⟨⟩
  bytesLength count := advanceBy (1 * count)

/-! ## Derived enums -/

section

variable {d : EnumDecl} {ty : (v : Fin d.variants) → Fin (d.arity v) → Type}
  [∀ v i, RustType (ty v i)] [∀ v i, Unwiring (ty v i)]

/-- The arm of a tag that is no variant's index. -/
def EnumDecl.unexpected (d : EnumDecl) : IoError :=
  ⟨.invalidData, "Unexpected variant for " ++ d.ident⟩

/-- `match taged { .. }`, for the arms of the variants. -/
def EnumDecl.matchTag {σ β : Type} (d : EnumDecl) (taged : Nat)
    (arm : Fin d.variants → IoM σ β) : IoM σ β :=
  if h : taged < d.variants then arm ⟨taged, h⟩ else Act.fail d.unexpected

instance [RustType (Enum d ty)] : Unwiring (Enum d ty) where
  unwiring := do
    let taged ← unwiring (α := Prim d.tag)
    d.matchTag taged.toNat fun v => do
      let field ← Act.sequence (d.arity v) fun _ => unwiring
      pure ⟨v, field⟩
  syncUnwiring := do
    let taged ← syncUnwiring (α := Prim d.tag)
    d.matchTag taged.toNat fun v => do
      let field ← Act.sequence (d.arity v) fun _ => syncUnwiring
      pure ⟨v, field⟩
  bytesLength count := do
    let total ← mulU64 d.tag.size count
    Act.iter count (fun total => do
      let taged ← syncUnwiring (α := Prim d.tag)
      d.matchTag taged.toNat fun v =>
        fieldsLength (ty v) (List.finRange (d.arity v)) total) total

end

/-! ## The handshake and the wired stream

These have no synchronous decoder. -/

instance {U : UrlCrate} [RustType RString] [RustType (Url U)]
    [RustType (ConnectInfo U)] : Unwiring (ConnectInfo U) where
  unwiring := do
    let n ← asyncReadPrim .u8
    if n.toNat = 0 then do
      let addr ← unwiring
      pure (.tcpStream addr)
    else if n.toNat = 1 then do
      let url ← unwiring
      pure (.url url)
    else Act.fail ⟨.invalidData, "Unexpected Connect info variant"⟩

instance {U : UrlCrate} [RustType RString] [RustType (Url U)]
    [RustType (ConnectInfo U)] [RustType (WireInfo U)] :
    Unwiring (WireInfo U) where
  unwiring := do
    let wireId ← asyncReadPrim .u64
    let accessKey ← asyncReadPrim .u128
    let connectInfo ← unwiring
    pure ⟨wireId, accessKey, connectInfo⟩

instance {α : Type} [RustType α] [Unwiring α] [RustType (Vec U8)]
    [RustType (WiringEvent α)] : Unwiring (WiringEvent α) where
  unwiring := do
    let variant ← asyncReadPrim .u8
    if variant.toNat = 0 then do
      let event ← unwiring
      pure (.event event)
    else if variant.toNat = 1 then do
      let streamId ← asyncReadPrim .u64
      let isLocal ← unwiring
      let message ← unwiring
      pure (.message streamId isLocal message)
    else if variant.toNat = 2 then do
      let streamId ← asyncReadPrim .u64
      let isLocal ← unwiring
      pure (.drop streamId isLocal)
    else Act.fail ⟨.invalidData, "Unexpected Wiringevent variant"⟩

end WiringRs
