import Mathlib.Data.List.AList
import WiringRs.Lib.Act
import WiringRs.Lib.BigEndian
import WiringRs.Lib.RawTable

/-!
# Values

The Rust types the codec is implemented for, on a target with 64-bit `usize`.
A type that keeps an invariant in Rust keeps it here as a field: a `String` is
a UTF-8 byte string, and no allocation holds more than `isize::MAX` bytes, so a
`Vec` of `n` elements has `n * size_of::<T>() ≤ isize::MAX`. The in-memory
size of a type is `RustType.memSize`; for most types it is the compiler's
choice, so the instances stay parameters.
-/

namespace WiringRs

abbrev Bytes := List UInt8

def usizeMax : Nat := 2 ^ 64 - 1

def isizeMax : Nat := 2 ^ 63 - 1

/-- `std::mem::size_of` and `std::any::type_name` of a type. -/
class RustType (α : Type) where
  memSize : Nat
  typeName : String

export RustType (memSize typeName)

/-! ## Errors -/

inductive ErrorKind where
  | unexpectedEof
  | invalidData
  | unsupported
  | outOfMemory
  | permissionDenied
  | notFound
  | brokenPipe
deriving DecidableEq, Repr

structure IoError where
  kind : ErrorKind
  msg : String
deriving DecidableEq, Repr

/-- A call of the crate: it returns, or stops with an `io::Error`, a panic or
an out-of-bounds access. -/
abbrev IoM (σ α : Type) := Act IoError σ α

def eof : IoError := ⟨.unexpectedEof, "failed to fill whole buffer"⟩

/-! ## Integers and floats

Only the bits are wired, so a value is its bits: floats are bit patterns, and
a cast between types of one width keeps the bits. -/

inductive PrimTy where
  | u8 | i8 | u16 | i16 | u32 | i32 | u64 | i64 | u128 | i128 | f32 | f64
deriving DecidableEq, Repr

def PrimTy.size : PrimTy → Nat
  | .u8 | .i8 => 1
  | .u16 | .i16 => 2
  | .u32 | .i32 | .f32 => 4
  | .u64 | .i64 | .f64 => 8
  | .u128 | .i128 => 16

structure Prim (t : PrimTy) where
  toNat : Nat
  lt : toNat < 256 ^ t.size
deriving DecidableEq

namespace Prim

variable {t : PrimTy}

@[ext] theorem ext {p q : Prim t} (h : p.toNat = q.toNat) : p = q := by
  cases p; cases q; cases h; rfl

/-- The value with the low bits of `k`. -/
def ofNat (k : Nat) : Prim t :=
  ⟨k % 256 ^ t.size, Nat.mod_lt _ (Nat.pow_pos (by decide))⟩

theorem toNat_ofNat {k : Nat} (h : k < 256 ^ t.size) :
    (ofNat k : Prim t).toNat = k := Nat.mod_eq_of_lt h

@[simp] theorem ofNat_toNat (p : Prim t) : ofNat p.toNat = p :=
  ext (Nat.mod_eq_of_lt p.lt)

def toBeBytes (p : Prim t) : Bytes := toBe t.size p.toNat

def fromBeBytes (bs : Bytes) : Prim t := ofNat (ofBe bs)

@[simp] theorem length_toBeBytes (p : Prim t) :
    p.toBeBytes.length = t.size := length_toBe _ _

@[simp] theorem fromBeBytes_toBeBytes (p : Prim t) :
    fromBeBytes p.toBeBytes = p := by
  rw [fromBeBytes, toBeBytes, ofBe_toBe p.lt, ofNat_toNat]

/-- Two integers of one width at the start of a list are the same. -/
theorem append_inj {p q : Prim t} {bs cs : Bytes}
    (h : p.toBeBytes ++ bs = q.toBeBytes ++ cs) : p = q ∧ bs = cs := by
  obtain ⟨hbytes, hrest⟩ := List.append_inj h (by rw [length_toBeBytes, length_toBeBytes])
  refine ⟨?_, hrest⟩
  rw [← fromBeBytes_toBeBytes p, hbytes, fromBeBytes_toBeBytes]

theorem toBeBytes_fromBeBytes {bs : Bytes} (h : bs.length = t.size) :
    (fromBeBytes bs : Prim t).toBeBytes = bs := by
  rw [toBeBytes, fromBeBytes, toNat_ofNat (by rw [← h]; exact ofBe_lt bs), ← h]
  exact toBe_ofBe bs

/-- `as` between types of one width. -/
def cast {t' : PrimTy} (p : Prim t') : Prim t := ofNat p.toNat

theorem cast_fromBeBytes {t' : PrimTy} (h : t'.size = t.size) (bs : Bytes) :
    (fromBeBytes bs : Prim t').cast = (fromBeBytes bs : Prim t) :=
  ext (by simp [cast, fromBeBytes, ofNat, h])

def toByte (p : Prim .u8) : UInt8 := UInt8.ofNat p.toNat

end Prim

abbrev U8 := Prim .u8
abbrev U16 := Prim .u16
abbrev U32 := Prim .u32
abbrev U64 := Prim .u64
abbrev U128 := Prim .u128
abbrev F32 := Prim .f32

theorem Prim.toBeBytes_u8 (p : U8) : p.toBeBytes = [p.toByte] := by
  simp [toBeBytes, toBe, toByte, PrimTy.size]

def PrimTy.name : PrimTy → String
  | .u8 => "u8" | .i8 => "i8" | .u16 => "u16" | .i16 => "i16" | .u32 => "u32"
  | .i32 => "i32" | .u64 => "u64" | .i64 => "i64" | .u128 => "u128"
  | .i128 => "i128" | .f32 => "f32" | .f64 => "f64"

instance {t : PrimTy} : RustType (Prim t) := ⟨t.size, t.name⟩

instance : RustType Bool := ⟨1, "bool"⟩

instance : RustType Unit := ⟨0, "()"⟩

structure Usize where
  toNat : Nat
  lt : toNat < 2 ^ 64
deriving DecidableEq

/-- `n as u64`, for a `usize`. -/
def usizeU64 (n : Nat) : U64 := .ofNat n

/-- `self as u32` -/
def charU32 (c : Char) : U32 := .ofNat c.val.toNat

def boolU8 (b : Bool) : U8 := .ofNat b.toNat

/-! ## Strings -/

abbrev Utf8 (b : Bytes) : Prop := ByteArray.IsValidUTF8 ⟨b.toArray⟩

theorem utf8_nil : Utf8 [] := ByteArray.isValidUTF8_empty

theorem utf8_ofChars (l : List Char) :
    Utf8 (l.flatMap String.utf8EncodeChar) := by
  have h := @ByteArray.isValidUTF8_utf8Encode l
  have hl : l.utf8Encode = ⟨(l.flatMap String.utf8EncodeChar).toArray⟩ := by
    unfold List.utf8Encode
    exact ByteArray.ext (by simp)
  rwa [hl] at h

structure RString where
  bytes : Bytes
  utf8 : Utf8 bytes
  fits : bytes.length ≤ isizeMax

@[ext] theorem RString.ext {s t : RString} (h : s.bytes = t.bytes) : s = t := by
  cases s; cases t; cases h; rfl

def RString.ofChars (l : List Char)
    (h : (l.flatMap String.utf8EncodeChar).length ≤ isizeMax) : RString :=
  ⟨_, utf8_ofChars l, h⟩

def emptyString : RString := ⟨[], utf8_nil, Nat.zero_le _⟩

instance : DecidableEq RString := fun s t =>
  decidable_of_iff (s.bytes = t.bytes) ⟨RString.ext, fun h => h ▸ rfl⟩

/-- `String::from_utf8` of an allocated buffer. -/
def fromUtf8 (b : Bytes) : Except (Stop IoError) RString :=
  if hf : b.length ≤ isizeMax then
    if hu : Utf8 b then .ok ⟨b, hu, hf⟩
    else .error (.err ⟨.invalidData, "invalid utf-8 sequence"⟩)
  else .error .panic

@[simp] theorem fromUtf8_bytes (s : RString) : fromUtf8 s.bytes = .ok s := by
  rw [fromUtf8, dif_pos s.fits, dif_pos s.utf8]

theorem fromUtf8_eq_ok {b : Bytes} {s : RString} (h : fromUtf8 b = .ok s) :
    s.bytes = b := by
  unfold fromUtf8 at h
  split at h
  · split at h
    · rw [← Except.ok.inj h]
    · cases h
  · cases h

structure Str where
  str : RString
deriving DecidableEq

/-- The `url` crate: `Url::as_str` and `Url::from_str`. Some string parses. -/
structure UrlCrate where
  Carrier : Type
  nonempty : Nonempty Carrier
  asStr : Carrier → RString
  /-- The error is the text of a `url::ParseError`. -/
  fromStr : RString → Except String Carrier

structure Url (U : UrlCrate) where
  val : U.Carrier

def Url.asStr {U : UrlCrate} (u : Url U) : RString := U.asStr u.val

def Url.fromStr {U : UrlCrate} (s : RString) : Except String (Url U) :=
  (U.fromStr s).map Url.mk

/-! ## Collections -/

/-- `Vec::with_capacity(n)` does not panic with capacity overflow. -/
abbrev CapacityFits (α : Type) [RustType α] (n : Nat) : Prop :=
  n ≤ usizeMax ∧ n * memSize α ≤ isizeMax

/-- `HashSet::with_capacity(n)` does not panic with capacity overflow; for a
`HashMap`, `α` is the type of its entries. -/
abbrev HashFits (α : Type) [RustType α] (n : Nat) : Prop :=
  TableFits 64 (memSize α) n

structure Vec (α : Type) [RustType α] where
  toList : List α
  fits : CapacityFits α toList.length

@[ext] theorem Vec.ext {α : Type} [RustType α] {u v : Vec α}
    (h : u.toList = v.toList) : u = v := by
  cases u; cases v; cases h; rfl

def Vec.empty {α : Type} [RustType α] : Vec α :=
  ⟨[], Nat.zero_le _, by rw [List.length_nil, Nat.zero_mul]; exact Nat.zero_le _⟩

instance {α : Type} [RustType α] [DecidableEq α] : DecidableEq (Vec α) :=
  fun u v => decidable_of_iff (u.toList = v.toList) ⟨Vec.ext, fun h => h ▸ rfl⟩

/-- `Box<[T]>` -/
structure BoxSlice (α : Type) [RustType α] where
  vec : Vec α
deriving DecidableEq

/-- `&[T]` -/
structure Slice (α : Type) [RustType α] where
  vec : Vec α
deriving DecidableEq

/-- `&[T; N]` -/
structure ArrayRef (α : Type) (N : Nat) where
  array : List.Vector α N
deriving DecidableEq

structure Box (α : Type) where
  inner : α
deriving DecidableEq

structure Arc (α : Type) where
  inner : α
deriving DecidableEq

/-- `(T, TT, TTT)` -/
structure Triple (α β γ : Type) where
  fst : α
  snd : β
  trd : γ
deriving DecidableEq

/-- A hash set, as the list its iterator yields. -/
structure HashSet (α : Type) [RustType α] where
  toList : List α
  nodup : toList.Nodup
  fits : HashFits α toList.length

/-- A B-tree set. The order of the list is not observable. -/
structure BTreeSet (α : Type) where
  toList : List α
  nodup : toList.Nodup

structure HashMap (κ ν : Type) where
  entries : AList fun _ : κ => ν

structure BTreeMap (κ ν : Type) where
  entries : AList fun _ : κ => ν

/-- `set.insert(t)` on the elements of a set. -/
def insertElem {α : Type} [DecidableEq α] (l : List α) (a : α) : List α :=
  if a ∈ l then l else l ++ [a]

theorem insertElem_nodup {α : Type} [DecidableEq α] {l : List α} (h : l.Nodup)
    (a : α) : (insertElem l a).Nodup := by
  unfold insertElem
  split
  · exact h
  · rename_i ha
    exact List.nodup_append.mpr ⟨h, List.nodup_singleton a, fun b hb c hc hbc => by
      rw [List.mem_singleton] at hc; exact ha (hc ▸ hbc ▸ hb)⟩

theorem insertElem_length {α : Type} [DecidableEq α] (l : List α) (a : α) :
    (insertElem l a).length ≤ l.length + 1 := by
  unfold insertElem
  split
  · exact Nat.le_succ _
  · simp

/-- Inserting the elements of a list in order. -/
def insertAll {α : Type} [DecidableEq α] (l : List α) : List α :=
  l.foldl insertElem []

theorem foldl_insertElem {α : Type} [DecidableEq α] (l acc : List α)
    (h : acc.Nodup) : (l.foldl insertElem acc).Nodup ∧
      (l.foldl insertElem acc).length ≤ acc.length + l.length := by
  induction l generalizing acc with
  | nil => exact ⟨h, Nat.le_refl _⟩
  | cons a l ih =>
      obtain ⟨hn, hl⟩ := ih (insertElem acc a) (insertElem_nodup h a)
      have := insertElem_length acc a
      exact ⟨hn, by simp only [List.foldl_cons, List.length_cons]; omega⟩

theorem insertAll_nodup {α : Type} [DecidableEq α] (l : List α) :
    (insertAll l).Nodup := (foldl_insertElem l [] List.nodup_nil).1

theorem insertAll_length {α : Type} [DecidableEq α] (l : List α) :
    (insertAll l).length ≤ l.length := by
  have := (foldl_insertElem l [] List.nodup_nil).2
  simpa [insertAll] using this

theorem mem_insertElem {α : Type} [DecidableEq α] {l : List α} {a b : α} :
    b ∈ insertElem l a ↔ b ∈ l ∨ b = a := by
  unfold insertElem
  split <;> grind

theorem mem_insertAll {α : Type} [DecidableEq α] {l : List α} {b : α} :
    b ∈ insertAll l ↔ b ∈ l := by
  have hfold : ∀ acc, b ∈ l.foldl insertElem acc ↔ b ∈ acc ∨ b ∈ l := by
    induction l with
    | nil => simp
    | cons a l ih =>
        intro acc
        rw [List.foldl_cons, ih, mem_insertElem, List.mem_cons, or_assoc]
  rw [insertAll, hfold]
  simp

theorem CapacityFits.mono {α : Type} [RustType α] {m n : Nat} (h : m ≤ n)
    (hn : CapacityFits α n) : CapacityFits α m :=
  ⟨Nat.le_trans h hn.1, Nat.le_trans (Nat.mul_le_mul_right _ h) hn.2⟩

/-! ## The types of the connection handshake and the wired stream -/

inductive ConnectInfo (U : UrlCrate) where
  | tcpStream (addr : RString)
  | url (url : Url U)

abbrev WireId := U64

structure WireInfo (U : UrlCrate) where
  wireId : WireId
  accessKey : U128
  connectInfo : ConnectInfo U

/-- The event a peer puts on the wire. -/
inductive WiringEvent (α : Type) where
  | event (e : α)
  | message (streamId : U64) (isLocal : Bool) (message : Vec U8)
  | drop (streamId : U64) (isLocal : Bool)

end WiringRs
