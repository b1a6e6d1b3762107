import WiringRs.Wiring

/-!
# The wire format

`WTy α` is the syntax of the channel-free type `α`: a tree whose leaves are
the basic types and whose nodes are the implementations that take a type. A
property that depends on how a type is built is a recursive function of the
tree, and a property of all types is an induction over it.

`WTy.encode` states the format: the bytes a value stands for. It differs
between the asynchronous and the synchronous encoders in one place, the
buffer of a `#[fixed]` group.
-/

namespace WiringRs

open Wiring

inductive WTy : (α : Type) → [Wiring α] → Type 1 where
  | prim (t : PrimTy) : WTy (Prim t)
  | usize : WTy Usize
  | char : WTy Char
  | unit : WTy Unit
  | bool : WTy Bool
  | string : WTy RString
  | str : WTy Str
  | url (U : UrlCrate) : WTy (Url U)
  | slice {α : Type} [RustType α] [Wiring α] (T : WTy α) : WTy (Slice α)
  | arrayRef {α : Type} [Wiring α] (T : WTy α) (N : Nat) : WTy (ArrayRef α N)
  | array {α : Type} [Wiring α] (T : WTy α) (N : Nat) : WTy (List.Vector α N)
  | vec {α : Type} [RustType α] [Wiring α] (T : WTy α) : WTy (Vec α)
  | boxSlice {α : Type} [RustType α] [Wiring α] (T : WTy α) : WTy (BoxSlice α)
  | box {α : Type} [Wiring α] (T : WTy α) : WTy (Box α)
  | arc {α : Type} [Wiring α] (T : WTy α) : WTy (Arc α)
  | hashSet {α : Type} [RustType α] [Wiring α] (T : WTy α) : WTy (HashSet α)
  | option {α : Type} [Wiring α] (T : WTy α) : WTy (Option α)
  | pair {α β : Type} [Wiring α] [Wiring β] (T : WTy α) (TT : WTy β) :
      WTy (α × β)
  | triple {α β γ : Type} [Wiring α] [Wiring β] [Wiring γ] (T : WTy α)
      (TT : WTy β) (TTT : WTy γ) : WTy (Triple α β γ)
  | connectInfo (U : UrlCrate) : WTy (ConnectInfo U)
  | wireInfo (U : UrlCrate) : WTy (WireInfo U)
  | wiringEvent {α : Type} [Wiring α] (T : WTy α) : WTy (WiringEvent α)
  | struct {n : Nat} (d : StructDecl n) {ty : Fin n → Type}
      [∀ i, Wiring (ty i)] (T : ∀ i, WTy (ty i)) : WTy (Struct d ty)
  | unitStruct : WTy UnitStruct
  | enum (d : EnumDecl) {ty : (v : Fin d.variants) → Fin (d.arity v) → Type}
      [∀ v i, Wiring (ty v i)] (T : ∀ v i, WTy (ty v i)) : WTy (Enum d ty)

/-! ## The bytes of a value -/

def lenBytes (len : Nat) : Bytes := (usizeU64 len).toBeBytes

@[simp] theorem length_lenBytes (len : Nat) : (lenBytes len).length = 8 := by
  simp [lenBytes, PrimTy.size]

/-- A length-prefixed byte string. -/
def prefixed (bytes : Bytes) : Bytes := lenBytes bytes.length ++ bytes

def connectInfoBytes {U : UrlCrate} : ConnectInfo U → Bytes
  | .tcpStream addr => 0 :: prefixed addr.bytes
  | .url u => 1 :: prefixed u.asStr.bytes

/-- The contents of a group's buffer. -/
def groupContents {n : Nat} {d : StructDecl n} {ty : Fin n → Type}
    [∀ i, Wiring (ty i)] (s : Struct d ty) (sizes : List (Fin n))
    (calls : List (ConcatCall (Fin n))) : Bytes :=
  match groupBytes s sizes calls with
  | .ok a => a
  | .error _ => []

/-- The bytes of a value, as the asynchronous or the synchronous encoders
write it. -/
def WTy.encode (isAsync : Bool) :
    {α : Type} → {w : Wiring α} → @WTy α w → α → Bytes
  | _, _, WTy.prim _, n => n.toBeBytes
  | _, _, WTy.usize, n => lenBytes n.toNat
  | _, _, WTy.char, c => (charU32 c).toBeBytes
  | _, _, WTy.unit, _ => [0]
  | _, _, WTy.bool, b => (boolU8 b).toBeBytes
  | _, _, WTy.string, s => prefixed s.bytes
  | _, _, WTy.str, s => prefixed s.str.bytes
  | _, _, WTy.url _, u => prefixed u.asStr.bytes
  | _, _, WTy.slice T, s =>
      lenBytes s.vec.toList.length ++ s.vec.toList.flatMap (T.encode isAsync)
  | _, _, WTy.arrayRef T _, a => a.array.toList.flatMap (T.encode isAsync)
  | _, _, WTy.array T _, a => a.toList.flatMap (T.encode isAsync)
  | _, _, WTy.vec T, v =>
      lenBytes v.toList.length ++ v.toList.flatMap (T.encode isAsync)
  | _, _, WTy.boxSlice T, b =>
      lenBytes b.vec.toList.length ++ b.vec.toList.flatMap (T.encode isAsync)
  | _, _, WTy.box T, b => T.encode isAsync b.inner
  | _, _, WTy.arc T, a => T.encode isAsync a.inner
  | _, _, WTy.hashSet T, s =>
      lenBytes s.toList.length ++ s.toList.flatMap (T.encode isAsync)
  | _, _, WTy.option _, none => [0]
  | _, _, WTy.option T, some t => 1 :: T.encode isAsync t
  | _, _, WTy.pair T TT, p => T.encode isAsync p.1 ++ TT.encode isAsync p.2
  | _, _, WTy.triple T TT TTT, p =>
      T.encode isAsync p.fst ++ TT.encode isAsync p.snd ++
        TTT.encode isAsync p.trd
  | _, _, WTy.connectInfo _, c => connectInfoBytes c
  | _, _, WTy.wireInfo _, w =>
      w.wireId.toBeBytes ++ w.accessKey.toBeBytes ++
        connectInfoBytes w.connectInfo
  | _, _, WTy.wiringEvent T, .event e => 0 :: T.encode isAsync e
  | _, _, WTy.wiringEvent _, .message streamId isLocal message =>
      1 :: (streamId.toBeBytes ++ (boolU8 isLocal).toBeBytes ++
        prefixed (message.toList.map Prim.toByte))
  | _, _, WTy.wiringEvent _, .drop streamId isLocal =>
      2 :: (streamId.toBeBytes ++ (boolU8 isLocal).toBeBytes)
  | _, _, WTy.struct d T, s => d.calls.syncWiringCalls.flatMap fun
      | .field f => (T f).encode isAsync (s.field f)
      | .group sizes calls =>
          if isAsync then prefixed (groupContents s sizes calls)
          else groupContents s sizes calls
  | _, _, WTy.unitStruct, _ => [0]
  | _, _, WTy.enum _ T, e =>
      e.idx.toBeBytes ++
        (List.finRange _).flatMap fun i => (T e.variant i).encode isAsync (e.field i)

/-- The format of the asynchronous encoders, and of the synchronous one. -/
abbrev WTy.format {α : Type} [Wiring α] (T : WTy α) (isAsync : Bool) : α → Bytes :=
  T.encode isAsync

end WiringRs
