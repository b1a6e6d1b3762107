import WiringRs.Canonical
import WiringRs.FixedSize
import WiringRs.FreshReader

/-!
# Through the unchecked buffers

`BufWire` writes a value into a `Vec<u8>`, and `BufUnWire` reads it through raw pointers.
Both leave checks out. The writer does where a slice has elements that are not `MIXED`: it
reserves `FIXED_SIZE` bytes for each of them (`WTy.Sized` says that this is enough). The
reader measures a value at the start of the buffer before it reads it at its position. On
a buffer that was written, it returns the value or stops with an error or a panic. Both
are taken as compiled with overflow checks.
-/

namespace WiringRs

open Wiring

/-! ## Writing -/

/-- `BufWire::new`: the length is set to zero, and the capacity is kept. -/
def BufWire.new {grow : Nat → Nat → Nat} (wire : VecWire true grow) : VecWire true grow :=
  ⟨[], wire.capacity, Nat.zero_le _, wire.fits⟩

/-- `BufWire::wire` -/
def BufWire.wire {grow : Nat → Nat → Nat} {α : Type} [Wiring α] (value : α) :
    IoM (VecWire true grow) Unit :=
  syncWiring value

/-- The call appends the bytes if they fit into a `Vec<u8>`, and else it panics. -/
def Appends {grow : Nat → Nat → Nat} (x : IoM (VecWire true grow) Unit) (b : Bytes) : Prop :=
  ∀ w, if w.bytes.length + b.length ≤ isizeMax then
      ∃ w', x w = (.ok (), w') ∧ w'.bytes = w.bytes ++ b
    else (x w).1 = .error .panic

namespace Appends

variable {grow : Nat → Nat → Nat} {x y : IoM (VecWire true grow) Unit} {b c : Bytes}

theorem congr (h : Appends x b) (hbc : b = c) : Appends x c := hbc ▸ h

theorem length_le (w : VecWire true grow) : w.bytes.length ≤ isizeMax :=
  Nat.le_trans w.len_le w.fits

theorem pure : Appends (Pure.pure () : IoM (VecWire true grow) Unit) [] := by
  intro w
  rw [if_pos (by simpa using length_le w)]
  exact ⟨w, rfl, (List.append_nil _).symm⟩

theorem bind (hx : Appends x b) (hy : Appends y c) :
    Appends (x >>= fun _ => y) (b ++ c) := by
  intro w
  have hfirst := hx w
  rw [List.length_append]
  by_cases hb : w.bytes.length + b.length ≤ isizeMax
  · rw [if_pos hb] at hfirst
    obtain ⟨w1, h1, hbytes⟩ := hfirst
    have hsecond := hy w1
    rw [hbytes, List.length_append, Nat.add_assoc] at hsecond
    rw [Act.bind_ok h1, ← List.append_assoc]
    exact hsecond
  · rw [if_neg hb] at hfirst
    rw [if_neg (by omega)]
    have hpanic : x w = (.error .panic, (x w).2) := Prod.ext hfirst rfl
    exact congrArg Prod.fst (Act.bind_error hpanic)

theorem forM {α : Type*} {f : α → IoM (VecWire true grow) Unit} {e : α → Bytes} {l : List α}
    (h : ∀ a ∈ l, Appends (f a) (e a)) : Appends (l.forM f) (l.flatMap e) := by
  induction l with
  | nil => exact pure
  | cons a l ih =>
      exact (h a List.mem_cons_self).bind (ih fun b hb => h b (List.mem_cons_of_mem _ hb))

/-- Reserving exactly the room for what comes next, which may then go unchecked. -/
theorem reserve (hx : Emits x b) : Appends (do VecWire.reserve b.length; x) b := by
  intro w
  split
  · rename_i hle
    rcases VecWire.reserve_cases b.length w with hpanic | ⟨w1, hok, hbytes, hroom⟩
    · unfold VecWire.reserve at hpanic
      rw [dif_pos hle] at hpanic
      split at hpanic <;> cases hpanic
    · obtain ⟨w2, h2, hbytes2, -⟩ := hx w1 hroom
      exact ⟨w2, (Act.bind_ok hok).trans h2, hbytes2.trans (congrArg (· ++ b) hbytes)⟩
  · rename_i hgt
    have hcap := w.fits
    have hpanic : VecWire.reserve b.length w = (.error .panic, w) := by
      rw [VecWire.reserve, if_neg (by omega), dif_neg hgt]
    exact congrArg Prod.fst (Act.bind_error hpanic)

/-- The number of bytes may be a product. Where it passes `usize`, so do the bytes. -/
theorem reserve_mul {len size : Nat} (hx : Emits x b) (hb : b.length = len * size) :
    Appends (do
      let add ← Act.lift (usizeMul true len size)
      VecWire.reserve add
      x) b := by
  by_cases hle : len * size ≤ usizeMax
  · rw [usizeMul_of_le hle, ← hb]
    exact reserve hx
  · intro w
    have hgt : ¬ w.bytes.length + b.length ≤ isizeMax := by
      rw [usizeMax] at hle
      rw [hb, isizeMax]
      omega
    rw [if_neg hgt, usizeMul, if_neg hle, if_pos rfl]
    exact congrArg Prod.fst (Act.bind_error rfl)

theorem extend (b : Bytes) : Appends (VecWire.extendFromSlice b : IoM (VecWire true grow) Unit) b :=
  reserve (VecWire.pushUnchecked_emits b)

theorem lenSyncWiring (len : Nat) :
    Appends (WiringRs.lenSyncWiring len : IoM (VecWire true grow) Unit) (lenBytes len) :=
  extend _

/-- A length and bytes. -/
theorem counted (b : Bytes) : Appends (do
    WiringRs.lenSyncWiring b.length
    Wire.syncWireAll true b : IoM (VecWire true grow) Unit) (prefixed b) :=
  (lenSyncWiring _).bind (extend b)

theorem prim {t : PrimTy} (n : Prim t) :
    Appends (syncWiring n : IoM (VecWire true grow) Unit) n.toBeBytes := by
  cases t <;> exact extend _

end Appends

/-- Where a slice, a vector or a boxed slice has elements that are not `MIXED`, these take
`FIXED_SIZE` bytes each. -/
def WTy.Sized : {α : Type} → {w : Wiring α} → @WTy α w → Prop
  | _, _, WTy.prim _ | _, _, WTy.usize | _, _, WTy.char | _, _, WTy.unit | _, _, WTy.bool
  | _, _, WTy.string | _, _, WTy.str | _, _, WTy.url _ | _, _, WTy.connectInfo _
  | _, _, WTy.wireInfo _ | _, _, WTy.unitStruct => True
  | _, _, @WTy.slice α _ _ T | _, _, @WTy.vec α _ _ T | _, _, @WTy.boxSlice α _ _ T =>
      (mixed α = false → T.ConstSize) ∧ T.Sized
  | _, _, WTy.arrayRef T _ | _, _, WTy.array T _ | _, _, WTy.box T | _, _, WTy.arc T
  | _, _, WTy.hashSet T | _, _, WTy.option T | _, _, WTy.wiringEvent T => T.Sized
  | _, _, WTy.pair T TT => T.Sized ∧ TT.Sized
  | _, _, WTy.triple T TT TTT => T.Sized ∧ TT.Sized ∧ TTT.Sized
  | _, _, WTy.struct _ T => ∀ i, (T i).Sized
  | _, _, WTy.enum _ T => ∀ v i, (T v i).Sized

section

variable {grow : Nat → Nat → Nat} {α : Type} [Wiring α] {T : WTy α}

/-- Every value of the type is appended. -/
abbrev Appended (grow : Nat → Nat → Nat) {α : Type} [Wiring α] (T : WTy α) : Prop :=
  ∀ v, Appends (syncWiring v : IoM (VecWire true grow) Unit) (T.encode false v)

theorem syncWiringArray_appends (h : Appended grow T) {N : Nat} (a : List.Vector α N) :
    Appends (syncWiringArray a : IoM (VecWire true grow) Unit)
      (a.toList.flatMap (T.encode false)) := by
  cases T with
  | prim t =>
      cases t with
      | u8 => exact map_toByte a.toList ▸ .extend _
      | u32 => exact .extend _
      | _ => exact .forM fun v _ => h v
  | _ => exact .forM fun v _ => h v

theorem syncWiringSlice_appends (h : Appended grow T) (hsized : mixed α = false → T.ConstSize)
    (l : List α) : Appends (syncWiringSlice l : IoM (VecWire true grow) Unit)
      (lenBytes l.length ++ l.flatMap (T.encode false)) := by
  have hslice : Appends (do
      lenSyncWiring l.length
      if mixed α then l.forM syncWiring
      else do
        let add ← Act.lift (usizeMul true l.length (fixedSize α))
        Wire.reserveCapacity add
        Unchecked.run (l.forM syncWiring) : IoM (VecWire true grow) Unit)
      (lenBytes l.length ++ l.flatMap (T.encode false)) := by
    refine (Appends.lenSyncWiring _).bind ?_
    cases hmixed : mixed α with
    | true => exact .forM fun v _ => h v
    | false =>
        have hconst := T.constSize_iff.mp (hsized hmixed)
        exact .reserve_mul (Unchecked.run_emits (Emits.forM fun v _ =>
          T.encoder.syncWiring_emits v)) (length_slice hconst l)
  cases T with
  | prim t =>
      cases t with
      | u8 =>
          have hbytes := map_toByte l
          have hcounted : @Appends grow _ _ := .counted (l.map Prim.toByte)
          rw [prefixed, List.length_map, hbytes] at hcounted
          exact hbytes ▸ hcounted
      | _ => exact hslice
  | _ => exact hslice

end

/-- The statements of a struct's encoder, one after another. -/
theorem struct_appends {grow : Nat → Nat → Nat} {n : Nat} {d : StructDecl n}
    {ty : Fin n → Type} [∀ i, Wiring (ty i)] {T : ∀ i, WTy (ty i)}
    (h : ∀ i, Appended grow (T i)) : Appended grow (WTy.struct d T) := by
  intro s
  obtain ⟨-, -, hcov⟩ := d.covers
  rw [show (WTy.struct d T).encode false s = _ from struct_format false s]
  refine Appends.forM fun c hmem => ?_
  cases c with
  | field f => exact h f (s.field f)
  | group fs calls =>
      obtain ⟨a, ha, -⟩ := groupBytes_ok s
        (fun f => (T f).encoder.concatArray_fills (s.field f)) (hcov.filled _ hmem)
      show Appends (Act.lift (groupBytes s fs calls) >>= Wire.syncWireAll true)
        (groupContents s fs calls)
      rw [ha, groupContents_eq ha]
      exact .extend a

theorem connectInfo_appends {grow : Nat → Nat → Nat} (U : UrlCrate) :
    Appended grow (WTy.connectInfo U)
  | .tcpStream addr => (Appends.prim (.ofNat 0 : U8)).bind (.counted addr.bytes)
  | .url u => (Appends.prim (.ofNat 1 : U8)).bind (.counted u.asStr.bytes)

/-- **Writing stays within the capacity.** -/
theorem WTy.appends {grow : Nat → Nat → Nat} : {α : Type} → {w : Wiring α} →
    (T : @WTy α w) → T.Sized → Appended grow T
  | _, _, WTy.prim _, _ => fun n => .prim n
  | _, _, WTy.usize, _ => fun n => .lenSyncWiring n.toNat
  | _, _, WTy.char, _ => fun c => .prim (charU32 c)
  | _, _, WTy.unit, _ => fun _ => .prim (.ofNat 0 : U8)
  | _, _, WTy.bool, _ => fun b => .prim (boolU8 b)
  | _, _, WTy.string, _ => fun s => .counted s.bytes
  | _, _, WTy.str, _ => fun s => .counted s.str.bytes
  | _, _, WTy.url _, _ => fun u => .counted u.asStr.bytes
  | _, _, WTy.slice T, h => fun s => syncWiringSlice_appends (T.appends h.2) h.1 s.vec.toList
  | _, _, WTy.vec T, h => fun v => syncWiringSlice_appends (T.appends h.2) h.1 v.toList
  | _, _, WTy.boxSlice T, h => fun b =>
      syncWiringSlice_appends (T.appends h.2) h.1 b.vec.toList
  | _, _, WTy.arrayRef T _, h => fun a => syncWiringArray_appends (T.appends h) a.array
  | _, _, WTy.array T _, h => fun a => syncWiringArray_appends (T.appends h) a
  | _, _, WTy.box T, h => fun b => T.appends h b.inner
  | _, _, WTy.arc T, h => fun a => T.appends h a.inner
  | _, _, WTy.hashSet T, h => fun _ =>
      (Appends.lenSyncWiring _).bind (.forM fun v _ => T.appends h v)
  | _, _, WTy.option T, h => fun
      | none => .prim (.ofNat 0 : U8)
      | some t => (Appends.prim (.ofNat 1 : U8)).bind (T.appends h t)
  | _, _, WTy.pair T TT, h => fun p => (T.appends h.1 p.1).bind (TT.appends h.2 p.2)
  | _, _, WTy.triple T TT TTT, h => fun p =>
      ((T.appends h.1 p.fst).bind ((TT.appends h.2.1 p.snd).bind
        (TTT.appends h.2.2 p.trd))).congr (List.append_assoc ..).symm
  | _, _, WTy.connectInfo U, _ => connectInfo_appends U
  | _, _, WTy.wireInfo U, _ => fun w =>
      ((Appends.prim w.wireId).bind ((Appends.prim w.accessKey).bind
        (connectInfo_appends U w.connectInfo))).congr
          (List.append_assoc ..).symm
  | _, _, WTy.wiringEvent T, h => fun
      | .event e => (Appends.prim (.ofNat 0 : U8)).bind (T.appends h e)
      | .message id b m => ((Appends.prim (.ofNat 1 : U8)).bind ((Appends.prim id).bind
          ((Appends.prim (boolU8 b)).bind (syncWiringSlice_appends (T := .prim .u8) .prim
            (fun _ => trivial) m.toList)))).congr (message_format T false id b m)
      | .drop id b => (Appends.prim (.ofNat 2 : U8)).bind
          ((Appends.prim id).bind (.prim (boolU8 b)))
  | _, _, WTy.struct _ T, h => struct_appends fun i => (T i).appends (h i)
  | _, _, WTy.unitStruct, _ => fun _ => .prim (.ofNat 0 : U8)
  | _, _, WTy.enum _ T, h => fun e =>
      (Appends.prim e.idx).bind (.forM fun i _ => (T e.variant i).appends (h _ i) (e.field i))

/-- **What `BufWire` writes.** For a type whose slices of elements that are not `MIXED`
reserve enough, the vector holds the value's bytes afterwards, whatever its capacity and
however it grows; if they do not fit into a `Vec<u8>` the call panics. -/
theorem bufWire_writes {grow : Nat → Nat → Nat} {α : Type} [Wiring α] (T : WTy α)
    (hsized : T.Sized) (v : α) (wire : VecWire true grow) :
    if (T.encode false v).length ≤ isizeMax then
      ∃ w, BufWire.wire v (BufWire.new wire) = (.ok (), w) ∧ w.bytes = T.encode false v
    else (BufWire.wire v (BufWire.new wire)).1 = .error .panic := by
  have h := T.appends hsized v (BufWire.new wire)
  simpa only [BufWire.new, BufWire.wire, List.length_nil, Nat.zero_add, List.nil_append]
    using h

theorem bufWire_writes_option : ∃ w : VecWire true fun _ n => n,
    BufWire.wire (some (.ofNat 258 : U16)) (BufWire.new ⟨[9], 1, by decide, by decide⟩) =
      (.ok (), w) ∧ w.bytes = [1, 1, 2] :=
  bufWire_writes (.option (.prim .u16)) trivial (some (.ofNat 258)) ⟨[9], 1, _, _⟩

/-! ## Reading -/

namespace Codec

theorem noSets_of_core : {α : Type} → {r : RustType α} → {w : Wiring α} →
    {u : Unwiring α} → (T : @Codec α r w u) → T.uty.Core → T.NoSets
  | _, _, _, _, prim _ | _, _, _, _, Codec.unit | _, _, _, _, Codec.bool
  | _, _, _, _, Codec.string | _, _, _, _, Codec.unitStruct => fun _ => trivial
  | _, _, _, _, option T => fun h => T.noSets_of_core h
  | _, _, _, _, vec T => fun h => T.noSets_of_core h
  | _, _, _, _, array T _ => fun h => T.noSets_of_core h
  | _, _, _, _, struct _ _ T => fun h i => (T i).noSets_of_core (h i)
  | _, _, _, _, enum _ _ T => fun h v i => (T v i).noSets_of_core (h v i)
  | _, _, _, _, url _ _ | _, _, _, _, boxSlice _ | _, _, _, _, box _ | _, _, _, _, arc _
  | _, _, _, _, pair _ _ | _, _, _, _, triple _ _ _ | _, _, _, _, hashSet _ => fun h => h.elim

/-- A core type that is not `MIXED` takes `FIXED_SIZE` bytes: pairs are not among them. -/
theorem constSize_of_core : {α : Type} → {r : RustType α} → {w : Wiring α} →
    {u : Unwiring α} → (T : @Codec α r w u) → T.uty.Core → mixed α = false →
    T.wty.ConstSize
  | _, _, _, _, prim _ | _, _, _, _, Codec.bool | _, _, _, _, Codec.unitStruct =>
      fun _ _ => trivial
  | _, _, _, _, array T _ => fun h hmixed => Or.inr (T.constSize_of_core h hmixed)
  | _, _, _, _, struct _ _ T => fun h hmixed i _ =>
      (T i).constSize_of_core (h i) (by
        have hi := List.any_eq_false.mp hmixed i (List.mem_finRange i)
        simpa using hi)
  | _, _, _, _, Codec.unit | _, _, _, _, Codec.string | _, _, _, _, option _
  | _, _, _, _, vec _ | _, _, _, _, enum _ _ _ => fun _ hmixed => by cases hmixed
  | _, _, _, _, url _ _ | _, _, _, _, boxSlice _ | _, _, _, _, box _ | _, _, _, _, arc _
  | _, _, _, _, pair _ _ | _, _, _, _, triple _ _ _ | _, _, _, _, hashSet _ =>
      fun h _ => h.elim

theorem sized_of_core : {α : Type} → {r : RustType α} → {w : Wiring α} →
    {u : Unwiring α} → (T : @Codec α r w u) → T.uty.Core → T.wty.Sized
  | _, _, _, _, prim _ | _, _, _, _, Codec.unit | _, _, _, _, Codec.bool
  | _, _, _, _, Codec.string | _, _, _, _, Codec.unitStruct => fun _ => trivial
  | _, _, _, _, vec T => fun h => ⟨T.constSize_of_core h, T.sized_of_core h⟩
  | _, _, _, _, option T => fun h => T.sized_of_core h
  | _, _, _, _, array T _ => fun h => T.sized_of_core h
  | _, _, _, _, struct _ _ T => fun h i => (T i).sized_of_core (h i)
  | _, _, _, _, enum _ _ T => fun h v i => (T v i).sized_of_core (h v i)
  | _, _, _, _, url _ _ | _, _, _, _, boxSlice _ | _, _, _, _, box _ | _, _, _, _, arc _
  | _, _, _, _, pair _ _ | _, _, _, _, triple _ _ _ | _, _, _, _, hashSet _ => fun h => h.elim

end Codec

/-- A value of a core type. -/
structure CoreValue where
  α : Type
  [rustType : RustType α]
  [wiring : Wiring α]
  [unwiring : Unwiring α]
  T : Codec α
  core : T.uty.Core
  value : α

attribute [instance] CoreValue.rustType CoreValue.wiring CoreValue.unwiring

namespace CoreValue

variable {grow : Nat → Nat → Nat}

/-- The bytes it stands for. -/
def bytes (v : CoreValue) : Bytes := v.T.encode v.value

/-- `sync_wire(&value)` on a `Vec<u8>` -/
def wire (v : CoreValue) : IoM (VecWire true grow) Unit := syncWiring v.value

/-- The call that is to read it. -/
def call (v : CoreValue) : CoreCall := ⟨v.α, v.T.uty, v.core⟩

/-- Read in order, each call returns the value, until one fails and leaves the position to
the next. -/
def ReadBack : List CoreValue → UnsafeReader → Prop
  | [], _ => True
  | v :: vs, r => (∃ r', v.call.unwire r = (.ok v.value, r') ∧ ReadBack vs r') ∨
      ∃ e, e ≠ .ub ∧ v.call.unwire r = (.error e, r)

theorem wire_appends (v : CoreValue) : Appends (v.wire : IoM (VecWire true grow) Unit) v.bytes :=
  v.T.wty.appends (v.T.sized_of_core v.core) v.value

/-- A decoder on the bytes of its value. -/
theorem syncUnwiring_bytes {v : CoreValue} {r : UnsafeReader} {s : Bytes} (hr : r.Valid)
    (hrest : r.rest = v.bytes ++ s) :
    ∃ r', (syncUnwiring : IoM UnsafeReader v.α) r = (.ok v.value, r') ∧ r'.Valid ∧
      r'.slice = r.slice ∧ r'.rest = s := by
  obtain ⟨v', hdecode, hsame⟩ := v.T.decodes v.value s
  rw [v.T.same_iff_eq (v.T.noSets_of_core v.core)] at hsame
  subst hsame
  have hslice : (syncUnwiring : IoM Bytes v.α) r.rest = (.ok v.value, s) := hrest ▸ hdecode
  obtain ⟨r', hok⟩ := v.T.uty.overreads.of_slice hr hslice
  obtain ⟨hr', hsame, hr''⟩ := v.T.uty.overreads.of_reader hr hok
  exact ⟨r', hok, hr', hsame, (Prod.mk.inj (hr''.symm.trans hslice)).2⟩

/-- Whatever the first call measures, what is let run returns what was written. -/
theorem readBack : ∀ (vs : List CoreValue) (r : UnsafeReader) (s : Bytes), r.Valid →
    r.rest = vs.flatMap bytes ++ s → ReadBack vs r
  | [], _, _, _, _ => trivial
  | v :: vs, r, s, hr, hrest => by
      rw [List.flatMap_cons, List.append_assoc] at hrest
      by_cases hrun : v.call.LetRun r
      · obtain ⟨r', hok, hr', -, hrest'⟩ := syncUnwiring_bytes hr hrest
        exact Or.inl ⟨r', (CoreCall.unwire_letRun hrun).trans hok, readBack vs r' s hr' hrest'⟩
      · exact Or.inr (CoreCall.unwire_not_letRun hrun)

end CoreValue

/-- **What was written is read back or refused.** Values of any core types are written one
after another on an emptied `Vec<u8>`, whatever its capacity. If they fit, a `BufUnWire`
over the vector returns them in order, until a call fails without reading. -/
theorem written_readBack {grow : Nat → Nat → Nat} (vs : List CoreValue) (wire : VecWire true grow) :
    if (vs.flatMap CoreValue.bytes).length ≤ isizeMax then
      ∃ w, vs.forM CoreValue.wire (BufWire.new wire) = (.ok (), w) ∧
        w.bytes = vs.flatMap CoreValue.bytes ∧ CoreValue.ReadBack vs (.new w.bytes)
    else (vs.forM CoreValue.wire (BufWire.new wire)).1 = .error .panic := by
  have hwire : Appends (vs.forM CoreValue.wire : IoM (VecWire true grow) Unit)
      (vs.flatMap CoreValue.bytes) :=
    .forM fun v _ => v.wire_appends
  have h := hwire (BufWire.new wire)
  simp only [BufWire.new, List.length_nil, Nat.zero_add, List.nil_append] at h ⊢
  split
  · rename_i hfits
    rw [if_pos hfits] at h
    obtain ⟨w, hw, hbytes⟩ := h
    refine ⟨w, hw, hbytes, CoreValue.readBack vs _ [] (Nat.zero_le _) ?_⟩
    rw [UnsafeReader.rest, UnsafeReader.new, List.drop_zero, hbytes, List.append_nil]
  · rename_i hfits
    rwa [if_neg hfits] at h

/-! ## Several values of one type -/

section

variable {α : Type} [RustType α] [Wiring α] [Unwiring α] {T : Codec α} {len : Nat}
  {r : UnsafeReader}

omit [Wiring α] in
/-- A call whose pre-pass measures `len` reads if `len` bytes are left. -/
theorem UnsafeReader.syncUnwire_eq {s : Bytes} (hr : r.Valid)
    (hfits : r.slice.length ≤ isizeMax) (hmax : len ≤ isizeMax)
    (hlen : (bytesLength α 1 : IoM Bytes Nat) r.slice = (.ok len, s)) :
    UnsafeReader.syncUnwire α r = if len ≤ r.rest.length then syncUnwiring r
      else (.error (.err ⟨.outOfMemory, "Out of bounds"⟩), r) := by
  have hrest : r.rest.length = r.sourceBufferLen - r.position := by
    rw [UnsafeReader.rest, List.length_drop, r.len_eq]
  rw [← r.len_eq] at hfits
  rw [UnsafeReader.Valid] at hr
  have hlt : r.position + len < 2 ^ 64 := by
    unfold isizeMax at hfits hmax
    omega
  have hstop : len ≤ r.rest.length ↔ r.position + len ≤ r.sourceBufferLen := by omega
  unfold UnsafeReader.syncUnwire
  simp only [hlen, addU64, hlt, if_true, pure_bind, hstop]
  split <;> rfl

/-- Each call measures the same value again, so that the last call, which finds the fewest
bytes ahead, decides. -/
theorem times_syncUnwire {s rest : Bytes} (hcore : T.uty.Core) (hmax : len ≤ isizeMax) :
    ∀ (vs : List α) (last : α) (r : UnsafeReader), vs.getLast? = some last → r.Valid →
      r.slice.length ≤ isizeMax →
      (bytesLength α 1 : IoM Bytes Nat) r.slice = (.ok len, s) →
      r.rest = vs.flatMap T.encode ++ rest →
      if len ≤ (T.encode last).length + rest.length then
        ∃ r', Act.times vs.length (UnsafeReader.syncUnwire α) r = (.ok ⟨vs, rfl⟩, r') ∧
          r'.rest = rest
      else (Act.times vs.length (UnsafeReader.syncUnwire α) r).1 =
        .error (.err ⟨.outOfMemory, "Out of bounds"⟩)
  | [], _, _, hlast, _, _, _, _ => by cases hlast
  | v :: vs, last, r, hlast, hr, hfits, hlen, hrest => by
      have hcall := UnsafeReader.syncUnwire_eq hr hfits hmax hlen
      have hle : (T.encode last).length + rest.length ≤ r.rest.length := by
        obtain ⟨init, hinit⟩ := List.getLast?_eq_some_iff.mp hlast
        rw [hrest, hinit, List.flatMap_append, List.flatMap_singleton]
        simp only [List.length_append]
        omega
      rw [List.flatMap_cons, List.append_assoc] at hrest
      have htimes : Act.times (v :: vs).length (UnsafeReader.syncUnwire α) = (do
        let a ← UnsafeReader.syncUnwire α
        let l ← Act.times vs.length (UnsafeReader.syncUnwire α)
        pure (a ::ᵥ l)) := rfl
      by_cases hrun : len ≤ r.rest.length
      · obtain ⟨r', hok, hr', hslice, hrest'⟩ :=
          CoreValue.syncUnwiring_bytes (v := ⟨α, T, hcore, v⟩) hr hrest
        rw [if_pos hrun, hok] at hcall
        cases vs with
        | nil =>
            obtain rfl : v = last := Option.some.inj hlast
            rw [hrest, List.flatMap_nil, List.nil_append, List.length_append] at hrun
            rw [if_pos hrun]
            exact ⟨r', by rw [htimes, Act.bind_ok hcall]; rfl, hrest'⟩
        | cons v' vs =>
            have ih := times_syncUnwire hcore hmax (v' :: vs) last r' hlast hr'
              (hslice ▸ hfits) (hslice ▸ hlen) hrest'
            split at ih
            · rename_i hlast
              obtain ⟨r'', hok', hrest''⟩ := ih
              rw [if_pos hlast]
              exact ⟨r'', by rw [htimes, Act.bind_ok hcall, Act.bind_ok hok']; rfl, hrest''⟩
            · rename_i hlast
              rw [if_neg hlast, htimes, Act.bind_ok hcall]
              exact congrArg Prod.fst (Act.bind_error (Prod.ext ih rfl))
      · rw [if_neg hrun] at hcall
        rw [if_neg (by omega), htimes, Act.bind_error hcall]

/-- **A later value must not be shorter than the first one.** Several values of one core
type, written to a buffer with `rest` behind them, are read back by as many calls if and
only if the bytes of the last value and `rest` are no fewer than those of the first value;
else a call finds the first value's length out of bounds. -/
theorem sameType_readBack (hcore : T.uty.Core) (hfilled : T.uty.Filled) (vs : List α)
    (hvs : vs ≠ []) (rest : Bytes)
    (hfits : (vs.flatMap T.encode ++ rest).length ≤ isizeMax) :
    if (T.encode (vs.head hvs)).length ≤ (T.encode (vs.getLast hvs)).length + rest.length then
      ∃ r, Act.times vs.length (UnsafeReader.syncUnwire α)
          (.new (vs.flatMap T.encode ++ rest)) = (.ok ⟨vs, rfl⟩, r) ∧ r.rest = rest
    else (Act.times vs.length (UnsafeReader.syncUnwire α)
        (.new (vs.flatMap T.encode ++ rest))).1 =
      .error (.err ⟨.outOfMemory, "Out of bounds"⟩) := by
  cases vs with
  | nil => exact absurd rfl hvs
  | cons v vs =>
      rw [List.head_cons]
      let b : Buffer := ⟨(v :: vs).flatMap T.encode ++ rest, hfits⟩
      have hbytes : b.bytes = T.encode v ++ (vs.flatMap T.encode ++ rest) := by
        show (v :: vs).flatMap T.encode ++ rest = _
        rw [List.flatMap_cons, List.append_assoc]
      have hle : (T.encode v).length ≤ b.bytes.length := by
        rw [hbytes, List.length_append]
        omega
      obtain ⟨v', hdecode, hsame⟩ := T.decodes v (vs.flatMap T.encode ++ rest)
      have hone : DecodesIn α 1 (T.encode v).length b := by
        refine .one hle (v := v') ?_
        rw [hbytes, List.drop_left]
        exact hdecode
      exact times_syncUnwire hcore (Nat.le_trans hle b.fits) (v :: vs) _ (.new b.bytes)
        (List.getLast?_eq_some_getLast hvs) (Nat.zero_le _) hfits
        (hone.bytesLength hcore (hone.not_spills hcore hfilled)) rfl

end

/-- A string of one byte and an empty one: the second call measures the first again. -/
theorem sameType_readBack_strings :
    letI : RustType RString := ⟨24, "alloc::string::String"⟩
    (Act.times 2 (UnsafeReader.syncUnwire RString)
      (.new ([0, 0, 0, 0, 0, 0, 0, 1, 97] ++ [0, 0, 0, 0, 0, 0, 0, 0]))).1 =
      .error (.err ⟨.outOfMemory, "Out of bounds"⟩) := by
  let _ : RustType RString := ⟨24, "alloc::string::String"⟩
  have h := sameType_readBack (T := .string) trivial trivial
    [⟨[97], by decide, by decide⟩, emptyString] (List.cons_ne_nil _ _) [] (by decide)
  rw [if_neg (by decide)] at h
  exact h

end WiringRs
