import WiringRs.Format

/-!
# The encoders write the format

Every encoder of a type writes `WTy.encode`: the two asynchronous ones the
asynchronous format, the synchronous one, on any lawful wire, the synchronous
format. `Encoder` collects what an induction over the type needs to know of
its parts, the overridable slice and array methods among it; `Defaults` says
that an implementation keeps the trait's own, so that each implementation
states only what it defines itself.
-/

namespace WiringRs

open Wiring

/-! ## Writing into a buffer -/

/-- With `n` bytes or more, the call returns and keeps the length. -/
def Fills (n : Nat) (f : Bytes → Except (Stop IoError) Bytes) : Prop :=
  ∀ buf, n ≤ buf.length → ∃ r, f buf = .ok r ∧ r.length = buf.length

namespace Fills

theorem mono {m n : Nat} {f : Bytes → Except (Stop IoError) Bytes}
    (h : Fills m f) (hmn : m ≤ n) : Fills n f := fun buf hn =>
  h buf (Nat.le_trans hmn hn)

theorem id (n : Nat) : Fills n fun buf => .ok buf := fun buf _ =>
  ⟨buf, rfl, rfl⟩

theorem copyPrefix (bytes : Bytes) : Fills bytes.length (copyPrefix bytes) := by
  intro buf h
  refine ⟨_, by rw [WiringRs.copyPrefix, if_pos h], ?_⟩
  rw [List.length_append, List.length_drop]; omega

theorem copyPrefixUnchecked (bytes : Bytes) :
    Fills bytes.length (copyPrefixUnchecked bytes) := by
  intro buf h
  refine ⟨_, by rw [WiringRs.copyPrefixUnchecked, if_pos h], ?_⟩
  rw [List.length_append, List.length_drop]; omega

theorem onRange {start stop : Nat} {f : Bytes → Except (Stop IoError) Bytes}
    (hle : start ≤ stop) (hf : Fills (stop - start) f) :
    Fills stop (onRange start stop f) := by
  intro buf h
  have hlen : ((buf.take stop).drop start).length = stop - start := by
    rw [List.length_drop, List.length_take, Nat.min_eq_left h]
  obtain ⟨r, hr, hrl⟩ := hf _ (Nat.le_of_eq hlen.symm)
  refine ⟨_, by rw [WiringRs.onRange, if_pos ⟨hle, h⟩, hr]; rfl, ?_⟩
  simp only [List.length_append, List.length_take, List.length_drop, hrl, hlen]
  omega

theorem onSplit {mid n : Nat} {f g : Bytes → Except (Stop IoError) Bytes}
    (hf : Fills mid f) (hg : Fills n g) : Fills (mid + n) (onSplit mid f g) := by
  intro buf h
  have hmid : mid ≤ buf.length := by omega
  obtain ⟨l, hl, hll⟩ := hf (buf.take mid) (by
    rw [List.length_take, Nat.min_eq_left hmid])
  obtain ⟨r, hr, hrl⟩ := hg (buf.drop mid) (by rw [List.length_drop]; omega)
  refine ⟨l ++ r, ?_, ?_⟩
  · rw [WiringRs.onSplit, if_pos hmid, hl]
    show (do let right ← g (buf.drop mid); .ok (l ++ right)) = _
    rw [hr]; rfl
  · rw [List.length_append, hll, hrl, List.length_take, List.length_drop]
    omega

theorem bind {n : Nat} {f g : Bytes → Except (Stop IoError) Bytes}
    (hf : Fills n f) (hg : Fills n g) :
    Fills n fun buf => f buf >>= g := by
  intro buf h
  obtain ⟨r, hr, hrl⟩ := hf buf h
  obtain ⟨q, hq, hql⟩ := hg r (hrl ▸ h)
  exact ⟨q, by show f buf >>= g = _; rw [hr]; exact hq, hql.trans hrl⟩

end Fills

/-! ## What an encoder does -/

/-- `e true` is what the asynchronous encoders write, `e false` what the
synchronous one does. -/
structure Encoder {α : Type} [Wiring α] (e : Bool → α → Bytes) : Prop where
  wiring_emits : ∀ v, Emits (wiring v) (e true v)
  wiringRef_emits : ∀ v, Emits (wiringRef v) (e true v)
  wiringSlice_emits : ∀ l, Emits (wiringSlice l)
    (lenBytes l.length ++ l.flatMap (e true))
  wiringVec_emits : ∀ l, Emits (wiringVec l)
    (lenBytes l.length ++ l.flatMap (e true))
  wiringArrayRef_emits : ∀ {N} (a : List.Vector α N),
    Emits (wiringArrayRef a) (a.toList.flatMap (e true))
  wiringArray_emits : ∀ {N} (a : List.Vector α N),
    Emits (wiringArray a) (a.toList.flatMap (e true))
  wiringArc_emits : ∀ a : Arc α, Emits (wiringArc a) (e true a.inner)
  syncWiring_emits : ∀ {σ : Type} [Wire σ] [LawfulWire σ] (v : α),
    Emits (σ := σ) (syncWiring v) (e false v)
  syncWiringArray_emits : ∀ {σ : Type} [Wire σ] [LawfulWire σ] {N}
    (a : List.Vector α N),
    Emits (σ := σ) (syncWiringArray a) (a.toList.flatMap (e false))
  syncWiringSlice_emits : ∀ {σ : Type} [Wire σ] [LawfulWire σ] (l : List α),
    Emits (σ := σ) (syncWiringSlice l)
      (lenBytes l.length ++ l.flatMap (e false))
  fixedSize_le : ∀ v, fixedSize α ≤ (e false v).length
  concatArray_fills : ∀ v : α, Fills (fixedSize α) (concatArray v)

/-- The implementation with the trait's own slice, vector and array
methods. -/
@[reducible] def withDefaults {α : Type} (w : Wiring α) : Wiring α where
  fixedSize := w.fixedSize
  mixed := w.mixed
  concatArray := w.concatArray
  wiringRef := w.wiringRef
  wiring := w.wiring
  syncWiring := w.syncWiring

/-- The implementation overrides none of them. -/
def Defaults (α : Type) [w : Wiring α] : Prop := w = withDefaults w

namespace Defaults

variable {α σ : Type} [Wiring α] [Wire σ]

theorem wiringSlice_eq (h : Defaults α) (l : List α) : wiringSlice l = (do
    lenWiring l.length
    l.forM wiringRef) :=
  congrArg (fun w : Wiring α => w.wiringSlice l) h

theorem wiringVec_eq (h : Defaults α) (l : List α) : wiringVec l = (do
    lenWiring l.length
    l.forM wiring) :=
  congrArg (fun w : Wiring α => w.wiringVec l) h

theorem wiringArrayRef_eq (h : Defaults α) {N : Nat} (a : List.Vector α N) :
    wiringArrayRef a = a.toList.forM wiringRef :=
  congrArg (fun w : Wiring α => w.wiringArrayRef a) h

theorem wiringArray_eq (h : Defaults α) {N : Nat} (a : List.Vector α N) :
    wiringArray a = a.toList.forM wiring :=
  congrArg (fun w : Wiring α => w.wiringArray a) h

theorem wiringArc_eq (h : Defaults α) (a : Arc α) :
    wiringArc a = wiringRef a.inner :=
  congrArg (fun w : Wiring α => w.wiringArc a) h

theorem syncWiringArray_eq (h : Defaults α) {N : Nat} (a : List.Vector α N) :
    (syncWiringArray a : IoM σ Unit) = a.toList.forM syncWiring :=
  congrArg (fun w : Wiring α => (w.syncWiringArray a : IoM σ Unit)) h

theorem syncWiringSlice_eq (h : Defaults α) (l : List α) :
    (syncWiringSlice l : IoM σ Unit) = (do
      lenSyncWiring l.length
      if mixed α then l.forM syncWiring
      else do
        let add ← Act.lift (usizeMul (Wire.overflowChecks σ) l.length (fixedSize α))
        Wire.reserveCapacity add
        Unchecked.run (l.forM syncWiring)) :=
  congrArg (fun w : Wiring α => (w.syncWiringSlice l : IoM σ Unit)) h

end Defaults

theorem lenWiring_emits (len : Nat) : Emits (lenWiring len) (lenBytes len) :=
  emit_emits _

theorem lenSyncWiring_emits {σ : Type} [Wire σ] [LawfulWire σ] (len : Nat) :
    Emits (σ := σ) (lenSyncWiring len) (lenBytes len) :=
  LawfulWire.syncWireU64_emits _

theorem sum_le_length_flatMap {α : Type} {e : α → Bytes} {k : α → Nat}
    {l : List α} (h : ∀ a ∈ l, k a ≤ (e a).length) :
    (l.map k).sum ≤ (l.flatMap e).length := by
  induction l with
  | nil => exact Nat.le_refl _
  | cons a l ih =>
      have h1 := h a (List.mem_cons_self ..)
      have h2 := ih fun b hb => h b (List.mem_cons_of_mem _ hb)
      rw [List.map_cons, List.sum_cons, List.flatMap_cons, List.length_append]
      omega

theorem mul_le_length_flatMap {α : Type} {e : α → Bytes} {k : Nat}
    (h : ∀ a, k ≤ (e a).length) (l : List α) :
    l.length * k ≤ (l.flatMap e).length := by
  have := sum_le_length_flatMap (k := fun _ => k) (l := l) fun a _ => h a
  rwa [List.map_const', List.sum_replicate_nat] at this

theorem usizeMul_of_le {checks : Bool} {a b : Nat} (h : a * b ≤ usizeMax) :
    usizeMul checks a b = .ok (a * b) := if_pos h

/-- A product that is not stopped is not above the true one. -/
theorem usizeMul_le {checks : Bool} {a b : Nat} (h : checks = true → a * b ≤ usizeMax) :
    ∃ n, usizeMul checks a b = .ok n ∧ n ≤ a * b := by
  by_cases hle : a * b ≤ usizeMax
  · exact ⟨_, usizeMul_of_le hle, Nat.le_refl _⟩
  · have hchecks : ¬ checks = true := fun hc => hle (h hc)
    exact ⟨_, by rw [usizeMul, if_neg hle, if_neg hchecks], Nat.mod_le _ _⟩

/-- Reserving room that is there, then writing, writes. -/
theorem reserve_emits {σ : Type} [Wire σ] [LawfulWire σ] {len size : Nat}
    {x : IoM σ Unit} {b : Bytes} (hn : len * size ≤ b.length) (hx : Emits x b) :
    Emits (do
      let add ← Act.lift (usizeMul (Wire.overflowChecks σ) len size)
      Wire.reserveCapacity add
      x) b := by
  intro s hs
  have hroom : Sink.room s (len * size) := Sink.room_mono hn hs
  obtain ⟨add, hadd, hle⟩ := usizeMul_le fun hc => LawfulWire.room_le hc s _ hroom
  have hreserve := LawfulWire.reserve_room s add (Sink.room_mono hle hroom)
  rw [hadd, Act.bind_ok (rfl : Act.lift (.ok add) s = _), Act.bind_ok hreserve]
  exact hx s hs

namespace Encoder

variable {α : Type} [Wiring α] {e : Bool → α → Bytes}

theorem ofDefaults (hd : Defaults α)
    (hw : ∀ v, Emits (wiring v) (e true v))
    (hr : ∀ v, Emits (wiringRef v) (e true v))
    (hs : ∀ {σ : Type} [Wire σ] [LawfulWire σ] (v : α),
      Emits (σ := σ) (syncWiring v) (e false v))
    (hle : ∀ v, fixedSize α ≤ (e false v).length)
    (hc : ∀ v : α, Fills (fixedSize α) (concatArray v)) : Encoder e where
  wiring_emits := hw
  wiringRef_emits := hr
  wiringSlice_emits l := by
    rw [hd.wiringSlice_eq]
    exact (lenWiring_emits _).bind (Emits.forM fun a _ => hr a)
  wiringVec_emits l := by
    rw [hd.wiringVec_eq]
    exact (lenWiring_emits _).bind (Emits.forM fun a _ => hw a)
  wiringArrayRef_emits a := by
    rw [hd.wiringArrayRef_eq]; exact Emits.forM fun a _ => hr a
  wiringArray_emits a := by
    rw [hd.wiringArray_eq]; exact Emits.forM fun a _ => hw a
  wiringArc_emits a := by rw [hd.wiringArc_eq]; exact hr _
  syncWiring_emits := hs
  syncWiringArray_emits a := by
    rw [hd.syncWiringArray_eq]; exact Emits.forM fun a _ => hs a
  syncWiringSlice_emits {σ _ _} l := by
    rw [hd.syncWiringSlice_eq]
    refine (lenSyncWiring_emits _).bind ?_
    cases mixed α with
    | true => exact Emits.forM fun a _ => hs a
    | false =>
        exact reserve_emits (mul_le_length_flatMap hle l)
          (Unchecked.run_emits (Emits.forM fun a _ => hs a))
  fixedSize_le := hle
  concatArray_fills := hc

/-- The same, where `FIXED_SIZE` and `concat_array` keep their defaults too. -/
theorem ofDefaults' (hd : Defaults α) (hz : fixedSize α = 0)
    (hc : ∀ v : α, concatArray v = fun buf => .ok buf)
    (hw : ∀ v, Emits (wiring v) (e true v))
    (hr : ∀ v, Emits (wiringRef v) (e true v))
    (hs : ∀ {σ : Type} [Wire σ] [LawfulWire σ] (v : α),
      Emits (σ := σ) (syncWiring v) (e false v)) : Encoder e :=
  ofDefaults hd hw hr hs (fun _ => hz ▸ Nat.zero_le _)
    (fun v => hc v ▸ Fills.id _)

end Encoder

/-! ## Integers and floats -/

theorem map_toByte (l : List U8) : l.map Prim.toByte = l.flatMap Prim.toBeBytes := by
  induction l with
  | nil => rfl
  | cons a l ih => simp [ih, Prim.toBeBytes_u8]

/-- The format of the integers and floats. -/
abbrev primFormat (t : PrimTy) : Bool → Prim t → Bytes := fun _ n => n.toBeBytes

theorem primWiring_encoder {t : PrimTy} (mixed : Bool)
    {sync : {σ : Type} → [Wire σ] → Prim t → IoM σ Unit}
    (hs : ∀ {σ : Type} [Wire σ] [LawfulWire σ] (n : Prim t),
      Emits (σ := σ) (sync n) n.toBeBytes) :
    @Encoder _ (primWiring t mixed sync) (primFormat t) :=
  letI := primWiring t mixed sync
  Encoder.ofDefaults rfl (fun _ => emit_emits _) (fun _ => emit_emits _) hs
    (fun n => Nat.le_of_eq n.length_toBeBytes.symm)
    (fun n => (Fills.copyPrefix _).mono (Nat.le_of_eq n.length_toBeBytes))

theorem syncWireBytes_emits {σ : Type} [Wire σ] [LawfulWire σ] {t : PrimTy}
    (n : Prim t) : Emits (σ := σ) (syncWireBytes n) n.toBeBytes :=
  LawfulWire.syncWireAll_emits _ _

theorem u8_encoder : @Encoder _ u8Wiring (primFormat .u8) :=
  { primWiring_encoder false syncWireBytes_emits with
    wiringSlice_emits := fun l => by
      rw [← map_toByte]
      exact (lenWiring_emits _).bind (emit_emits _)
    wiringArray_emits := fun a => by
      rw [← map_toByte]; exact emit_emits _
    syncWiringSlice_emits := fun l => by
      rw [← map_toByte]
      exact (lenSyncWiring_emits _).bind (LawfulWire.syncWireAll_emits _ _)
    syncWiringArray_emits := fun a => by
      rw [← map_toByte]; exact LawfulWire.syncWireAll_emits _ _ }

theorem u32_encoder : @Encoder _ u32Wiring (primFormat .u32) :=
  { primWiring_encoder false syncWireBytes_emits with
    syncWiringArray_emits := fun _ => LawfulWire.syncWireAll_emits _ _ }

theorem f32_encoder : @Encoder _ f32Wiring (primFormat .f32) :=
  { primWiring_encoder false LawfulWire.syncWireF32_emits with
    concatArray_fills := fun n =>
      (Fills.copyPrefixUnchecked _).mono (Nat.le_of_eq n.length_toBeBytes) }

theorem prim_encoder (t : PrimTy) : Encoder (primFormat t) := by
  cases t with
  | u8 => exact u8_encoder
  | u32 => exact u32_encoder
  | f32 => exact f32_encoder
  | i32 => exact primWiring_encoder _ fun _ => LawfulWire.writeAll_emits _
  | u64 => exact primWiring_encoder _ LawfulWire.syncWireU64_emits
  | i8 | u16 | i16 | i64 | u128 | i128 | f64 =>
      exact primWiring_encoder _ syncWireBytes_emits

/-! ## The other leaves -/

theorem usize_encoder : Encoder WTy.usize.format :=
  .ofDefaults rfl (fun _ => lenWiring_emits _) (fun _ => lenWiring_emits _)
    (fun _ => lenSyncWiring_emits _)
    (fun _ => Nat.le_of_eq (length_lenBytes _).symm)
    (fun _ => (Fills.copyPrefix _).mono (Nat.le_of_eq (length_lenBytes _)))

theorem char_encoder : Encoder WTy.char.format :=
  .ofDefaults' rfl rfl (fun _ => rfl)
    (fun _ => (prim_encoder .u32).wiring_emits _)
    (fun _ => (prim_encoder .u32).wiring_emits _)
    (fun _ => (prim_encoder .u32).syncWiring_emits _)

theorem unit_encoder : Encoder WTy.unit.format :=
  .ofDefaults' rfl rfl (fun _ => rfl)
    (fun _ => (prim_encoder .u8).wiring_emits _)
    (fun _ => (prim_encoder .u8).wiring_emits _)
    (fun _ => (prim_encoder .u8).syncWiring_emits _)

theorem bool_encoder : Encoder WTy.bool.format :=
  .ofDefaults rfl (fun _ => emit_emits _) (fun _ => emit_emits _)
    (fun _ => (prim_encoder .u8).syncWiring_emits _)
    (fun b => Nat.le_of_eq (boolU8 b).length_toBeBytes.symm)
    (fun b => (Fills.copyPrefix _).mono
      (Nat.le_of_eq (boolU8 b).length_toBeBytes))

theorem bytesWiring_emits (bytes : Bytes) :
    Emits (bytesWiring bytes) (prefixed bytes) :=
  (lenWiring_emits _).bind (emit_emits _)

theorem syncBytes_emits {σ : Type} [Wire σ] [LawfulWire σ] (bytes : Bytes) :
    Emits (do
      lenSyncWiring bytes.length
      Wire.syncWireAll true bytes : IoM σ Unit) (prefixed bytes) :=
  (lenSyncWiring_emits _).bind (LawfulWire.syncWireAll_emits _ _)

theorem string_encoder : Encoder WTy.string.format :=
  .ofDefaults' rfl rfl (fun _ => rfl) (fun _ => bytesWiring_emits _)
    (fun _ => bytesWiring_emits _) (fun _ => syncBytes_emits _)

theorem str_encoder : Encoder WTy.str.format :=
  .ofDefaults' rfl rfl (fun _ => rfl) (fun _ => bytesWiring_emits _)
    (fun _ => bytesWiring_emits _) (fun _ => syncBytes_emits _)

theorem url_encoder (U : UrlCrate) : Encoder (WTy.url U).format :=
  .ofDefaults' rfl rfl (fun _ => rfl) (fun _ => bytesWiring_emits _)
    (fun _ => bytesWiring_emits _) (fun _ => syncBytes_emits _)

/-! ## Pointers and collections -/

section

variable {α β γ : Type} [Wiring α] [Wiring β] [Wiring γ] {T : WTy α}
  {TT : WTy β} {TTT : WTy γ}

theorem slice_encoder [RustType α] (h : Encoder T.format) :
    Encoder (WTy.slice T).format :=
  .ofDefaults' rfl rfl (fun _ => rfl) (fun _ => h.wiringSlice_emits _)
    (fun _ => h.wiringSlice_emits _) (fun _ => h.syncWiringSlice_emits _)

theorem arrayRef_encoder (N : Nat) (h : Encoder T.format) :
    Encoder (WTy.arrayRef T N).format :=
  .ofDefaults' rfl rfl (fun _ => rfl) (fun _ => h.wiringArrayRef_emits _)
    (fun _ => h.wiringArrayRef_emits _) (fun _ => h.syncWiringArray_emits _)

theorem concatArrayFrom_fills (h : ∀ v : α, Fills (fixedSize α) (concatArray v))
    (l : List α) (start : Nat) :
    Fills (start + fixedSize α * l.length) (concatArrayFrom l start) := by
  induction l generalizing start with
  | nil => exact Fills.id _
  | cons a l ih =>
      have hrange : Fills (start + fixedSize α)
          (onRange start (start + fixedSize α) (concatArray a)) :=
        Fills.onRange (Nat.le_add_right _ _)
          ((h a).mono (by omega))
      have hle : start + fixedSize α ≤ start + fixedSize α * (a :: l).length := by
        rw [List.length_cons, Nat.mul_succ]; omega
      refine (hrange.mono hle).bind ((ih _).mono ?_)
      rw [List.length_cons, Nat.mul_succ]; omega

theorem array_encoder (N : Nat) (h : Encoder T.format) :
    Encoder (WTy.array T N).format :=
  .ofDefaults rfl (fun _ => h.wiringArray_emits _)
    (fun _ => h.wiringArrayRef_emits _) (fun _ => h.syncWiringArray_emits _)
    (fun a => by
      have := mul_le_length_flatMap h.fixedSize_le a.toList
      rwa [List.Vector.toList_length, Nat.mul_comm] at this)
    (fun a => (concatArrayFrom_fills h.concatArray_fills a.toList 0).mono (by
      rw [List.Vector.toList_length, Nat.zero_add]; exact Nat.le_refl _))

theorem vec_encoder [RustType α] (h : Encoder T.format) :
    Encoder (WTy.vec T).format :=
  .ofDefaults' rfl rfl (fun _ => rfl) (fun _ => h.wiringVec_emits _)
    (fun _ => h.wiringSlice_emits _) (fun _ => h.syncWiringSlice_emits _)

theorem boxSlice_encoder [RustType α] (h : Encoder T.format) :
    Encoder (WTy.boxSlice T).format :=
  .ofDefaults' rfl rfl (fun _ => rfl) (fun _ => h.wiringVec_emits _)
    (fun _ => h.wiringSlice_emits _) (fun _ => h.syncWiringSlice_emits _)

theorem box_encoder (h : Encoder T.format) : Encoder (WTy.box T).format :=
  .ofDefaults' rfl rfl (fun _ => rfl) (fun _ => h.wiring_emits _)
    (fun _ => h.wiringRef_emits _) (fun _ => h.syncWiring_emits _)

theorem arc_encoder (h : Encoder T.format) : Encoder (WTy.arc T).format :=
  .ofDefaults' rfl rfl (fun _ => rfl) (fun _ => h.wiringArc_emits _)
    (fun _ => h.wiringRef_emits _) (fun _ => h.syncWiring_emits _)

theorem hashSet_encoder [RustType α] (h : Encoder T.format) :
    Encoder (WTy.hashSet T).format :=
  .ofDefaults' rfl rfl (fun _ => rfl)
    (fun _ => ((prim_encoder .u64).wiring_emits _).bind
      (Emits.forM fun a _ => h.wiring_emits a))
    (fun _ => (lenWiring_emits _).bind
      (Emits.forM fun a _ => h.wiringRef_emits a))
    (fun _ => (lenSyncWiring_emits _).bind
      (Emits.forM fun a _ => h.syncWiring_emits a))

theorem option_encoder (h : Encoder T.format) :
    Encoder (WTy.option T).format :=
  .ofDefaults' rfl rfl (fun _ => rfl)
    (fun
      | none => (prim_encoder .u8).wiring_emits _
      | some t => ((prim_encoder .u8).wiring_emits _).bind (h.wiring_emits t))
    (fun
      | none => (prim_encoder .u8).wiring_emits _
      | some t => ((prim_encoder .u8).wiring_emits _).bind (h.wiringRef_emits t))
    (fun
      | none => (prim_encoder .u8).syncWiring_emits _
      | some t =>
          ((prim_encoder .u8).syncWiring_emits _).bind (h.syncWiring_emits t))

theorem pair_encoder (h : Encoder T.format) (hh : Encoder TT.format) :
    Encoder (WTy.pair T TT).format :=
  .ofDefaults rfl (fun _ => (h.wiring_emits _).bind (hh.wiring_emits _))
    (fun _ => (h.wiringRef_emits _).bind (hh.wiringRef_emits _))
    (fun _ => (h.syncWiring_emits _).bind (hh.syncWiring_emits _))
    (fun p => by
      have h1 := h.fixedSize_le p.1
      have h2 := hh.fixedSize_le p.2
      show _ ≤ (_ ++ _ : Bytes).length
      rw [List.length_append]
      exact Nat.add_le_add h1 h2)
    (fun _ => (h.concatArray_fills _).onSplit (hh.concatArray_fills _))

theorem triple_encoder (h : Encoder T.format) (hh : Encoder TT.format)
    (hhh : Encoder TTT.format) : Encoder (WTy.triple T TT TTT).format :=
  .ofDefaults rfl
    (fun _ => ((h.wiring_emits _).bind ((hh.wiring_emits _).bind
      (hhh.wiring_emits _))).congr (List.append_assoc ..).symm)
    (fun _ => ((h.wiringRef_emits _).bind ((hh.wiringRef_emits _).bind
      (hhh.wiringRef_emits _))).congr (List.append_assoc ..).symm)
    (fun _ => ((h.syncWiring_emits _).bind ((hh.syncWiring_emits _).bind
      (hhh.syncWiring_emits _))).congr (List.append_assoc ..).symm)
    (fun p => by
      have h1 := h.fixedSize_le p.fst
      have h2 := hh.fixedSize_le p.snd
      have h3 := hhh.fixedSize_le p.trd
      show _ ≤ (_ ++ _ ++ _ : Bytes).length
      rw [List.length_append, List.length_append]
      exact Nat.add_le_add (Nat.add_le_add h1 h2) h3)
    (fun p => by
      have h1 : Fills _ (onRange 0 (fixedSize α) (concatArray p.fst)) :=
        Fills.onRange (Nat.zero_le _) (h.concatArray_fills p.fst)
      have h2 : Fills _ (onRange (fixedSize α) (fixedSize α + fixedSize β)
          (concatArray p.snd)) :=
        Fills.onRange (Nat.le_add_right _ _)
          ((hh.concatArray_fills p.snd).mono (by omega))
      have h3 : Fills (fixedSize α + fixedSize β + fixedSize γ) fun buf =>
          onRange (fixedSize α + fixedSize β) buf.length
            (concatArray p.trd) buf := fun buf hb =>
        Fills.onRange (by omega) ((hhh.concatArray_fills p.trd).mono (by omega))
          buf (Nat.le_refl _)
      show Fills (fixedSize α + fixedSize β + fixedSize γ) _
      exact (h1.mono (by omega)).bind ((h2.mono (by omega)).bind h3))

end

/-! ## The handshake and the wired stream -/

theorem connectInfo_encoder (U : UrlCrate) :
    Encoder (WTy.connectInfo U).format :=
  .ofDefaults' rfl rfl (fun _ => rfl)
    (fun
      | .tcpStream _ =>
          ((prim_encoder .u8).wiring_emits _).bind (bytesWiring_emits _)
      | .url _ => ((prim_encoder .u8).wiring_emits _).bind (bytesWiring_emits _))
    (fun
      | .tcpStream _ =>
          ((prim_encoder .u8).wiring_emits _).bind (bytesWiring_emits _)
      | .url _ => ((prim_encoder .u8).wiring_emits _).bind (bytesWiring_emits _))
    (fun
      | .tcpStream _ =>
          ((prim_encoder .u8).syncWiring_emits _).bind (syncBytes_emits _)
      | .url _ =>
          ((prim_encoder .u8).syncWiring_emits _).bind (syncBytes_emits _))

theorem wireInfo_encoder (U : UrlCrate) : Encoder (WTy.wireInfo U).format :=
  have hc := connectInfo_encoder U
  .ofDefaults' rfl rfl (fun _ => rfl)
    (fun w => (((prim_encoder .u64).wiring_emits _).bind
      (((prim_encoder .u128).wiring_emits _).bind
        (hc.wiring_emits w.connectInfo))).congr (List.append_assoc ..).symm)
    (fun w => (((prim_encoder .u64).wiringRef_emits _).bind
      (((prim_encoder .u128).wiringRef_emits _).bind
        (hc.wiringRef_emits w.connectInfo))).congr (List.append_assoc ..).symm)
    (fun w => (((prim_encoder .u64).syncWiring_emits _).bind
      (((prim_encoder .u128).syncWiring_emits _).bind
        (hc.syncWiring_emits w.connectInfo))).congr (List.append_assoc ..).symm)

theorem vecU8_format (isAsync : Bool) (m : Vec U8) :
    (WTy.vec (.prim .u8)).format isAsync m
      = prefixed (m.toList.map Prim.toByte) := by
  rw [prefixed, List.length_map, map_toByte]
  rfl

theorem message_format {α : Type} [Wiring α] (T : WTy α) (isAsync : Bool)
    (streamId : U64) (b : Bool) (m : Vec U8) :
    primFormat .u8 isAsync (.ofNat 1) ++ (primFormat .u64 isAsync streamId ++
      (WTy.bool.format isAsync b ++ (WTy.vec (.prim .u8)).format isAsync m))
      = (WTy.wiringEvent T).format isAsync (.message streamId b m) := by
  rw [vecU8_format, ← List.append_assoc (primFormat .u64 isAsync streamId)]
  rfl

theorem wiringEvent_encoder {α : Type} [Wiring α] {T : WTy α}
    (h : Encoder T.format) : Encoder (WTy.wiringEvent T).format :=
  have h8 : Encoder (WTy.prim .u8).format := prim_encoder .u8
  have h64 : Encoder (WTy.prim .u64).format := prim_encoder .u64
  have hm := vec_encoder h8
  .ofDefaults' rfl rfl (fun _ => rfl)
    (fun
      | .event e => (h8.wiring_emits _).bind (h.wiring_emits e)
      | .message _ b m => ((h8.wiring_emits _).bind ((h64.wiring_emits _).bind
          ((bool_encoder.wiring_emits b).bind (hm.wiring_emits m)))).congr
            (message_format ..)
      | .drop _ b => (h8.wiring_emits _).bind ((h64.wiring_emits _).bind
          (bool_encoder.wiring_emits b)))
    (fun
      | .event e => (h8.wiring_emits _).bind (h.wiringRef_emits e)
      | .message _ b m => ((h8.wiring_emits _).bind ((h64.wiringRef_emits _).bind
          ((bool_encoder.wiringRef_emits b).bind (hm.wiringRef_emits m)))).congr
            (message_format ..)
      | .drop _ b => (h8.wiring_emits _).bind ((h64.wiringRef_emits _).bind
          (bool_encoder.wiringRef_emits b)))
    (fun
      | .event e => (h8.syncWiring_emits _).bind (h.syncWiring_emits e)
      | .message _ b m => ((h8.syncWiring_emits _).bind
          ((h64.syncWiring_emits _).bind ((bool_encoder.syncWiring_emits b).bind
            (hm.syncWiring_emits m)))).congr (message_format ..)
      | .drop _ b => (h8.syncWiring_emits _).bind
          ((h64.syncWiring_emits _).bind (bool_encoder.syncWiring_emits b)))

/-! ## Derived types -/

section

variable {n : Nat} {d : StructDecl n} {ty : Fin n → Type} [∀ i, Wiring (ty i)]

/-- The fields' share of a buffer. -/
abbrev sizes (ty : Fin n → Type) [∀ i, Wiring (ty i)] (fs : List (Fin n)) : Nat :=
  (fs.map fun f => fixedSize (ty f)).sum

theorem concatFields_fills (s : Struct d ty)
    (h : ∀ f, Fills (fixedSize (ty f)) (concatArray (s.field f)))
    (fs : List (Fin n)) : Fills (sizes ty fs) (concatFields s fs) := by
  induction fs with
  | nil => exact Fills.id _
  | cons f fs ih =>
      rw [sizes, List.map_cons, List.sum_cons]
      exact (h f).onSplit ih

theorem foldlM_append_ok {ε α β : Type} {f : β → α → Except ε β} {l l' : List α}
    {b b' : β} (h : l.foldlM f b = .ok b') :
    (l ++ l').foldlM f b = l'.foldlM f b' := by
  rw [List.foldlM_append, h]; rfl

theorem foldlM_cons_ok {ε α β : Type} {f : β → α → Except ε β} {x : α}
    {l : List α} {b b' : β} (h : f b x = .ok b') :
    (x :: l).foldlM f b = l.foldlM f b' := by
  rw [List.foldlM_cons, h]; rfl

/-- Copying the middle fields of a group advances the index by their sizes. -/
theorem foldlM_mid (s : Struct d ty)
    (h : ∀ f, Fills (fixedSize (ty f)) (concatArray (s.field f)))
    (fs : List (Fin n)) (a : Bytes) (i : Nat) (hi : i + sizes ty fs ≤ a.length) :
    ∃ a', (fs.map ConcatCall.mid).foldlM (concatCall s) (a, i)
      = .ok (a', i + sizes ty fs) ∧ a'.length = a.length := by
  induction fs generalizing a i with
  | nil => exact ⟨a, rfl, rfl⟩
  | cons f fs ih =>
      have hsz : sizes ty (f :: fs) = fixedSize (ty f) + sizes ty fs := rfl
      obtain ⟨a1, h1, hl1⟩ := Fills.onRange (Nat.le_add_right i (fixedSize (ty f)))
        ((h f).mono (by omega)) a (by omega)
      obtain ⟨a2, h2, hl2⟩ := ih a1 (i + fixedSize (ty f)) (by omega)
      have hcall : concatCall s (a, i) (.mid f)
          = .ok (a1, i + fixedSize (ty f)) := by rw [concatCall, h1]; rfl
      refine ⟨a2, ?_, hl2.trans hl1⟩
      rw [List.map_cons, foldlM_cons_ok hcall, h2, hsz, Nat.add_assoc]

/-- A group fills its buffer. -/
theorem groupBytes_ok (s : Struct d ty)
    (h : ∀ f, Fills (fixedSize (ty f)) (concatArray (s.field f)))
    {fs : List (Fin n)} {calls : List (ConcatCall (Fin n))}
    (hc : (Call.group fs calls).Filled) :
    ∃ a, groupBytes s fs calls = .ok a ∧ a.length = sizes ty fs := by
  obtain ⟨f, mids, g, hfs, rfl⟩ := hc
  have hsz : sizes ty fs
      = fixedSize (ty f) + sizes ty mids + fixedSize (ty g) := by
    simp [hfs, sizes, Nat.add_assoc]
  let zeros : Bytes := List.replicate (sizes ty fs) 0
  have hlen : zeros.length = sizes ty fs := List.length_replicate
  obtain ⟨a1, h1, hl1⟩ := h f zeros (by omega)
  obtain ⟨a2, h2, hl2⟩ := foldlM_mid s h mids a1 (fixedSize (ty f)) (by omega)
  obtain ⟨a3, h3, hl3⟩ := Fills.onRange (Nat.le_add_right
    (fixedSize (ty f) + sizes ty mids) (fixedSize (ty g)))
    ((h g).mono (by omega)) a2 (by omega)
  have hstart : concatCall s (zeros, 0) (.start f) = .ok (a1, fixedSize (ty f)) := by
    rw [concatCall, h1]; rfl
  have hlast : concatCall s (a2, fixedSize (ty f) + sizes ty mids) (.last g)
      = .ok (a3, sizes ty fs) := by rw [concatCall, h3, hsz]; rfl
  have hfold : (ConcatCall.start f :: mids.map .mid ++ [ConcatCall.last g]).foldlM
      (concatCall s) (zeros, 0) = .ok (a3, sizes ty fs) := by
    rw [List.cons_append, foldlM_cons_ok hstart, foldlM_append_ok h2,
      foldlM_cons_ok hlast]
    rfl
  refine ⟨a3, ?_, by omega⟩
  show (do
    let p ← List.foldlM (concatCall s) (zeros, 0) _
    Except.ok (p.1.take p.2)) = _
  rw [hfold]
  show Except.ok (a3.take (sizes ty fs)) = _
  rw [List.take_of_length_le (by omega)]

theorem groupContents_eq {s : Struct d ty} {fs : List (Fin n)}
    {calls : List (ConcatCall (Fin n))} {a : Bytes}
    (h : groupBytes s fs calls = .ok a) : groupContents s fs calls = a := by
  rw [groupContents, h]

/-- The bytes of a statement, given those of a field and of a group. -/
def callBytes (s : Struct d ty) (field : Fin n → Bytes) (write : Bytes → Bytes) :
    Call (Fin n) → Bytes
  | .field f => field f
  | .group fs calls => write (groupContents s fs calls)

theorem runCalls_emits {σ : Type} [Sink σ] (s : Struct d ty)
    (h : ∀ f, Fills (fixedSize (ty f)) (concatArray (s.field f)))
    {field : Fin n → IoM σ Unit} {write : Bytes → IoM σ Unit}
    {ef : Fin n → Bytes} {ew : Bytes → Bytes}
    (hf : ∀ f, Emits (field f) (ef f)) (hw : ∀ a, Emits (write a) (ew a))
    {calls : List (Call (Fin n))} (hc : ∀ c ∈ calls, c.Filled) :
    Emits (runCalls s field write calls) (calls.flatMap (callBytes s ef ew)) := by
  refine Emits.forM fun c hmem => ?_
  cases c with
  | field f => exact hf f
  | group fs calls =>
      obtain ⟨a, ha, -⟩ := groupBytes_ok s h (hc _ hmem)
      show Emits (Act.lift (groupBytes s fs calls) >>= write)
        (ew (groupContents s fs calls))
      rw [ha, groupContents_eq ha]
      exact hw a

theorem sizes_flatMap (calls : List (Call (Fin n))) :
    sizes ty (calls.flatMap Call.fields)
      = (calls.map fun c => sizes ty c.fields).sum := by
  induction calls with
  | nil => rfl
  | cons c calls ih =>
      rw [List.flatMap_cons, sizes, List.map_append, List.sum_append, List.map_cons,
        List.sum_cons, ← ih]

variable {T : ∀ i, WTy (ty i)}

theorem struct_format (isAsync : Bool) (s : Struct d ty) :
    (WTy.struct d T).format isAsync s = d.calls.syncWiringCalls.flatMap
      (callBytes s (fun f => (T f).format isAsync (s.field f))
        (if isAsync then prefixed else id)) := by
  rw [WTy.format, WTy.encode]
  refine List.flatMap_congr fun c _ => ?_
  cases c <;> cases isAsync <;> rfl

theorem length_groupContents (h : ∀ i, Encoder (T i).format) (s : Struct d ty)
    {fs : List (Fin n)} {calls : List (ConcatCall (Fin n))}
    (hc : (Call.group fs calls).Filled) :
    (groupContents s fs calls).length = sizes ty fs := by
  obtain ⟨a, ha, hl⟩ := groupBytes_ok s (fun f => (h f).concatArray_fills _) hc
  rw [groupContents_eq ha, hl]

theorem sizes_le_callBytes (h : ∀ i, Encoder (T i).format) (s : Struct d ty)
    {c : Call (Fin n)} (hc : c.Filled) : sizes ty c.fields ≤
      (callBytes s (fun f => (T f).format false (s.field f)) id c).length := by
  cases c with
  | field f =>
      show fixedSize (ty f) + 0 ≤ _
      exact (h f).fixedSize_le (s.field f)
  | group fs calls => exact Nat.le_of_eq (length_groupContents h s hc).symm

theorem struct_encoder (h : ∀ i, Encoder (T i).format) :
    Encoder (WTy.struct d T).format := by
  have hfill : ∀ (s : Struct d ty) f,
      Fills (fixedSize (ty f)) (concatArray (s.field f)) :=
    fun s f => (h f).concatArray_fills _
  obtain ⟨hw, hr, hcov⟩ := d.covers
  refine Encoder.ofDefaults rfl (fun s => ?_) (fun s => ?_) (fun s => ?_)
    (fun s => ?_) (fun s => concatFields_fills s (hfill s) _)
  · rw [struct_format, ← hw]
    exact runCalls_emits s (hfill s) (fun f => (h f).wiring_emits _)
      bytesWiring_emits (hw ▸ hcov.filled)
  · rw [struct_format, ← hr]
    exact runCalls_emits s (hfill s) (fun f => (h f).wiringRef_emits _)
      bytesWiring_emits (hr ▸ hcov.filled)
  · rw [struct_format]
    exact runCalls_emits s (hfill s) (fun f => (h f).syncWiring_emits _)
      (fun a => LawfulWire.syncWireAll_emits true a) hcov.filled
  · rw [struct_format]
    show sizes ty (List.finRange n) ≤ _
    rw [← hcov.fields_eq, sizes_flatMap]
    exact sum_le_length_flatMap fun c hc => sizes_le_callBytes h s (hcov.filled c hc)

end

theorem unitStruct_encoder : Encoder WTy.unitStruct.format :=
  .ofDefaults rfl (fun _ => unit_encoder.wiring_emits ())
    (fun _ => unit_encoder.wiringRef_emits ())
    (fun _ => unit_encoder.syncWiring_emits ()) (fun _ => Nat.le_refl _)
    (fun _ => Fills.copyPrefix [1])

theorem enum_encoder {d : EnumDecl}
    {ty : (v : Fin d.variants) → Fin (d.arity v) → Type}
    [∀ v i, Wiring (ty v i)] {T : ∀ v i, WTy (ty v i)}
    (h : ∀ v i, Encoder (T v i).format) : Encoder (WTy.enum d T).format :=
  have ht := prim_encoder d.tag
  .ofDefaults rfl
    (fun e => (ht.wiring_emits e.idx).bind
      (Emits.forM fun i _ => (h e.variant i).wiring_emits (e.field i)))
    (fun e => (ht.wiring_emits e.idx).bind
      (Emits.forM fun i _ => (h e.variant i).wiringRef_emits (e.field i)))
    (fun e => (ht.syncWiring_emits e.idx).bind
      (Emits.forM fun i _ => (h e.variant i).syncWiring_emits (e.field i)))
    (fun e => by
      show d.tag.size ≤ (e.idx.toBeBytes ++ _).length
      rw [List.length_append, e.idx.length_toBeBytes]
      exact Nat.le_add_right _ _)
    (fun e => by
      show Fills d.tag.size fun buf =>
        if d.unit e.variant then concatArray e.idx buf else .ok buf
      have hf : fixedSize (Prim d.tag) = d.tag.size := by cases d.tag <;> rfl
      cases d.unit e.variant with
      | true => exact hf ▸ ht.concatArray_fills e.idx
      | false => exact Fills.id _)

/-! ## All types -/

/-- **The encoders write the format.** -/
theorem WTy.encoder : {α : Type} → {w : Wiring α} → (T : @WTy α w) →
    Encoder T.format
  | _, _, WTy.prim t => prim_encoder t
  | _, _, WTy.usize => usize_encoder
  | _, _, WTy.char => char_encoder
  | _, _, WTy.unit => unit_encoder
  | _, _, WTy.bool => bool_encoder
  | _, _, WTy.string => string_encoder
  | _, _, WTy.str => str_encoder
  | _, _, WTy.url U => url_encoder U
  | _, _, WTy.slice T => slice_encoder T.encoder
  | _, _, WTy.arrayRef T N => arrayRef_encoder N T.encoder
  | _, _, WTy.array T N => array_encoder N T.encoder
  | _, _, WTy.vec T => vec_encoder T.encoder
  | _, _, WTy.boxSlice T => boxSlice_encoder T.encoder
  | _, _, WTy.box T => box_encoder T.encoder
  | _, _, WTy.arc T => arc_encoder T.encoder
  | _, _, WTy.hashSet T => hashSet_encoder T.encoder
  | _, _, WTy.option T => option_encoder T.encoder
  | _, _, WTy.pair T TT => pair_encoder T.encoder TT.encoder
  | _, _, WTy.triple T TT TTT =>
      triple_encoder T.encoder TT.encoder TTT.encoder
  | _, _, WTy.connectInfo U => connectInfo_encoder U
  | _, _, WTy.wireInfo U => wireInfo_encoder U
  | _, _, WTy.wiringEvent T => wiringEvent_encoder T.encoder
  | _, _, WTy.struct _ T => struct_encoder fun i => (T i).encoder
  | _, _, WTy.unitStruct => unitStruct_encoder
  | _, _, WTy.enum _ T => enum_encoder fun v i => (T v i).encoder

end WiringRs
