import WiringRs.BufUnWire
import WiringRs.Overruns

/-!
# Reads past the end of the buffer

A decoder takes the same values off the same bytes from the unsafe reader as it does
from a slice (`Mirrors`). But the unsafe reader has no check of its own, so it reads
past its buffer exactly where the decoder comes to a read that the bytes ahead are too
few for: `UTy.RunsShort` says when that happens, in terms of the decoder of a slice.
-/

namespace WiringRs

/-! ## One decoder on two readers -/

/-- The call on the buffer reader returns the values that the call on the bytes
ahead of it returns, and leaves the same bytes ahead. -/
structure Mirrors {α : Type} (x : IoM UnsafeReader α) (y : IoM Bytes α) : Prop where
  of_reader : ∀ {r v r'}, r.Valid → x r = (.ok v, r') →
    r'.Valid ∧ r'.slice = r.slice ∧ y r.rest = (.ok v, r'.rest)
  of_slice : ∀ {r v s}, r.Valid → y r.rest = (.ok v, s) → ∃ r', x r = (.ok v, r')

namespace Mirrors

variable {α β : Type} {x : IoM UnsafeReader α} {y : IoM Bytes α}

theorem pure (a : α) : Mirrors (Pure.pure a) (Pure.pure a) where
  of_reader hr h := by
    cases h
    exact ⟨hr, rfl, rfl⟩
  of_slice _ h := by
    cases h
    exact ⟨_, rfl⟩

theorem stop (k k' : Stop IoError) : Mirrors (Act.stop k : IoM _ α) (Act.stop k') where
  of_reader _ h := by cases h
  of_slice _ h := by cases h

theorem bind {f : α → IoM UnsafeReader β} {g : α → IoM Bytes β} (h : Mirrors x y)
    (hf : ∀ a, Mirrors (f a) (g a)) : Mirrors (x >>= f) (y >>= g) where
  of_reader hr hb := by
    obtain ⟨a, r1, ha, hfa⟩ := Act.bind_eq_ok.mp hb
    obtain ⟨hr1, hslice, hy⟩ := h.of_reader hr ha
    obtain ⟨hr', hslice', hg⟩ := (hf a).of_reader hr1 hfa
    exact ⟨hr', hslice'.trans hslice, by rw [Act.bind_ok hy, hg]⟩
  of_slice hr hb := by
    obtain ⟨a, s1, ha, hga⟩ := Act.bind_eq_ok.mp hb
    obtain ⟨r1, hx⟩ := h.of_slice hr ha
    obtain ⟨hr1, -, hy⟩ := h.of_reader hr hx
    cases ha.symm.trans hy
    obtain ⟨r', hfa⟩ := (hf a).of_slice hr1 hga
    exact ⟨r', by rw [Act.bind_ok hx, hfa]⟩

/-! ### Reads -/

theorem fits_iff {n : Nat} {r : UnsafeReader} (hr : r.Valid) :
    r.position + n ≤ r.sourceBufferLen ↔ n ≤ r.rest.length := by
  rw [UnsafeReader.rest, List.length_drop, ← r.len_eq]
  rw [UnsafeReader.Valid] at hr
  omega

/-- A read of `n` bytes that fits leaves the reader within its buffer. -/
theorem advance_valid {r : UnsafeReader} {n : Nat} (hr : r.Valid)
    (h : n ≤ r.rest.length) : ({ r with position := r.position + n } : UnsafeReader).Valid :=
  (fits_iff hr).mpr h

theorem advance_rest (r : UnsafeReader) (n : Nat) :
    ({ r with position := r.position + n } : UnsafeReader).rest = r.rest.drop n := by
  rw [UnsafeReader.rest, UnsafeReader.rest, List.drop_drop]

theorem unwireSlice_eq_ok {n : Nat} {r r' : UnsafeReader} {b : Bytes} (hr : r.Valid) :
    UnsafeReader.unwireSlice n r = (.ok b, r') ↔ n ≤ r.rest.length ∧
      b = r.rest.take n ∧ r' = { r with position := r.position + n } := by
  unfold UnsafeReader.unwireSlice
  split
  · rename_i hle
    simp [(fits_iff hr).mp hle, eq_comm]
  · rename_i hlt
    simp [mt (fits_iff hr).mpr hlt]

theorem unwireSlice_eq_ub {n : Nat} {r : UnsafeReader} (hr : r.Valid)
    (h : r.rest.length < n) : UnsafeReader.unwireSlice n r = (.error .ub, r) :=
  if_neg fun hle => Nat.not_le.mpr h ((fits_iff hr).mp hle)

theorem prim_eq_ub {t : PrimTy} {r : UnsafeReader} (hr : r.Valid)
    (h : r.rest.length < t.size) :
    (syncUnwiring : IoM UnsafeReader (Prim t)) r = (.error .ub, r) := by
  have hub {u : PrimTy} (hu : u.size = t.size) :
      UnsafeReader.unwirePrim u r = (.error .ub, r) :=
    Act.bind_error (unwireSlice_eq_ub hr (hu ▸ h))
  have hcast {u : PrimTy} (hu : u.size = t.size) :
      (do let n ← UnsafeReader.unwirePrim u; Pure.pure n.cast : IoM _ (Prim t)) r =
        (.error .ub, r) := Act.bind_error (hub hu)
  cases t with
  | u8 | u16 | u32 | u64 | f32 | f64 | u128 | i128 => exact hub rfl
  | i8 => exact hcast (u := .u8) rfl
  | i16 => exact hcast (u := .u16) rfl
  | i32 => exact hcast (u := .u32) rfl
  | i64 => exact hcast (u := .u64) rfl

theorem prim (t : PrimTy) :
    Mirrors (syncUnwiring : IoM UnsafeReader (Prim t)) syncUnwiring where
  of_reader {r v r'} hr h := by
    rcases Nat.lt_or_ge r.rest.length t.size with hlt | hle
    · cases (prim_eq_ub hr hlt).symm.trans h
    · rw [syncUnwiring_prim_eq hr hle] at h
      cases h
      refine ⟨advance_valid hr hle, rfl, (ReadsPrim.syncUnwiring t ..).mpr ⟨hle, rfl, ?_⟩⟩
      exact advance_rest r _
  of_slice {r v s} hr h := by
    obtain ⟨hle, rfl, -⟩ := (ReadsPrim.syncUnwiring t ..).mp h
    exact ⟨_, syncUnwiring_prim_eq hr hle⟩

/-- The contents of a string. The slice reader allocates before it reads. -/
theorem contents (n : Nat) : Mirrors (do
    let b ← UnsafeReader.unwireSlice n
    Act.lift (fromUtf8 b)) (readString n) where
  of_reader {r v r'} hr h := by
    obtain ⟨b, r1, hb, hlift⟩ := Act.bind_eq_ok.mp h
    obtain ⟨hle, rfl, rfl⟩ := (unwireSlice_eq_ok hr).mp hb
    obtain ⟨hok, rfl⟩ := Prod.mk.inj hlift
    exact ⟨advance_valid hr hle, rfl,
      readString_eq_ok.mpr ⟨hle, hok, advance_rest r n⟩⟩
  of_slice {r v s} hr h := by
    obtain ⟨hle, hok, -⟩ := readString_eq_ok.mp h
    have hb := (unwireSlice_eq_ok hr).mpr ⟨hle, rfl, rfl⟩
    exact ⟨_, by rw [Act.bind_ok hb, Act.lift_apply, hok]⟩

end Mirrors

/-! ## Where the bytes run out -/

/-- An integer is incomplete, or the rest runs short after it. -/
def ShortAfter (t : PrimTy) (F : Prim t → Bytes → Prop) (s : Bytes) : Prop :=
  s.length < t.size ∨ Past (syncUnwiring : IoM Bytes (Prim t)) F s

/-- The contents of a string are incomplete. -/
def StringRunsShort : Bytes → Prop := ShortAfter .u64 fun len s => s.length < len.toNat

/-- The decoder comes to a read that the bytes are too few for. -/
def UTy.RunsShort : {α : Type} → {r : RustType α} → {u : Unwiring α} →
    @UTy α r u → Bytes → Prop
  | _, _, _, UTy.prim t => fun s => s.length < t.size
  | _, _, _, UTy.unit | _, _, _, UTy.bool | _, _, _, UTy.unitStruct => fun s => s.length < 1
  | _, _, _, UTy.string | _, _, _, UTy.url _ => StringRunsShort
  | _, _, _, UTy.array T N => OverrunsTimes T.decode T.RunsShort N
  | _, _, _, UTy.arc T | _, _, _, UTy.box T => T.RunsShort
  | _, _, _, @UTy.boxSlice α _ _ T _ | _, _, _, @UTy.vec α _ _ T _ =>
      ShortAfter .u64 fun len s =>
        CapacityFits α len.toNat ∧ OverrunsTimes T.decode T.RunsShort len.toNat s
  | _, _, _, @UTy.hashSet α _ _ T _ _ => ShortAfter .u64 fun len s =>
      HashFits α len.toNat ∧ OverrunsTimes T.decode T.RunsShort len.toNat s
  | _, _, _, @UTy.hashMap α β _ _ _ _ K V _ _ _ => ShortAfter .u64 fun len s =>
      HashFits (α × β) len.toNat ∧ OverrunsTimes (entry K.decode V.decode)
        (fun s => K.RunsShort s ∨ Past K.decode (fun _ => V.RunsShort) s) len.toNat s
  | _, _, _, UTy.btreeMap K V => ShortAfter .u64 fun len =>
      OverrunsTimes (entry K.decode V.decode)
        (fun s => K.RunsShort s ∨ Past K.decode (fun _ => V.RunsShort) s) len.toNat
  | _, _, _, UTy.btreeSet T => ShortAfter .u64 fun len =>
      OverrunsTimes T.decode T.RunsShort len.toNat
  | _, _, _, UTy.option T => ShortAfter .u8 fun variant s =>
      variant.toNat = 1 ∧ T.RunsShort s
  | _, _, _, UTy.pair T TT => fun s =>
      T.RunsShort s ∨ Past T.decode (fun _ => TT.RunsShort) s
  | _, _, _, UTy.triple T TT T3 => fun s => T.RunsShort s ∨
      Past T.decode (fun _ s => TT.RunsShort s ∨
        Past TT.decode (fun _ => T3.RunsShort) s) s
  | _, _, _, UTy.struct _ T => OverrunsSequence _ (fun i => (T i).decode)
      fun i => (T i).RunsShort
  | _, _, _, UTy.enum d T => ShortAfter d.tag fun taged s =>
      ∃ h : taged.toNat < d.variants,
        OverrunsSequence _ (fun i => (T ⟨taged.toNat, h⟩ i).decode)
          (fun i => (T ⟨taged.toNat, h⟩ i).RunsShort) s

/-! ## Reading past the end -/

/-- Besides, the call reads past the buffer where `E` holds of the bytes ahead. -/
structure Overreads {α : Type} (x : IoM UnsafeReader α) (y : IoM Bytes α)
    (E : Bytes → Prop) : Prop extends Mirrors x y where
  ub_iff : ∀ {r}, r.Valid → ((x r).1 = .error .ub ↔ E r.rest)

namespace Overreads

variable {α β : Type} {x : IoM UnsafeReader α} {y : IoM Bytes α} {E E' : Bytes → Prop}

theorem congr (h : Overreads x y E) (hE : ∀ s, E' s ↔ E s) : Overreads x y E' :=
  { h with ub_iff := fun hr => (h.ub_iff hr).trans (hE _).symm }

theorem pure (a : α) : Overreads (Pure.pure a) (Pure.pure a) fun _ => False :=
  { Mirrors.pure a with ub_iff := fun _ => iff_of_false (by rintro ⟨⟩) id }

theorem stop {k : Stop IoError} (k' : Stop IoError) (hk : k ≠ .ub) :
    Overreads (Act.stop k : IoM _ α) (Act.stop k') fun _ => False :=
  { Mirrors.stop k k' with
    ub_iff := fun _ => iff_of_false (fun h => hk (Except.error.inj h)) id }

theorem bind {f : α → IoM UnsafeReader β} {g : α → IoM Bytes β} {F : α → Bytes → Prop}
    (h : Overreads x y E) (hf : ∀ a, Overreads (f a) (g a) (F a)) :
    Overreads (x >>= f) (y >>= g) fun s => E s ∨ Past y F s where
  toMirrors := h.toMirrors.bind fun a => (hf a).toMirrors
  ub_iff {r} hr := by
    rw [← h.ub_iff hr]
    rcases hx : x r with ⟨e | v, r1⟩
    · have hpast : ¬ Past y F r.rest := by
        rintro ⟨v, s, hy, -⟩
        obtain ⟨r', hr'⟩ := h.of_slice hr hy
        cases hx.symm.trans hr'
      rw [Act.bind_error hx, or_iff_left hpast]
      exact ⟨fun he => congrArg _ (Except.error.inj he),
        fun he => congrArg _ (Except.error.inj he)⟩
    · obtain ⟨hr1, -, hy⟩ := h.of_reader hr hx
      rw [Act.bind_ok hx, (hf v).ub_iff hr1]
      constructor
      · intro hF
        exact Or.inr ⟨v, r1.rest, hy, hF⟩
      · rintro (hub | ⟨w, s, hw, hF⟩)
        · cases hub
        · cases hy.symm.trans hw
          exact hF

/-- Nothing is read after the first call. -/
theorem bind_never {f : α → IoM UnsafeReader β} {g : α → IoM Bytes β}
    (h : Overreads x y E) (hf : ∀ a, Overreads (f a) (g a) fun _ => False) :
    Overreads (x >>= f) (y >>= g) E :=
  (h.bind hf).congr fun s => by simp [Past]

theorem map {f : α → β} (h : Overreads x y E) :
    Overreads (do let a ← x; Pure.pure (f a)) (do let a ← y; Pure.pure (f a)) E :=
  h.bind_never fun a => pure (f a)

theorem guard {p : Prop} [Decidable p] {x : p → IoM UnsafeReader α} {y : p → IoM Bytes α}
    {k : Stop IoError} (hk : k ≠ .ub) {E : p → Bytes → Prop}
    (h : ∀ hp, Overreads (x hp) (y hp) (E hp)) :
    Overreads (if hp : p then x hp else Act.stop k) (if hp : p then y hp else Act.stop k)
      fun s => ∃ hp, E hp s := by
  by_cases hp : p
  · simp only [hp, dif_pos, exists_true_left]
    exact h hp
  · simp only [hp, dif_neg, not_false_iff, IsEmpty.exists_iff]
    exact stop k hk

theorem ite {p : Prop} [Decidable p] {x' : IoM UnsafeReader α} {y' : IoM Bytes α}
    (h : Overreads x y E) (h' : Overreads x' y' E') :
    Overreads (if p then x else x') (if p then y else y')
      fun s => p ∧ E s ∨ ¬ p ∧ E' s := by
  by_cases hp : p
  · simpa [hp] using h
  · simpa [hp] using h'

theorem times (h : Overreads x y E) (n : Nat) :
    Overreads (Act.times n x) (Act.times n y) (OverrunsTimes y E n) := by
  induction n with
  | zero => exact pure _
  | succ n ih => exact h.bind fun a => ih.map

theorem sequence {n : Nat} {τ : Fin n → Type} {x : ∀ i, IoM UnsafeReader (τ i)}
    {y : ∀ i, IoM Bytes (τ i)} {E : Fin n → Bytes → Prop}
    (h : ∀ i, Overreads (x i) (y i) (E i)) :
    Overreads (Act.sequence n x) (Act.sequence n y) (OverrunsSequence n y E) := by
  induction n with
  | zero => exact pure _
  | succ n ih => exact (h 0).bind fun a => (ih fun i => h i.succ).map

theorem entry {x' : IoM UnsafeReader β} {y' : IoM Bytes β} (h : Overreads x y E)
    (h' : Overreads x' y' E') : Overreads (WiringRs.entry x x') (WiringRs.entry y y')
      fun s => E s ∨ Past y (fun _ => E') s :=
  h.bind fun _ => h'.map

/-! ### Reads -/

theorem prim (t : PrimTy) : Overreads (syncUnwiring : IoM UnsafeReader (Prim t))
    syncUnwiring fun s => s.length < t.size where
  toMirrors := .prim t
  ub_iff {r} hr := by
    by_cases hle : t.size ≤ r.rest.length
    · rw [syncUnwiring_prim_eq hr hle]
      exact iff_of_false (by rintro ⟨⟩) (Nat.not_lt.mpr hle)
    · rw [Mirrors.prim_eq_ub hr (Nat.not_le.mp hle)]
      exact iff_of_true rfl (Nat.not_le.mp hle)

/-- After an integer. -/
theorem after {t : PrimTy} {f : Prim t → IoM UnsafeReader β} {g : Prim t → IoM Bytes β}
    {F : Prim t → Bytes → Prop} (hf : ∀ v, Overreads (f v) (g v) (F v)) :
    Overreads (syncUnwiring >>= f) (syncUnwiring >>= g) (ShortAfter t F) :=
  (prim t).bind hf

theorem contents (n : Nat) : Overreads (do
    let b ← UnsafeReader.unwireSlice n
    Act.lift (fromUtf8 b)) (readString n) fun s => s.length < n where
  toMirrors := .contents n
  ub_iff {r} hr := by
    by_cases hle : n ≤ r.rest.length
    · rw [Act.bind_ok ((Mirrors.unwireSlice_eq_ok hr).mpr ⟨hle, rfl, rfl⟩)]
      exact iff_of_false (fromUtf8_ne_ub _) (Nat.not_lt.mpr hle)
    · rw [Act.bind_error (Mirrors.unwireSlice_eq_ub hr (Nat.not_le.mp hle))]
      exact iff_of_true rfl (Nat.not_le.mp hle)

theorem string [RustType RString] : Overreads (syncUnwiring : IoM UnsafeReader RString)
    syncUnwiring StringRunsShort :=
  after (t := .u64) fun len => contents len.toNat

theorem unit : Overreads (syncUnwiring : IoM UnsafeReader Unit) syncUnwiring
    fun s => s.length < 1 :=
  (prim .u8).bind_never fun _ =>
    ((pure ()).ite (stop _ (by rintro ⟨⟩))).congr fun s => by simp

theorem urlFromStr {U : UrlCrate} (s : RString) (msg : String → String) :
    Overreads (WiringRs.urlFromStr (U := U) s msg) (WiringRs.urlFromStr s msg)
      fun _ => False := by
  unfold WiringRs.urlFromStr
  cases (Url.fromStr s : Except String (Url U)) with
  | ok u => exact pure u
  | error e => exact stop _ (by rintro ⟨⟩)

/-- `Vec::with_capacity` may panic first. -/
theorem alloc {p : Prop} [Decidable p] {x : p → IoM UnsafeReader α} {y : p → IoM Bytes α}
    (h : ∀ hp, Overreads (x hp) (y hp) E) :
    Overreads (if hp : p then x hp else Act.panic) (if hp : p then y hp else Act.panic)
      fun s => p ∧ E s :=
  (guard (by rintro ⟨⟩) h).congr fun _ => exists_prop.symm

end Overreads

/-- **When a decoder reads past the buffer.** -/
theorem UTy.overreads : {α : Type} → {r : RustType α} → {u : Unwiring α} →
    (T : @UTy α r u) →
    Overreads (syncUnwiring : IoM UnsafeReader α) syncUnwiring T.RunsShort
  | _, _, _, UTy.prim t => .prim t
  | _, _, _, UTy.unit => .unit
  | _, _, _, UTy.bool => (Overreads.prim .u8).map
  | _, _, _, UTy.string => .string
  | _, _, _, UTy.url _ => Overreads.string.bind_never fun s => .urlFromStr s id
  | _, _, _, UTy.array T N => T.overreads.times N
  | _, _, _, UTy.arc T => T.overreads.map
  | _, _, _, UTy.box T => T.overreads.map
  | _, _, _, UTy.boxSlice T => (Overreads.after (t := .u64) fun len =>
      .alloc fun _ => (T.overreads.times len.toNat).map).map
  | _, _, _, UTy.vec T => Overreads.after (t := .u64) fun len =>
      .alloc fun _ => (T.overreads.times len.toNat).map
  | _, _, _, UTy.hashSet T => Overreads.after (t := .u64) fun len =>
      .alloc fun _ => (T.overreads.times len.toNat).map
  | _, _, _, UTy.hashMap K V => Overreads.after (t := .u64) fun len =>
      (Overreads.alloc fun _ => ((K.overreads.entry V.overreads).times len.toNat).map).map
  | _, _, _, UTy.btreeMap K V => Overreads.after (t := .u64) fun len =>
      ((K.overreads.entry V.overreads).times len.toNat).map
  | _, _, _, UTy.btreeSet T => Overreads.after (t := .u64) fun len =>
      (T.overreads.times len.toNat).map
  | _, _, _, @UTy.option α _ _ T _ => Overreads.after (t := .u8) fun variant => by
      have hstop : Overreads (Act.fail (unexpectedVariant (Option α)) : IoM _ (Option α))
          (Act.fail (unexpectedVariant (Option α))) fun _ => False :=
        .stop _ (by rintro ⟨⟩)
      refine ((Overreads.pure none).ite (T.overreads.map.ite hstop)).congr fun s => ?_
      simp only [and_false, false_or, or_false]
      constructor
      · rintro ⟨h1, hE⟩
        exact ⟨by omega, h1, hE⟩
      · exact And.right
  | _, _, _, UTy.pair T TT => T.overreads.bind fun _ => TT.overreads.map
  | _, _, _, UTy.triple T TT T3 => T.overreads.bind fun _ => TT.overreads.bind fun _ =>
      T3.overreads.map
  | _, _, _, UTy.struct _ T => (Overreads.sequence fun i => (T i).overreads).map
  | _, _, _, UTy.unitStruct => Overreads.unit.map
  | _, _, _, UTy.enum d T => Overreads.after fun _ =>
      .guard (by rintro ⟨⟩) fun _ => (Overreads.sequence fun i => (T _ i).overreads).map

end WiringRs
