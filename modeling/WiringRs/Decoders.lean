import WiringRs.Unwiring

/-!
# The two decoders

`UTy α` is the syntax of a type with both decoders. The asynchronous and the
synchronous decoder return the same values and consume the same bytes, except
where a stream ends inside the contents of a string: `take(len)` then hands
over what there is and the asynchronous decoder takes it for the whole string.
`EndsInString` says when that happens and nothing after the string needs a
byte.
-/

namespace WiringRs

inductive UTy : (α : Type) → [RustType α] → [Unwiring α] → Type 1 where
  | prim (t : PrimTy) : UTy (Prim t)
  | unit : UTy Unit
  | bool : UTy Bool
  | string [RustType RString] : UTy RString
  | url (U : UrlCrate) [RustType RString] [RustType (Url U)] : UTy (Url U)
  | array {α : Type} [RustType α] [Unwiring α] (T : UTy α) (N : Nat)
      [RustType (List.Vector α N)] : UTy (List.Vector α N)
  | arc {α : Type} [RustType α] [Unwiring α] (T : UTy α) [RustType (Arc α)] :
      UTy (Arc α)
  | box {α : Type} [RustType α] [Unwiring α] (T : UTy α) [RustType (Box α)] :
      UTy (Box α)
  | boxSlice {α : Type} [RustType α] [Unwiring α] (T : UTy α)
      [RustType (BoxSlice α)] : UTy (BoxSlice α)
  | vec {α : Type} [RustType α] [Unwiring α] (T : UTy α) [RustType (Vec α)] :
      UTy (Vec α)
  | hashSet {α : Type} [RustType α] [Unwiring α] (T : UTy α) [DecidableEq α]
      [RustType (HashSet α)] : UTy (HashSet α)
  | hashMap {α β : Type} [RustType α] [RustType β] [Unwiring α] [Unwiring β]
      (K : UTy α) (V : UTy β) [DecidableEq α] [RustType (α × β)]
      [RustType (HashMap α β)] : UTy (HashMap α β)
  | btreeMap {α β : Type} [RustType α] [RustType β] [Unwiring α] [Unwiring β]
      (K : UTy α) (V : UTy β) [DecidableEq α] [RustType (BTreeMap α β)] :
      UTy (BTreeMap α β)
  | btreeSet {α : Type} [RustType α] [Unwiring α] (T : UTy α) [DecidableEq α]
      [RustType (BTreeSet α)] : UTy (BTreeSet α)
  | option {α : Type} [RustType α] [Unwiring α] (T : UTy α)
      [RustType (Option α)] : UTy (Option α)
  | pair {α β : Type} [RustType α] [RustType β] [Unwiring α] [Unwiring β]
      (T : UTy α) (TT : UTy β) [RustType (α × β)] : UTy (α × β)
  | triple {α β γ : Type} [RustType α] [RustType β] [RustType γ] [Unwiring α]
      [Unwiring β] [Unwiring γ] (T : UTy α) (TT : UTy β) (T3 : UTy γ)
      [RustType (Triple α β γ)] : UTy (Triple α β γ)
  | struct {n : Nat} (d : StructDecl n) {ty : Fin n → Type}
      [∀ i, RustType (ty i)] [∀ i, Unwiring (ty i)] (T : ∀ i, UTy (ty i))
      [RustType (Struct d ty)] : UTy (Struct d ty)
  | unitStruct [RustType UnitStruct] : UTy UnitStruct
  | enum (d : EnumDecl) {ty : (v : Fin d.variants) → Fin (d.arity v) → Type}
      [∀ v i, RustType (ty v i)] [∀ v i, Unwiring (ty v i)]
      (T : ∀ v i, UTy (ty v i)) [RustType (Enum d ty)] : UTy (Enum d ty)

/-- The synchronous decoder of the type, on a slice. -/
abbrev UTy.decode {α : Type} [RustType α] [Unwiring α] (_T : UTy α) : IoM Bytes α :=
  syncUnwiring

/-! ## Streams that end inside a string -/

/-- The stream ends inside what follows a complete first part. -/
def EndsAfter {α : Type} (y : IoM Bytes α) (F : α → Bytes → Prop) (s : Bytes) :
    Prop := ∃ v r, y s = (.ok v, r) ∧ F v r

/-- The stream ends inside the second part, or inside the first and the second
takes no bytes. -/
def EndsThen {α β : Type} (y : IoM Bytes α) (E : Bytes → Prop)
    (y' : IoM Bytes β) (E' : Bytes → Prop) (s : Bytes) : Prop :=
  EndsAfter y (fun _ => E') s ∨ E s ∧ ∃ w r, y' [] = (.ok w, r)

/-- The stream ends inside one of `n` values. -/
def EndsTimes {α : Type} (y : IoM Bytes α) (E : Bytes → Prop) :
    Nat → Bytes → Prop
  | 0 => fun _ => False
  | n + 1 => EndsThen y E (Act.times n y) (EndsTimes y E n)

/-- The stream ends inside one of the values of a struct or a variant. -/
def EndsSequence : (n : Nat) → {τ : Fin n → Type} → (∀ i, IoM Bytes (τ i)) →
    (Fin n → Bytes → Prop) → Bytes → Prop
  | 0, _, _, _ => fun _ => False
  | n + 1, _, y, E => EndsThen (y 0) (E 0) (Act.sequence n fun i => y i.succ)
      (EndsSequence n (fun i => y i.succ) fun i => E i.succ)

/-- The stream ends before the `len` bytes of a string, and what is there
satisfies `P`. -/
def EndsInContents (P : RString → Prop) (s : Bytes) : Prop :=
  EndsAfter (asyncReadPrim .u64)
    (fun len r => r.length < len.toNat ∧ ∃ str, fromUtf8 r = .ok str ∧ P str) s

/-- The stream ends inside the contents of a string (or url), what is there of
it is a string (or url) too, and nothing after it takes a byte. -/
def UTy.EndsInString : {α : Type} → {r : RustType α} → {u : Unwiring α} →
    @UTy α r u → Bytes → Prop
  | _, _, _, UTy.prim _ | _, _, _, UTy.unit | _, _, _, UTy.bool
  | _, _, _, UTy.unitStruct => fun _ => False
  | _, _, _, UTy.string => EndsInContents fun _ => True
  | _, _, _, UTy.url U =>
      EndsInContents fun str => ∃ u : Url U, Url.fromStr str = .ok u
  | _, _, _, UTy.array T N => EndsTimes T.decode T.EndsInString N
  | _, _, _, UTy.arc T => T.EndsInString
  | _, _, _, UTy.box T => T.EndsInString
  | _, _, _, @UTy.boxSlice α _ _ T _ | _, _, _, @UTy.vec α _ _ T _ =>
      EndsAfter (asyncReadPrim .u64) fun len s => CapacityFits α len.toNat ∧
        EndsTimes T.decode T.EndsInString len.toNat s
  | _, _, _, @UTy.hashSet α _ _ T _ _ =>
      EndsAfter (asyncReadPrim .u64) fun len s => HashFits α len.toNat ∧
        EndsTimes T.decode T.EndsInString len.toNat s
  | _, _, _, @UTy.hashMap α β _ _ _ _ K V _ _ _ =>
      EndsAfter (asyncReadPrim .u64) fun len s =>
        HashFits (α × β) len.toNat ∧
        EndsTimes (entry K.decode V.decode)
          (EndsThen K.decode K.EndsInString V.decode V.EndsInString) len.toNat s
  | _, _, _, UTy.btreeMap K V => EndsAfter (asyncReadPrim .u64) fun len =>
      EndsTimes (entry K.decode V.decode)
        (EndsThen K.decode K.EndsInString V.decode V.EndsInString) len.toNat
  | _, _, _, UTy.btreeSet T => EndsAfter (asyncReadPrim .u64) fun len =>
      EndsTimes T.decode T.EndsInString len.toNat
  | _, _, _, UTy.option T => EndsAfter (asyncReadPrim .u8) fun variant s =>
      variant.toNat = 1 ∧ T.EndsInString s
  | _, _, _, UTy.pair T TT =>
      EndsThen T.decode T.EndsInString TT.decode TT.EndsInString
  | _, _, _, UTy.triple T TT T3 =>
      EndsThen T.decode T.EndsInString (entry TT.decode T3.decode)
        (EndsThen TT.decode TT.EndsInString T3.decode T3.EndsInString)
  | _, _, _, UTy.struct _ T =>
      EndsSequence _ (fun i => (T i).decode) fun i => (T i).EndsInString
  | _, _, _, UTy.enum d T => EndsAfter (asyncReadPrim d.tag) fun taged s =>
      ∃ h : taged.toNat < d.variants,
        EndsSequence _ (fun i => (T ⟨taged.toNat, h⟩ i).decode)
          (fun i => (T ⟨taged.toNat, h⟩ i).EndsInString) s

/-! ## Reads of one width -/

/-- The call takes the bytes of one value off the stream. -/
def ReadsPrim {t : PrimTy} (x : IoM Bytes (Prim t)) : Prop :=
  ∀ s v r, x s = (.ok v, r) ↔
    t.size ≤ s.length ∧ v = .fromBeBytes (s.take t.size) ∧ r = s.drop t.size

namespace ReadsPrim

variable {t u : PrimTy}

theorem async : ReadsPrim (asyncReadPrim t) := fun _ _ _ => asyncReadPrim_eq_ok

theorem split {n : Nat} (h : t.size = n) {e : IoError} :
    ReadsPrim (do
      let a ← splitSlice n e
      pure (.fromBeBytes a) : IoM Bytes (Prim t)) := by
  intro s v r
  subst h
  rw [Act.bind_eq_ok]
  constructor
  · rintro ⟨a, s', ha, h⟩
    obtain ⟨hle, rfl, rfl⟩ := splitSlice_eq_ok.mp ha
    obtain ⟨hv, rfl⟩ := Prod.mk.injEq .. |>.mp h
    exact ⟨hle, (Except.ok.inj hv).symm, rfl⟩
  · rintro ⟨hle, rfl, rfl⟩
    exact ⟨_, _, splitSlice_eq_ok.mpr ⟨hle, rfl, rfl⟩, rfl⟩

/-- A cast keeps the bytes it was read from. -/
theorem cast {x : IoM Bytes (Prim u)} (hx : ReadsPrim x) (h : u.size = t.size) :
    ReadsPrim (do
      let n ← x
      pure n.cast : IoM Bytes (Prim t)) := by
  intro s v r
  rw [Act.bind_eq_ok, ← h]
  constructor
  · rintro ⟨n, s', hn, hp⟩
    obtain ⟨hle, rfl, rfl⟩ := (hx ..).mp hn
    rw [Act.pure_apply, Prim.cast_fromBeBytes h] at hp
    obtain ⟨hv, rfl⟩ := Prod.mk.injEq .. |>.mp hp
    exact ⟨hle, (Except.ok.inj hv).symm, rfl⟩
  · rintro ⟨hle, rfl, rfl⟩
    refine ⟨_, _, (hx ..).mpr ⟨hle, rfl, rfl⟩, ?_⟩
    rw [Act.pure_apply, Prim.cast_fromBeBytes h]

theorem syncUnwiring : (t : PrimTy) →
    ReadsPrim (WiringRs.syncUnwiring : IoM Bytes (Prim t))
  | .u8 | .u16 | .u32 | .f64 | .u128 | .i128 => async
  | .i8 => cast (u := .u8) async rfl
  | .i16 => cast (u := .u16) async rfl
  | .i32 => cast (u := .u32) async rfl
  | .u64 | .f32 => split rfl
  | .i64 => cast (u := .u64) (split rfl) rfl

/-- There is no value at the end of the stream. -/
theorem nil {x : IoM Bytes (Prim t)} (hx : ReadsPrim x) (v : Prim t) (r : Bytes) :
    x [] ≠ (.ok v, r) := by
  intro h
  have hsize := ((hx ..).mp h).1
  cases t <;> exact absurd hsize (by decide)

end ReadsPrim

theorem unwiring_prim (t : PrimTy) :
    (unwiring : IoM Bytes (Prim t)) = asyncReadPrim t := by
  cases t <;> rfl

/-! ## Decoders that differ at the end of the stream -/

/-- `x` accepts what `y` accepts, with the same value and the same rest, and
besides only the streams in `E`, which it reads to their end. -/
structure Laxer {α : Type} (x y : IoM Bytes α) (E : Bytes → Prop) : Prop where
  of_sync : ∀ {s v r}, y s = (.ok v, r) → x s = (.ok v, r)
  of_async : ∀ {s v r}, x s = (.ok v, r) → y s = (.ok v, r) ∨ E s ∧ r = []
  ends_ok : ∀ {s}, E s → ∃ v, x s = (.ok v, [])
  ends_sync : ∀ {s v r}, E s → y s ≠ (.ok v, r)

namespace Laxer

variable {α β : Type} {x y : IoM Bytes α} {E E' : Bytes → Prop}

theorem congr (h : Laxer x y E) (hE : ∀ s, E' s ↔ E s) : Laxer x y E' := by
  rwa [funext fun s => propext (hE s)]

/-- Decoders that accept the same inputs. -/
theorem of_iff (h : ∀ s v r, x s = (.ok v, r) ↔ y s = (.ok v, r)) :
    Laxer x y fun _ => False where
  of_sync := (h _ _ _).mpr
  of_async hx := Or.inl ((h _ _ _).mp hx)
  ends_ok := False.elim
  ends_sync := False.elim

theorem stop {e e' : Stop IoError} :
    Laxer (Act.stop e : IoM Bytes α) (Act.stop e') fun _ => False :=
  of_iff fun _ _ _ => by simp

theorem guard {p : Prop} [Decidable p] {x y : p → IoM Bytes α} {e : Stop IoError}
    (h : ∀ hp, Laxer (x hp) (y hp) E) :
    Laxer (if hp : p then x hp else Act.stop e)
      (if hp : p then y hp else Act.stop e) fun s => p ∧ E s := by
  by_cases hp : p
  · simp only [hp, true_and]
    exact h hp
  · simp only [hp, false_and]
    exact stop

theorem map (h : Laxer x y E) (f : α → β) :
    Laxer (do let a ← x; pure (f a)) (do let a ← y; pure (f a)) E where
  of_sync hy := by
    obtain ⟨a, s', ha, hf⟩ := Act.bind_eq_ok.mp hy
    exact Act.bind_eq_ok.mpr ⟨a, s', h.of_sync ha, hf⟩
  of_async hx := by
    obtain ⟨a, s', ha, hf⟩ := Act.bind_eq_ok.mp hx
    obtain ⟨-, rfl⟩ := Prod.mk.injEq .. |>.mp hf
    rcases h.of_async ha with hy | hE
    · exact Or.inl (Act.bind_eq_ok.mpr ⟨a, s', hy, hf⟩)
    · exact Or.inr hE
  ends_ok hE := by
    obtain ⟨a, ha⟩ := h.ends_ok hE
    exact ⟨f a, Act.bind_eq_ok.mpr ⟨a, [], ha, rfl⟩⟩
  ends_sync hE hy := by
    obtain ⟨a, s', ha, -⟩ := Act.bind_eq_ok.mp hy
    exact h.ends_sync hE ha

/-- The two decoders agree iff the stream is not in `E`. -/
theorem agree_iff (h : Laxer x y E) (s : Bytes) :
    (∀ v r, x s = (.ok v, r) ↔ y s = (.ok v, r)) ↔ ¬ E s := by
  constructor
  · intro hagree hE
    obtain ⟨v, hv⟩ := h.ends_ok hE
    exact h.ends_sync hE ((hagree v []).mp hv)
  · intro hE v r
    constructor
    · intro hx
      rcases h.of_async hx with hy | ⟨hEs, -⟩
      · exact hy
      · exact absurd hEs hE
    · exact h.of_sync

end Laxer

/-- Besides, at the end of the stream both fail or both take no bytes. -/
structure Twin {α : Type} (x y : IoM Bytes α) (E : Bytes → Prop) : Prop
    extends Laxer x y E where
  not_nil : ¬ E []
  nil_rest : ∀ {v r}, x [] = (.ok v, r) → r = []

namespace Twin

variable {α β γ : Type} {x y : IoM Bytes α} {E E' : Bytes → Prop}

theorem congr (h : Twin x y E) (hE : ∀ s, E' s ↔ E s) : Twin x y E' := by
  rwa [funext fun s => propext (hE s)]

theorem pure (a : α) : Twin (pure a) (pure a) fun _ => False where
  toLaxer := .of_iff fun _ _ _ => Iff.rfl
  not_nil := id
  nil_rest h := (Prod.mk.inj h).2.symm

theorem map (h : Twin x y E) (f : α → β) :
    Twin (do let a ← x; Pure.pure (f a)) (do let a ← y; Pure.pure (f a)) E where
  toLaxer := h.toLaxer.map f
  not_nil := h.not_nil
  nil_rest hx := by
    obtain ⟨a, s', ha, hf⟩ := Act.bind_eq_ok.mp hx
    obtain ⟨-, rfl⟩ := Prod.mk.injEq .. |>.mp hf
    exact h.nil_rest ha

theorem prim {t : PrimTy} {y : IoM Bytes (Prim t)} (hy : ReadsPrim y) :
    Twin (asyncReadPrim t) y fun _ => False where
  toLaxer := .of_iff fun _ _ _ => (ReadsPrim.async ..).trans (hy ..).symm
  not_nil := id
  nil_rest h := (ReadsPrim.async.nil _ _ h).elim

/-- What is read after a complete first value. At the end of the stream there
is no first value. -/
theorem after {t : PrimTy} {y : IoM Bytes (Prim t)} (hy : ReadsPrim y)
    {f g : Prim t → IoM Bytes β} {F : Prim t → Bytes → Prop}
    (hf : ∀ a, Laxer (f a) (g a) (F a)) :
    Twin (asyncReadPrim t >>= f) (y >>= g) (EndsAfter (asyncReadPrim t) F) where
  of_sync h := by
    obtain ⟨a, s', ha, hg⟩ := Act.bind_eq_ok.mp h
    exact Act.bind_eq_ok.mpr ⟨a, s', (ReadsPrim.async ..).mpr ((hy ..).mp ha),
      (hf a).of_sync hg⟩
  of_async h := by
    obtain ⟨a, s', ha, hfa⟩ := Act.bind_eq_ok.mp h
    rcases (hf a).of_async hfa with hg | ⟨hF, hr⟩
    · exact Or.inl (Act.bind_eq_ok.mpr
        ⟨a, s', (hy ..).mpr ((ReadsPrim.async ..).mp ha), hg⟩)
    · exact Or.inr ⟨⟨a, s', ha, hF⟩, hr⟩
  ends_ok := by
    rintro s ⟨a, s', ha, hF⟩
    obtain ⟨v, hv⟩ := (hf a).ends_ok hF
    exact ⟨v, Act.bind_eq_ok.mpr ⟨a, s', ha, hv⟩⟩
  ends_sync := by
    rintro s v r ⟨a, s', ha, hF⟩ h
    obtain ⟨b, s1, hb, hg⟩ := Act.bind_eq_ok.mp h
    have hb' := (ReadsPrim.async ..).mpr ((hy ..).mp hb)
    obtain ⟨hab, rfl⟩ := Prod.mk.inj (ha.symm.trans hb')
    cases Except.ok.inj hab
    exact (hf a).ends_sync hF hg
  not_nil := by
    rintro ⟨a, s', ha, -⟩
    exact ReadsPrim.async.nil _ _ ha
  nil_rest h := by
    obtain ⟨a, s', ha, -⟩ := Act.bind_eq_ok.mp h
    exact (ReadsPrim.async.nil _ _ ha).elim

/-- Two parts, each of which may end the stream. The second one starts at the
end of the stream when the asynchronous decoder took a short first one. -/
theorem andThen {x' y' : IoM Bytes β} (h : Twin x y E) (h' : Twin x' y' E')
    (f : α → β → γ) :
    Twin (do let a ← x; let b ← x'; Pure.pure (f a b))
      (do let a ← y; let b ← y'; Pure.pure (f a b)) (EndsThen y E y' E') where
  of_sync hy := by
    obtain ⟨a, s', ha, hab⟩ := Act.bind_eq_ok.mp hy
    obtain ⟨b, s'', hb, hf⟩ := Act.bind_eq_ok.mp hab
    exact Act.bind_eq_ok.mpr ⟨a, s', h.of_sync ha,
      Act.bind_eq_ok.mpr ⟨b, s'', h'.of_sync hb, hf⟩⟩
  of_async hx := by
    obtain ⟨a, s', ha, hab⟩ := Act.bind_eq_ok.mp hx
    obtain ⟨b, s'', hb, hf⟩ := Act.bind_eq_ok.mp hab
    obtain ⟨-, rfl⟩ := Prod.mk.inj hf
    rcases h.of_async ha with hya | ⟨hE, rfl⟩
    · rcases h'.of_async hb with hyb | ⟨hE', hr⟩
      · exact Or.inl (Act.bind_eq_ok.mpr ⟨a, s', hya,
          Act.bind_eq_ok.mpr ⟨b, s'', hyb, hf⟩⟩)
      · exact Or.inr ⟨Or.inl ⟨a, s', hya, hE'⟩, hr⟩
    · obtain hyb | ⟨hE', -⟩ := h'.of_async hb
      · exact Or.inr ⟨Or.inr ⟨hE, b, s'', hyb⟩, h'.nil_rest hb⟩
      · exact absurd hE' h'.not_nil
  ends_ok := by
    rintro s (⟨a, s', ha, hE'⟩ | ⟨hE, b, s'', hb⟩)
    · obtain ⟨b, hb⟩ := h'.ends_ok hE'
      exact ⟨f a b, Act.bind_eq_ok.mpr ⟨a, s', h.of_sync ha,
        Act.bind_eq_ok.mpr ⟨b, [], hb, rfl⟩⟩⟩
    · obtain ⟨a, ha⟩ := h.ends_ok hE
      have hx' := h'.of_sync hb
      cases h'.nil_rest hx'
      exact ⟨f a b, Act.bind_eq_ok.mpr ⟨a, [], ha,
        Act.bind_eq_ok.mpr ⟨b, [], hx', rfl⟩⟩⟩
  ends_sync := by
    rintro s v r (⟨a, s', ha, hE'⟩ | ⟨hE, -⟩) hy
    · obtain ⟨a1, s1, ha1, hab⟩ := Act.bind_eq_ok.mp hy
      obtain ⟨b, s'', hb, -⟩ := Act.bind_eq_ok.mp hab
      obtain ⟨-, rfl⟩ := Prod.mk.inj (ha.symm.trans ha1)
      exact h'.ends_sync hE' hb
    · obtain ⟨a, s', ha, -⟩ := Act.bind_eq_ok.mp hy
      exact h.ends_sync hE ha
  not_nil := by
    rintro (⟨a, s', ha, hE'⟩ | ⟨hE, -⟩)
    · cases h.nil_rest (h.of_sync ha)
      exact h'.not_nil hE'
    · exact h.not_nil hE
  nil_rest hx := by
    obtain ⟨a, s', ha, hab⟩ := Act.bind_eq_ok.mp hx
    obtain ⟨b, s'', hb, hf⟩ := Act.bind_eq_ok.mp hab
    obtain ⟨-, rfl⟩ := Prod.mk.inj hf
    cases h.nil_rest ha
    exact h'.nil_rest hb

theorem entry (h : Twin x y E) (h' : Twin x' y' E') :
    Twin (entry x x') (entry y y') (EndsThen y E y' E') := h.andThen h' Prod.mk

theorem times (h : Twin x y E) (n : Nat) :
    Twin (Act.times n x) (Act.times n y) (EndsTimes y E n) := by
  induction n with
  | zero => exact pure _
  | succ n ih => exact h.andThen ih List.Vector.cons

theorem sequence {n : Nat} {τ : Fin n → Type} {x y : ∀ i, IoM Bytes (τ i)}
    {E : Fin n → Bytes → Prop} (h : ∀ i, Twin (x i) (y i) (E i)) :
    Twin (Act.sequence n x) (Act.sequence n y) (EndsSequence n y E) := by
  induction n with
  | zero => exact pure _
  | succ n ih => exact (h 0).andThen (ih fun i => h i.succ) Fin.cons

end Twin

/-! ## Strings -/

/-- What follows a string read: a check of the string that leaves the stream
alone. -/
def Checks {β : Type} (k : RString → IoM Bytes β) (Q : RString → β → Prop) : Prop :=
  ∀ str s v r, k str s = (.ok v, r) ↔ Q str v ∧ r = s

section

variable {β : Type} {k k' : RString → IoM Bytes β} {Q : RString → β → Prop}
  {n : Nat} {s r : Bytes} {v : β}

theorem readToString_eq_ok (hk : Checks k Q) :
    (readToString n >>= k) s = (.ok v, r) ↔
      ∃ str, fromUtf8 (s.take n) = .ok str ∧ Q str v ∧ r = s.drop n := by
  rw [Act.bind_eq_ok]
  constructor
  · rintro ⟨str, s', hs, hv⟩
    obtain ⟨hstr, rfl⟩ := Prod.mk.inj hs
    exact ⟨str, hstr, (hk ..).mp hv⟩
  · rintro ⟨str, hstr, hv⟩
    exact ⟨str, s.drop n, by rw [readToString, hstr], (hk ..).mpr hv⟩

/-- The contents of a string, as the synchronous decoder reads them. -/
def readString (n : Nat) : IoM Bytes RString := do
  allocBytes n
  let b ← readExactSlice n
  Act.lift (fromUtf8 b)

theorem readString_eq_ok {str : RString} :
    readString n s = (.ok str, r) ↔
      n ≤ s.length ∧ fromUtf8 (s.take n) = .ok str ∧ r = s.drop n := by
  unfold readString
  simp only [Act.bind_eq_ok, Act.lift_apply]
  constructor
  · rintro ⟨_, s1, ha, b, s2, hb, hstr⟩
    unfold allocBytes at ha
    split at ha
    · obtain ⟨-, rfl⟩ := Prod.mk.inj ha
      obtain ⟨hle, rfl, rfl⟩ := readExactSlice_eq_ok.mp hb
      obtain ⟨hok, rfl⟩ := Prod.mk.inj hstr
      exact ⟨hle, hok, rfl⟩
    · cases ha
  · rintro ⟨hle, hstr, rfl⟩
    have hfit : n ≤ isizeMax := by
      have := str.fits
      rwa [fromUtf8_eq_ok hstr, List.length_take, Nat.min_eq_left hle] at this
    exact ⟨(), s, by rw [allocBytes, if_pos hfit]; rfl, _, _,
      readExactSlice_eq_ok.mpr ⟨hle, rfl, rfl⟩, by rw [hstr]⟩

/-- The asynchronous decoder takes what there is of the contents. -/
theorem Laxer.contents (hk : Checks k Q) (hk' : Checks k' Q) (n : Nat) :
    Laxer (readToString n >>= k) (readString n >>= k')
      fun r => r.length < n ∧ ∃ str, fromUtf8 r = .ok str ∧ ∃ v, Q str v where
  of_sync h := by
    obtain ⟨str, s', hs, hv⟩ := Act.bind_eq_ok.mp h
    obtain ⟨-, hstr, rfl⟩ := readString_eq_ok.mp hs
    exact (readToString_eq_ok hk).mpr ⟨str, hstr, (hk' ..).mp hv⟩
  of_async := by
    intro s v r h
    obtain ⟨str, hstr, hv⟩ := (readToString_eq_ok hk).mp h
    by_cases hle : n ≤ s.length
    · exact Or.inl (Act.bind_eq_ok.mpr
        ⟨str, _, readString_eq_ok.mpr ⟨hle, hstr, rfl⟩, (hk' ..).mpr hv⟩)
    · have hlt : s.length < n := Nat.lt_of_not_le hle
      rw [List.take_of_length_le hlt.le] at hstr
      exact Or.inr ⟨⟨hlt, str, hstr, v, hv.1⟩,
        hv.2.trans (List.drop_of_length_le hlt.le)⟩
  ends_ok := by
    rintro s ⟨hlt, str, hstr, v, hv⟩
    refine ⟨v, (readToString_eq_ok hk).mpr ⟨str, ?_, hv, ?_⟩⟩
    · rwa [List.take_of_length_le hlt.le]
    · rw [List.drop_of_length_le hlt.le]
  ends_sync := by
    rintro s v r ⟨hlt, -⟩ h
    obtain ⟨str, s', hs, -⟩ := Act.bind_eq_ok.mp h
    exact absurd (readString_eq_ok.mp hs).1 (Nat.not_le.mpr hlt)

end

theorem Twin.string {β : Type} [RustType RString] {k k' : RString → IoM Bytes β}
    {Q : RString → β → Prop} (hk : Checks k Q) (hk' : Checks k' Q) :
    Twin ((unwiring : IoM Bytes RString) >>= k)
      ((syncUnwiring : IoM Bytes RString) >>= k')
      (EndsInContents fun str => ∃ v, Q str v) := by
  have h := after (t := .u64) (ReadsPrim.syncUnwiring .u64)
    fun len => Laxer.contents hk hk' len.toNat
  rw [← bind_assoc, ← bind_assoc] at h
  exact h

theorem checks_pure : Checks pure (· = ·) := by
  intro str s v r
  rw [Act.pure_apply, Prod.mk.injEq, Except.ok.injEq]
  exact and_congr_right fun _ => eq_comm

theorem checks_urlFromStr {U : UrlCrate} (msg : String → String) :
    Checks (fun str => urlFromStr (U := U) str msg)
      fun str u => Url.fromStr str = .ok u := by
  intro str s v r
  dsimp only
  unfold urlFromStr
  rcases (Url.fromStr str : Except String (Url U)) with e | u
  · simp
  · simp [eq_comm]

/-! ## Collections -/

section

variable {α β : Type} {x y : IoM Bytes α} {x' y' : IoM Bytes β}
  {E E' : Bytes → Prop}

theorem Laxer.collect [RustType α] (h : Twin x y E) (len : Nat) :
    Laxer (collect len x) (collect len y)
      fun s => CapacityFits α len ∧ EndsTimes y E len s :=
  guard fun _ => ((h.times len).map _).toLaxer

theorem Laxer.collectSet [RustType α] [DecidableEq α] (h : Twin x y E)
    (len : Nat) :
    Laxer (collectSet len x) (collectSet len y)
      fun s => HashFits α len ∧ EndsTimes y E len s :=
  guard fun _ => ((h.times len).map _).toLaxer

theorem Laxer.collectMap [DecidableEq α] [RustType (α × β)] (h : Twin x y E)
    (h' : Twin x' y' E') (len : Nat) :
    Laxer (collectMap len x x') (collectMap len y y') fun s =>
      HashFits (α × β) len ∧
        EndsTimes (WiringRs.entry y y') (EndsThen y E y' E') len s :=
  guard fun _ => (((h.entry h').times len).map _).toLaxer

end

/-! ## All types -/

theorem Laxer.zero (n : U8) (e e' : IoError) :
    Laxer (if n.toNat = 0 then pure () else Act.fail e : IoM Bytes Unit)
      (if n.toNat = 0 then pure () else Act.fail e') fun _ => False := by
  by_cases h : n.toNat = 0
  · simp only [h, if_true]
    exact (Twin.pure ()).toLaxer
  · simp only [h, if_false]
    exact stop

theorem Twin.unit :
    Twin (unwiring : IoM Bytes Unit) syncUnwiring fun _ => False := by
  refine (after (.syncUnwiring .u8) fun n => .zero n _ _).congr fun s => ?_
  simp [EndsAfter]

theorem Laxer.option {α : Type} [RustType (Option α)] {x y : IoM Bytes α}
    {E : Bytes → Prop} (h : Twin x y E) (variant : U8) :
    Laxer
      (if variant.toNat = 0 then pure none
       else if variant.toNat = 1 then do
         let t ← x
         pure (some t)
       else Act.fail (unexpectedVariant (Option α)))
      (if variant.toNat = 0 then pure none
       else if variant.toNat = 1 then do
         let t ← y
         pure (some t)
       else Act.fail (unexpectedVariant (Option α)))
      fun s => variant.toNat = 1 ∧ E s := by
  by_cases h0 : variant.toNat = 0
  · simp only [h0, if_true, Nat.zero_ne_one, false_and]
    exact (Twin.pure none).toLaxer
  · by_cases h1 : variant.toNat = 1
    · simp only [h1, if_true, Nat.one_ne_zero, if_false, true_and]
      exact (h.map some).toLaxer
    · simp only [h0, h1, if_false, false_and]
      exact stop

theorem Laxer.matchTag {β : Type} {d : EnumDecl} {taged : Nat}
    {x y : Fin d.variants → IoM Bytes β} {E : Fin d.variants → Bytes → Prop}
    (h : ∀ v, Laxer (x v) (y v) (E v)) :
    Laxer (d.matchTag taged x) (d.matchTag taged y)
      fun s => ∃ h : taged < d.variants, E ⟨taged, h⟩ s := by
  unfold EnumDecl.matchTag
  by_cases hlt : taged < d.variants
  · simp only [hlt, exists_true_left]
    exact h _
  · simp only [hlt, IsEmpty.exists_iff]
    exact stop

/-- **The asynchronous decoder is the laxer one.** It accepts what the
synchronous decoder accepts, and besides only the streams that end inside a
string. -/
theorem UTy.twin : {α : Type} → {r : RustType α} → {u : Unwiring α} →
    (T : @UTy α r u) → Twin (unwiring : IoM Bytes α) T.decode T.EndsInString
  | _, _, _, UTy.prim t => by
      rw [unwiring_prim]
      exact .prim (.syncUnwiring t)
  | _, _, _, UTy.unit => .unit
  | _, _, _, UTy.bool => (Twin.prim (.syncUnwiring .u8)).map _
  | _, _, _, UTy.string => by
      have h := Twin.string checks_pure checks_pure
      rw [bind_pure, bind_pure] at h
      refine h.congr fun s => ?_
      simp [EndsInString]
  | _, _, _, UTy.url U => Twin.string (checks_urlFromStr _) (checks_urlFromStr _)
  | _, _, _, UTy.array T N => T.twin.times N
  | _, _, _, UTy.arc T => T.twin.map Arc.mk
  | _, _, _, UTy.box T => T.twin.map Box.mk
  | _, _, _, UTy.boxSlice T => (Twin.after (.syncUnwiring .u64) fun len =>
      Laxer.collect T.twin len.toNat).map BoxSlice.mk
  | _, _, _, UTy.vec T => .after (.syncUnwiring .u64) fun len =>
      .collect T.twin len.toNat
  | _, _, _, UTy.hashSet T => .after (.syncUnwiring .u64) fun len =>
      .collectSet T.twin len.toNat
  | _, _, _, UTy.hashMap K V => .after (.syncUnwiring .u64) fun len =>
      (Laxer.collectMap K.twin V.twin len.toNat).map HashMap.mk
  | _, _, _, UTy.btreeMap K V => .after (.syncUnwiring .u64) fun len =>
      (((K.twin.entry V.twin).times len.toNat).map _).toLaxer
  | _, _, _, UTy.btreeSet T => .after (.syncUnwiring .u64) fun len =>
      ((T.twin.times len.toNat).map _).toLaxer
  | _, _, _, UTy.option T => .after (.syncUnwiring .u8) fun variant =>
      .option T.twin variant
  | _, _, _, UTy.pair T TT => T.twin.andThen TT.twin Prod.mk
  | _, _, _, UTy.triple T TT T3 => by
      have h := T.twin.andThen (TT.twin.entry T3.twin) fun a p =>
        Triple.mk a p.1 p.2
      simp only [entry, bind_assoc, pure_bind] at h
      exact h
  | _, _, _, UTy.struct _ T => (Twin.sequence fun i => (T i).twin).map Struct.mk
  | _, _, _, UTy.unitStruct => Twin.unit.map fun _ => UnitStruct.mk
  | _, _, _, @UTy.enum d ty _ _ T _ => by
      show Twin (unwiring (α := Prim d.tag) >>= _) (syncUnwiring >>= _) _
      rw [unwiring_prim]
      exact .after (.syncUnwiring d.tag) fun taged => .matchTag fun v =>
        ((Twin.sequence fun i => (T v i).twin).map (Enum.mk v)).toLaxer

/-- **The decoders accept the same inputs, but for short strings.** They return
the same values with the same bytes left over iff the stream does not end
inside the contents of a string after which no byte is needed. -/
theorem accept_alike_iff {α : Type} [RustType α] [Unwiring α] (T : UTy α)
    (s : Bytes) :
    (∀ v r, unwiring s = (.ok v, r) ↔
      (syncUnwiring : IoM Bytes α) s = (.ok v, r)) ↔ ¬ T.EndsInString s :=
  T.twin.toLaxer.agree_iff s

/-- A string announced with five bytes, on a stream that ends after two. -/
theorem short_string_ends [RustType RString] :
    UTy.string.EndsInString [0, 0, 0, 0, 0, 0, 0, 5, 0x68, 0x69] :=
  ⟨_, _, asyncReadPrim_eq_ok.mpr ⟨by decide, rfl, rfl⟩, by decide, _,
    fromUtf8_bytes (.ofChars ['h', 'i'] (by decide)), trivial⟩

theorem short_string_not_alike :
    letI : RustType RString := ⟨24, "alloc::string::String"⟩
    ¬ ∀ v r, (unwiring : IoM Bytes RString)
          [0, 0, 0, 0, 0, 0, 0, 5, 0x68, 0x69] = (.ok v, r) ↔
        (syncUnwiring : IoM Bytes RString)
          [0, 0, 0, 0, 0, 0, 0, 5, 0x68, 0x69] = (.ok v, r) := fun h =>
  letI : RustType RString := ⟨24, "alloc::string::String"⟩
  (UTy.string.twin.toLaxer.agree_iff _).mp h short_string_ends

end WiringRs
