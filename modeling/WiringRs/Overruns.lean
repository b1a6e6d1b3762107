import WiringRs.Decoders

/-!
# Length prefixes that overrun memory

A collection is allocated from its length prefix before any of its elements is
read. `DTy α` is the syntax of a type with an asynchronous decoder; its
synchronous one may be missing, and then refuses. `Overruns` says that a decoder
comes to a length prefix whose elements would take more than `isize::MAX` bytes.
-/

namespace WiringRs

inductive DTy : (α : Type) → [RustType α] → [Unwiring α] → Type 1 where
  | prim (t : PrimTy) : DTy (Prim t)
  | unit : DTy Unit
  | bool : DTy Bool
  | string [RustType RString] : DTy RString
  | url (U : UrlCrate) [RustType RString] [RustType (Url U)] : DTy (Url U)
  | array {α : Type} [RustType α] [Unwiring α] (T : DTy α) (N : Nat)
      [RustType (List.Vector α N)] : DTy (List.Vector α N)
  | arc {α : Type} [RustType α] [Unwiring α] (T : DTy α) [RustType (Arc α)] :
      DTy (Arc α)
  | box {α : Type} [RustType α] [Unwiring α] (T : DTy α) [RustType (Box α)] :
      DTy (Box α)
  | boxSlice {α : Type} [RustType α] [Unwiring α] (T : DTy α)
      [RustType (BoxSlice α)] : DTy (BoxSlice α)
  | vec {α : Type} [RustType α] [Unwiring α] (T : DTy α) [RustType (Vec α)] :
      DTy (Vec α)
  | hashSet {α : Type} [RustType α] [Unwiring α] (T : DTy α) [DecidableEq α]
      [RustType (HashSet α)] : DTy (HashSet α)
  | hashMap {α β : Type} [RustType α] [RustType β] [Unwiring α] [Unwiring β]
      (K : DTy α) (V : DTy β) [DecidableEq α] [RustType (α × β)]
      [RustType (HashMap α β)] : DTy (HashMap α β)
  | btreeMap {α β : Type} [RustType α] [RustType β] [Unwiring α] [Unwiring β]
      (K : DTy α) (V : DTy β) [DecidableEq α] [RustType (BTreeMap α β)] :
      DTy (BTreeMap α β)
  | btreeSet {α : Type} [RustType α] [Unwiring α] (T : DTy α) [DecidableEq α]
      [RustType (BTreeSet α)] : DTy (BTreeSet α)
  | option {α : Type} [RustType α] [Unwiring α] (T : DTy α)
      [RustType (Option α)] : DTy (Option α)
  | pair {α β : Type} [RustType α] [RustType β] [Unwiring α] [Unwiring β]
      (T : DTy α) (TT : DTy β) [RustType (α × β)] : DTy (α × β)
  | triple {α β γ : Type} [RustType α] [RustType β] [RustType γ] [Unwiring α]
      [Unwiring β] [Unwiring γ] (T : DTy α) (TT : DTy β) (T3 : DTy γ)
      [RustType (Triple α β γ)] : DTy (Triple α β γ)
  | struct {n : Nat} (d : StructDecl n) {ty : Fin n → Type}
      [∀ i, RustType (ty i)] [∀ i, Unwiring (ty i)] (T : ∀ i, DTy (ty i))
      [RustType (Struct d ty)] : DTy (Struct d ty)
  | unitStruct [RustType UnitStruct] : DTy UnitStruct
  | enum (d : EnumDecl) {ty : (v : Fin d.variants) → Fin (d.arity v) → Type}
      [∀ v i, RustType (ty v i)] [∀ v i, Unwiring (ty v i)]
      (T : ∀ v i, DTy (ty v i)) [RustType (Enum d ty)] : DTy (Enum d ty)
  | connectInfo (U : UrlCrate) [RustType RString] [RustType (Url U)]
      [RustType (ConnectInfo U)] : DTy (ConnectInfo U)
  | wireInfo (U : UrlCrate) [RustType RString] [RustType (Url U)]
      [RustType (ConnectInfo U)] [RustType (WireInfo U)] : DTy (WireInfo U)
  | wiringEvent {α : Type} [RustType α] [Unwiring α] (T : DTy α)
      [RustType (Vec U8)] [RustType (WiringEvent α)] : DTy (WiringEvent α)

/-- The decoder of the type: the asynchronous one, or the synchronous one on a
slice. -/
def DTy.decode {α : Type} [RustType α] [Unwiring α] (_T : DTy α) :
    (isAsync : Bool) → IoM Bytes α
  | true => unwiring
  | false => syncUnwiring

/-! ## Where a decoder panics -/

/-- The call returns a value, and `F` holds of it and of what is left. -/
def Past {α : Type} (x : IoM Bytes α) (F : α → Bytes → Prop) (s : Bytes) : Prop :=
  ∃ v r, x s = (.ok v, r) ∧ F v r

/-- One of `n` values overruns. -/
def OverrunsTimes {α : Type} (x : IoM Bytes α) (E : Bytes → Prop) :
    Nat → Bytes → Prop
  | 0 => fun _ => False
  | n + 1 => fun s => E s ∨ Past x (fun _ => OverrunsTimes x E n) s

/-- One of the values of a struct or a variant overruns. -/
def OverrunsSequence : (n : Nat) → {τ : Fin n → Type} → (∀ i, IoM Bytes (τ i)) →
    (Fin n → Bytes → Prop) → Bytes → Prop
  | 0, _, _, _ => fun _ => False
  | n + 1, _, x, E => fun s => E 0 s ∨
      Past (x 0) (fun _ => OverrunsSequence n (fun i => x i.succ) fun i => E i.succ) s

/-- The contents of a string do not fit. The synchronous decoder allocates what is
announced, the asynchronous one reads what there is of it. -/
def StringOverruns (isAsync : Bool) : Bytes → Prop :=
  Past (asyncReadPrim .u64) fun len s =>
    isizeMax < if isAsync then min len.toNat s.length else len.toNat

def ConnectInfoOverruns : Bytes → Prop :=
  Past (asyncReadPrim .u8) fun variant s =>
    (variant.toNat = 0 ∨ variant.toNat = 1) ∧ StringOverruns true s

/-- The decoder comes to a length prefix that does not fit. -/
def DTy.Overruns (isAsync : Bool) : {α : Type} → {r : RustType α} →
    {u : Unwiring α} → @DTy α r u → Bytes → Prop
  | _, _, _, DTy.prim _ | _, _, _, DTy.unit | _, _, _, DTy.bool
  | _, _, _, DTy.unitStruct => fun _ => False
  | _, _, _, DTy.string | _, _, _, DTy.url _ => StringOverruns isAsync
  | _, _, _, DTy.array T N => OverrunsTimes (T.decode isAsync) (T.Overruns isAsync) N
  | _, _, _, DTy.arc T => T.Overruns isAsync
  | _, _, _, DTy.box T => T.Overruns isAsync
  | _, _, _, @DTy.boxSlice α _ _ T _ | _, _, _, @DTy.vec α _ _ T _ =>
      Past (asyncReadPrim .u64) fun len s => CapacityFits α len.toNat →
        OverrunsTimes (T.decode isAsync) (T.Overruns isAsync) len.toNat s
  | _, _, _, @DTy.hashSet α _ _ T _ _ =>
      Past (asyncReadPrim .u64) fun len s => HashFits α len.toNat →
        OverrunsTimes (T.decode isAsync) (T.Overruns isAsync) len.toNat s
  | _, _, _, @DTy.hashMap α β _ _ _ _ K V _ _ _ =>
      Past (asyncReadPrim .u64) fun len s => HashFits (α × β) len.toNat →
        OverrunsTimes (entry (K.decode isAsync) (V.decode isAsync))
          (fun s => K.Overruns isAsync s ∨
            Past (K.decode isAsync) (fun _ => V.Overruns isAsync) s) len.toNat s
  | _, _, _, DTy.btreeMap K V => Past (asyncReadPrim .u64) fun len =>
      OverrunsTimes (entry (K.decode isAsync) (V.decode isAsync))
        (fun s => K.Overruns isAsync s ∨
          Past (K.decode isAsync) (fun _ => V.Overruns isAsync) s) len.toNat
  | _, _, _, DTy.btreeSet T => Past (asyncReadPrim .u64) fun len =>
      OverrunsTimes (T.decode isAsync) (T.Overruns isAsync) len.toNat
  | _, _, _, DTy.option T => Past (asyncReadPrim .u8) fun variant s =>
      variant.toNat = 1 ∧ T.Overruns isAsync s
  | _, _, _, DTy.pair T TT => fun s => T.Overruns isAsync s ∨
      Past (T.decode isAsync) (fun _ => TT.Overruns isAsync) s
  | _, _, _, DTy.triple T TT T3 => fun s => T.Overruns isAsync s ∨
      Past (T.decode isAsync) (fun _ s => TT.Overruns isAsync s ∨
        Past (TT.decode isAsync) (fun _ => T3.Overruns isAsync) s) s
  | _, _, _, DTy.struct _ T => OverrunsSequence _ (fun i => (T i).decode isAsync)
      fun i => (T i).Overruns isAsync
  | _, _, _, DTy.enum d T => Past (asyncReadPrim d.tag) fun taged s =>
      ∃ h : taged.toNat < d.variants,
        OverrunsSequence _ (fun i => (T ⟨taged.toNat, h⟩ i).decode isAsync)
          (fun i => (T ⟨taged.toNat, h⟩ i).Overruns isAsync) s
  | _, _, _, DTy.connectInfo _ => fun s => isAsync = true ∧
      ConnectInfoOverruns s
  | _, _, _, DTy.wireInfo _ => fun s => isAsync = true ∧
      Past (asyncReadPrim .u64)
        (fun _ => Past (asyncReadPrim .u128) fun _ => ConnectInfoOverruns) s
  | _, _, _, DTy.wiringEvent T => fun s => isAsync = true ∧
      Past (asyncReadPrim .u8) (fun variant s =>
        variant.toNat = 0 ∧ T.Overruns isAsync s ∨
        variant.toNat = 1 ∧ Past (asyncReadPrim .u64) (fun _ =>
          Past (asyncReadPrim .u8) fun _ => Past (asyncReadPrim .u64) fun len _ =>
            ¬ CapacityFits U8 len.toNat) s) s

theorem past_map {α β : Type} {x : IoM Bytes α} (f : α → β) (F : Bytes → Prop) (s : Bytes) :
    Past (do let a ← x; pure (f a)) (fun _ => F) s ↔ Past x (fun _ => F) s := by
  constructor
  · rintro ⟨b, r, hb, hF⟩
    obtain ⟨a, s', ha, hp⟩ := Act.bind_eq_ok.mp hb
    cases hp
    exact ⟨a, _, ha, hF⟩
  · rintro ⟨a, r, ha, hF⟩
    exact ⟨f a, r, Act.bind_eq_ok.mpr ⟨a, r, ha, rfl⟩, hF⟩

/-- The call is in bounds, and panics on the inputs with `E`. -/
structure PanicsIf {α : Type} (x : IoM Bytes α) (E : Bytes → Prop) : Prop where
  panics_iff : ∀ s, (x s).1 = .error .panic ↔ E s
  inBounds : ∀ s, x.InBounds s

namespace PanicsIf

variable {α β : Type} {x : IoM Bytes α} {E E' : Bytes → Prop}

theorem congr (h : PanicsIf x E) (hE : ∀ s, E' s ↔ E s) : PanicsIf x E' :=
  ⟨fun s => (h.panics_iff s).trans (hE s).symm, h.inBounds⟩

/-- A call that returns a value or an error. -/
theorem never (h : ∀ s, (∃ v, (x s).1 = .ok v) ∨ ∃ e, (x s).1 = .error (.err e)) :
    PanicsIf x fun _ => False where
  panics_iff s := by
    rcases h s with ⟨v, hv⟩ | ⟨e, he⟩
    · simp [hv]
    · simp [he]
  inBounds s := by
    rcases h s with ⟨v, hv⟩ | ⟨e, he⟩
    · simp [Act.InBounds, hv]
    · simp [Act.InBounds, he]

theorem pure (a : α) : PanicsIf (Pure.pure a) fun _ => False :=
  never fun _ => Or.inl ⟨a, rfl⟩

theorem fail (e : IoError) : PanicsIf (Act.fail e : IoM Bytes α) fun _ => False :=
  never fun _ => Or.inr ⟨e, rfl⟩

theorem panic : PanicsIf (Act.panic : IoM Bytes α) fun _ => True :=
  ⟨fun _ => iff_of_true rfl trivial, fun _ => nofun⟩

theorem bind {f : α → IoM Bytes β} {F : α → Bytes → Prop} (h : PanicsIf x E)
    (hf : ∀ a, PanicsIf (f a) (F a)) :
    PanicsIf (x >>= f) fun s => E s ∨ Past x F s where
  panics_iff s := by
    rw [← h.panics_iff]
    rcases hx : x s with ⟨_ | v, r⟩
    · rw [Act.bind_error hx]
      simp [Past, hx]
    · rw [Act.bind_ok hx, (hf v).panics_iff]
      simp [Past, hx]
  inBounds s := (h.inBounds s).bind fun a s' _ => (hf a).inBounds s'

/-- The first call never panics. -/
theorem after {f : α → IoM Bytes β} {F : α → Bytes → Prop}
    (h : PanicsIf x fun _ => False) (hf : ∀ a, PanicsIf (f a) (F a)) :
    PanicsIf (x >>= f) (Past x F) :=
  (h.bind hf).congr fun _ => by rw [false_or]

theorem map (h : PanicsIf x E) (f : α → β) :
    PanicsIf (do let a ← x; Pure.pure (f a)) E :=
  (h.bind fun a => pure (f a)).congr fun s => by simp [Past]

theorem guard {p : Prop} [Decidable p] {y : IoM Bytes α} (h : PanicsIf x E)
    (hy : PanicsIf y E') :
    PanicsIf (if p then x else y) fun s => p ∧ E s ∨ ¬ p ∧ E' s := by
  by_cases hp : p
  · simpa [hp] using h
  · simpa [hp] using hy

theorem times (h : PanicsIf x E) (n : Nat) :
    PanicsIf (Act.times n x) (OverrunsTimes x E n) := by
  induction n with
  | zero => exact pure _
  | succ n ih => exact h.bind fun a => ih.map (a ::ᵥ ·)

theorem sequence {n : Nat} {τ : Fin n → Type} {x : ∀ i, IoM Bytes (τ i)}
    {E : Fin n → Bytes → Prop} (h : ∀ i, PanicsIf (x i) (E i)) :
    PanicsIf (Act.sequence n x) (OverrunsSequence n x E) := by
  induction n with
  | zero => exact pure _
  | succ n ih => exact (h 0).bind fun a => (ih fun i => h i.succ).map (Fin.cons a)

theorem entry {y : IoM Bytes β} (h : PanicsIf x E) (h' : PanicsIf y E') :
    PanicsIf (WiringRs.entry x y) fun s => E s ∨ Past x (fun _ => E') s :=
  h.bind fun a => h'.map (a, ·)

/-! ### Reads -/

theorem readExactSlice (n : Nat) : PanicsIf (WiringRs.readExactSlice n) fun _ => False :=
  never fun s => by
    unfold WiringRs.readExactSlice
    split
    · exact Or.inl ⟨_, rfl⟩
    · exact Or.inr ⟨_, rfl⟩

theorem splitSlice (n : Nat) (e : IoError) :
    PanicsIf (WiringRs.splitSlice n e) fun _ => False :=
  never fun s => by
    unfold WiringRs.splitSlice
    split
    · exact Or.inr ⟨_, rfl⟩
    · exact Or.inl ⟨_, rfl⟩

theorem async (t : PrimTy) : PanicsIf (asyncReadPrim t) fun _ => False :=
  (readExactSlice t.size).map _

theorem prim : (t : PrimTy) →
    PanicsIf (syncUnwiring : IoM Bytes (Prim t)) fun _ => False
  | .u8 | .u16 | .u32 | .f64 | .u128 | .i128 => async _
  | .i8 | .i16 | .i32 => (async _).map _
  | .u64 | .f32 => (splitSlice _ _).map _
  | .i64 => ((splitSlice _ _).map _).map _

/-- After a read of one width, by whichever call. -/
theorem afterPrim {t : PrimTy} {x : IoM Bytes (Prim t)} (hx : ReadsPrim x)
    (h : PanicsIf x fun _ => False) {f : Prim t → IoM Bytes β}
    {F : Prim t → Bytes → Prop} (hf : ∀ v, PanicsIf (f v) (F v)) :
    PanicsIf (x >>= f) (Past (asyncReadPrim t) F) :=
  (h.after hf).congr fun s => by simp only [Past, hx s, ReadsPrim.async s]

end PanicsIf

/-! ## Each decoder -/

namespace PanicsIf

theorem fromUtf8 (b : Bytes) :
    PanicsIf (Act.lift (WiringRs.fromUtf8 b)) fun _ => isizeMax < b.length := by
  constructor
  · intro s
    unfold WiringRs.fromUtf8
    split
    · rename_i hf
      split <;> simp [Nat.not_lt.mpr hf]
    · rename_i hf
      simpa using hf
  · intro s
    unfold WiringRs.fromUtf8
    split
    · split <;> simp [Act.InBounds]
    · simp [Act.InBounds]

theorem readString (n : Nat) : PanicsIf (WiringRs.readString n) fun _ => isizeMax < n := by
  unfold WiringRs.readString allocBytes
  by_cases hn : n ≤ isizeMax
  · rw [if_pos hn, pure_bind]
    refine ((readExactSlice n).after fun b => fromUtf8 b).congr fun s => ?_
    refine iff_of_false (Nat.not_lt.mpr hn) ?_
    rintro ⟨b, r, hb, hlt⟩
    obtain ⟨hle, rfl, rfl⟩ := readExactSlice_eq_ok.mp hb
    rw [List.length_take, Nat.min_eq_left hle] at hlt
    exact absurd hlt (Nat.not_lt.mpr hn)
  · rw [if_neg hn]
    exact ((panic.bind fun _ => (readExactSlice n).after fun b => fromUtf8 b)).congr
      fun s => by simp [Nat.not_le.mp hn]

theorem readToString (n : Nat) :
    PanicsIf (WiringRs.readToString n) fun s => isizeMax < min n s.length where
  panics_iff s := by
    have h := (fromUtf8 (s.take n)).panics_iff s
    rw [List.length_take] at h
    exact h
  inBounds s := (fromUtf8 (s.take n)).inBounds s

theorem string [RustType RString] :
    (isAsync : Bool) → PanicsIf (DTy.string.decode isAsync) (StringOverruns isAsync)
  | true => (async .u64).after fun len => readToString len.toNat
  | false => afterPrim (.syncUnwiring .u64) (prim .u64) fun len => readString len.toNat

theorem urlFromStr {U : UrlCrate} (str : RString) (msg : String → String) :
    PanicsIf (WiringRs.urlFromStr (U := U) str msg) fun _ => False := by
  unfold WiringRs.urlFromStr
  split
  · exact pure _
  · exact fail _

theorem url {U : UrlCrate} [RustType RString] [RustType (Url U)] :
    (isAsync : Bool) → PanicsIf ((DTy.url U).decode isAsync) (StringOverruns isAsync)
  | true => ((string true).bind fun str => urlFromStr str _).congr fun s => by simp [Past]
  | false => ((string false).bind fun str => urlFromStr str _).congr fun s => by simp [Past]

section

variable {α β : Type} {x : IoM Bytes α} {y : IoM Bytes β} {E E' : Bytes → Prop}

theorem collect [RustType α] (h : PanicsIf x E) (n : Nat) :
    PanicsIf (WiringRs.collect n x) fun s => CapacityFits α n → OverrunsTimes x E n s := by
  unfold WiringRs.collect
  split
  · rename_i hf
    exact ((h.times n).map _).congr fun s => by simp [hf]
  · rename_i hf
    exact panic.congr fun s => by simp [hf]

theorem collectSet [RustType α] [DecidableEq α] (h : PanicsIf x E) (n : Nat) :
    PanicsIf (WiringRs.collectSet n x)
      fun s => HashFits α n → OverrunsTimes x E n s := by
  unfold WiringRs.collectSet
  split
  · rename_i hf
    exact ((h.times n).map _).congr fun s => by simp [hf]
  · rename_i hf
    exact panic.congr fun s => by simp [hf]

theorem collectMap [DecidableEq α] [RustType (α × β)] (h : PanicsIf x E)
    (h' : PanicsIf y E') (n : Nat) :
    PanicsIf (WiringRs.collectMap n x y) fun s => HashFits (α × β) n →
      OverrunsTimes (WiringRs.entry x y) (fun s => E s ∨ Past x (fun _ => E') s) n s := by
  unfold WiringRs.collectMap
  split
  · rename_i hf
    exact (((h.entry h').times n).map _).congr fun s => by simp [hf]
  · rename_i hf
    exact panic.congr fun s => by simp [hf]

/-- After the variant byte of an option. -/
theorem option [RustType (Option α)] (h : PanicsIf x E) (variant : U8) :
    PanicsIf (if variant.toNat = 0 then Pure.pure none
      else if variant.toNat = 1 then do
        let t ← x
        Pure.pure (some t)
      else Act.fail (unexpectedVariant (Option α)))
      fun s => variant.toNat = 1 ∧ E s := by
  refine ((pure none).guard ((h.map some).guard (fail _))).congr fun s => ?_
  simp only [and_false, false_or, or_false]
  constructor
  · rintro ⟨h1, hE⟩
    exact ⟨by omega, h1, hE⟩
  · exact And.right

theorem matchTag {d : EnumDecl} {arm : Fin d.variants → IoM Bytes β}
    {F : Fin d.variants → Bytes → Prop} (h : ∀ v, PanicsIf (arm v) (F v)) (taged : Nat) :
    PanicsIf (d.matchTag taged arm) fun s => ∃ h : taged < d.variants, F ⟨taged, h⟩ s := by
  unfold EnumDecl.matchTag
  split
  · rename_i hlt
    exact (h _).congr fun s => by simp [hlt]
  · rename_i hlt
    exact (fail _).congr fun s => by simp [hlt]

end

end PanicsIf

/-! ## All types -/

/-- `u64::unwiring(wire)`, then the rest. -/
theorem PanicsIf.len {β : Type} {f : U64 → IoM Bytes β} {F : U64 → Bytes → Prop}
    (hf : ∀ len, PanicsIf (f len) (F len)) :
    PanicsIf (Unwire.syncUnwireU64 >>= f) (Past (asyncReadPrim .u64) F) :=
  .afterPrim (.syncUnwiring .u64) (.prim .u64) hf

theorem PanicsIf.unit : (isAsync : Bool) →
    PanicsIf (DTy.unit.decode isAsync) fun _ => False
  | true => ((async .u8).bind fun n => (pure ()).guard (fail _)).congr fun s => by simp [Past]
  | false => ((prim .u8).bind fun n => (pure ()).guard (fail _)).congr fun s => by simp [Past]

theorem PanicsIf.connectInfo {U : UrlCrate} [RustType RString] [RustType (Url U)]
    [RustType (ConnectInfo U)] :
    PanicsIf (unwiring : IoM Bytes (ConnectInfo U)) ConnectInfoOverruns := by
  refine (async .u8).after fun variant => ?_
  refine ((((string true).map ConnectInfo.tcpStream).guard
    (((url true).map ConnectInfo.url).guard (fail _)))).congr fun s => ?_
  simp only [and_false, or_false]
  by_cases h0 : variant.toNat = 0
  · simp [h0]
  · simp [h0]

theorem overrunsTimes_never {α : Type} {x : IoM Bytes α} (n : Nat) (s : Bytes) :
    ¬ OverrunsTimes x (fun _ => False) n s := by
  induction n generalizing s with
  | zero => exact id
  | succ n ih =>
      rintro (h | ⟨_, r, -, h⟩)
      · exact h
      · exact ih r h

/-- The bytes of a message: only their number may not fit. -/
theorem PanicsIf.message [RustType (Vec U8)] :
    PanicsIf (unwiring : IoM Bytes (Vec U8))
      (Past (asyncReadPrim .u64) fun len _ => ¬ CapacityFits U8 len.toNat) :=
  (async .u64).after fun len => ((async .u8).collect len.toNat).congr fun s => by
    simp only [overrunsTimes_never, imp_false]

theorem PanicsIf.wiringEvent {α : Type} [RustType α] [Unwiring α] {E : Bytes → Prop}
    (h : PanicsIf (unwiring : IoM Bytes α) E) [RustType (Vec U8)]
    [RustType (WiringEvent α)] :
    PanicsIf (unwiring : IoM Bytes (WiringEvent α)) (Past (asyncReadPrim .u8)
      fun variant s => variant.toNat = 0 ∧ E s ∨
        variant.toNat = 1 ∧ Past (asyncReadPrim .u64) (fun _ =>
          Past (asyncReadPrim .u8) fun _ => Past (asyncReadPrim .u64) fun len _ =>
            ¬ CapacityFits U8 len.toNat) s) := by
  have hbool : PanicsIf (unwiring : IoM Bytes Bool) fun _ => False := (async .u8).map _
  have hpast (F : Bytes → Prop) : Past (unwiring : IoM Bytes Bool) (fun _ => F)
      = Past (asyncReadPrim .u8) (fun _ => F) := funext fun s => propext (past_map _ F s)
  refine (async .u8).after fun variant => ?_
  have hmessage := (async .u64).after fun streamId => hbool.after fun isLocal =>
    message.map fun m => (WiringEvent.message streamId isLocal m : WiringEvent α)
  have hdrop := (async .u64).after fun streamId =>
    hbool.map fun isLocal => (WiringEvent.drop streamId isLocal : WiringEvent α)
  refine ((h.map WiringEvent.event).guard
    (hmessage.guard (hdrop.guard (fail _)))).congr fun s => ?_
  have hnever : ¬ Past (asyncReadPrim .u64) (fun _ _ => False) s := by
    rintro ⟨_, _, -, ⟨⟩⟩
  simp only [hpast, hnever, and_false, or_false]
  constructor
  · rintro (h0 | ⟨h1, hrest⟩)
    · exact Or.inl h0
    · exact Or.inr ⟨by omega, h1, hrest⟩
  · exact Or.imp_right And.right

/-- A decoder panics exactly where it overruns. -/
theorem DTy.panicsIf : {α : Type} → {r : RustType α} → {u : Unwiring α} →
    (T : @DTy α r u) → (isAsync : Bool) →
    PanicsIf (T.decode isAsync) (T.Overruns isAsync)
  | _, _, _, DTy.prim t, true => by
      show PanicsIf (unwiring : IoM Bytes (Prim t)) _
      rw [unwiring_prim]
      exact .async t
  | _, _, _, DTy.prim t, false => .prim t
  | _, _, _, DTy.unit, isAsync => .unit isAsync
  | _, _, _, DTy.bool, true => (PanicsIf.async .u8).map _
  | _, _, _, DTy.bool, false => (PanicsIf.prim .u8).map _
  | _, _, _, DTy.string, isAsync => .string isAsync
  | _, _, _, DTy.url U, isAsync => .url isAsync
  | _, _, _, DTy.array T N, true => (T.panicsIf true).times N
  | _, _, _, DTy.array T N, false => (T.panicsIf false).times N
  | _, _, _, DTy.arc T, true => (T.panicsIf true).map Arc.mk
  | _, _, _, DTy.arc T, false => (T.panicsIf false).map Arc.mk
  | _, _, _, DTy.box T, true => (T.panicsIf true).map Box.mk
  | _, _, _, DTy.box T, false => (T.panicsIf false).map Box.mk
  | _, _, _, DTy.boxSlice T, true => ((PanicsIf.async .u64).after fun len =>
      (T.panicsIf true).collect len.toNat).map BoxSlice.mk
  | _, _, _, DTy.boxSlice T, false => (PanicsIf.len fun len =>
      (T.panicsIf false).collect len.toNat).map BoxSlice.mk
  | _, _, _, DTy.vec T, true => (PanicsIf.async .u64).after fun len =>
      (T.panicsIf true).collect len.toNat
  | _, _, _, DTy.vec T, false => .len fun len => (T.panicsIf false).collect len.toNat
  | _, _, _, DTy.hashSet T, true => (PanicsIf.async .u64).after fun len =>
      (T.panicsIf true).collectSet len.toNat
  | _, _, _, DTy.hashSet T, false => .len fun len => (T.panicsIf false).collectSet len.toNat
  | _, _, _, DTy.hashMap K V, true => (PanicsIf.async .u64).after fun len =>
      ((K.panicsIf true).collectMap (V.panicsIf true) len.toNat).map HashMap.mk
  | _, _, _, DTy.hashMap K V, false => .len fun len =>
      ((K.panicsIf false).collectMap (V.panicsIf false) len.toNat).map HashMap.mk
  | _, _, _, DTy.btreeMap K V, true => (PanicsIf.async .u64).after fun len =>
      (((K.panicsIf true).entry (V.panicsIf true)).times len.toNat).map _
  | _, _, _, DTy.btreeMap K V, false => .len fun len =>
      (((K.panicsIf false).entry (V.panicsIf false)).times len.toNat).map _
  | _, _, _, DTy.btreeSet T, true => (PanicsIf.async .u64).after fun len =>
      ((T.panicsIf true).times len.toNat).map _
  | _, _, _, DTy.btreeSet T, false => .len fun len =>
      ((T.panicsIf false).times len.toNat).map _
  | _, _, _, DTy.option T, true => (PanicsIf.async .u8).after fun variant =>
      (T.panicsIf true).option variant
  | _, _, _, DTy.option T, false =>
      .afterPrim (.syncUnwiring .u8) (.prim .u8) fun variant =>
        (T.panicsIf false).option variant
  | _, _, _, DTy.pair T TT, true => (T.panicsIf true).entry (TT.panicsIf true)
  | _, _, _, DTy.pair T TT, false => (T.panicsIf false).entry (TT.panicsIf false)
  | _, _, _, DTy.triple T TT T3, true => (T.panicsIf true).bind fun a =>
      (TT.panicsIf true).bind fun b => (T3.panicsIf true).map (Triple.mk a b)
  | _, _, _, DTy.triple T TT T3, false => (T.panicsIf false).bind fun a =>
      (TT.panicsIf false).bind fun b => (T3.panicsIf false).map (Triple.mk a b)
  | _, _, _, DTy.struct _ T, true =>
      (PanicsIf.sequence fun i => (T i).panicsIf true).map Struct.mk
  | _, _, _, DTy.struct _ T, false =>
      (PanicsIf.sequence fun i => (T i).panicsIf false).map Struct.mk
  | _, _, _, DTy.unitStruct, true => (PanicsIf.unit true).map fun _ => UnitStruct.mk
  | _, _, _, DTy.unitStruct, false => (PanicsIf.unit false).map fun _ => UnitStruct.mk
  | _, _, _, @DTy.enum d ty _ _ T _, true => by
      show PanicsIf (unwiring (α := Prim d.tag) >>= _) _
      rw [unwiring_prim]
      exact (PanicsIf.async d.tag).after fun taged => .matchTag (fun v =>
        (PanicsIf.sequence fun i => (T v i).panicsIf true).map (Enum.mk v)) taged.toNat
  | _, _, _, @DTy.enum d ty _ _ T _, false =>
      .afterPrim (.syncUnwiring d.tag) (.prim d.tag) fun taged => .matchTag (fun v =>
        (PanicsIf.sequence fun i => (T v i).panicsIf false).map (Enum.mk v)) taged.toNat
  | _, _, _, DTy.connectInfo U, true => PanicsIf.connectInfo.congr fun s => by
      simp [Overruns]
  | _, _, _, DTy.connectInfo U, false => (PanicsIf.fail _).congr fun s => by
      simp [Overruns]
  | _, _, _, DTy.wireInfo U, true => by
      refine ((PanicsIf.async .u64).after fun wireId => (PanicsIf.async .u128).after
        fun accessKey => PanicsIf.connectInfo.map (WireInfo.mk wireId accessKey)).congr
        fun s => ?_
      simp [Overruns]
  | _, _, _, DTy.wireInfo U, false => (PanicsIf.fail _).congr fun s => by
      simp [Overruns]
  | _, _, _, DTy.wiringEvent T, true => (T.panicsIf true).wiringEvent.congr fun s => by
      simp [Overruns]
  | _, _, _, DTy.wiringEvent T, false => (PanicsIf.fail _).congr fun s => by
      simp [Overruns]

/-- The call returns `Ok` or `Err`. -/
def Settles {α : Type} (x : IoM Bytes α) (s : Bytes) : Prop :=
  (∃ v, (x s).1 = .ok v) ∨ ∃ e, (x s).1 = .error (.err e)

theorem PanicsIf.settles_iff {α : Type} {x : IoM Bytes α} {E : Bytes → Prop}
    (h : PanicsIf x E) (s : Bytes) : Settles x s ↔ ¬ E s := by
  have hbounds := h.inBounds s
  rw [← h.panics_iff, Settles]
  unfold Act.InBounds at hbounds
  rcases hx : (x s).1 with (e | _ | _) | v
  · simp
  · simp
  · exact absurd hx hbounds
  · simp

/-- **When a decoder returns.** On every input either decoder of a type returns `Ok` or
`Err`, unless it comes to a length prefix that does not fit. -/
theorem decode_settles_iff {α : Type} [RustType α] [Unwiring α] (T : DTy α)
    (isAsync : Bool) (s : Bytes) :
    Settles (T.decode isAsync) s ↔ ¬ T.Overruns isAsync s :=
  (T.panicsIf isAsync).settles_iff s

/-- A `Vec<u8>` that is announced with 2^64 - 1 bytes. -/
theorem long_vec_panics :
    letI : RustType (Vec U8) := ⟨24, "alloc::vec::Vec<u8>"⟩
    ¬ Settles ((DTy.vec (.prim .u8)).decode false) (List.replicate 8 255) ∧
      ¬ Settles ((DTy.vec (.prim .u8)).decode true) (List.replicate 8 255) := by
  let : RustType (Vec U8) := ⟨24, "alloc::vec::Vec<u8>"⟩
  have hpanics (isAsync : Bool) :
      ¬ Settles ((DTy.vec (.prim .u8)).decode isAsync) (List.replicate 8 255) := by
    refine mt (((DTy.vec (.prim .u8)).panicsIf isAsync).settles_iff _).mp (not_not.mpr ?_)
    exact ⟨_, _, asyncReadPrim_eq_ok.mpr ⟨by decide, rfl, rfl⟩, fun hfits =>
      absurd hfits.2 (by decide)⟩
  exact ⟨hpanics false, hpanics true⟩

end WiringRs
