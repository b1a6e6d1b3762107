import WiringRs.Decoders
import WiringRs.Lib.Simulates
import WiringRs.ReadHalf

/-!
# Reading through a cursor

A cursor over bytes in memory is a reader with the trait's own methods, where a slice has
some of its own. The decoders do not see the difference: through a cursor they return the
value that they return from the bytes at and after its position, or fail as they do there,
and leave the cursor behind the value.
-/

namespace WiringRs

open Act

/-! ## Readers that are read alike -/

section

variable {σ α β : Type} {R : σ → Bytes → Prop} {E : Stop IoError → Prop}

theorem urlFromStr_simulates {U : UrlCrate} (s : RString) (msg : String → String) :
    Simulates R E (urlFromStr (U := U) s msg) (urlFromStr s msg) := by
  unfold urlFromStr
  cases (Url.fromStr s : Except String (Url U)) with
  | ok u => exact .pure u
  | error e => exact .stop _

theorem entry_simulates {x : IoM σ α} {y : IoM Bytes α} {x' : IoM σ β} {y' : IoM Bytes β}
    (h : Simulates R E x y) (h' : Simulates R E x' y') : Simulates R E (entry x x') (entry y y') :=
  h.bind fun _ => h'.map

end

/-- The methods of a reader do what those of a slice do, or fail for an excused reason. -/
structure ReadsAlike {σ : Type} [Unwire σ] (R : σ → Bytes → Prop) (E : Stop IoError → Prop) :
    Prop where
  readExact : ∀ n, Simulates R E (Unwire.readExact n) (Unwire.readExact n)
  u8 : Simulates R E Unwire.syncUnwireU8 Unwire.syncUnwireU8
  u16 : Simulates R E Unwire.syncUnwireU16 Unwire.syncUnwireU16
  u32 : Simulates R E Unwire.syncUnwireU32 Unwire.syncUnwireU32
  u64 : Simulates R E Unwire.syncUnwireU64 Unwire.syncUnwireU64
  f32 : Simulates R E Unwire.syncUnwireF32 Unwire.syncUnwireF32
  string : Simulates R E Unwire.syncUnwireString Unwire.syncUnwireString

namespace ReadsAlike

variable {σ : Type} [Unwire σ] {R : σ → Bytes → Prop} {E : Stop IoError → Prop}

theorem prim (h : ReadsAlike R E) (t : PrimTy) :
    Simulates R E (syncUnwiring : IoM σ (Prim t)) syncUnwiring := by
  cases t with
  | u8 => exact h.u8
  | i8 => exact h.u8.map
  | u16 => exact h.u16
  | i16 => exact h.u16.map
  | u32 => exact h.u32
  | i32 => exact h.u32.map
  | u64 => exact h.u64
  | i64 => exact h.u64.map
  | f32 => exact h.f32
  | f64 | u128 | i128 => exact (h.readExact _).map

theorem unit (h : ReadsAlike R E) : Simulates R E (syncUnwiring : IoM σ Unit) syncUnwiring :=
  h.u8.bind fun _ => (Simulates.pure ()).ite (.stop _)

end ReadsAlike

/-- The decoders cannot tell such readers apart. -/
theorem UTy.simulates {σ : Type} [Unwire σ] {R : σ → Bytes → Prop} {E : Stop IoError → Prop}
    (h : ReadsAlike R E) :
    {α : Type} → {r : RustType α} → {u : Unwiring α} → (T : @UTy α r u) →
    Simulates R E (syncUnwiring : IoM σ α) syncUnwiring
  | _, _, _, UTy.prim t => h.prim t
  | _, _, _, UTy.unit => h.unit
  | _, _, _, UTy.bool => h.u8.map
  | _, _, _, UTy.string => h.string
  | _, _, _, UTy.url _ => h.string.bind fun s => urlFromStr_simulates s id
  | _, _, _, UTy.array T N => (T.simulates h).times N
  | _, _, _, UTy.arc T => (T.simulates h).map
  | _, _, _, UTy.box T => (T.simulates h).map
  | _, _, _, UTy.boxSlice T => (h.u64.bind fun len =>
      .guard fun _ => ((T.simulates h).times len.toNat).map).map
  | _, _, _, UTy.vec T => h.u64.bind fun len =>
      .guard fun _ => ((T.simulates h).times len.toNat).map
  | _, _, _, UTy.hashSet T => h.u64.bind fun len =>
      .guard fun _ => ((T.simulates h).times len.toNat).map
  | _, _, _, UTy.hashMap K V => h.u64.bind fun len =>
      (Simulates.guard fun _ =>
        ((entry_simulates (K.simulates h) (V.simulates h)).times len.toNat).map).map
  | _, _, _, UTy.btreeMap K V => h.u64.bind fun len =>
      ((entry_simulates (K.simulates h) (V.simulates h)).times len.toNat).map
  | _, _, _, UTy.btreeSet T => h.u64.bind fun len => ((T.simulates h).times len.toNat).map
  | _, _, _, UTy.option T => h.u8.bind fun _ =>
      (Simulates.pure none).ite ((T.simulates h).map.ite (.stop _))
  | _, _, _, UTy.pair T TT => (T.simulates h).bind fun _ => (TT.simulates h).map
  | _, _, _, UTy.triple T TT T3 => (T.simulates h).bind fun _ =>
      (TT.simulates h).bind fun _ => (T3.simulates h).map
  | _, _, _, UTy.struct _ T => (Simulates.sequence fun i => (T i).simulates h).map
  | _, _, _, UTy.unitStruct => h.unit.map
  | _, _, _, UTy.enum d T => (h.prim d.tag).bind fun _ =>
      .guard fun _ => (Simulates.sequence fun i => (T _ i).simulates h).map

/-! ## Cursors -/

namespace Cursor

/-- `read_exact`: where there are too few bytes the position is set behind them. -/
def readExact (n : Nat) : IoM Cursor Bytes := fun c =>
  if n ≤ c.rest.length then (.ok (c.rest.take n), { c with position := c.position + n })
  else (.error (.err eof), { c with position := c.vec.length })

/-- The cursor's own `sync_unwire_f32` reads as the default does. -/
instance : Unwire Cursor where
  readExact := readExact
  syncUnwireF32 := do
    let buf ← readExact 4
    pure (.fromBeBytes buf)

/-- A cursor over `vec` stands for what is ahead of it. -/
def Over (vec : Bytes) (c : Cursor) (s : Bytes) : Prop := c.vec = vec ∧ c.rest = s

variable {vec : Bytes}

theorem readExact_slice (n : Nat) :
    Simulates (Over vec) (fun _ => False) (readExact n) (readExactSlice n) := by
  rintro c s ⟨hvec, rfl⟩
  unfold readExact readExactSlice
  by_cases hle : n ≤ c.rest.length
  · rw [if_pos hle, if_pos hle]
    refine Or.inl ⟨_, _, _, rfl, rfl, hvec, ?_⟩
    rw [rest, rest, List.drop_drop]
  · rw [if_neg hle, if_neg hle]
    exact Or.inr (Or.inl ⟨_, _, _, rfl, rfl⟩)

/-- The slice's own methods check the length first, and then split the slice. -/
theorem readExact_split (n : Nat) :
    Simulates (Over vec) (fun _ => False) (readExact n) (splitSlice n eof) := by
  rintro c s ⟨hvec, rfl⟩
  unfold readExact splitSlice
  by_cases hle : n ≤ c.rest.length
  · rw [if_pos hle, if_neg (Nat.not_lt.mpr hle)]
    refine Or.inl ⟨_, _, _, rfl, rfl, hvec, ?_⟩
    rw [rest, rest, List.drop_drop]
  · rw [if_neg hle, if_pos (Nat.not_le.mp hle)]
    exact Or.inr (Or.inl ⟨_, _, _, rfl, rfl⟩)

theorem readsAlike : ReadsAlike (Over vec) fun _ => False where
  readExact := readExact_slice
  u8 := (readExact_slice 1).map
  u16 := (readExact_slice 2).map
  u32 := (readExact_slice 4).map
  u64 := (readExact_split 8).map
  f32 := (readExact_split 4).map
  string := (readExact_split 8).map.bind fun len =>
    (Simulates.ite (.pure ()) (.stop .panic)).bind fun _ =>
      (readExact_slice len.toNat).bind fun b => .lift (fromUtf8 b)

end Cursor

/-- **A cursor is read as the slice ahead of it.** The decoder of any type returns through a
cursor the value that it returns from the bytes ahead of it, and leaves the rest of these
ahead of the cursor, over the same bytes; or it stops for the same reason. -/
theorem cursor_reads {α : Type} [RustType α] [Unwiring α] (T : UTy α) (c : Cursor) :
    (∃ a c', (syncUnwiring : IoM Cursor α) c = (.ok a, c') ∧ c'.vec = c.vec ∧
      T.decode c.rest = (.ok a, c'.rest)) ∨
    ∃ e c' s, (syncUnwiring : IoM Cursor α) c = (.error e, c') ∧
      T.decode c.rest = (.error e, s) := by
  rcases T.simulates Cursor.readsAlike c c.rest ⟨rfl, rfl⟩ with
    ⟨a, c', s, hc, hs, hvec, rfl⟩ | ⟨e, c', s, hc, hs⟩ | ⟨_, _, _, hfalse⟩
  · exact Or.inl ⟨a, c', hc, hvec, hs⟩
  · exact Or.inr ⟨e, c', s, hc, hs⟩
  · exact hfalse.elim

end WiringRs
