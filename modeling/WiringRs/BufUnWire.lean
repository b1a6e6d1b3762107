import WiringRs.Decoders

/-!
# The buffer reader

`BufUnWire` reads a buffer through raw pointers. The one check is made before
a value is read: `bytes_length` measures it on a copy of the slice, and the
measured length must fit between the position and the end of the buffer.

`Measured` relates the pre-pass to the decoder: what it measures is what the
decoder reads, so a value that fits is read in bounds. But the copy starts at
the start of the buffer and not at the position, so from the second value on
the length is that of another one.
-/

namespace WiringRs

/-- `UnsafeReader::sync_unwire` -/
def UnsafeReader.syncUnwire (α : Type) [RustType α] [Unwiring α] :
    IoM UnsafeReader α := fun r =>
  let pos := r.position
  match (bytesLength α 1 : IoM Bytes Nat) r.slice with
  | (.error e, _) => (.error e, r)
  | (.ok len, _) => (do
      let stop ← addU64 pos len
      if stop ≤ r.sourceBufferLen then syncUnwiring
      else Act.fail ⟨.outOfMemory, "Out of bounds"⟩ : IoM UnsafeReader α) r

/-! ## Reading in bounds -/

def UnsafeReader.Valid (r : UnsafeReader) : Prop := r.position ≤ r.sourceBufferLen

/-- The call reads in bounds from a reader with the bytes `s` ahead. If it
returns a value, it has taken as many of them as `m` says. -/
def Reads {α : Type} (x : IoM UnsafeReader α) (s : Bytes) (m : Option Nat) : Prop :=
  ∀ r : UnsafeReader, r.Valid → r.rest = s →
    Act.InBounds x r ∧ (x r).2.Valid ∧
      ∀ a r', x r = (.ok a, r') → ∃ len, m = some len ∧ r'.rest = s.drop len

namespace Reads

variable {α β : Type} {x : IoM UnsafeReader α} {s : Bytes} {m : Option Nat}

theorem pure {a : α} : Reads (pure a) s (some 0) := by
  rintro r hr rfl
  refine ⟨.of_ok rfl, hr, ?_⟩
  intro b r' h
  obtain ⟨-, rfl⟩ := Prod.mk.inj h
  exact ⟨0, rfl, rfl⟩

theorem stop {e : Stop IoError} (he : e ≠ .ub) : Reads (Act.stop e : IoM _ α) s m := by
  rintro r hr -
  exact ⟨fun h => he (Except.error.inj h), hr, nofun⟩

theorem unwireSlice {n : Nat} (h : n ≤ s.length) :
    Reads (UnsafeReader.unwireSlice n) s (some n) := by
  rintro r hr rfl
  have hle : r.position + n ≤ r.sourceBufferLen := by
    rw [UnsafeReader.rest, List.length_drop, ← r.len_eq] at h
    rw [UnsafeReader.Valid] at hr
    omega
  have hok : UnsafeReader.unwireSlice n r =
      (.ok (r.rest.take n), { r with position := r.position + n }) := if_pos hle
  refine ⟨.of_ok hok, by rw [hok]; exact hle, ?_⟩
  intro a r' ha
  rw [hok] at ha
  obtain ⟨-, rfl⟩ := Prod.mk.inj ha
  exact ⟨n, rfl, by rw [UnsafeReader.rest, UnsafeReader.rest, List.drop_drop]⟩

/-- What `Reads` says of a call that stops, from another that stops so. -/
theorem of_error {y : IoM UnsafeReader β} {r r' : UnsafeReader} {e : Stop IoError}
    (hub : x.InBounds r) (hvalid : r'.Valid) (hx : x r = (.error e, r'))
    (hy : y r = (.error e, r')) :
    Act.InBounds y r ∧ (y r).2.Valid ∧
      ∀ a r'', y r = (.ok a, r'') → ∃ len, m = some len ∧ r''.rest = s.drop len := by
  refine ⟨hub.of_error hx hy, by rwa [hy], ?_⟩
  intro a r'' ha
  cases hy.symm.trans ha

theorem bind {f : α → IoM UnsafeReader β} {a : Nat} (hx : Reads x s (some a))
    (hf : ∀ v, Reads (f v) (s.drop a) m) :
    Reads (x >>= f) s (m.map (a + ·)) := by
  intro r hr hs
  obtain ⟨hub, hvalid, hok⟩ := hx r hr hs
  rcases h : x r with ⟨o, r'⟩
  rw [h] at hvalid
  cases o with
  | error e => exact of_error hub hvalid h (Act.bind_error h)
  | ok v =>
      obtain ⟨len, hlen, hr'⟩ := hok v r' h
      cases Option.some.inj hlen
      obtain ⟨hub', hvalid', hok'⟩ := hf v r' hvalid hr'
      rw [Act.InBounds, Act.bind_ok h]
      refine ⟨hub', hvalid', ?_⟩
      intro b r'' hb
      obtain ⟨len', rfl, hr''⟩ := hok' b r'' hb
      exact ⟨a + len', rfl, by rw [hr'', List.drop_drop]⟩

/-- A call that does not return a value is the last one. -/
theorem bind_none {f : α → IoM UnsafeReader β} (hx : Reads x s none) :
    Reads (x >>= f) s m := by
  intro r hr hs
  obtain ⟨hub, hvalid, hok⟩ := hx r hr hs
  rcases h : x r with ⟨o, r'⟩
  rw [h] at hvalid
  cases o with
  | error e => exact of_error hub hvalid h (Act.bind_error h)
  | ok v =>
      obtain ⟨len, hlen, -⟩ := hok v r' h
      cases hlen

theorem bind_zero {f : α → IoM UnsafeReader β} {a : Nat} (hx : Reads x s (some a))
    (hf : ∀ v, Reads (f v) (s.drop a) (some 0)) : Reads (x >>= f) s (some a) := by
  have h := hx.bind hf
  rwa [Option.map_some, Nat.add_zero] at h

theorem map {f : α → β} (hx : Reads x s m) :
    Reads (do let a ← x; Pure.pure (f a)) s m := by
  cases m with
  | none => exact hx.bind_none
  | some a => exact hx.bind_zero fun _ => pure

theorem of_map {f : α → β} (h : Reads (do let a ← x; Pure.pure (f a)) s m) :
    Reads x s m := by
  intro r hr hs
  obtain ⟨hub, hvalid, hok⟩ := h r hr hs
  rcases hxr : x r with ⟨o, r'⟩
  cases o with
  | error e =>
      have hbind := Act.bind_error (f := fun a => Pure.pure (f a)) hxr
      rw [hbind] at hvalid
      exact hxr ▸ of_error hub hvalid hbind hxr
  | ok v =>
      rw [Act.bind_ok hxr] at hvalid hok
      refine ⟨.of_ok hxr, hvalid, ?_⟩
      intro a r'' ha
      obtain ⟨-, rfl⟩ := Prod.mk.inj ha
      exact hok (f v) r' rfl

theorem of_turns {n : Nat} (h : Reads (Act.turns n x) s m) :
    Reads (Act.times n x) s m := by
  refine of_map (f := fun _ => ()) ?_
  rw [Act.times_bind, bind_pure]
  exact h

theorem of_turns_one (h : Reads (Act.turns 1 x) s m) : Reads x s m :=
  of_map (f := fun _ => ()) h

theorem turns {a : Nat} (hx : ∀ s, a ≤ s.length → Reads x s (some a)) (n : Nat)
    (h : n * a ≤ s.length) : Reads (Act.turns n x) s (some (n * a)) := by
  induction n generalizing s with
  | zero => rw [Nat.zero_mul]; exact pure
  | succ n ih =>
      rw [Nat.succ_mul] at h ⊢
      have htail := ih (s := s.drop a) (by rw [List.length_drop]; omega)
      have hbind := (hx s (by omega)).bind fun _ => htail
      rwa [Option.map_some, Nat.add_comm] at hbind

/-- `Vec::with_capacity` may panic first. -/
theorem guard {p : Prop} [Decidable p] {x : p → IoM UnsafeReader α}
    (h : ∀ hp, Reads (x hp) s m) :
    Reads (if hp : p then x hp else Act.panic) s m := by
  by_cases hp : p
  · rw [dif_pos hp]
    exact h hp
  · rw [dif_neg hp]
    exact stop nofun

end Reads

/-! ## Measuring before reading -/

/-- Started with the count `total` on the bytes `s`, the pre-pass adds the
length of what `x` reads, but for the `k` bytes it was charged for before. If
it fails otherwise than at the end of the bytes, `x` fails in bounds. -/
structure Measured {α : Type} (k : Nat) (p : IoM Bytes Nat) (total : Nat)
    (s : Bytes) (x : IoM UnsafeReader α) : Prop where
  ok : ∀ {total' s'}, p s = (.ok total', s') → ∃ d, total' = total + d ∧
    d + k ≤ s.length ∧ s' = s.drop (d + k) ∧ Reads x s (some (d + k))
  bad : ∀ {e s'}, p s = (.error (.err e), s') → e.kind ≠ .unexpectedEof →
    Reads x s none
  inBounds : Act.InBounds p s

namespace Measured

variable {α β γ : Type} {k total : Nat} {p : IoM Bytes Nat} {s : Bytes}
  {x : IoM UnsafeReader α}

/-- Only what `x` reads matters. -/
theorem congr {y : IoM UnsafeReader β} (h : Measured k p total s x)
    (hxy : ∀ m, Reads x s m → Reads y s m) : Measured k p total s y where
  ok hp := by
    obtain ⟨d, htotal, hle, hs', hx⟩ := h.ok hp
    exact ⟨d, htotal, hle, hs', hxy _ hx⟩
  bad hp he := hxy _ (h.bad hp he)
  inBounds := h.inBounds

/-- Nothing is left to measure. -/
theorem done (h : Reads x s (some 0)) : Measured 0 (pure total) total s x where
  ok hp := by
    obtain ⟨htotal, rfl⟩ := Prod.mk.inj hp
    cases Except.ok.inj htotal
    exact ⟨0, rfl, Nat.zero_le _, rfl, h⟩
  bad := nofun
  inBounds := .of_ok rfl

/-- The count starts with what was charged before. -/
theorem prepaid (h : Measured k p k s x) : Measured 0 p 0 s x where
  ok hp := by
    obtain ⟨d, rfl, hle, hs', hx⟩ := h.ok hp
    exact ⟨d + k, by omega, hle, hs', hx⟩
  bad := h.bad
  inBounds := h.inBounds

theorem mulU64 {a b : Nat} {f : Nat → IoM Bytes Nat}
    (h : Measured k (f (a * b)) total s x) :
    Measured k (WiringRs.mulU64 a b >>= f) total s x := by
  by_cases hlt : a * b < 2 ^ 64
  · rw [WiringRs.mulU64, if_pos hlt, pure_bind]
    exact h
  · rw [WiringRs.mulU64, if_neg hlt]
    exact ⟨nofun, nofun, nofun⟩

/-- Adding a measured length to the count. -/
theorem addU64 (h : Measured 0 p 0 s x) :
    Measured 0 (do
      let len ← p
      WiringRs.addU64 total len) total s x := by
  constructor
  · intro total' s' hp
    obtain ⟨len, s1, hlen, hadd⟩ := Act.bind_eq_ok.mp hp
    obtain ⟨d, rfl, hle, rfl, hx⟩ := h.ok hlen
    unfold WiringRs.addU64 at hadd
    split at hadd
    · obtain ⟨htotal, rfl⟩ := Prod.mk.inj hadd
      cases Except.ok.inj htotal
      exact ⟨d, by omega, hle, rfl, hx⟩
    · cases hadd
  · intro e s' hp he
    rcases Act.bind_eq_error.mp hp with hlen | ⟨len, s1, -, hadd⟩
    · exact h.bad hlen he
    · unfold WiringRs.addU64 at hadd
      split at hadd <;> cases hadd
  · refine h.inBounds.bind fun len s' _ => ?_
    unfold WiringRs.addU64
    split
    · exact .of_ok rfl
    · exact .of_panic rfl

/-- One part is measured after another. -/
theorem bind {f : Nat → IoM Bytes Nat} {y : IoM UnsafeReader β}
    {g : α → IoM UnsafeReader γ} {k' : Nat} (h : Measured k p total s x)
    (hf : ∀ total s, Measured k' (f total) total s y)
    (hg : ∀ v s m, Reads y s m → Reads (g v) s m) :
    Measured (k + k') (p >>= f) total s (x >>= g) := by
  constructor
  · intro total' s' hp
    obtain ⟨total1, s1, hp1, hp2⟩ := Act.bind_eq_ok.mp hp
    obtain ⟨d1, rfl, hle1, rfl, hx⟩ := h.ok hp1
    obtain ⟨d2, rfl, hle2, rfl, hy⟩ := (hf _ _).ok hp2
    rw [List.length_drop] at hle2
    have hlen : d1 + k + (d2 + k') = d1 + d2 + (k + k') := by omega
    have hbind := hx.bind fun v => hg v _ _ hy
    rw [Option.map_some, hlen] at hbind
    refine ⟨d1 + d2, Nat.add_assoc _ _ _, by omega, ?_, hbind⟩
    rw [List.drop_drop, hlen]
  · intro e s' hp he
    rcases Act.bind_eq_error.mp hp with hp1 | ⟨total1, s1, hp1, hp2⟩
    · exact (h.bad hp1 he).bind_none
    · obtain ⟨d1, rfl, hle1, rfl, hx⟩ := h.ok hp1
      exact hx.bind fun v => hg v _ _ ((hf _ _).bad hp2 he)
  · exact h.inBounds.bind fun total1 s1 _ => (hf total1 s1).inBounds

theorem iter {f : Nat → IoM Bytes Nat} (h : ∀ total s, Measured k (f total) total s x)
    (n total : Nat) (s : Bytes) :
    Measured (n * k) (Act.iter n f total) total s (Act.turns n x) := by
  induction n generalizing total s with
  | zero => rw [Nat.zero_mul]; exact done .pure
  | succ n ih =>
      rw [Nat.succ_mul, Nat.add_comm]
      exact (h total s).bind ih fun _ _ _ hy => hy

end Measured

/-! ## Reads of one width -/

theorem readExactSlice_error {n : Nat} {s s' : Bytes} {e : Stop IoError}
    (h : readExactSlice n s = (.error e, s')) : e = .err eof := by
  unfold readExactSlice at h
  split at h <;> cases h
  rfl

theorem splitSlice_error {n : Nat} {io : IoError} {s s' : Bytes} {e : Stop IoError}
    (h : splitSlice n io s = (.error e, s')) : e = .err io := by
  unfold splitSlice at h
  split at h <;> cases h
  rfl

/-- A failing read of a slice is the end of its bytes. -/
theorem syncUnwiring_prim_error {t : PrimTy} {s s' : Bytes} {e : Stop IoError}
    (h : (syncUnwiring : IoM Bytes (Prim t)) s = (.error e, s')) : e = .err eof := by
  have hmap {α β : Type} {x : IoM Bytes α} {f : α → β}
      (h : (do let a ← x; pure (f a)) s = (.error e, s')) : x s = (.error e, s') := by
    rcases Act.bind_eq_error.mp h with h | ⟨_, _, -, h⟩
    · exact h
    · cases h
  cases t with
  | u8 | u16 | u32 | f64 | u128 | i128 => exact readExactSlice_error (hmap h)
  | i8 | i16 | i32 => exact readExactSlice_error (hmap (hmap h))
  | u64 | f32 => exact splitSlice_error (hmap h)
  | i64 => exact splitSlice_error (hmap (hmap h))

theorem unwirePrim_eq {t : PrimTy} {r : UnsafeReader} (hr : r.Valid)
    (h : t.size ≤ r.rest.length) :
    UnsafeReader.unwirePrim t r = (.ok (.fromBeBytes (r.rest.take t.size)),
      { r with position := r.position + t.size }) := by
  have hle : r.position + t.size ≤ r.sourceBufferLen := by
    rw [UnsafeReader.rest, List.length_drop, ← r.len_eq] at h
    rw [UnsafeReader.Valid] at hr
    omega
  exact Act.bind_ok (if_pos hle)

theorem syncUnwiring_prim_eq {t : PrimTy} {r : UnsafeReader} (hr : r.Valid)
    (h : t.size ≤ r.rest.length) :
    (syncUnwiring : IoM UnsafeReader (Prim t)) r =
      (.ok (.fromBeBytes (r.rest.take t.size)),
        { r with position := r.position + t.size }) := by
  have hcast {u : PrimTy} (hsize : u.size = t.size) :
      (do let n ← UnsafeReader.unwirePrim u; pure n.cast : IoM _ (Prim t)) r =
        (.ok (.fromBeBytes (r.rest.take t.size)),
          { r with position := r.position + t.size }) := by
    rw [Act.bind_ok (unwirePrim_eq hr (hsize ▸ h)), Act.pure_apply,
      Prim.cast_fromBeBytes hsize, hsize]
  cases t with
  | u8 | u16 | u32 | u64 | f32 | f64 | u128 | i128 => exact unwirePrim_eq hr h
  | i8 => exact hcast (u := .u8) rfl
  | i16 => exact hcast (u := .u16) rfl
  | i32 => exact hcast (u := .u32) rfl
  | i64 => exact hcast (u := .u64) rfl

/-- The reader reads the value the slice has. -/
theorem Reads.read {α : Type} {t : PrimTy} {s : Bytes} {m : Option Nat}
    {g : Prim t → IoM UnsafeReader α} (h : t.size ≤ s.length)
    (hg : Reads (g (.fromBeBytes (s.take t.size))) (s.drop t.size) m) :
    Reads (syncUnwiring >>= g) s (m.map (t.size + ·)) := by
  rintro r hr rfl
  have hread := syncUnwiring_prim_eq hr h
  have hrest : ({ r with position := r.position + t.size } : UnsafeReader).rest =
      r.rest.drop t.size := by
    rw [UnsafeReader.rest, UnsafeReader.rest, List.drop_drop]
  have hvalid : ({ r with position := r.position + t.size } : UnsafeReader).Valid := by
    rw [UnsafeReader.rest, List.length_drop, ← r.len_eq] at h
    show r.position + t.size ≤ r.sourceBufferLen
    rw [UnsafeReader.Valid] at hr
    omega
  obtain ⟨hub, hvalid', hok⟩ := hg _ hvalid hrest
  rw [Act.InBounds, Act.bind_ok hread]
  refine ⟨hub, hvalid', ?_⟩
  intro a r' ha
  obtain ⟨len, rfl, hr'⟩ := hok a r' ha
  exact ⟨t.size + len, rfl, by rw [hr', List.drop_drop]⟩

theorem Reads.prim (t : PrimTy) {s : Bytes} (h : t.size ≤ s.length) :
    Reads (syncUnwiring : IoM UnsafeReader (Prim t)) s (some t.size) := by
  have hread := Reads.read (g := Pure.pure) h Reads.pure
  rwa [bind_pure] at hread

/-- The pre-pass reads a value to know what to measure. -/
theorem Measured.read {α : Type} {k total : Nat} {t : PrimTy}
    {f : Prim t → IoM Bytes Nat} {g : Prim t → IoM UnsafeReader α}
    (h : ∀ a s, Measured k (f a) total s (g a)) (s : Bytes) :
    Measured (t.size + k) (syncUnwiring >>= f) total s (syncUnwiring >>= g) := by
  constructor
  · intro total' s' hp
    obtain ⟨a, s1, ha, hf⟩ := Act.bind_eq_ok.mp hp
    obtain ⟨hsize, rfl, rfl⟩ := (ReadsPrim.syncUnwiring t ..).mp ha
    obtain ⟨d, rfl, hle, rfl, hg⟩ := (h _ _).ok hf
    rw [List.length_drop] at hle
    have hlen : t.size + (d + k) = d + (t.size + k) := by omega
    have hread := Reads.read hsize hg
    rw [Option.map_some, hlen] at hread
    exact ⟨d, rfl, by omega, by rw [List.drop_drop, hlen], hread⟩
  · intro e s' hp he
    rcases Act.bind_eq_error.mp hp with ha | ⟨a, s1, ha, hf⟩
    · cases syncUnwiring_prim_error ha
      exact absurd rfl he
    · obtain ⟨hsize, rfl, rfl⟩ := (ReadsPrim.syncUnwiring t ..).mp ha
      exact Reads.read hsize ((h _ _).bad hf he)
  · refine Act.InBounds.bind ?_ fun a s1 _ => (h a s1).inBounds
    rcases hs : (syncUnwiring : IoM Bytes (Prim t)) s with ⟨_ | a, s1⟩
    · cases syncUnwiring_prim_error hs
      exact .of_err hs
    · exact .of_ok hs

/-! ## Stretches of known length -/

/-- Advancing a slice measures a stretch without reading it. -/
theorem Measured.advance {α : Type} {len total total' : Nat} {s : Bytes}
    {x : IoM UnsafeReader α} (h : len ≤ s.length → Reads x s (some len))
    (htotal : total' = total + len) :
    Measured 0 (do
      Unwire.advancePosition len
      pure total') total s x := by
  have hadv : (Unwire.advancePosition len : IoM Bytes Unit) = (do
      let _ ← splitSlice len ⟨.unexpectedEof, "failed to advance the position"⟩
      pure ()) := rfl
  rw [hadv, bind_assoc]
  constructor
  · intro total1 s' hp
    obtain ⟨a, s1, ha, hp⟩ := Act.bind_eq_ok.mp hp
    obtain ⟨hle, -, rfl⟩ := splitSlice_eq_ok.mp ha
    rw [pure_bind, Act.pure_apply] at hp
    obtain ⟨htotal1, rfl⟩ := Prod.mk.inj hp
    cases Except.ok.inj htotal1
    exact ⟨len, htotal, hle, rfl, h hle⟩
  · intro e s' hp he
    rcases Act.bind_eq_error.mp hp with ha | ⟨a, s1, -, hp⟩
    · cases splitSlice_error ha
      exact absurd rfl he
    · rw [pure_bind] at hp
      cases hp
  · refine Act.InBounds.bind ?_ fun a s1 _ => .of_ok rfl
    rcases hs : splitSlice len ⟨.unexpectedEof, _⟩ s with ⟨_ | a, s1⟩
    · cases splitSlice_error hs
      exact .of_err hs
    · exact .of_ok hs

theorem Measured.advanceBy {α : Type} {len : Nat} {s : Bytes}
    {x : IoM UnsafeReader α} (h : len ≤ s.length → Reads x s (some len)) :
    Measured 0 (WiringRs.advanceBy len) 0 s x :=
  .advance h (Nat.zero_add len).symm

theorem Measured.count {α : Type} {len total : Nat} {s : Bytes}
    {x : IoM UnsafeReader α} (h : len ≤ s.length → Reads x s (some len)) :
    Measured 0 (do
      let total ← WiringRs.addU64 total len
      Unwire.advancePosition len
      pure total) total s x := by
  by_cases hlt : total + len < 2 ^ 64
  · rw [WiringRs.addU64, if_pos hlt, pure_bind]
    exact .advance h rfl
  · rw [WiringRs.addU64, if_neg hlt]
    exact ⟨nofun, nofun, nofun⟩

/-! ## Strings and derived types -/

theorem Reads.lift {α : Type} {o : Except (Stop IoError) α} {s : Bytes}
    (ho : o ≠ .error .ub) : Reads (Act.lift o) s (some 0) := by
  cases o with
  | ok a => exact pure
  | error e => exact stop fun he => ho (he ▸ rfl)

theorem fromUtf8_ne_ub (b : Bytes) : fromUtf8 b ≠ .error .ub := by
  unfold fromUtf8
  split
  · split <;> rintro ⟨⟩
  · rintro ⟨⟩

theorem Measured.string [RustType RString] (total : Nat) (s : Bytes) :
    Measured 8 (do
      let len ← Unwire.syncUnwireU64
      let total ← WiringRs.addU64 total len.toNat
      Unwire.advancePosition len.toNat
      pure total) total s (syncUnwiring : IoM UnsafeReader RString) := by
  refine Measured.read (t := .u64) (k := 0) (fun len s => ?_) s
  refine .count fun hle => ?_
  exact (Reads.unwireSlice hle).bind_zero fun b => .lift (fromUtf8_ne_ub b)

section

variable {n : Nat} {ty : Fin n → Type} [∀ i, RustType (ty i)]
  [∀ i, Unwiring (ty i)]

theorem fieldsLength_map {m : Nat} (g : Fin m → Fin n) (l : List (Fin m)) :
    (fieldsLength ty (l.map g) : Nat → IoM Bytes Nat) =
      fieldsLength (fun i => ty (g i)) l := by
  funext total
  induction l generalizing total with
  | nil => rfl
  | cons f fs ih =>
      simp only [List.map_cons, fieldsLength]
      exact bind_congr fun len => bind_congr fun total => ih total

end

/-- The fields of a struct or a variant are measured one by one. -/
theorem Measured.fields : (n : Nat) → {ty : Fin n → Type} →
    [∀ i, RustType (ty i)] → [∀ i, Unwiring (ty i)] →
    {x : ∀ i, IoM UnsafeReader (ty i)} →
    (∀ i s, Measured 0 (bytesLength (ty i) 1) 0 s (x i)) → ∀ total s,
    Measured 0 (fieldsLength ty (List.finRange n) total) total s (Act.sequence n x)
  | 0, _, _, _, _, _, _, _ => done .pure
  | n + 1, ty, _, _, x, h, total, s => by
      have htail := Measured.fields n fun i => h i.succ
      have hhead : Measured 0 _ total s (x 0) := (h 0 s).addU64
      have hbind := hhead.bind htail
        (g := fun a => do let r ← Act.sequence n fun i => x i.succ; pure (Fin.cons a r))
        fun _ _ _ hy => hy.map
      have hmap := @fieldsLength_map (n + 1) ty _ _ n Fin.succ
      rw [← hmap, bind_assoc] at hbind
      rw [List.finRange_succ]
      exact hbind

theorem Reads.sequence : (n : Nat) → {τ : Fin n → Type} →
    {x : ∀ i, IoM UnsafeReader (τ i)} → {size : Fin n → Nat} →
    (∀ i s, size i ≤ s.length → Reads (x i) s (some (size i))) → (s : Bytes) →
    ((List.finRange n).map size).sum ≤ s.length →
    Reads (Act.sequence n x) s (some ((List.finRange n).map size).sum)
  | 0, _, _, _, _, _, _ => Reads.pure
  | n + 1, _, _, size, h, s, hle => by
      rw [List.finRange_succ, List.map_cons, List.sum_cons, List.map_map] at hle ⊢
      have htail := Reads.sequence n (fun i => h i.succ) (s.drop (size 0))
        (by rw [List.length_drop]; simp only [Function.comp_def] at hle; omega)
      exact (h 0 s (by omega)).bind fun _ => htail.map

/-! ## All core types -/

/-- The types the reader is used with: integers, `bool`, `()`, `String`,
`Option`, `Vec`, arrays, and derived structs and enums over these. -/
def UTy.Core : {α : Type} → {r : RustType α} → {u : Unwiring α} →
    @UTy α r u → Prop
  | _, _, _, UTy.prim t => t ≠ .f32 ∧ t ≠ .f64
  | _, _, _, UTy.unit | _, _, _, UTy.bool | _, _, _, UTy.string
  | _, _, _, UTy.unitStruct => True
  | _, _, _, UTy.array T _ | _, _, _, UTy.vec T | _, _, _, UTy.option T => T.Core
  | _, _, _, UTy.struct _ T => ∀ i, (T i).Core
  | _, _, _, UTy.enum _ T => ∀ v i, (T v i).Core
  | _, _, _, _ => False

theorem Reads.unit {s : Bytes} (h : 1 ≤ s.length) :
    Reads (syncUnwiring : IoM UnsafeReader Unit) s (some 1) := by
  refine (Reads.prim .u8 h).bind_zero fun n => ?_
  by_cases hn : n.toNat = 0
  · simp only [hn, if_true]
    exact pure
  · simp only [hn, if_false]
    exact stop nofun

/-- A type that is not mixed takes `FIXED_SIZE` bytes. -/
theorem UTy.reads_fixed : {α : Type} → {r : RustType α} → {u : Unwiring α} →
    (T : @UTy α r u) → T.Core → Unwiring.mixed α = false → (s : Bytes) →
    Unwiring.fixedSize α ≤ s.length →
    Reads (syncUnwiring : IoM UnsafeReader α) s (some (Unwiring.fixedSize α))
  | _, _, _, UTy.prim t, hcore, _, s, h => by
      have hsize : Unwiring.fixedSize (Prim t) = t.size := by
        cases t with
        | f32 => exact absurd rfl hcore.1
        | f64 => exact absurd rfl hcore.2
        | _ => rfl
      rw [hsize] at h ⊢
      exact .prim t h
  | _, _, _, @UTy.array α _ _ T N _, hcore, hmixed, s, h => by
      change Unwiring.fixedSize α * N ≤ s.length at h
      change Reads _ s (some (Unwiring.fixedSize α * N))
      rw [Nat.mul_comm] at h ⊢
      exact (Reads.turns (T.reads_fixed hcore hmixed) N h).of_turns
  | _, _, _, UTy.struct _ T, hcore, hmixed, s, h => by
      have hfield i : Unwiring.mixed _ = false :=
        Bool.eq_false_iff.mpr fun hi => by
          have := List.any_eq_false.mp hmixed i (List.mem_finRange i)
          exact this hi
      exact (Reads.sequence _ (fun i => (T i).reads_fixed (hcore i) (hfield i)) s h).map
  | _, _, _, UTy.unitStruct, _, _, _, h => (Reads.unit h).map

section

variable {α : Type} {x : IoM UnsafeReader α} {size : Nat}

/-- The pre-pass of values of one size. -/
theorem Measured.advance_mul (h : ∀ s, size ≤ s.length → Reads x s (some size))
    (count : Nat) (s : Bytes) :
    Measured 0 (WiringRs.advanceBy (size * count)) 0 s (Act.turns count x) := by
  rw [Nat.mul_comm]
  exact .advanceBy fun hle => Reads.turns h count hle

/-- The pre-pass of values of which `size` bytes each are charged for first. -/
theorem Measured.charge {f : Nat → IoM Bytes Nat}
    (h : ∀ total s, Measured size (f total) total s x) (count : Nat) (s : Bytes) :
    Measured 0 (Act.iter count f (size * count)) 0 s (Act.turns count x) := by
  refine Measured.prepaid (k := size * count) ?_
  rw [Nat.mul_comm]
  exact Measured.iter h count _ s

end

theorem Measured.vec {α : Type} [RustType α] [Unwiring α] (T : UTy α)
    [RustType (Vec α)] (hcore : T.Core)
    (h : ∀ count s, Measured 0 (bytesLength α count) 0 s
      (Act.turns count (syncUnwiring : IoM UnsafeReader α))) (total : Nat)
    (s : Bytes) :
    Measured 8 (do
      let thisCount ← Unwire.syncUnwireU64
      if !Unwiring.mixed α then do
        let len ← WiringRs.mulU64 (Unwiring.fixedSize α) thisCount.toNat
        let total ← WiringRs.addU64 total len
        Unwire.advancePosition len
        pure total
      else do
        let len ← bytesLength α thisCount.toNat
        WiringRs.addU64 total len) total s
      (syncUnwiring : IoM UnsafeReader (Vec α)) := by
  refine Measured.read (t := .u64) (k := 0) (fun count s => ?_) s
  have hcollect {m} (hturns : Reads (Act.turns count.toNat syncUnwiring) s m) :
      Reads (collect count.toNat (syncUnwiring : IoM UnsafeReader α)) s m :=
    .guard fun _ => hturns.of_turns.map
  cases hmixed : Unwiring.mixed α with
  | true => exact (h count.toNat s).addU64.congr fun _ => hcollect
  | false =>
      refine .mulU64 (.count fun hle => hcollect ?_)
      rw [Nat.mul_comm] at hle ⊢
      exact Reads.turns (T.reads_fixed hcore hmixed) _ hle

theorem Measured.option {α : Type} [RustType α] [Unwiring α]
    [RustType (Option α)]
    (h : ∀ count s, Measured 0 (bytesLength α count) 0 s
      (Act.turns count (syncUnwiring : IoM UnsafeReader α))) (total : Nat)
    (s : Bytes) :
    Measured 1 (do
      let variant ← Unwire.syncUnwireU8
      if variant.toNat = 1 then do
        let len ← bytesLength α 1
        WiringRs.addU64 total len
      else pure total) total s
      (syncUnwiring : IoM UnsafeReader (Option α)) := by
  refine Measured.read (t := .u8) (k := 0) (fun variant s => ?_) s
  by_cases h1 : variant.toNat = 1
  · simp only [h1, if_true, Nat.one_ne_zero, if_false]
    exact (h 1 s).addU64.congr fun _ hx => hx.of_turns_one.map
  · by_cases h0 : variant.toNat = 0
    · simp only [h0, if_true, Nat.zero_ne_one, if_false]
      exact done .pure
    · simp only [h0, h1, if_false]
      exact done (.stop nofun)

theorem Measured.enum {d : EnumDecl}
    {ty : (v : Fin d.variants) → Fin (d.arity v) → Type}
    [∀ v i, RustType (ty v i)] [∀ v i, Unwiring (ty v i)] [RustType (Enum d ty)]
    (h : ∀ v i count s, Measured 0 (bytesLength (ty v i) count) 0 s
      (Act.turns count (syncUnwiring : IoM UnsafeReader (ty v i)))) (total : Nat)
    (s : Bytes) :
    Measured d.tag.size (do
      let taged ← syncUnwiring (α := Prim d.tag)
      d.matchTag taged.toNat fun v =>
        fieldsLength (ty v) (List.finRange (d.arity v)) total) total s
      (syncUnwiring : IoM UnsafeReader (Enum d ty)) := by
  refine Measured.read (k := 0) (fun taged s => ?_) s
  unfold EnumDecl.matchTag
  by_cases hlt : taged.toNat < d.variants
  · rw [dif_pos hlt, dif_pos hlt]
    have hfields : Measured 0 (fieldsLength (ty ⟨_, hlt⟩) _ total) total s
        (Act.sequence _ fun _ => syncUnwiring) :=
      Measured.fields _ (fun i s => (h _ i 1 s).congr fun _ hx => hx.of_turns_one)
        total s
    exact hfields.congr fun _ hx => hx.map
  · rw [dif_neg hlt, dif_neg hlt]
    exact ⟨nofun, fun _ _ => .stop nofun, nofun⟩

/-- **The pre-pass measures what the decoder reads.** -/
theorem UTy.measured : {α : Type} → {r : RustType α} → {u : Unwiring α} →
    (T : @UTy α r u) → T.Core → (count : Nat) → (s : Bytes) →
    Measured 0 (bytesLength α count) 0 s
      (Act.turns count (syncUnwiring : IoM UnsafeReader α))
  | _, _, _, UTy.prim t, _, count, s => by
      have h : Measured 0 (mulU64 t.size count >>= advanceBy) 0 s
          (Act.turns count (syncUnwiring : IoM UnsafeReader (Prim t))) :=
        .mulU64 (.advance_mul (fun _ => Reads.prim t) count s)
      cases t <;> exact h
  | _, _, _, UTy.unit, _, count, s => .advance_mul (fun _ => Reads.unit) count s
  | _, _, _, UTy.bool, _, count, s =>
      .mulU64 (.advance_mul (fun _ h => (Reads.prim .u8 h).map) count s)
  | _, _, _, UTy.string, _, count, s => .mulU64 (.charge Measured.string count s)
  | _, _, _, UTy.array T N, hcore, count, s => by
      refine .mulU64 ((T.measured hcore (N * count) s).congr fun m hx => ?_)
      rw [Nat.mul_comm, ← Act.turns_times] at hx
      exact hx
  | _, _, _, UTy.vec T, hcore, count, s =>
      .mulU64 (.charge (.vec T hcore (T.measured hcore)) count s)
  | _, _, _, UTy.option T, hcore, count, s =>
      .charge (.option (T.measured hcore)) count s
  | _, _, _, @UTy.struct n d ty _ _ T _, hcore, count, s => by
      have hfields := Measured.fields n (x := fun _ => syncUnwiring) fun i s =>
        ((T i).measured (hcore i) 1 s).congr fun _ hx => hx.of_turns_one
      have hstruct total s : Measured 0 (fieldsLength ty (List.finRange n) total)
          total s (syncUnwiring : IoM UnsafeReader (Struct d ty)) :=
        (hfields total s).congr fun _ hx => hx.map
      exact Measured.iter hstruct count 0 s
  | _, _, _, UTy.unitStruct, _, count, s =>
      .advance_mul (fun _ h => (Reads.unit h).map) count s
  | _, _, _, UTy.enum _ T, hcore, count, s =>
      .mulU64 (.charge (.enum fun v i => (T v i).measured (hcore v i)) count s)

/-! ## Runs of calls -/

/-- A call `unwire::<T>()` at a core type. -/
structure CoreCall where
  α : Type
  [rustType : RustType α]
  [unwiring : Unwiring α]
  T : UTy α
  core : T.Core

attribute [instance] CoreCall.rustType CoreCall.unwiring

namespace CoreCall

/-- `BufUnWire::unwire` -/
def unwire (c : CoreCall) : IoM UnsafeReader c.α := UnsafeReader.syncUnwire c.α

/-- The calls of a run, each with the reader it finds. A call that fails
leaves its position to the next one. -/
def states : List CoreCall → UnsafeReader → List (CoreCall × UnsafeReader)
  | [], _ => []
  | c :: calls, r => (c, r) :: states calls (c.unwire r).2

/-- The check of the measured length lets `sync_unwiring` run. -/
def LetRun (c : CoreCall) (r : UnsafeReader) : Prop :=
  ∃ len s, (bytesLength c.α 1 : IoM Bytes Nat) r.slice = (.ok len, s) ∧
    r.position + len < 2 ^ 64 ∧ r.position + len ≤ r.sourceBufferLen

/-- Measured from the position, the value does not run into the end of the
buffer. -/
def FitsHere (c : CoreCall) (r : UnsafeReader) : Prop :=
  match (bytesLength c.α 1 : IoM Bytes Nat) r.rest with
  | (.ok _, _) => True
  | (.error (.err e), _) => e.kind ≠ .unexpectedEof
  | (.error _, _) => False

theorem unwire_letRun {c : CoreCall} {r : UnsafeReader} (h : c.LetRun r) :
    c.unwire r = (syncUnwiring : IoM UnsafeReader c.α) r := by
  obtain ⟨len, s, hlen, hlt, hle⟩ := h
  simp only [unwire, UnsafeReader.syncUnwire, hlen, addU64, hlt, if_true,
    pure_bind, hle]

/-- A call that is not let run fails and reads nothing. -/
theorem unwire_not_letRun {c : CoreCall} {r : UnsafeReader} (h : ¬ c.LetRun r) :
    ∃ e, e ≠ .ub ∧ c.unwire r = (.error e, r) := by
  unfold unwire UnsafeReader.syncUnwire
  rcases hp : (bytesLength c.α 1 : IoM Bytes Nat) r.slice with ⟨e | len, s⟩
  · refine ⟨e, ?_, rfl⟩
    rintro rfl
    exact (c.T.measured c.core 1 r.slice).inBounds (by rw [hp])
  · by_cases hlt : r.position + len < 2 ^ 64
    · have hle : ¬ r.position + len ≤ r.sourceBufferLen := fun hle =>
        h ⟨len, s, hp, hlt, hle⟩
      simp only [addU64, hlt, if_true, pure_bind, hle, if_false]
      exact ⟨.err _, nofun, rfl⟩
    · simp only [addU64, hlt, if_false]
      exact ⟨.panic, nofun, rfl⟩

/-- A value that fits is read in bounds. -/
theorem reads_of_fitsHere {c : CoreCall} {r : UnsafeReader} (h : c.FitsHere r) :
    ∃ m, Reads (syncUnwiring : IoM UnsafeReader c.α) r.rest m := by
  have hm := c.T.measured c.core 1 r.rest
  unfold FitsHere at h
  rcases hp : (bytesLength c.α 1 : IoM Bytes Nat) r.rest with ⟨o, s⟩
  rw [hp] at h
  match o with
  | .ok len =>
      obtain ⟨d, -, -, -, hx⟩ := hm.ok hp
      exact ⟨_, hx.of_turns_one⟩
  | .error (.err e) => exact ⟨_, (hm.bad hp h).of_turns_one⟩
  | .error .panic => exact h.elim
  | .error .ub => exact h.elim

/-- One call reads in bounds and leaves a position within the buffer. -/
theorem unwire_inBounds {c : CoreCall} {r : UnsafeReader} (hr : r.Valid)
    (h : c.LetRun r → c.FitsHere r) :
    Act.InBounds c.unwire r ∧ (c.unwire r).2.Valid := by
  by_cases hrun : c.LetRun r
  · obtain ⟨m, hx⟩ := reads_of_fitsHere (h hrun)
    obtain ⟨hub, hvalid, -⟩ := hx r hr rfl
    rw [Act.InBounds, unwire_letRun hrun]
    exact ⟨hub, hvalid⟩
  · obtain ⟨e, he, hstop⟩ := unwire_not_letRun hrun
    rw [Act.InBounds, hstop]
    exact ⟨fun h => he (Except.error.inj h), hr⟩

/-- At the start of the buffer the pre-pass measures the right value. -/
theorem fitsHere_of_start {c : CoreCall} {r : UnsafeReader} (h0 : r.position = 0)
    (h : c.LetRun r) : c.FitsHere r := by
  obtain ⟨len, s, hlen, -⟩ := h
  have hrest : r.rest = r.slice := by rw [UnsafeReader.rest, h0, List.drop_zero]
  rw [FitsHere, hrest, hlen]
  trivial

theorem states_inBounds {calls : List CoreCall} {r : UnsafeReader} (hr : r.Valid)
    (h : ∀ p ∈ states calls r, p.1.LetRun p.2 → p.1.FitsHere p.2) :
    ∀ p ∈ states calls r, Act.InBounds p.1.unwire p.2 := by
  induction calls generalizing r with
  | nil => exact nofun
  | cons c calls ih =>
      simp only [states, List.mem_cons, forall_eq_or_imp] at h ⊢
      obtain ⟨hub, hvalid⟩ := unwire_inBounds hr h.1
      exact ⟨hub, ih hvalid h.2⟩

end CoreCall

/-- **Where each value fits, every read is in bounds.** In every run of calls
on a buffer in which no call is let run on a value that runs into the end of the
buffer, no call reads past it. -/
theorem unwire_inBounds_of_fitsHere (buffer : Bytes) (calls : List CoreCall)
    (h : ∀ p ∈ CoreCall.states calls (.new buffer), p.1.LetRun p.2 →
      p.1.FitsHere p.2) :
    ∀ p ∈ CoreCall.states calls (.new buffer), Act.InBounds p.1.unwire p.2 :=
  CoreCall.states_inBounds (Nat.zero_le _) h

/-- The second of two calls, on a buffer of three bytes. -/
theorem unwire_inBounds_u8_u16 :
    Act.InBounds (CoreCall.unwire ⟨_, .prim .u16, nofun, nofun⟩)
      { UnsafeReader.new [1, 2, 3] with position := 1 } :=
  unwire_inBounds_of_fitsHere [1, 2, 3]
    [⟨_, .prim .u8, nofun, nofun⟩, ⟨_, .prim .u16, nofun, nofun⟩]
    (by
      simp only [CoreCall.states, List.mem_cons, forall_eq_or_imp,
        List.not_mem_nil, false_imp_iff, implies_true, and_true]
      exact ⟨fun _ => trivial, fun _ => trivial⟩)
    ⟨_, _⟩ (List.mem_cons_of_mem _ List.mem_cons_self)

/-- An empty string, then a string announced with one byte at the end of the
buffer: the pre-pass of the second call measures the first string again. -/
theorem unwire_string_string_not_inBounds :
    letI : RustType RString := ⟨24, "alloc::string::String"⟩
    ¬ ∀ p ∈ CoreCall.states [⟨_, .string, trivial⟩, ⟨_, .string, trivial⟩]
      (.new [0, 0, 0, 0, 0, 0, 0, 0, 0, 0, 0, 0, 0, 0, 0, 1]),
      Act.InBounds p.1.unwire p.2 := by
  intro h
  simp only [CoreCall.states, List.mem_cons, forall_eq_or_imp] at h
  exact h.2.1 rfl

end WiringRs
