import WiringRs.BufUnWire
import WiringRs.Lib.Gauge

/-!
# What the pre-pass measures

`bytes_length` looks at a value's lengths, variants and tags and passes over the
rest. `UTy.shape` is the language of the byte strings it takes for one value,
`UTy.Spills` says that on the way to the end of `n` values a number passes
`u64`: a count multiplied by a size, or an announced length added to the total.

`UTy.gauges` is the whole behaviour of the pre-pass on a slice, for every type:
it panics where it spills, and otherwise returns the length of the `n` words it
has taken. A word spills nothing by itself if the elements of its arrays take bytes
(`UTy.not_spills`).
-/

namespace WiringRs

/-! ## Shapes -/

/-- Any `n` bytes. -/
def stretch (n : Nat) : Language UInt8 := {l | l.length = n}

/-- An integer, then a word of the language it selects. -/
def headed {t : PrimTy} (L : Prim t → Language UInt8) : Language UInt8 :=
  {l | ∃ v b, l = v.toBeBytes ++ b ∧ b ∈ L v}

theorem mem_stretch {n : Nat} {l : Bytes} : l ∈ stretch n ↔ l.length = n := Iff.rfl

theorem stretch_pow (n size : Nat) : stretch size ^ n = stretch (size * n) := by
  induction n with
  | zero =>
      refine Language.ext fun l => ?_
      rw [pow_zero, Nat.mul_zero, Language.mem_one, mem_stretch, List.length_eq_zero_iff]
  | succ n ih =>
      refine Language.ext fun l => ?_
      rw [pow_succ', ih, Language.mem_mul, mem_stretch, Nat.mul_succ]
      constructor
      · rintro ⟨a, ha, b, hb, rfl⟩
        rw [List.length_append, mem_stretch.mp ha, mem_stretch.mp hb, Nat.add_comm]
      · intro hl
        refine ⟨l.take size, ?_, l.drop size, ?_, List.take_append_drop ..⟩
        · rw [mem_stretch, List.length_take]
          omega
        · rw [mem_stretch, List.length_drop]
          omega

/-- The byte strings the pre-pass takes for one value. -/
def UTy.shape : {α : Type} → {r : RustType α} → {u : Unwiring α} → @UTy α r u →
    Language UInt8
  | _, _, _, UTy.prim t => stretch t.size
  | _, _, _, UTy.unit | _, _, _, UTy.bool | _, _, _, UTy.unitStruct => stretch 1
  | _, _, _, UTy.string => headed fun len : U64 => stretch len.toNat
  | _, _, _, UTy.array T N => T.shape ^ N
  | _, _, _, @UTy.vec α _ _ T _ => headed fun count : U64 =>
      if Unwiring.mixed α then T.shape ^ count.toNat
      else stretch (Unwiring.fixedSize α * count.toNat)
  | _, _, _, UTy.option T => headed fun variant : U8 =>
      if variant.toNat = 1 then T.shape else 1
  | _, _, _, UTy.pair T TT => T.shape * TT.shape
  | _, _, _, UTy.triple T TT T3 => T.shape * (TT.shape * T3.shape)
  | _, _, _, UTy.struct _ T => ((List.finRange _).map fun i => (T i).shape).prod
  | _, _, _, UTy.enum d T => headed fun taged : Prim d.tag =>
      if h : taged.toNat < d.variants then
        ((List.finRange _).map fun i => (T ⟨_, h⟩ i).shape).prod
      else 0
  -- these do not look at the bytes
  | _, _, _, @UTy.url U _ _ => stretch (memSize (Url U))
  | _, _, _, @UTy.arc α _ _ _ _ => stretch (memSize (Arc α))
  | _, _, _, @UTy.box α _ _ _ _ => stretch (memSize (Box α))
  | _, _, _, @UTy.hashSet α _ _ _ _ _ => stretch (memSize (HashSet α))
  | _, _, _, @UTy.hashMap α β _ _ _ _ _ _ _ _ _ => stretch (memSize (HashMap α β))
  | _, _, _, @UTy.btreeMap α β _ _ _ _ _ _ _ _ => stretch (memSize (BTreeMap α β))
  | _, _, _, @UTy.btreeSet α _ _ _ _ _ => stretch (memSize (BTreeSet α))
  -- the shape of an element, not of a slice
  | _, _, _, UTy.boxSlice T => T.shape

/-! ## Numbers that pass `u64` -/

/-- After an integer. -/
def SpillsAfter {t : PrimTy} (E : Prim t → Bytes → Prop) (s : Bytes) : Prop :=
  ∃ v r, s = v.toBeBytes ++ r ∧ E v r

/-- Measuring a word, or adding its length to the total. -/
def SpillsAdd (L : Language UInt8) (E : Bytes → Prop) (total : Nat) (s : Bytes) : Prop :=
  E s ∨ ∃ l ∈ L, ∃ r, s = l ++ r ∧ 2 ^ 64 ≤ total + l.length

/-- Charging `k` bytes for each of `n` values, or measuring one of them. -/
def SpillsCharged (k : Nat) (L : Language UInt8) (E : Nat → Bytes → Prop) (n : Nat)
    (s : Bytes) : Prop :=
  2 ^ 64 ≤ k * n ∨ SpillsTimes k L E n (k * n) s

/-- One of the fields, each added to the total. -/
def SpillsFields {n : Nat} (L : Fin n → Language UInt8) (E : Fin n → Bytes → Prop) :
    List (Fin n) → Nat → Bytes → Prop
  | [] => fun _ _ => False
  | f :: fs => SpillsThen 0 (L f) (SpillsAdd (L f) (E f)) (SpillsFields L E fs)

/-- A number that the pre-pass of `n` values computes passes `u64`. -/
def UTy.Spills : {α : Type} → {r : RustType α} → {u : Unwiring α} → @UTy α r u →
    Nat → Bytes → Prop
  | _, _, _, UTy.prim t, n => fun _ => 2 ^ 64 ≤ t.size * n
  | _, _, _, UTy.bool, n => fun _ => 2 ^ 64 ≤ 1 * n
  | _, _, _, UTy.unit, _ | _, _, _, UTy.unitStruct, _ => fun _ => False
  | _, _, _, UTy.string, n => SpillsCharged 8 UTy.string.shape
      (fun total => SpillsAfter fun (len : U64) _ => 2 ^ 64 ≤ total + len.toNat) n
  | _, _, _, UTy.array T N, n => fun s => 2 ^ 64 ≤ N * n ∨ T.Spills (N * n) s
  | _, _, _, @UTy.vec α _ _ T _, n => SpillsCharged 8 (UTy.vec T).shape
      (fun total => SpillsAfter fun (count : U64) s =>
        if Unwiring.mixed α then
          SpillsAdd (T.shape ^ count.toNat) (T.Spills count.toNat) total s
        else 2 ^ 64 ≤ Unwiring.fixedSize α * count.toNat ∨
          2 ^ 64 ≤ total + Unwiring.fixedSize α * count.toNat) n
  | _, _, _, UTy.option T, n => SpillsTimes 1 (UTy.option T).shape
      (fun total => SpillsAfter fun (variant : U8) s =>
        variant.toNat = 1 ∧ SpillsAdd T.shape (T.Spills 1) total s) n (1 * n)
  | _, _, _, UTy.pair T TT, n => SpillsTimes 0 (T.shape * TT.shape)
      (SpillsThen 0 T.shape (SpillsAdd T.shape (T.Spills 1))
        (SpillsAdd TT.shape (TT.Spills 1))) n 0
  | _, _, _, UTy.triple T TT T3, n => SpillsTimes 0 (T.shape * (TT.shape * T3.shape))
      (SpillsThen 0 T.shape (SpillsAdd T.shape (T.Spills 1))
        (SpillsThen 0 TT.shape (SpillsAdd TT.shape (TT.Spills 1))
          (SpillsAdd T3.shape (T3.Spills 1)))) n 0
  | _, _, _, UTy.struct d T, n => SpillsTimes 0 (UTy.struct d T).shape
      (SpillsFields (fun i => (T i).shape) (fun i => (T i).Spills 1) (List.finRange _)) n 0
  | _, _, _, UTy.enum d T, n => SpillsCharged d.tag.size (UTy.enum d T).shape
      (fun total => SpillsAfter fun (taged : Prim d.tag) s =>
        ∃ h : taged.toNat < d.variants,
          SpillsFields (fun i => (T ⟨_, h⟩ i).shape) (fun i => (T ⟨_, h⟩ i).Spills 1)
            (List.finRange _) total s) n
  | _, _, _, @UTy.url U _ _, n => fun _ => 2 ^ 64 ≤ memSize (Url U) * n
  | _, _, _, @UTy.arc α _ _ _ _, n => fun _ => 2 ^ 64 ≤ memSize (Arc α) * n
  | _, _, _, @UTy.box α _ _ _ _, n => fun _ => 2 ^ 64 ≤ memSize (Box α) * n
  | _, _, _, @UTy.hashSet α _ _ _ _ _, n => fun _ => 2 ^ 64 ≤ memSize (HashSet α) * n
  | _, _, _, @UTy.hashMap α β _ _ _ _ _ _ _ _ _, n => fun _ =>
      2 ^ 64 ≤ memSize (HashMap α β) * n
  | _, _, _, @UTy.btreeMap α β _ _ _ _ _ _ _ _, n => fun _ =>
      2 ^ 64 ≤ memSize (BTreeMap α β) * n
  | _, _, _, @UTy.btreeSet α _ _ _ _ _, n => fun _ => 2 ^ 64 ≤ memSize (BTreeSet α) * n
  | _, _, _, UTy.boxSlice T, n => T.Spills n

/-! ## The calls of the pre-pass -/

theorem ReadsPrim.ok_iff {t : PrimTy} {x : IoM Bytes (Prim t)} (hx : ReadsPrim x)
    {s r : Bytes} {v : Prim t} : x s = (.ok v, r) ↔ s = v.toBeBytes ++ r := by
  rw [hx]
  constructor
  · rintro ⟨hle, rfl, rfl⟩
    rw [Prim.toBeBytes_fromBeBytes (by rw [List.length_take, Nat.min_eq_left hle]),
      List.take_append_drop]
  · rintro rfl
    have hlen := v.length_toBeBytes
    refine ⟨?_, ?_, (List.drop_left' hlen).symm⟩
    · rw [List.length_append, hlen]
      exact Nat.le_add_right _ _
    · rw [List.take_left' hlen, Prim.fromBeBytes_toBeBytes]

theorem advance_ok_iff {len : Nat} {s r : Bytes} :
    (Unwire.advancePosition len : IoM Bytes Unit) s = (.ok (), r) ↔
      ∃ l, s = l ++ r ∧ l.length = len := by
  have hadv : (Unwire.advancePosition len : IoM Bytes Unit) = (do
      let _ ← splitSlice len ⟨.unexpectedEof, "failed to advance the position"⟩
      pure ()) := rfl
  rw [hadv, Act.bind_eq_ok]
  constructor
  · rintro ⟨a, s', ha, hp⟩
    obtain ⟨hle, rfl, rfl⟩ := splitSlice_eq_ok.mp ha
    cases hp
    exact ⟨s.take len, (List.take_append_drop ..).symm,
      by rw [List.length_take, Nat.min_eq_left hle]⟩
  · rintro ⟨l, rfl, rfl⟩
    refine ⟨l, r, splitSlice_eq_ok.mpr ⟨?_, ?_, ?_⟩, rfl⟩
    · rw [List.length_append]
      exact Nat.le_add_right _ _
    · rw [List.take_left]
    · rw [List.drop_left]

theorem advance_error {len : Nat} {s r : Bytes} {e : Stop IoError}
    (h : (Unwire.advancePosition len : IoM Bytes Unit) s = (.error e, r)) :
    e ≠ .panic := by
  rcases Act.bind_eq_error.mp h with ha | ⟨_, _, -, hp⟩
  · rw [splitSlice_error ha]
    rintro ⟨⟩
  · cases hp

namespace Gauges

variable {k : Nat} {x : IoM Bytes Nat} {L : Language UInt8} {E : Bytes → Prop}

theorem advanceBy (len : Nat) :
    Gauges (WiringRs.advanceBy len : IoM Bytes Nat) (stretch len) fun _ => False where
  ok_iff {s t r} := by
    unfold WiringRs.advanceBy
    rw [Act.bind_eq_ok]
    simp only [Act.pure_apply, Prod.mk.injEq, Except.ok.injEq, not_false_iff, true_and,
      mem_stretch]
    constructor
    · rintro ⟨_, s', hadv, rfl, rfl⟩
      obtain ⟨l, rfl, rfl⟩ := advance_ok_iff.mp hadv
      exact ⟨l, rfl, rfl, rfl⟩
    · rintro ⟨l, rfl, rfl, rfl⟩
      exact ⟨(), r, advance_ok_iff.mpr ⟨l, rfl, rfl⟩, rfl, rfl⟩
  panic_iff {s} := by
    refine iff_of_false (fun hpanic => ?_) id
    rcases hx : (WiringRs.advanceBy len : IoM Bytes Nat) s with ⟨o, r⟩
    rw [hx] at hpanic
    cases hpanic
    rcases Act.bind_eq_error.mp hx with hadv | ⟨_, _, -, hp⟩
    · exact advance_error hadv rfl
    · cases hp
  mono _ := id

/-- The call may panic first. -/
theorem guard {p : Prop} [Decidable p] (h : Gauges x L E) :
    Gauges (if p then x else Act.panic) L fun s => ¬ p ∨ E s := by
  by_cases hp : p
  · simp only [hp, if_true, not_true_eq_false, false_or]
    exact h
  · simp only [hp, if_false, not_false_iff, true_or]
    exact ⟨by simp, by simp, fun _ => id⟩

theorem mulU64 {a b : Nat} {f : Nat → IoM Bytes Nat} (h : Gauges (f (a * b)) L E) :
    Gauges (WiringRs.mulU64 a b >>= f) L fun s => 2 ^ 64 ≤ a * b ∨ E s := by
  have heq : (WiringRs.mulU64 a b >>= f) =
      if a * b < 2 ^ 64 then f (a * b) else Act.panic := by
    unfold WiringRs.mulU64
    split <;> rfl
  rw [heq]
  exact h.guard.congr (fun _ => Iff.rfl) fun s => by rw [Nat.not_lt]

/-- A type that does not look at its bytes: `count` times its size. -/
theorem memSize (size count : Nat) :
    Gauges (WiringRs.mulU64 size count >>= WiringRs.advanceBy) (stretch size ^ count)
      fun _ => 2 ^ 64 ≤ size * count := by
  rw [stretch_pow]
  exact (mulU64 (advanceBy _)).congr (fun _ => Iff.rfl) fun _ => by rw [or_false]

end Gauges

namespace Counts

variable {k : Nat} {f : Nat → IoM Bytes Nat} {L : Language UInt8}
  {E : Nat → Bytes → Prop}

theorem guard {p : Nat → Prop} [DecidablePred p] (h : Counts k f L E) :
    Counts k (fun total => if p total then f total else Act.panic) L
      fun total s => ¬ p total ∨ E total s where
  le := h.le
  ok_iff {total s t r} := by
    by_cases hp : p total
    · simp only [hp, if_true, not_true_eq_false, false_or]
      exact h.ok_iff
    · simp [hp]
  panic_iff {total s} := by
    by_cases hp : p total
    · simp only [hp, if_true, not_true_eq_false, false_or]
      exact h.panic_iff
    · simp [hp]
  mono r := Or.imp_right (h.mono r)

/-- What is measured is added to the total. -/
theorem add {x : IoM Bytes Nat} {E : Bytes → Prop} (h : Gauges x L E) :
    Counts 0 (fun total => do
      let len ← x
      addU64 total len) L (SpillsAdd L E) where
  le _ _ := Nat.zero_le _
  ok_iff {total s t r} := by
    rw [Act.bind_eq_ok]
    constructor
    · rintro ⟨len, s1, hlen, hadd⟩
      obtain ⟨hE, l, hl, rfl, rfl⟩ := h.ok_iff.mp hlen
      unfold addU64 at hadd
      split at hadd
      · rename_i hlt
        cases hadd
        refine ⟨?_, l, hl, rfl, rfl⟩
        rintro (hpanic | ⟨l', hl', r', hs, hge⟩)
        · exact hE hpanic
        · obtain ⟨hlen', -⟩ := h.ok_unique hlen hl' hs
          omega
      · cases hadd
    · rintro ⟨hE, l, hl, rfl, ht⟩
      obtain ⟨hE1, hlt⟩ := not_or.mp hE
      refine ⟨l.length, r, h.ok hE1 hl, ?_⟩
      unfold addU64
      rw [if_pos (Nat.not_le.mp fun hge => hlt ⟨l, hl, r, rfl, hge⟩)]
      rw [← ht]
      rfl
  panic_iff {total s} := by
    rcases hx : x s with ⟨e | len, s1⟩
    · rw [Act.bind_error hx]
      constructor
      · intro he
        exact Or.inl (h.panic_iff.mp (by rw [hx]; exact he))
      · rintro (hpanic | ⟨l, hl, r, rfl, -⟩)
        · rw [← h.panic_iff, hx] at hpanic
          exact hpanic
        · by_contra hne
          cases hx.symm.trans (h.ok (fun hpanic => hne (by
            rw [← h.panic_iff, hx] at hpanic
            exact hpanic)) hl)
    · rw [Act.bind_ok hx]
      obtain ⟨hE, l, hl, rfl, rfl⟩ := h.ok_iff.mp hx
      unfold addU64
      split
      · rename_i hlt
        refine iff_of_false (by simp) ?_
        rintro (hpanic | ⟨l', hl', r', hs, hge⟩)
        · exact hE hpanic
        · obtain ⟨hlen', -⟩ := h.ok_unique hx hl' hs
          omega
      · rename_i hge
        exact iff_of_true rfl (Or.inr ⟨l, hl, s1, rfl, Nat.not_lt.mp hge⟩)
  mono {total s} r := by
    rintro (hpanic | ⟨l, hl, r', rfl, hge⟩)
    · exact Or.inl (h.mono r hpanic)
    · exact Or.inr ⟨l, hl, r' ++ r, List.append_assoc .., hge⟩

/-- An announced length is added to the total, then passed over. -/
theorem announced (len : Nat) :
    Counts 0 (fun total => do
      let total ← addU64 total len
      Unwire.advancePosition len
      Pure.pure total : Nat → IoM Bytes Nat) (stretch len) fun total _ => 2 ^ 64 ≤ total + len where
  le _ _ := Nat.zero_le _
  ok_iff {total s t r} := by
    unfold addU64
    by_cases hlt : total + len < 2 ^ 64
    · rw [if_pos hlt, pure_bind, Act.bind_eq_ok]
      simp only [Nat.not_le.mpr hlt, not_false_iff, true_and, mem_stretch]
      constructor
      · rintro ⟨_, s', hadv, hp⟩
        obtain ⟨l, rfl, rfl⟩ := advance_ok_iff.mp hadv
        cases hp
        exact ⟨l, rfl, rfl, rfl⟩
      · rintro ⟨l, rfl, rfl, ht⟩
        refine ⟨(), r, advance_ok_iff.mpr ⟨l, rfl, rfl⟩, ?_⟩
        rw [← ht]
        rfl
    · rw [if_neg hlt]
      refine iff_of_false ?_ fun h => h.1 (Nat.not_lt.mp hlt)
      rintro ⟨⟩
  panic_iff {total s} := by
    unfold addU64
    by_cases hlt : total + len < 2 ^ 64
    · rw [if_pos hlt, pure_bind]
      refine iff_of_false (fun hpanic => ?_) (Nat.not_le.mpr hlt)
      rcases hx : (Unwire.advancePosition len : IoM Bytes Unit) s with ⟨e | _, s'⟩
      · rw [Act.bind_error hx] at hpanic
        cases hpanic
        exact advance_error hx rfl
      · rw [Act.bind_ok hx] at hpanic
        cases hpanic
    · rw [if_neg hlt]
      exact iff_of_true rfl (Nat.not_lt.mp hlt)
  mono _ := id

theorem mulU64 {a b : Nat} {f : Nat → Nat → IoM Bytes Nat}
    (h : Counts k (f (a * b)) L E) :
    Counts k (fun total => WiringRs.mulU64 a b >>= fun len => f len total) L
      fun total s => 2 ^ 64 ≤ a * b ∨ E total s := by
  have heq total : (WiringRs.mulU64 a b >>= fun len => f len total) =
      if a * b < 2 ^ 64 then f (a * b) total else Act.panic := by
    unfold WiringRs.mulU64
    split <;> rfl
  simp only [heq]
  exact h.guard.congr (fun _ => Iff.rfl) fun _ _ => by rw [Nat.not_lt]

/-- An integer is read to know what to measure. -/
theorem read {t : PrimTy} {f : Prim t → Nat → IoM Bytes Nat}
    {L : Prim t → Language UInt8} {E : Prim t → Nat → Bytes → Prop}
    (h : ∀ v, Counts k (f v) (L v) (E v)) :
    Counts (t.size + k) (fun total => syncUnwiring >>= fun v => f v total) (headed L)
      fun total => SpillsAfter fun v => E v total where
  le l hl := by
    obtain ⟨v, b, rfl, hb⟩ := hl
    rw [List.length_append, v.length_toBeBytes]
    exact Nat.add_le_add_left ((h v).le b hb) _
  ok_iff {total s t' r} := by
    rw [Act.bind_eq_ok]
    constructor
    · rintro ⟨v, s1, hv, hf⟩
      obtain ⟨hE, b, hb, rfl, ht⟩ := (h v).ok_iff.mp hf
      have hs := (ReadsPrim.syncUnwiring t).ok_iff.mp hv
      refine ⟨?_, v.toBeBytes ++ b, ⟨v, b, rfl, hb⟩, by rw [hs, List.append_assoc], ?_⟩
      · rintro ⟨w, r', hs', hpanic⟩
        have hw := (ReadsPrim.syncUnwiring t).ok_iff.mpr hs'
        cases hv.symm.trans hw
        exact hE hpanic
      · rw [List.length_append, v.length_toBeBytes]
        omega
    · rintro ⟨hE, l, ⟨v, b, rfl, hb⟩, rfl, ht⟩
      rw [List.append_assoc] at hE ⊢
      rw [List.length_append, v.length_toBeBytes] at ht
      refine ⟨v, b ++ r, (ReadsPrim.syncUnwiring t).ok_iff.mpr rfl,
        (h v).ok_iff.mpr ⟨fun hpanic => hE ⟨v, _, rfl, hpanic⟩, b, hb, rfl, by omega⟩⟩
  panic_iff {total s} := by
    rcases hx : (syncUnwiring : IoM Bytes (Prim t)) s with ⟨e | v, s1⟩
    · rw [Act.bind_error hx, syncUnwiring_prim_error hx]
      refine iff_of_false (by simp) ?_
      rintro ⟨v, r, hs, -⟩
      cases hx.symm.trans ((ReadsPrim.syncUnwiring t).ok_iff.mpr hs)
    · rw [Act.bind_ok hx, (h v).panic_iff]
      constructor
      · exact fun hpanic => ⟨v, s1, (ReadsPrim.syncUnwiring t).ok_iff.mp hx, hpanic⟩
      · rintro ⟨w, r, hs, hpanic⟩
        cases hx.symm.trans ((ReadsPrim.syncUnwiring t).ok_iff.mpr hs)
        exact hpanic
  mono {total s} r := by
    rintro ⟨v, r', rfl, hpanic⟩
    exact ⟨v, r' ++ r, List.append_assoc .., (h v).mono r hpanic⟩

/-- A call that fails takes no word. -/
theorem fail (e : IoError) :
    Counts 0 (fun _ => Act.fail e : Nat → IoM Bytes Nat) 0 fun _ _ => False where
  le _ _ := Nat.zero_le _
  ok_iff := by simp [Language.notMem_zero]
  panic_iff := by simp
  mono _ := id

/-- The loop over `n` values of which `k` bytes each are charged for first. -/
theorem charged (h : Counts k f L E) (n : Nat) :
    Gauges (WiringRs.mulU64 k n >>= Act.iter n f) (L ^ n) (SpillsCharged k L E n) := by
  have hiter := h.iter n
  rw [Nat.mul_comm] at hiter
  exact .mulU64 hiter.start

/-- The loop over `n` values whose lengths are only added up. -/
theorem added (h : Counts 0 f L E) (n : Nat) :
    Gauges (Act.iter n f 0) (L ^ n) (SpillsTimes 0 L E n 0) :=
  (h.iter n).start

/-- The fields of a struct or a variant. -/
theorem fields {n : Nat} {ty : Fin n → Type} [∀ i, RustType (ty i)]
    [∀ i, Unwiring (ty i)] {L : Fin n → Language UInt8} {E : Fin n → Bytes → Prop}
    (h : ∀ i, Gauges (bytesLength (ty i) 1) (L i) (E i)) (fs : List (Fin n)) :
    Counts 0 (fieldsLength ty fs) (fs.map L).prod (SpillsFields L E fs) := by
  induction fs with
  | nil => exact pure
  | cons f fs ih =>
      have hbind := (add (h f)).bind ih
      simp only [bind_assoc] at hbind
      exact hbind

end Counts

/-! ## All types -/

/-- **The pre-pass on a slice.** -/
theorem UTy.gauges : {α : Type} → {r : RustType α} → {u : Unwiring α} →
    (T : @UTy α r u) → (n : Nat) →
    Gauges (bytesLength α n : IoM Bytes Nat) (T.shape ^ n) (T.Spills n)
  | _, _, _, UTy.prim t, n => by
      have h := Gauges.memSize t.size n
      cases t <;> exact h
  | _, _, _, UTy.unit, n => by
      rw [shape, stretch_pow]
      exact .advanceBy _
  | _, _, _, UTy.bool, n => .memSize 1 n
  | _, _, _, UTy.string, n => (Counts.read (t := .u64) fun len => .announced len.toNat).charged n
  | _, _, _, UTy.array T N, n => by
      rw [shape, ← pow_mul]
      exact .mulU64 (T.gauges (N * n))
  | _, _, _, @UTy.vec α _ _ T _, n => by
      refine (Counts.read (t := .u64) (k := 0) fun count => ?_).charged n
      cases Unwiring.mixed α with
      | true => exact .add (T.gauges count.toNat)
      | false => exact .mulU64 (.announced _)
  | _, _, _, UTy.option T, n => by
      have h := T.gauges 1
      rw [pow_one] at h
      have hread := Counts.read (t := .u8) (k := 0)
        (f := fun variant total => if variant.toNat = 1 then do
          let len ← bytesLength _ 1
          addU64 total len
          else pure total)
        (L := fun variant => if variant.toNat = 1 then T.shape else 1)
        (E := fun variant total s =>
          variant.toNat = 1 ∧ SpillsAdd T.shape (T.Spills 1) total s)
        fun variant => by
          by_cases h1 : variant.toNat = 1
          · simp only [h1, if_true, true_and]
            exact .add h
          · simp only [h1, if_false, false_and]
            exact .pure
      have hstart := (hread.iter n).start
      rw [Nat.mul_comm] at hstart
      exact hstart
  | _, _, _, UTy.pair T TT, n => by
      have h := T.gauges 1
      have h' := TT.gauges 1
      rw [pow_one] at h h'
      have hbind := ((Counts.add h).bind (.add h')).added n
      simp only [bind_assoc] at hbind
      exact hbind
  | _, _, _, UTy.triple T TT T3, n => by
      have h := T.gauges 1
      have h' := TT.gauges 1
      have h'' := T3.gauges 1
      rw [pow_one] at h h' h''
      have hbind := ((Counts.add h).bind ((Counts.add h').bind (.add h''))).added n
      simp only [bind_assoc] at hbind
      exact hbind
  | _, _, _, UTy.struct _ T, n => by
      have h i := (T i).gauges 1
      simp only [pow_one] at h
      exact (Counts.fields h (List.finRange _)).added n
  | _, _, _, UTy.unitStruct, n => by
      rw [shape, stretch_pow]
      exact .advanceBy _
  | _, _, _, @UTy.enum d ty _ _ T _, n => by
      refine (Counts.read (t := d.tag) (k := 0) fun taged => ?_).charged n
      unfold EnumDecl.matchTag
      by_cases hlt : taged.toNat < d.variants
      · simp only [hlt, dif_pos, exists_true_left]
        have h i := (T ⟨_, hlt⟩ i).gauges 1
        simp only [pow_one] at h
        exact .fields h (List.finRange _)
      · simp only [hlt, dif_neg, not_false_iff, IsEmpty.exists_iff]
        exact .fail _
  | _, _, _, @UTy.url U _ _, n => .memSize (memSize (Url U)) n
  | _, _, _, @UTy.arc α _ _ _ _, n => .memSize (memSize (Arc α)) n
  | _, _, _, @UTy.box α _ _ _ _, n => .memSize (memSize (Box α)) n
  | _, _, _, @UTy.hashSet α _ _ _ _ _, n => .memSize (memSize (HashSet α)) n
  | _, _, _, @UTy.hashMap α β _ _ _ _ _ _ _ _ _, n => .memSize (memSize (HashMap α β)) n
  | _, _, _, @UTy.btreeMap α β _ _ _ _ _ _ _ _, n => .memSize (memSize (BTreeMap α β)) n
  | _, _, _, @UTy.btreeSet α _ _ _ _ _, n => .memSize (memSize (BTreeSet α)) n
  | _, _, _, UTy.boxSlice T, n => T.gauges n

/-! ## Words that spill nothing -/

theorem PrefixFree.stretch (n : Nat) : PrefixFree (stretch n) where
  inj hl hl' h := List.append_inj h (hl.trans hl'.symm)

theorem PrefixFree.headed {t : PrimTy} {L : Prim t → Language UInt8}
    (h : ∀ v, PrefixFree (L v)) : PrefixFree (WiringRs.headed L) where
  inj hl hl' heq := by
    obtain ⟨v, b, rfl, hb⟩ := hl
    obtain ⟨w, c, rfl, hc⟩ := hl'
    rw [List.append_assoc, List.append_assoc] at heq
    obtain ⟨hvw, hrest⟩ := Prim.append_inj heq
    subst hvw
    obtain ⟨rfl, hr⟩ := (h v).inj hb hc hrest
    exact ⟨rfl, hr⟩

/-- **Two values side by side are told apart by their lengths, variants and tags.** -/
theorem UTy.prefixFree : {α : Type} → {r : RustType α} → {u : Unwiring α} →
    (T : @UTy α r u) → PrefixFree T.shape
  | _, _, _, UTy.prim _ | _, _, _, UTy.unit | _, _, _, UTy.bool | _, _, _, UTy.unitStruct
  | _, _, _, UTy.url _ | _, _, _, UTy.arc _ | _, _, _, UTy.box _ | _, _, _, UTy.hashSet _
  | _, _, _, UTy.hashMap _ _ | _, _, _, UTy.btreeMap _ _ | _, _, _, UTy.btreeSet _ =>
      .stretch _
  | _, _, _, UTy.string => .headed fun _ => .stretch _
  | _, _, _, UTy.array T N => T.prefixFree.pow N
  | _, _, _, @UTy.vec α _ _ T _ => .headed fun count => by
      cases Unwiring.mixed α with
      | true => exact T.prefixFree.pow _
      | false => exact .stretch _
  | _, _, _, UTy.option T => .headed fun variant => by
      split
      · exact T.prefixFree
      · exact .one
  | _, _, _, UTy.pair T TT => T.prefixFree.mul TT.prefixFree
  | _, _, _, UTy.triple T TT T3 => T.prefixFree.mul (TT.prefixFree.mul T3.prefixFree)
  | _, _, _, UTy.struct _ T => .prod (fun i => (T i).prefixFree) _
  | _, _, _, UTy.enum _ T => .headed fun taged => by
      split
      · exact .prod (fun i => (T _ i).prefixFree) _
      · exact .zero
  | _, _, _, UTy.boxSlice T => T.prefixFree

namespace Bounded

variable {k : Nat} {L : Language UInt8} {E : Nat → Bytes → Prop}

theorem announced (len : Nat) :
    Bounded (2 ^ 64) 0 (stretch len) fun total _ => 2 ^ 64 ≤ total + len where
  le _ _ := Nat.zero_le _
  prefixFree := .stretch len
  not_panics _ hl hlt := by
    rw [mem_stretch.mp hl] at hlt
    exact Nat.not_le.mpr hlt

/-- The announced length is a product. -/
theorem product (len : Nat) : Bounded (2 ^ 64) 0 (stretch len)
    fun total _ => 2 ^ 64 ≤ len ∨ 2 ^ 64 ≤ total + len where
  le _ _ := Nat.zero_le _
  prefixFree := .stretch len
  not_panics _ hl hlt := by
    rw [mem_stretch.mp hl] at hlt
    rintro (hge | hge) <;> omega

theorem read {B : Nat} {t : PrimTy} {L : Prim t → Language UInt8}
    {E : Prim t → Nat → Bytes → Prop} (h : ∀ v, Bounded B k (L v) (E v)) :
    Bounded B (t.size + k) (headed L) fun total => SpillsAfter fun v => E v total where
  le l hl := by
    obtain ⟨v, b, rfl, hb⟩ := hl
    rw [List.length_append, v.length_toBeBytes]
    exact Nat.add_le_add_left ((h v).le b hb) _
  prefixFree := .headed fun v => (h v).prefixFree
  not_panics r hl hlt := by
    obtain ⟨v, b, rfl, hb⟩ := hl
    rw [List.length_append, v.length_toBeBytes] at hlt
    rintro ⟨w, s, hs, hpanic⟩
    rw [List.append_assoc] at hs
    obtain ⟨rfl, rfl⟩ := Prim.append_inj hs
    exact (h v).not_panics r hb (by omega) hpanic

theorem fail : Bounded (2 ^ 64) 0 (0 : Language UInt8) fun _ _ => False :=
  ⟨fun _ _ => Nat.zero_le _, .zero, fun _ _ _ => id⟩

theorem add {E : Bytes → Prop} (hL : PrefixFree L)
    (h : ∀ l r, l ∈ L → l.length < 2 ^ 64 → ¬ E (l ++ r)) :
    Bounded (2 ^ 64) 0 L (SpillsAdd L E) where
  le _ _ := Nat.zero_le _
  prefixFree := hL
  not_panics {total l} r hl hlt := by
    rintro (hE | ⟨l', hl', r', heq, hge⟩)
    · exact h l r hl (by omega) hE
    · obtain ⟨rfl, -⟩ := hL.inj hl hl' heq
      omega

theorem fields {n : Nat} {L : Fin n → Language UInt8} {E : Fin n → Bytes → Prop}
    (hL : ∀ i, PrefixFree (L i))
    (h : ∀ i l r, l ∈ L i → l.length < 2 ^ 64 → ¬ E i (l ++ r)) (fs : List (Fin n)) :
    Bounded (2 ^ 64) 0 (fs.map L).prod (SpillsFields L E fs) := by
  induction fs with
  | nil => exact pure
  | cons f fs ih => exact (add (hL f) (h f)).bind ih

theorem charged (h : Bounded (2 ^ 64) k L E) {n : Nat} {l : Bytes} (r : Bytes)
    (hl : l ∈ L ^ n) (hlt : l.length < 2 ^ 64) : ¬ SpillsCharged k L E n (l ++ r) := by
  have hiter := h.iter n
  have hle := hiter.le l hl
  rw [Nat.mul_comm] at hiter hle
  rintro (hge | hpanic)
  · omega
  · exact hiter.not_panics r hl (by omega) hpanic

theorem added (h : Bounded (2 ^ 64) 0 L E) {n : Nat} {l : Bytes} (r : Bytes)
    (hl : l ∈ L ^ n) (hlt : l.length < 2 ^ 64) : ¬ SpillsTimes 0 L E n 0 (l ++ r) :=
  (h.iter n).not_panics r hl (by omega)

end Bounded

/-- The elements of every array take bytes. -/
def UTy.Filled : {α : Type} → {r : RustType α} → {u : Unwiring α} → @UTy α r u → Prop
  | _, _, _, UTy.array T _ => [] ∉ T.shape ∧ T.Filled
  | _, _, _, UTy.vec T | _, _, _, UTy.option T | _, _, _, UTy.boxSlice T => T.Filled
  | _, _, _, UTy.pair T TT => T.Filled ∧ TT.Filled
  | _, _, _, UTy.triple T TT T3 => T.Filled ∧ TT.Filled ∧ T3.Filled
  | _, _, _, UTy.struct _ T => ∀ i, (T i).Filled
  | _, _, _, UTy.enum _ T => ∀ v i, (T v i).Filled
  | _, _, _, _ => True

/-- Elements that take bytes are no more than the bytes. -/
theorem le_length_of_mem_pow {L : Language UInt8} (h : [] ∉ L) {n : Nat} {l : Bytes}
    (hl : l ∈ L ^ n) : n ≤ l.length := by
  induction n generalizing l with
  | zero => exact Nat.zero_le _
  | succ n ih =>
      rw [pow_succ'] at hl
      obtain ⟨a, ha, b, hb, rfl⟩ := Language.mem_mul.mp hl
      have hpos : 0 < a.length := List.length_pos_iff.mpr fun hnil => h (hnil ▸ ha)
      have hle := ih hb
      rw [List.length_append]
      omega

theorem not_le_of_mem_stretch {size n : Nat} {l : Bytes} (hl : l ∈ stretch size ^ n)
    (hlt : l.length < 2 ^ 64) : ¬ 2 ^ 64 ≤ size * n := by
  rw [stretch_pow, mem_stretch] at hl
  exact Nat.not_le.mpr (hl ▸ hlt)

/-- **Words of a filled type.** Every number the pre-pass computes is at most the length
of what it passes over. -/
theorem UTy.not_spills : {α : Type} → {r : RustType α} → {u : Unwiring α} →
    (T : @UTy α r u) → T.Filled → (n : Nat) → (l rest : Bytes) → l ∈ T.shape ^ n →
    l.length < 2 ^ 64 → ¬ T.Spills n (l ++ rest)
  | _, _, _, UTy.prim _, _, _, _, _, hl, hlt | _, _, _, UTy.bool, _, _, _, _, hl, hlt
  | _, _, _, UTy.url _, _, _, _, _, hl, hlt | _, _, _, UTy.arc _, _, _, _, _, hl, hlt
  | _, _, _, UTy.box _, _, _, _, _, hl, hlt | _, _, _, UTy.hashSet _, _, _, _, _, hl, hlt
  | _, _, _, UTy.hashMap _ _, _, _, _, _, hl, hlt
  | _, _, _, UTy.btreeMap _ _, _, _, _, _, hl, hlt
  | _, _, _, UTy.btreeSet _, _, _, _, _, hl, hlt => not_le_of_mem_stretch hl hlt
  | _, _, _, UTy.unit, _, _, _, _, _, _ | _, _, _, UTy.unitStruct, _, _, _, _, _, _ => id
  | _, _, _, UTy.string, _, _, _, rest, hl, hlt =>
      (Bounded.read (t := .u64) fun len => .announced len.toNat).charged rest hl hlt
  | _, _, _, UTy.array T N, hfilled, n, l, rest, hl, hlt => by
      rw [shape, ← pow_mul] at hl
      have hle := le_length_of_mem_pow hfilled.1 hl
      rintro (hge | hspills)
      · omega
      · exact T.not_spills hfilled.2 _ l rest hl hlt hspills
  | _, _, _, @UTy.vec α _ _ T _, hfilled, n, l, rest, hl, hlt => by
      refine (Bounded.read (t := .u64) (k := 0) fun count => ?_).charged rest hl hlt
      cases Unwiring.mixed α with
      | true => exact .add (T.prefixFree.pow _) (T.not_spills hfilled _)
      | false => exact .product _
  | _, _, _, UTy.option T, hfilled, n, l, rest, hl, hlt => by
      have h := T.not_spills hfilled 1
      rw [pow_one] at h
      have hread := Bounded.read (t := .u8) (k := 0)
        (L := fun variant => if variant.toNat = 1 then T.shape else 1)
        (E := fun variant total s =>
          variant.toNat = 1 ∧ SpillsAdd T.shape (T.Spills 1) total s)
        fun variant => by
          by_cases h1 : variant.toNat = 1
          · simp only [h1, if_true, true_and]
            exact .add T.prefixFree h
          · simp only [h1, if_false, false_and]
            exact .pure
      have hiter := hread.iter n
      rw [Nat.mul_comm] at hiter
      refine hiter.not_panics rest hl ?_
      rw [Nat.add_comm]
      exact Nat.add_lt_add_right hlt _
  | _, _, _, UTy.pair T TT, hfilled, n, l, rest, hl, hlt => by
      have h := T.not_spills hfilled.1 1
      have h' := TT.not_spills hfilled.2 1
      rw [pow_one] at h h'
      exact ((Bounded.add T.prefixFree h).bind (.add TT.prefixFree h')).added rest hl hlt
  | _, _, _, UTy.triple T TT T3, hfilled, n, l, rest, hl, hlt => by
      have h := T.not_spills hfilled.1 1
      have h' := TT.not_spills hfilled.2.1 1
      have h'' := T3.not_spills hfilled.2.2 1
      rw [pow_one] at h h' h''
      exact ((Bounded.add T.prefixFree h).bind ((Bounded.add TT.prefixFree h').bind
        (.add T3.prefixFree h''))).added rest hl hlt
  | _, _, _, UTy.struct _ T, hfilled, n, l, rest, hl, hlt => by
      have h i := (T i).not_spills (hfilled i) 1
      simp only [pow_one] at h
      exact (Bounded.fields (fun i => (T i).prefixFree) h _).added rest hl hlt
  | _, _, _, UTy.enum d T, hfilled, n, l, rest, hl, hlt => by
      refine (Bounded.read (t := d.tag) (k := 0) fun taged => ?_).charged rest hl hlt
      by_cases hvariant : taged.toNat < d.variants
      · have h i := (T ⟨_, hvariant⟩ i).not_spills (hfilled _ i) 1
        simp only [pow_one] at h
        simp only [hvariant, dif_pos, exists_true_left]
        exact .fields (fun i => (T _ i).prefixFree) h _
      · simp only [hvariant, dif_neg, not_false_iff, IsEmpty.exists_iff]
        exact .fail
  | _, _, _, UTy.boxSlice T, hfilled, n, l, rest, hl, hlt =>
      T.not_spills hfilled n l rest hl hlt

/-! ## Overflow -/

/-- No sum or product that `BufUnWire::unwire` computes before it reads the value
passes `u64`. In the pre-pass an overflow is a panic, and there is no other. -/
structure NoOverflow (α : Type) [RustType α] [Unwiring α] (r : UnsafeReader) : Prop where
  bytesLength : ((bytesLength α 1 : IoM Bytes Nat) r.slice).1 ≠ .error .panic
  stop : ∀ len s, (WiringRs.bytesLength α 1 : IoM Bytes Nat) r.slice = (.ok len, s) →
    r.position + len < 2 ^ 64

/-- Adding the position never overflows, as a buffer fits memory. -/
theorem noOverflow_iff_not_spills {α : Type} [RustType α] [Unwiring α] (T : UTy α)
    (r : UnsafeReader) (hr : r.Valid) (hfits : r.slice.length ≤ isizeMax) :
    NoOverflow α r ↔ ¬ T.Spills 1 r.slice := by
  have h := T.gauges 1
  constructor
  · intro hno hspills
    exact hno.bytesLength (h.panic_iff.mpr hspills)
  · intro hspills
    refine ⟨fun hpanic => hspills (h.panic_iff.mp hpanic), ?_⟩
    intro len s hlen
    obtain ⟨-, l, -, hslice, rfl⟩ := h.ok_iff.mp hlen
    have hle : l.length ≤ r.slice.length := by
      rw [hslice, List.length_append]
      exact Nat.le_add_right _ _
    rw [UnsafeReader.Valid, r.len_eq] at hr
    rw [isizeMax] at hfits
    omega

end WiringRs
