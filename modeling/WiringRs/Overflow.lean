import WiringRs.Lengths

/-!
# Which types overflow

Whether the pre-pass of a type overflows on some buffer can be read off the type.
`UTy.CanOverflow` finds a place where a buffer may announce any number (a `String`, or a
`Vec` of elements with a `FIXED_SIZE`), a loop over any number of elements that are charged
for, or an array that is too long by itself. It asks for buffers only how many bytes stand
in front of that place at least, since a buffer holds `isize::MAX` of them at most.
-/

namespace WiringRs

/-! ## Places in a type -/

/-- A part overflows, or what follows does behind it. -/
def ThenOverflow (L : Language UInt8) (C C' : Nat → Prop) (room : Nat) : Prop :=
  C room ∨ ∃ l ∈ L, l.length ≤ room ∧ C' (room - l.length)

/-- The bytes of a value up to one of its fields, which is included. -/
def fieldsBegun {n : Nat} (L : Fin n → Language UInt8) (fs : List (Fin n)) : Language UInt8 :=
  {l | ∃ before f after, fs = before ++ f :: after ∧ l ∈ (before.map L).prod * L f}

/-- One of the fields overflows, behind the others before it. -/
def FieldsOverflow {n : Nat} (L : Fin n → Language UInt8) (C : Fin n → Nat → Prop)
    (fs : List (Fin n)) (room : Nat) : Prop :=
  ∃ before f after, fs = before ++ f :: after ∧
    ∃ l ∈ (before.map L).prod, l.length ≤ room ∧ C f (room - l.length)

/-- `k` bytes are charged for each of `n` values, and the bytes of the first few, the last
of them perhaps cut to a word of `P`, bring the total past `u64`. -/
def Heaps (k n : Nat) (L P : Language UInt8) (room : Nat) : Prop :=
  ∃ m < n, ∃ l ∈ L ^ m, ∃ w ∈ P, l.length + w.length ≤ room ∧
    2 ^ 64 ≤ k * (n - (m + 1)) + (l.length + w.length)

/-- Some buffer of at most `room` bytes makes the pre-pass of `n` values overflow. -/
def UTy.CanOverflow : {α : Type} → {r : RustType α} → {u : Unwiring α} → @UTy α r u →
    (n room : Nat) → Prop
  | _, _, _, UTy.prim t, n, _ => 2 ^ 64 ≤ t.size * n
  | _, _, _, UTy.bool, n, _ => 2 ^ 64 ≤ 1 * n
  | _, _, _, UTy.unit, _, _ | _, _, _, UTy.unitStruct, _, _ => False
  -- any length may be announced
  | _, _, _, UTy.string, n, room => 2 ^ 64 ≤ 8 * n ∨ 0 < n ∧ 8 ≤ room
  | _, _, _, UTy.array T N, n, room => 2 ^ 64 ≤ N * n ∨ T.CanOverflow (N * n) room
  -- any count may be announced
  | _, _, _, @UTy.vec α _ _ T _, n, room => 2 ^ 64 ≤ 8 * n ∨
      if Unwiring.mixed α then
        (0 < n ∧ 8 ≤ room ∧ ∃ count : U64, T.CanOverflow count.toNat (room - 8)) ∨
          Heaps 8 n (UTy.vec T).shape (UTy.vec T).shape room
      else 0 < n ∧ 8 ≤ room ∧ 0 < Unwiring.fixedSize α
  | _, _, _, UTy.option T, n, room =>
      (0 < n ∧ 1 ≤ room ∧ T.CanOverflow 1 (room - 1)) ∨
        Heaps 1 n (UTy.option T).shape
          (headed fun variant : U8 => if variant.toNat = 1 then T.shape else 0) room
  | _, _, _, UTy.pair T TT, n, room => 0 < n ∧
      ThenOverflow T.shape (T.CanOverflow 1) (TT.CanOverflow 1) room
  | _, _, _, UTy.triple T TT T3, n, room => 0 < n ∧
      ThenOverflow T.shape (T.CanOverflow 1)
        (ThenOverflow TT.shape (TT.CanOverflow 1) (T3.CanOverflow 1)) room
  | _, _, _, UTy.struct _ T, n, room => 0 < n ∧
      FieldsOverflow (fun i => (T i).shape) (fun i => (T i).CanOverflow 1) (List.finRange _)
        room
  | _, _, _, UTy.enum d T, n, room => 2 ^ 64 ≤ d.tag.size * n ∨
      (0 < n ∧ d.tag.size ≤ room ∧ ∃ taged : Prim d.tag, ∃ h : taged.toNat < d.variants,
        FieldsOverflow (fun i => (T ⟨_, h⟩ i).shape) (fun i => (T ⟨_, h⟩ i).CanOverflow 1)
          (List.finRange _) (room - d.tag.size)) ∨
      Heaps d.tag.size n (UTy.enum d T).shape (headed fun taged : Prim d.tag =>
        if h : taged.toNat < d.variants then
          fieldsBegun (fun i => (T ⟨_, h⟩ i).shape) (List.finRange _)
        else 0) room
  -- these do not look at the bytes
  | _, _, _, @UTy.url U _ _, n, _ => 2 ^ 64 ≤ memSize (Url U) * n
  | _, _, _, @UTy.arc α _ _ _ _, n, _ => 2 ^ 64 ≤ memSize (Arc α) * n
  | _, _, _, @UTy.box α _ _ _ _, n, _ => 2 ^ 64 ≤ memSize (Box α) * n
  | _, _, _, @UTy.hashSet α _ _ _ _ _, n, _ => 2 ^ 64 ≤ memSize (HashSet α) * n
  | _, _, _, @UTy.hashMap α β _ _ _ _ _ _ _ _ _, n, _ => 2 ^ 64 ≤ memSize (HashMap α β) * n
  | _, _, _, @UTy.btreeMap α β _ _ _ _ _ _ _ _, n, _ => 2 ^ 64 ≤ memSize (BTreeMap α β) * n
  | _, _, _, @UTy.btreeSet α _ _ _ _ _, n, _ => 2 ^ 64 ≤ memSize (BTreeSet α) * n
  | _, _, _, UTy.boxSlice T, n, room => T.CanOverflow n room

/-! ## Buffers of a given length -/

namespace Within

variable {room total k n : Nat} {L P : Language UInt8} {F : Bytes → Prop}

theorem spillsAdd : Within room (SpillsAdd L F total) ↔ Within room F ∨
    ∃ w ∈ L, w.length ≤ room ∧ 2 ^ 64 ≤ total + w.length :=
  or.trans (or_congr_right (append.trans (exists_congr fun _ => and_congr_right fun _ =>
    and_congr_right fun _ => of_forall fun _ => Iff.rfl)))

/-- Without a charge, what is added up has been passed over. -/
theorem spillsAdd_of_lt (h : total + room < 2 ^ 64) :
    Within room (SpillsAdd L F total) ↔ Within room F := by
  rw [spillsAdd]
  refine or_iff_left ?_
  rintro ⟨w, -, hle, hge⟩
  omega

/-- A part is added to the total, then the rest is measured. -/
theorem spillsThen_add {E : Bytes → Prop} {E' : Nat → Bytes → Prop} {C C' : Nat → Prop}
    (h : total + room < 2 ^ 64) (hE : Within room E ↔ C room)
    (hE' : ∀ total' room', total' + room' ≤ total + room →
      (Within room' (E' total') ↔ C' room')) :
    Within room (SpillsThen 0 L (SpillsAdd L E) E' total) ↔ ThenOverflow L C C' room := by
  rw [spillsThen, spillsAdd_of_lt h, hE]
  refine or_congr_right (exists_congr fun l => and_congr_right fun _ =>
    and_congr_right fun _ => ?_)
  exact hE' _ _ (by omega)

theorem spillsAfter {t : PrimTy} {E : Prim t → Bytes → Prop} :
    Within room (SpillsAfter E) ↔ t.size ≤ room ∧ ∃ v, Within (room - t.size) (E v) := by
  constructor
  · rintro ⟨_, hs, v, r, rfl, hE⟩
    rw [List.length_append, v.length_toBeBytes] at hs
    exact ⟨by omega, v, r, by omega, hE⟩
  · rintro ⟨hle, v, r, hr, hE⟩
    refine ⟨v.toBeBytes ++ r, ?_, v, r, rfl, hE⟩
    rw [List.length_append, v.length_toBeBytes]
    omega

/-- A loop over `n` values that are charged for. One of them overflows by itself, or the
total does. -/
theorem loop {E : Nat → Bytes → Prop} {A : Nat → Prop} (hk : ∀ l ∈ L, k ≤ l.length)
    (hE : ∀ total room', k ≤ total → room' ≤ room → (Within room' (E total) ↔
      A room' ∨ ∃ w ∈ P, w.length ≤ room' ∧ 2 ^ 64 + k ≤ total + w.length))
    (hA : ∀ room', room' ≤ room → A room' → A room) :
    Within room (SpillsTimes k L E n (k * n)) ↔ (0 < n ∧ A room) ∨ Heaps k n L P room := by
  have hcharge {m l : Nat} (hm : m < n) : k * n + l - k * m = k * (n - (m + 1)) + k + l := by
    obtain ⟨c, rfl⟩ := Nat.exists_eq_add_of_le hm
    rw [Nat.add_sub_cancel_left, Nat.mul_add, Nat.mul_succ]
    omega
  rw [spillsTimes hk]
  constructor
  · rintro ⟨m, hm, l, hl, hle, hpanics⟩
    rw [hcharge hm, hE _ _ (by omega) (Nat.sub_le ..)] at hpanics
    rcases hpanics with ha | ⟨w, hw, hwle, hge⟩
    · exact .inl ⟨Nat.zero_lt_of_lt hm, hA _ (Nat.sub_le ..) ha⟩
    · exact .inr ⟨m, hm, l, hl, w, hw, by omega, by omega⟩
  · rintro (⟨hn, ha⟩ | ⟨m, hm, l, hl, w, hw, hle, hge⟩)
    · refine ⟨0, hn, [], ?_, Nat.zero_le _, ?_⟩
      · rw [pow_zero]
        exact Language.nil_mem_one
      · rw [hcharge hn, hE _ _ (by omega) (Nat.sub_le ..)]
        exact .inl ha
    · refine ⟨m, hm, l, hl, by omega, ?_⟩
      rw [hcharge hm, hE _ _ (by omega) (Nat.sub_le ..)]
      exact .inr ⟨w, hw, by omega, by omega⟩

theorem charged {E : Nat → Bytes → Prop} {A : Nat → Prop} (hk : ∀ l ∈ L, k ≤ l.length)
    (hE : ∀ total room', k ≤ total → room' ≤ room → (Within room' (E total) ↔
      A room' ∨ ∃ w ∈ P, w.length ≤ room' ∧ 2 ^ 64 + k ≤ total + w.length))
    (hA : ∀ room', room' ≤ room → A room' → A room) :
    Within room (SpillsCharged k L E n) ↔
      2 ^ 64 ≤ k * n ∨ (0 < n ∧ A room) ∨ Heaps k n L P room :=
  or.trans (or_congr (of_forall fun _ => Iff.rfl) (loop hk hE hA))

/-- A number is read first. -/
theorem spillsAfter_add (total room : Nat) {t : PrimTy} {E : Prim t → Nat → Bytes → Prop}
    {A : Prim t → Nat → Prop} {Q : Prim t → Language UInt8}
    (hE : ∀ v room', room' ≤ room - t.size → (Within room' (E v total) ↔
      A v room' ∨ ∃ w ∈ Q v, w.length ≤ room' ∧ 2 ^ 64 ≤ total + w.length)) :
    Within room (SpillsAfter fun v => E v total) ↔
      (t.size ≤ room ∧ ∃ v, A v (room - t.size)) ∨
        ∃ w ∈ headed Q, w.length ≤ room ∧ 2 ^ 64 + t.size ≤ total + w.length := by
  rw [spillsAfter]
  simp only [hE _ _ (Nat.le_refl _)]
  constructor
  · rintro ⟨hle, v, ha | ⟨w, hw, hwle, hge⟩⟩
    · exact .inl ⟨hle, v, ha⟩
    · refine .inr ⟨v.toBeBytes ++ w, ⟨v, w, rfl, hw⟩, ?_, ?_⟩
      · rw [List.length_append, v.length_toBeBytes]
        omega
      · rw [List.length_append, v.length_toBeBytes]
        omega
  · rintro (⟨hle, v, ha⟩ | ⟨_, ⟨v, w, rfl, hw⟩, hle, hge⟩)
    · exact ⟨hle, v, .inl ha⟩
    · rw [List.length_append, v.length_toBeBytes] at hle hge
      exact ⟨by omega, v, .inr ⟨w, hw, by omega, by omega⟩⟩

/-- Nothing is charged for. -/
theorem uncharged {E : Nat → Bytes → Prop} {A : Nat → Prop}
    (hE : ∀ total room', total + room' ≤ room → (Within room' (E total) ↔ A room'))
    (hA : ∀ room', room' ≤ room → A room' → A room) :
    Within room (SpillsTimes 0 L E n 0) ↔ 0 < n ∧ A room := by
  rw [spillsTimes fun _ _ => Nat.zero_le _]
  constructor
  · rintro ⟨m, hm, l, hl, hle, hpanics⟩
    rw [hE _ _ (by omega)] at hpanics
    exact ⟨Nat.zero_lt_of_lt hm, hA _ (Nat.sub_le ..) hpanics⟩
  · rintro ⟨hn, ha⟩
    refine ⟨0, hn, [], ?_, Nat.zero_le _, ?_⟩
    · rw [pow_zero]
      exact Language.nil_mem_one
    · rw [hE _ _ (by simp)]
      exact ha

end Within

section

variable {n room total : Nat} {L : Fin n → Language UInt8} {C : Fin n → Nat → Prop}
  {f : Fin n} {fs : List (Fin n)}

theorem fieldsOverflow_cons : FieldsOverflow L C (f :: fs) room ↔
    ThenOverflow (L f) (C f) (FieldsOverflow L C fs) room := by
  constructor
  · rintro ⟨before, g, after, heq, l, hl, hle, hC⟩
    rcases List.cons_eq_append_iff.mp heq with ⟨rfl, hfs⟩ | ⟨before', rfl, rfl⟩
    · obtain ⟨rfl, -⟩ := List.cons.inj hfs
      rw [List.map_nil, List.prod_nil, Language.mem_one] at hl
      subst hl
      exact .inl hC
    · rw [List.map_cons, List.prod_cons] at hl
      obtain ⟨a, ha, b, hb, rfl⟩ := Language.mem_mul.mp hl
      rw [List.length_append] at hle hC
      refine .inr ⟨a, ha, by omega, before', g, after, rfl, b, hb, by omega, ?_⟩
      rwa [Nat.sub_sub]
  · rintro (hC | ⟨a, ha, hale, before, g, after, rfl, b, hb, hble, hC⟩)
    · exact ⟨[], f, fs, rfl, [], Language.nil_mem_one, Nat.zero_le _, hC⟩
    · refine ⟨f :: before, g, after, rfl, a ++ b, Language.append_mem_mul ha hb, ?_, ?_⟩
      · rw [List.length_append]
        omega
      · rwa [List.length_append, ← Nat.sub_sub]

theorem mem_fieldsBegun_cons {w : Bytes} : w ∈ fieldsBegun L (f :: fs) ↔
    w ∈ L f ∨ w ∈ L f * fieldsBegun L fs := by
  constructor
  · rintro ⟨before, g, after, heq, hw⟩
    rcases List.cons_eq_append_iff.mp heq with ⟨rfl, hfs⟩ | ⟨before', rfl, rfl⟩
    · obtain ⟨rfl, -⟩ := List.cons.inj hfs
      rw [List.map_nil, List.prod_nil, one_mul] at hw
      exact .inl hw
    · rw [List.map_cons, List.prod_cons, mul_assoc] at hw
      obtain ⟨a, ha, b, hb, rfl⟩ := Language.mem_mul.mp hw
      exact .inr (Language.append_mem_mul ha ⟨before', g, after, rfl, hb⟩)
  · rintro (hw | hw)
    · exact ⟨[], f, fs, rfl, by rwa [List.map_nil, List.prod_nil, one_mul]⟩
    · obtain ⟨a, ha, b, ⟨before, g, after, rfl, hb⟩, rfl⟩ := Language.mem_mul.mp hw
      refine ⟨f :: before, g, after, rfl, ?_⟩
      rw [List.map_cons, List.prod_cons, mul_assoc]
      exact Language.append_mem_mul ha hb

/-- A field overflows, or the total does behind one of them. -/
theorem Within.spillsFields {E : Fin n → Bytes → Prop}
    (hC : ∀ i room', room' ≤ room → (Within room' (E i) ↔ C i room')) :
    Within room (SpillsFields L E fs total) ↔ FieldsOverflow L C fs room ∨
      ∃ w ∈ fieldsBegun L fs, w.length ≤ room ∧ 2 ^ 64 ≤ total + w.length := by
  induction fs generalizing room total with
  | nil =>
      refine iff_of_false ?_ ?_
      · rintro ⟨_, -, hF⟩
        exact hF
      · rintro (⟨before, f, after, heq, -⟩ | ⟨w, ⟨before, f, after, heq, -⟩, -⟩)
        · exact (List.append_ne_nil_of_right_ne_nil before (List.cons_ne_nil f after)) heq.symm
        · exact (List.append_ne_nil_of_right_ne_nil before (List.cons_ne_nil f after)) heq.symm
  | cons f fs ih =>
      rw [SpillsFields, spillsThen, spillsAdd, hC f room (Nat.le_refl _), fieldsOverflow_cons,
        ThenOverflow]
      have hrest (l : Bytes) :
          Within (room - l.length) (SpillsFields L E fs (total + l.length)) ↔ _ :=
        ih fun i room' h => hC i room' (Nat.le_trans h (Nat.sub_le ..))
      simp only [Nat.sub_zero, hrest]
      constructor
      · rintro ((hf | ⟨w, hw, hle, hge⟩) | ⟨l, hl, hle, hover | ⟨w, hw, hwle, hge⟩⟩)
        · exact .inl (.inl hf)
        · exact .inr ⟨w, mem_fieldsBegun_cons.mpr (.inl hw), hle, hge⟩
        · exact .inl (.inr ⟨l, hl, hle, hover⟩)
        · refine .inr ⟨l ++ w, mem_fieldsBegun_cons.mpr (.inr
            (Language.append_mem_mul hl hw)), ?_, ?_⟩
          · rw [List.length_append]
            omega
          · rw [List.length_append]
            omega
      · rintro ((hf | ⟨l, hl, hle, hover⟩) | ⟨w, hw, hle, hge⟩)
        · exact .inl (.inl hf)
        · exact .inr ⟨l, hl, hle, .inl hover⟩
        · rcases mem_fieldsBegun_cons.mp hw with hw | hw
          · exact .inl (.inr ⟨w, hw, hle, hge⟩)
          · obtain ⟨a, ha, b, hb, rfl⟩ := Language.mem_mul.mp hw
            rw [List.length_append] at hle hge
            exact .inr ⟨a, ha, by omega, .inr ⟨b, hb, by omega, by omega⟩⟩

end

theorem le_of_mem_headed {t : PrimTy} {Q : Prim t → Language UInt8} :
    ∀ l ∈ headed Q, t.size ≤ l.length := by
  rintro _ ⟨v, b, rfl, -⟩
  rw [List.length_append, v.length_toBeBytes]
  exact Nat.le_add_right _ _

/-- No word is added to the total. -/
theorem not_heaps_zero {k n room : Nat} {L : Language UInt8} : ¬ Heaps k n L 0 room := by
  rintro ⟨_, -, _, -, w, hw, -⟩
  exact Language.notMem_zero w hw

/-- Neither a part nor the total overflows. -/
theorem Within.never {room total : Nat} :
    Within room (fun _ : Bytes => False) ↔ False ∨
      ∃ w ∈ (0 : Language UInt8), w.length ≤ room ∧ 2 ^ 64 ≤ total + w.length := by
  refine iff_of_false ?_ ?_
  · rintro ⟨_, -, hF⟩
    exact hF
  · rintro (hF | ⟨w, hw, -⟩)
    · exact hF
    · exact Language.notMem_zero w hw

/-- Any number may be announced, and the largest overflows. -/
theorem Within.announced {room total : Nat} {P : U64 → Prop} (h : P (.ofNat (2 ^ 64 - 1))) :
    Within room (SpillsAfter fun (count : U64) _ => P count) ↔ 8 ≤ room ∨
      ∃ w ∈ (0 : Language UInt8), w.length ≤ room ∧ 2 ^ 64 + 8 ≤ total + w.length := by
  rw [spillsAfter]
  constructor
  · exact fun h => .inl h.1
  · rintro (hle | ⟨w, hw, -⟩)
    · exact ⟨hle, _, (of_forall fun _ => Iff.rfl).mpr h⟩
    · exact (Language.notMem_zero w hw).elim

theorem Heaps.le {k n room : Nat} {L P : Language UInt8} (h : Heaps k n L P room) :
    2 ^ 64 ≤ k * (n - 1) + room := by
  obtain ⟨m, -, l, -, w, -, hle, hge⟩ := h
  have hk := Nat.mul_le_mul_left k (show n - (m + 1) ≤ n - 1 by omega)
  omega

/-- What says of every bound whether there is such a list holds of larger bounds too. -/
theorem Within.mono_of_iff {room a b : Nat} {F : Bytes → Prop} {C : Nat → Prop}
    (h : ∀ room', room' ≤ room → (Within room' F ↔ C room')) (hab : a ≤ b) (hb : b ≤ room)
    (hC : C a) : C b :=
  (h b hb).mp (((h a (Nat.le_trans hab hb)).mpr hC).mono hab)

theorem ThenOverflow.mono {a b : Nat} {L : Language UInt8} {C C' : Nat → Prop}
    (hab : a ≤ b) (hC : C a → C b) (hC' : ∀ l, C' (a - l) → C' (b - l)) :
    ThenOverflow L C C' a → ThenOverflow L C C' b := by
  rintro (h | ⟨l, hl, hle, h⟩)
  · exact .inl (hC h)
  · exact .inr ⟨l, hl, Nat.le_trans hle hab, hC' l.length h⟩

theorem FieldsOverflow.mono {n room a b : Nat} {L : Fin n → Language UInt8}
    {E : Fin n → Bytes → Prop} {C : Fin n → Nat → Prop} {fs : List (Fin n)}
    (hC : ∀ i room', room' ≤ room → (Within room' (E i) ↔ C i room')) (hab : a ≤ b)
    (hb : b ≤ room) : FieldsOverflow L C fs a → FieldsOverflow L C fs b := by
  rintro ⟨before, f, after, heq, l, hl, hle, hover⟩
  exact ⟨before, f, after, heq, l, hl, Nat.le_trans hle hab,
    Within.mono_of_iff (hC f) (by omega) (by omega) hover⟩

theorem length_of_mem_pow {L : Language UInt8} {k : Nat} (h : ∀ l ∈ L, l.length = k)
    {n : Nat} {l : Bytes} (hl : l ∈ L ^ n) : l.length = k * n := by
  induction n generalizing l with
  | zero =>
      rw [pow_zero, Language.mem_one] at hl
      rw [hl]
      rfl
  | succ n ih =>
      rw [pow_succ'] at hl
      obtain ⟨a, ha, b, hb, rfl⟩ := Language.mem_mul.mp hl
      rw [List.length_append, h a ha, ih hb, Nat.mul_succ, Nat.add_comm]

/-- Any count may be announced, and each stands for `size` bytes. -/
theorem Within.counts {size n room : Nat} :
    Within room (SpillsCharged 8 (headed fun count : U64 => stretch (size * count.toNat))
      (fun total => SpillsAfter fun (count : U64) _ => 2 ^ 64 ≤ size * count.toNat ∨
        2 ^ 64 ≤ total + size * count.toNat) n) ↔
      2 ^ 64 ≤ 8 * n ∨ 0 < n ∧ 8 ≤ room ∧ 0 < size := by
  rcases Nat.eq_zero_or_pos size with rfl | hsize
  · -- no count adds to the total
    have hlen (l : Bytes) (hl : l ∈ headed fun count : U64 => stretch (0 * count.toNat)) :
        l.length = 8 := by
      obtain ⟨count, b, rfl, hb⟩ := hl
      rw [List.length_append, count.length_toBeBytes, mem_stretch.mp hb, Nat.zero_mul]
      rfl
    rw [or_iff_left fun h => Nat.lt_irrefl 0 h.2.2]
    constructor
    · rintro ⟨s, hs, hge | htimes⟩
      · exact hge
      · obtain ⟨m, hm, l, hl, -, hpanics⟩ := (spillsTimes fun l hl => (hlen l hl).ge).mp
          ⟨s, hs, htimes⟩
        obtain ⟨-, count, _, -, hover⟩ := spillsAfter.mp hpanics
        rw [length_of_mem_pow hlen hl] at hover
        omega
    · intro hge
      exact ⟨[], Nat.zero_le _, .inl hge⟩
  · have hE (total room' : Nat) (hk : 8 ≤ total) (_ : room' ≤ room) :
        Within room' (SpillsAfter fun (count : U64) _ => 2 ^ 64 ≤ size * count.toNat ∨
          2 ^ 64 ≤ total + size * count.toNat) ↔
        8 ≤ room' ∨ ∃ w ∈ (0 : Language UInt8), w.length ≤ room' ∧
          2 ^ 64 + 8 ≤ total + w.length := by
      refine announced (.inr ?_)
      rw [Prim.toNat_ofNat (by decide)]
      have hmul := Nat.mul_le_mul_right (2 ^ 64 - 1) hsize
      omega
    refine (charged (fun l hl => ?_) hE fun _ hle h => Nat.le_trans h hle).trans ?_
    · exact le_of_mem_headed (t := .u64) l hl
    · rw [or_iff_left not_heaps_zero, and_iff_left hsize]

/-! ## All types -/

/-- Some buffer of the given length overflows exactly where the type says so. -/
theorem UTy.within_spills_iff : {α : Type} → {r : RustType α} → {u : Unwiring α} →
    (T : @UTy α r u) → (n room : Nat) → room ≤ isizeMax →
    (Within room (T.Spills n) ↔ T.CanOverflow n room)
  | _, _, _, UTy.prim _, _, _, _ | _, _, _, UTy.bool, _, _, _
  | _, _, _, UTy.url _, _, _, _ | _, _, _, UTy.arc _, _, _, _ | _, _, _, UTy.box _, _, _, _
  | _, _, _, UTy.hashSet _, _, _, _ | _, _, _, UTy.hashMap _ _, _, _, _
  | _, _, _, UTy.btreeMap _ _, _, _, _ | _, _, _, UTy.btreeSet _, _, _, _
  | _, _, _, UTy.unit, _, _, _ | _, _, _, UTy.unitStruct, _, _, _ =>
      Within.of_forall fun _ => Iff.rfl
  | _, _, _, UTy.string, n, room, _ => by
      have hE (total room' : Nat) (hk : 8 ≤ total) (_ : room' ≤ room) :
          Within room' (SpillsAfter fun (len : U64) _ => 2 ^ 64 ≤ total + len.toNat) ↔
            8 ≤ room' ∨ ∃ w ∈ (0 : Language UInt8), w.length ≤ room' ∧
              2 ^ 64 + 8 ≤ total + w.length := by
        refine Within.announced ?_
        rw [Prim.toNat_ofNat (by decide)]
        omega
      refine (Within.charged (le_of_mem_headed (t := .u64)) hE
        fun _ hle h => Nat.le_trans h hle).trans ?_
      rw [or_iff_left not_heaps_zero]
      exact Iff.rfl
  | _, _, _, UTy.array T N, n, room, hroom => by
      have hconst : Within room (fun _ : Bytes => 2 ^ 64 ≤ N * n) ↔ 2 ^ 64 ≤ N * n :=
        Within.of_forall fun _ => Iff.rfl
      exact Within.or.trans (or_congr hconst (T.within_spills_iff (N * n) room hroom))
  | _, _, _, @UTy.vec α _ _ T _, n, room, hroom => by
      have ih count room' (hle : room' ≤ room) :=
        T.within_spills_iff count room' (Nat.le_trans hle hroom)
      cases hmixed : Unwiring.mixed α with
      | true =>
          have hE (total room' : Nat) (_ : 8 ≤ total) (hle : room' ≤ room) :=
            Within.spillsAfter_add total room' (t := .u64)
              (E := fun count total => SpillsAdd (T.shape ^ count.toNat)
                (T.Spills count.toNat) total)
              (A := fun count room => T.CanOverflow count.toNat room)
              (Q := fun count => T.shape ^ count.toNat)
              fun count room'' hle' =>
                Within.spillsAdd.trans (or_congr_left (ih _ _ (by omega)))
          have hA (room' : Nat) (hle : room' ≤ room) : (8 ≤ room' ∧ ∃ count : U64,
              T.CanOverflow count.toNat (room' - 8)) → 8 ≤ room ∧ ∃ count : U64,
              T.CanOverflow count.toNat (room - 8) := by
            rintro ⟨h8, count, hcount⟩
            exact ⟨Nat.le_trans h8 hle, count, Within.mono_of_iff (ih _) (by omega) (by omega)
              hcount⟩
          have h := Within.charged (n := n) (le_of_mem_headed (t := .u64)
            (Q := fun count => T.shape ^ count.toNat)) hE hA
          simp only [Spills, CanOverflow, shape, hmixed, if_true]
          exact h
      | false =>
          simp only [Spills, CanOverflow, shape, hmixed, Bool.false_eq_true, if_false]
          exact Within.counts
  | _, _, _, UTy.option T, n, room, hroom => by
      have ih room' (hle : room' ≤ room) :=
        T.within_spills_iff 1 room' (Nat.le_trans hle hroom)
      have hE (total room' : Nat) (_ : 1 ≤ total) (hle : room' ≤ room) :=
        Within.spillsAfter_add total room' (t := .u8)
          (E := fun variant total s => variant.toNat = 1 ∧ SpillsAdd T.shape (T.Spills 1) total s)
          (A := fun variant room => variant.toNat = 1 ∧ T.CanOverflow 1 room)
          (Q := fun variant => if variant.toNat = 1 then T.shape else 0)
          fun variant room'' hle' => by
            by_cases h1 : variant.toNat = 1
            · simp only [h1, true_and, if_true]
              exact Within.spillsAdd.trans (or_congr_left (ih _ (by omega)))
            · simp only [h1, false_and, if_false]
              exact Within.never
      have hA (room' : Nat) (hle : room' ≤ room) : (1 ≤ room' ∧ ∃ variant : U8,
          variant.toNat = 1 ∧ T.CanOverflow 1 (room' - 1)) → 1 ≤ room ∧ ∃ variant : U8,
          variant.toNat = 1 ∧ T.CanOverflow 1 (room - 1) := by
        rintro ⟨h1, variant, hvariant, hover⟩
        exact ⟨Nat.le_trans h1 hle, variant, hvariant,
          Within.mono_of_iff ih (by omega) (by omega) hover⟩
      have h := Within.loop (n := n) (le_of_mem_headed (t := .u8)
        (Q := fun variant => if variant.toNat = 1 then T.shape else 1)) hE hA
      refine h.trans (or_congr_left (and_congr_right fun _ => and_congr_right fun _ => ?_))
      constructor
      · rintro ⟨_, -, hover⟩
        exact hover
      · intro hover
        exact ⟨.ofNat 1, rfl, hover⟩
  | _, _, _, UTy.pair T TT, n, room, hroom => by
      have ih room' (hle : room' ≤ room) :=
        T.within_spills_iff 1 room' (Nat.le_trans hle hroom)
      have ih' room' (hle : room' ≤ room) :=
        TT.within_spills_iff 1 room' (Nat.le_trans hle hroom)
      rw [isizeMax] at hroom
      have hE (total room' : Nat) (hle : total + room' ≤ room) :
          Within room' (SpillsThen 0 T.shape (SpillsAdd T.shape (T.Spills 1))
            (SpillsAdd TT.shape (TT.Spills 1)) total) ↔
            ThenOverflow T.shape (T.CanOverflow 1) (TT.CanOverflow 1) room' := by
        refine Within.spillsThen_add (by omega) (ih _ (by omega)) fun total' room'' hle' => ?_
        rw [Within.spillsAdd_of_lt (by omega), ih' _ (by omega)]
      exact Within.uncharged (n := n) (L := T.shape * TT.shape) hE fun room' hle =>
        .mono hle (Within.mono_of_iff ih hle (Nat.le_refl _))
          fun l => Within.mono_of_iff ih' (by omega) (by omega)
  | _, _, _, UTy.triple T TT T3, n, room, hroom => by
      have ih room' (hle : room' ≤ room) :=
        T.within_spills_iff 1 room' (Nat.le_trans hle hroom)
      have ih' room' (hle : room' ≤ room) :=
        TT.within_spills_iff 1 room' (Nat.le_trans hle hroom)
      have ih'' room' (hle : room' ≤ room) :=
        T3.within_spills_iff 1 room' (Nat.le_trans hle hroom)
      rw [isizeMax] at hroom
      have hE (total room' : Nat) (hle : total + room' ≤ room) :
          Within room' (SpillsThen 0 T.shape (SpillsAdd T.shape (T.Spills 1))
            (SpillsThen 0 TT.shape (SpillsAdd TT.shape (TT.Spills 1))
              (SpillsAdd T3.shape (T3.Spills 1))) total) ↔
            ThenOverflow T.shape (T.CanOverflow 1)
              (ThenOverflow TT.shape (TT.CanOverflow 1) (T3.CanOverflow 1)) room' := by
        refine Within.spillsThen_add (by omega) (ih _ (by omega)) fun total' room'' hle' => ?_
        refine Within.spillsThen_add (by omega) (ih' _ (by omega)) fun total'' room3 hle'' => ?_
        rw [Within.spillsAdd_of_lt (by omega), ih'' _ (by omega)]
      exact Within.uncharged (n := n) (L := T.shape * (TT.shape * T3.shape)) hE
        fun room' hle => .mono hle (Within.mono_of_iff ih hle (Nat.le_refl _))
          fun l => .mono (by omega) (Within.mono_of_iff ih' (by omega) (by omega))
            fun l' => Within.mono_of_iff ih'' (by omega) (by omega)
  | _, _, _, UTy.struct _ T, n, room, hroom => by
      have ih i room' (hle : room' ≤ room) :=
        (T i).within_spills_iff 1 room' (Nat.le_trans hle hroom)
      refine Within.uncharged (fun total room' hle => ?_) fun room' hle =>
        FieldsOverflow.mono ih hle (Nat.le_refl _)
      rw [Within.spillsFields fun i room'' h => ih i room'' (by omega)]
      refine or_iff_left ?_
      rintro ⟨w, -, hlen, hge⟩
      rw [isizeMax] at hroom
      omega
  | _, _, _, @UTy.enum d ty _ _ T _, n, room, hroom => by
      have ih v i room' (hle : room' ≤ room) :=
        (T v i).within_spills_iff 1 room' (Nat.le_trans hle hroom)
      have hE (total room' : Nat) (_ : d.tag.size ≤ total) (hle : room' ≤ room) :=
        Within.spillsAfter_add total room' (t := d.tag)
          (E := fun taged total s => ∃ h : taged.toNat < d.variants,
            SpillsFields (fun i => (T ⟨_, h⟩ i).shape) (fun i => (T ⟨_, h⟩ i).Spills 1)
              (List.finRange _) total s)
          (A := fun taged room => ∃ h : taged.toNat < d.variants,
            FieldsOverflow (fun i => (T ⟨_, h⟩ i).shape)
              (fun i => (T ⟨_, h⟩ i).CanOverflow 1) (List.finRange _) room)
          (Q := fun taged => if h : taged.toNat < d.variants then
            fieldsBegun (fun i => (T ⟨_, h⟩ i).shape) (List.finRange _) else 0)
          fun taged room'' hle' => by
            by_cases hlt : taged.toNat < d.variants
            · simp only [hlt, exists_true_left, dif_pos]
              exact Within.spillsFields fun i room' h => ih _ i room' (by omega)
            · simp only [hlt, IsEmpty.exists_iff, dif_neg, not_false_iff]
              exact Within.never
      have hA (room' : Nat) (hle : room' ≤ room) : (d.tag.size ≤ room' ∧
          ∃ taged : Prim d.tag, ∃ h : taged.toNat < d.variants,
            FieldsOverflow (fun i => (T ⟨_, h⟩ i).shape)
              (fun i => (T ⟨_, h⟩ i).CanOverflow 1) (List.finRange _) (room' - d.tag.size)) →
          d.tag.size ≤ room ∧ ∃ taged : Prim d.tag, ∃ h : taged.toNat < d.variants,
            FieldsOverflow (fun i => (T ⟨_, h⟩ i).shape)
              (fun i => (T ⟨_, h⟩ i).CanOverflow 1) (List.finRange _) (room - d.tag.size) := by
        rintro ⟨hsize, taged, hlt, hover⟩
        exact ⟨Nat.le_trans hsize hle, taged, hlt,
          FieldsOverflow.mono (ih _) (by omega) (by omega) hover⟩
      exact Within.charged (n := n) (le_of_mem_headed (t := d.tag)
        (Q := fun taged => if h : taged.toNat < d.variants then
          ((List.finRange _).map fun i => (T ⟨_, h⟩ i).shape).prod else 0)) hE hA
  | _, _, _, UTy.boxSlice T, n, room, hroom => T.within_spills_iff n room hroom

/-- A `Vec<bool>` is as long as its count says. -/
example : letI : RustType (Vec Bool) := ⟨24, "alloc::vec::Vec<bool>"⟩
    ¬ (UTy.vec .bool).CanOverflow 1 isizeMax := by
  rintro (h | ⟨-, -, count, h⟩ | h)
  · exact absurd h (by decide)
  · rw [UTy.CanOverflow, Nat.one_mul] at h
    exact Nat.not_le.mpr count.lt h
  · exact absurd h.le (by decide)

end WiringRs
