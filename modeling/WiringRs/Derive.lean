import WiringRs.Rust

/-!
# The derive macro

What `derive(Wiring)` computes from the declaration of a type. For a struct it
walks the fields once, with the `#[fixed]` and `#[fixed(n)]` attributes on
them, and builds one list of statements for each of the three generated
encoders: a field is wired alone, or the fields of a range are copied into a
buffer that is written at the end of the range. For an enum it picks the
integer type of the tag.

Outside the macro, `Covers` is all that is needed of the loop: where it leaves no
group open, the statements take every field exactly once, in declaration order,
and a group fills a buffer of its fields' sizes.
-/

namespace WiringRs

/-! ## The grouping loop -/

/-- `#[fixed(tokens)]`, with the tokens as a `usize` if they parse, or
`#[fixed]`. -/
inductive FixedAttr where
  | list (tokens : Option Nat)
  | path

/-- A statement that copies one field of a group into the buffer. -/
inductive ConcatCall (ι : Type) where
  | start (field : ι)
  | mid (field : ι)
  /-- Copies like `mid`, then writes the buffer. -/
  | last (field : ι)

inductive Call (ι : Type) where
  | field (field : ι)
  /-- A buffer of the given fields' sizes, and the statements that fill it. -/
  | group (sizes : List ι) (calls : List (ConcatCall ι))

/-- The variables of the loop over the fields. -/
structure GroupLoop (ι : Type) where
  fieldCount : Nat := 0
  concatStart : Option Nat := none
  wiringCalls : List (Call ι) := []
  wiringRefCalls : List (Call ι) := []
  syncWiringCalls : List (Call ι) := []
  wiringConcatFieldsCalls : List (ConcatCall ι) := []
  refConcatFieldsCalls : List (ConcatCall ι) := []
  syncConcatFieldsCalls : List (ConcatCall ι) := []
  concatFixedSizeTokens : List ι := []

/-- One attribute of the field numbered `fieldCount` from one: the countdown
of the group it opens. `none` is a panic of the macro. -/
def fixedAttr (fieldsLen fieldCount : Nat) (s : Option Nat × Bool)
    (attr : FixedAttr) : Option (Option Nat × Bool) :=
  match attr with
  | .list tokens =>
      if s.1.isSome then none
      else if fieldsLen = 1 then none
      else match tokens with
        | none => none
        | some t =>
            if t = 1 then none
            else if t > fieldsLen - (fieldCount - 1) then none
            else some (some t, true)
  | .path =>
      if s.1.isSome then none
      else
        let t := fieldsLen - (fieldCount - 1)
        if t = 1 then none else some (some t, true)

/-- `*concat_s -= 1` if a group is open, in a macro compiled with or without
overflow checks. -/
def countdown (checks : Bool) : Option Nat → Option (Option Nat)
  | none => some none
  | some 0 => if checks then none else some (some usizeMax)
  | some (t + 1) => some (some t)

/-- The flags of the loop body: none of them set, or one. -/
inductive ConcatFlag where
  | isAlone | isConcatStart | isConcatMid | isConcatEnd

def concatFlag (isStart : Bool) : Option Nat → ConcatFlag
  | none => .isAlone
  | some t =>
      if isStart then .isConcatStart
      else if t = 0 then .isConcatEnd
      else .isConcatMid

/-- The statements pushed for a field, once its flags are known. -/
def pushCalls {ι : Type} (s : GroupLoop ι) (field : ι) :
    ConcatFlag → GroupLoop ι
  | .isAlone => { s with
      wiringCalls := s.wiringCalls ++ [.field field]
      wiringRefCalls := s.wiringRefCalls ++ [.field field]
      syncWiringCalls := s.syncWiringCalls ++ [.field field] }
  | .isConcatStart => { s with
      concatFixedSizeTokens := s.concatFixedSizeTokens ++ [field]
      wiringConcatFieldsCalls := s.wiringConcatFieldsCalls ++ [.start field]
      refConcatFieldsCalls := s.refConcatFieldsCalls ++ [.start field]
      syncConcatFieldsCalls := s.syncConcatFieldsCalls ++ [.start field] }
  | .isConcatMid => { s with
      concatFixedSizeTokens := s.concatFixedSizeTokens ++ [field]
      wiringConcatFieldsCalls := s.wiringConcatFieldsCalls ++ [.mid field]
      refConcatFieldsCalls := s.refConcatFieldsCalls ++ [.mid field]
      syncConcatFieldsCalls := s.syncConcatFieldsCalls ++ [.mid field] }
  | .isConcatEnd =>
      let sizes := s.concatFixedSizeTokens ++ [field]
      { s with
        concatStart := none
        wiringCalls := s.wiringCalls ++
          [.group sizes (s.wiringConcatFieldsCalls ++ [.last field])]
        wiringRefCalls := s.wiringRefCalls ++
          [.group sizes (s.refConcatFieldsCalls ++ [.last field])]
        syncWiringCalls := s.syncWiringCalls ++
          [.group sizes (s.syncConcatFieldsCalls ++ [.last field])]
        wiringConcatFieldsCalls := []
        refConcatFieldsCalls := []
        syncConcatFieldsCalls := []
        concatFixedSizeTokens := [] }

/-- The loop body. -/
def groupField {ι : Type} (checks : Bool) (fieldsLen : Nat) (s : GroupLoop ι)
    (field : ι × List FixedAttr) : Option (GroupLoop ι) := do
  let count := s.fieldCount + 1
  let r ← field.2.foldlM (fixedAttr fieldsLen count) (s.concatStart, false)
  let start ← countdown checks r.1
  some (pushCalls { s with fieldCount := count, concatStart := start } field.1
    (concatFlag r.2 start))

/-- The three generated call lists, or `none` when the macro panics. -/
def groupFields {ι : Type} (checks : Bool) (fields : List (ι × List FixedAttr)) :
    Option (GroupLoop ι) :=
  fields.foldlM (groupField checks fields.length) {}

/-! ## What the loop computes

While a group is open, its fields wait in the three pending lists and the
countdown says how many are still to come. With overflow checks it never reaches
past the struct, so no group is open after the last field. -/

def Call.fields {ι : Type} : Call ι → List ι
  | .field f => [f]
  | .group sizes _ => sizes

/-- A group copies exactly the fields its buffer is sized for. -/
def Call.Filled {ι : Type} : Call ι → Prop
  | .field _ => True
  | .group sizes calls => ∃ f fs g, sizes = f :: fs ++ [g] ∧
      calls = .start f :: fs.map .mid ++ [.last g]

/-- The statements take the listed fields once each, in order. -/
structure Covers {ι : Type} (calls : List (Call ι)) (fields : List ι) : Prop where
  fields_eq : calls.flatMap Call.fields = fields
  filled : ∀ c ∈ calls, c.Filled

namespace Covers

variable {ι : Type} {calls : List (Call ι)} {fields : List ι}

theorem nil : Covers ([] : List (Call ι)) [] := ⟨rfl, nofun⟩

theorem append {c : Call ι} (h : Covers calls fields) (hc : c.Filled) :
    Covers (calls ++ [c]) (fields ++ c.fields) where
  fields_eq := by simp [h.fields_eq]
  filled := by
    intro d hd
    rcases List.mem_append.mp hd with hd | hd
    · exact h.filled d hd
    · rw [List.mem_singleton.mp hd]; exact hc

end Covers

/-- The pending statements of an open group, and of a closed one. -/
def pending {ι : Type} : List ι → List (ConcatCall ι)
  | [] => []
  | f :: fs => .start f :: fs.map .mid

/-- The loop after the fields `taken`, with the fields of the open group in
`concatFixedSizeTokens`. -/
structure GroupLoop.Ok {ι : Type} (checks : Bool) (fieldsLen : Nat) (taken : List ι)
    (s : GroupLoop ι) : Prop where
  count : s.fieldCount = taken.length
  covers : ∃ done, Covers s.syncWiringCalls done ∧
    taken = done ++ s.concatFixedSizeTokens
  wiring_eq : s.wiringCalls = s.syncWiringCalls
  ref_eq : s.wiringRefCalls = s.syncWiringCalls
  pending_wiring : s.wiringConcatFieldsCalls = pending s.concatFixedSizeTokens
  pending_ref : s.refConcatFieldsCalls = pending s.concatFixedSizeTokens
  pending_sync : s.syncConcatFieldsCalls = pending s.concatFixedSizeTokens
  /-- An open group has a field already and one still to come. -/
  start : match s.concatStart with
    | none => s.concatFixedSizeTokens = []
    | some t => s.concatFixedSizeTokens ≠ [] ∧ 0 < t ∧
        (checks = true → taken.length + t ≤ fieldsLen)

section

variable {ι : Type} {checks : Bool} {fieldsLen : Nat} {taken : List ι} {s s' : GroupLoop ι}

/-- The attributes of a field leave the countdown as it was, or open a group
of at least two fields within the struct. -/
theorem foldlM_fixedAttr {count : Nat} {attrs : List FixedAttr}
    {start start' : Option Nat} {isStart isStart' : Bool}
    (h : attrs.foldlM (fixedAttr fieldsLen count) (start, isStart)
      = some (start', isStart')) :
    (start' = start ∧ isStart' = isStart) ∨
    (start = none ∧ isStart' = true ∧ ∃ t, start' = some t ∧ t ≠ 1 ∧
      t ≤ fieldsLen - (count - 1)) := by
  induction attrs generalizing start isStart with
  | nil =>
      obtain ⟨rfl, rfl⟩ := Prod.mk.inj (Option.some.inj h)
      exact Or.inl ⟨rfl, rfl⟩
  | cons a attrs ih =>
      rw [List.foldlM_cons] at h
      obtain ⟨⟨start1, isStart1⟩, h1, h2⟩ := Option.bind_eq_some_iff.mp h
      have hopen : start = none ∧ isStart1 = true ∧ ∃ t, start1 = some t ∧
          t ≠ 1 ∧ t ≤ fieldsLen - (count - 1) := by
        cases start with
        | some t => cases a <;> simp [fixedAttr] at h1
        | none =>
            cases a with
            | path =>
                simp only [fixedAttr, Option.isSome_none, Bool.false_eq_true,
                  if_false] at h1
                split at h1
                · cases h1
                · rename_i hne
                  obtain ⟨rfl, rfl⟩ := Prod.mk.inj (Option.some.inj h1)
                  exact ⟨rfl, rfl, _, rfl, hne, Nat.le_refl _⟩
            | list tokens =>
                simp only [fixedAttr, Option.isSome_none, Bool.false_eq_true,
                  if_false] at h1
                split at h1
                · cases h1
                · split at h1
                  · cases h1
                  · split at h1
                    · cases h1
                    · split at h1
                      · cases h1
                      · obtain ⟨rfl, rfl⟩ := Prod.mk.inj (Option.some.inj h1)
                        exact ⟨rfl, rfl, _, rfl, ‹_›, by omega⟩
      obtain ⟨rfl, rfl, t, rfl, ht1, hle⟩ := hopen
      rcases ih h2 with ⟨rfl, rfl⟩ | ⟨hnone, -⟩
      · exact Or.inr ⟨rfl, rfl, t, rfl, ht1, hle⟩
      · cases hnone

theorem pending_append {fs : List ι} (h : fs ≠ []) (g : ι) :
    pending (fs ++ [g]) = pending fs ++ [.mid g] := by
  cases fs with
  | nil => exact absurd rfl h
  | cons f fs => simp [pending]

/-- The body keeps the loop invariant. -/
theorem groupField_ok {field : ι × List FixedAttr}
    (hs : s.Ok checks fieldsLen taken) (hlt : taken.length < fieldsLen)
    (h : groupField checks fieldsLen s field = some s') :
    s'.Ok checks fieldsLen (taken ++ [field.1]) := by
  obtain ⟨hcount, ⟨done, hcov, htaken⟩, hw, hr, hpw, hpr, hps, hstart⟩ := hs
  obtain ⟨⟨start, isStart⟩, h1, h⟩ := Option.bind_eq_some_iff.mp h
  obtain ⟨start', h2, h⟩ := Option.bind_eq_some_iff.mp h
  cases Option.some.inj h
  rcases foldlM_fixedAttr h1 with ⟨rfl, rfl⟩ | ⟨hnone, rfl, t, rfl, ht1, hle⟩
  · match hc : s.concatStart with
    | none =>
        -- no group open: the field is wired alone
        simp only [hc] at h2 hstart ⊢
        cases Option.some.inj h2
        have hcov' := hcov.append (c := .field field.1) trivial
        refine ⟨by simp [concatFlag, pushCalls, hcount],
          ⟨_, hcov', ?_⟩, ?_, ?_, ?_, ?_, ?_, ?_⟩
        all_goals simp_all [concatFlag, pushCalls, Call.fields]
    | some 0 => simp [hc] at hstart
    | some 1 =>
        -- the last field of the group: the buffer is written
        simp only [hc] at h2 hstart ⊢
        cases Option.some.inj h2
        have hfill : (Call.group (s.concatFixedSizeTokens ++ [field.1])
            (s.syncConcatFieldsCalls ++ [.last field.1])).Filled := by
          cases hsz : s.concatFixedSizeTokens with
          | nil => exact absurd hsz hstart.1
          | cons f fs => exact ⟨f, fs, field.1, rfl, by rw [hps, hsz]; rfl⟩
        refine ⟨by simp [concatFlag, pushCalls, hcount],
          ⟨_, hcov.append hfill, ?_⟩, ?_, ?_, ?_, ?_, ?_, ?_⟩
        all_goals simp_all [concatFlag, pushCalls, Call.fields, pending]
    | some (t + 2) =>
        simp only [hc] at h2 hstart ⊢
        cases Option.some.inj h2
        refine ⟨by simp [concatFlag, pushCalls, hcount],
          ⟨done, ?_, ?_⟩, ?_, ?_, ?_, ?_, ?_, ?_⟩
        all_goals simp_all [concatFlag, pushCalls, pending_append]
        intro hchecks
        have := hstart.2 hchecks
        omega
  · -- a group opens here
    rw [hnone] at hstart
    match t with
    | 0 =>
        -- the countdown wraps
        cases checks with
        | true => cases h2
        | false =>
            cases Option.some.inj h2
            refine ⟨by simp [concatFlag, pushCalls, hcount],
              ⟨done, ?_, ?_⟩, ?_, ?_, ?_, ?_, ?_, ?_⟩
            all_goals simp_all [concatFlag, pushCalls, pending, usizeMax]
    | 1 => exact absurd rfl ht1
    | t + 2 =>
        cases Option.some.inj h2
        refine ⟨by simp [concatFlag, pushCalls, hcount],
          ⟨done, ?_, ?_⟩, ?_, ?_, ?_, ?_, ?_, ?_⟩
        all_goals simp_all [concatFlag, pushCalls, pending]
        omega

theorem foldlM_groupField_ok {fields : List (ι × List FixedAttr)}
    (hs : s.Ok checks fieldsLen taken)
    (hlen : taken.length + fields.length ≤ fieldsLen)
    (h : fields.foldlM (groupField checks fieldsLen) s = some s') :
    s'.Ok checks fieldsLen (taken ++ fields.map Prod.fst) := by
  induction fields generalizing s taken with
  | nil =>
      cases Option.some.inj h
      simpa using hs
  | cons f fields ih =>
      rw [List.foldlM_cons] at h
      obtain ⟨s1, h1, h2⟩ := Option.bind_eq_some_iff.mp h
      rw [List.length_cons] at hlen
      have hs1 := groupField_ok hs (by omega) h1
      have := ih hs1 (by rw [List.length_append, List.length_singleton]; omega) h2
      rwa [List.append_assoc] at this

theorem groupFields_ok {fields : List (ι × List FixedAttr)}
    (h : groupFields checks fields = some s) :
    s.Ok checks fields.length (fields.map Prod.fst) := by
  have hinit : GroupLoop.Ok (ι := ι) checks fields.length [] {} :=
    ⟨rfl, ⟨[], Covers.nil, rfl⟩, rfl, rfl, rfl, rfl, rfl, rfl⟩
  have hs := foldlM_groupField_ok hinit (by simp) h
  rwa [List.nil_append] at hs

/-- With overflow checks, no group is left open. -/
theorem groupFields_closed {fields : List (ι × List FixedAttr)}
    (h : groupFields true fields = some s) : s.concatStart = none := by
  have hstart := (groupFields_ok h).start
  cases hc : s.concatStart with
  | none => rfl
  | some t =>
      rw [hc] at hstart
      obtain ⟨-, hpos, hle⟩ := hstart
      have := hle rfl
      rw [List.length_map] at this
      omega

/-- **Each call list takes every field once.** A struct the macro accepts, and
leaves no group of it open, has three equal call lists, which cover its fields in
declaration order. -/
theorem groupFields_covers {fields : List (ι × List FixedAttr)}
    (h : groupFields checks fields = some s) (hclosed : s.concatStart = none) :
    s.wiringCalls = s.syncWiringCalls ∧ s.wiringRefCalls = s.syncWiringCalls ∧
      Covers s.syncWiringCalls (fields.map Prod.fst) := by
  obtain ⟨-, ⟨done, hcov, htaken⟩, hw, hr, -, -, -, hstart⟩ := groupFields_ok h
  rw [hclosed] at hstart
  rw [show s.concatFixedSizeTokens = [] from hstart, List.append_nil] at htaken
  exact ⟨hw, hr, htaken ▸ hcov⟩

end

/-- Without attributes every field is wired alone. -/
theorem foldlM_groupField_plain {ι : Type} {checks : Bool} {fieldsLen : Nat}
    {fields : List (ι × List FixedAttr)} {s s' : GroupLoop ι}
    (hplain : ∀ f ∈ fields, f.2 = []) (hs : s.concatStart = none)
    (h : fields.foldlM (groupField checks fieldsLen) s = some s') :
    s'.syncWiringCalls = s.syncWiringCalls ++ fields.map fun f => .field f.1 := by
  induction fields generalizing s with
  | nil =>
      cases Option.some.inj h
      simp
  | cons f fields ih =>
      obtain ⟨f, attrs⟩ := f
      obtain rfl : attrs = [] := hplain _ List.mem_cons_self
      rw [List.foldlM_cons] at h
      obtain ⟨s1, h1, h2⟩ := Option.bind_eq_some_iff.mp h
      simp only [groupField, hs, List.foldlM_nil, Option.pure_def,
        Option.bind_eq_bind, Option.bind_some, countdown] at h1
      cases Option.some.inj h1
      rw [ih (fun f hf => hplain f (List.mem_cons_of_mem _ hf)) rfl h2]
      simp [pushCalls, concatFlag]

/-! ## Declarations -/

/-- A struct with named or unnamed fields, as the macro sees it, compiled with or
without overflow checks. The macro has not panicked and has left no group open,
which without the checks it may do after a `#[fixed(0)]`. -/
structure StructDecl (n : Nat) where
  checks : Bool
  attrs : Fin n → List FixedAttr
  pos : 0 < n
  calls : GroupLoop (Fin n)
  expanded : groupFields checks ((List.finRange n).map fun i => (i, attrs i))
    = some calls
  closed : calls.concatStart = none

/-- Every struct that a macro with overflow checks accepts. -/
def StructDecl.ofChecked {n : Nat} (attrs : Fin n → List FixedAttr) (pos : 0 < n)
    (calls : GroupLoop (Fin n))
    (expanded : groupFields true ((List.finRange n).map fun i => (i, attrs i)) = some calls) :
    StructDecl n :=
  ⟨true, attrs, pos, calls, expanded, groupFields_closed expanded⟩

theorem StructDecl.covers {n : Nat} (d : StructDecl n) :
    d.calls.wiringCalls = d.calls.syncWiringCalls ∧
      d.calls.wiringRefCalls = d.calls.syncWiringCalls ∧
      Covers d.calls.syncWiringCalls (List.finRange n) := by
  have h := groupFields_covers d.expanded d.closed
  rwa [List.map_map, show (Prod.fst ∘ fun i => (i, d.attrs i)) = id from rfl,
    List.map_id] at h

theorem StructDecl.plain_calls {n : Nat} {d : StructDecl n}
    (h : ∀ i, d.attrs i = []) :
    d.calls.syncWiringCalls = (List.finRange n).map .field := by
  have hcalls := foldlM_groupField_plain (s := {}) (by simp [h]) rfl d.expanded
  rwa [List.nil_append, List.map_map] at hcalls

/-- The identifier inside a `#[tag(..)]` attribute. -/
inductive TagMeta where
  | u8 | u16 | u32 | other

/-- One step of `get_tag`. `none` is a panic. -/
def tagMeta (len : Nat) (_tag : PrimTy) : TagMeta → Option PrimTy
  -- the bound is the one of `u16`
  | .u8 => if len > 2 ^ 16 - 1 then none else some .u8
  | .u16 => if len > 2 ^ 16 - 1 then none else some .u16
  | .u32 => if len > 2 ^ 32 - 1 then none else some .u32
  | .other => none

def getTag (attrs : List TagMeta) (len : Nat) : Option PrimTy :=
  attrs.foldlM (tagMeta len) .u16

/-- An enum: for each variant its number of fields, and whether it is written
without a field list (`Fields::Unit`). -/
structure EnumDecl where
  ident : String
  variants : Nat
  arity : Fin variants → Nat
  unit : Fin variants → Bool
  unit_arity : ∀ v, unit v = true → arity v = 0
  pos : 0 < variants
  attrs : List TagMeta
  tag : PrimTy
  tag_eq : getTag attrs variants = some tag

theorem foldlM_tagMeta {len : Nat} {tag tag' : PrimTy} {attrs : List TagMeta}
    (h : attrs.foldlM (tagMeta len) tag = some tag') :
    tag' = tag ∨ tag' = .u8 ∨ tag' = .u16 ∨ tag' = .u32 := by
  induction attrs generalizing tag with
  | nil => exact Or.inl (Option.some.inj h).symm
  | cons a attrs ih =>
      rw [List.foldlM_cons] at h
      obtain ⟨t, h1, h2⟩ := Option.bind_eq_some_iff.mp h
      have ht : t = .u8 ∨ t = .u16 ∨ t = .u32 := by
        cases a <;> simp only [tagMeta] at h1 <;> (try split at h1) <;>
          cases h1 <;> simp
      rcases ih h2 with rfl | h
      · exact Or.inr ht
      · exact Or.inr h

theorem EnumDecl.tag_cases (d : EnumDecl) :
    d.tag = .u8 ∨ d.tag = .u16 ∨ d.tag = .u32 := by
  rcases foldlM_tagMeta d.tag_eq with h | h
  · exact Or.inr (Or.inl h)
  · exact h

/-! ## Values of derived types -/

/-- A value of a derived struct, with the type of each field. -/
structure Struct {n : Nat} (d : StructDecl n) (ty : Fin n → Type) where
  field : ∀ i, ty i

/-- A value of a derived enum. -/
structure Enum (d : EnumDecl) (ty : (v : Fin d.variants) → Fin (d.arity v) → Type)
    where
  variant : Fin d.variants
  field : ∀ i, ty variant i

/-- A struct without fields (`struct S;`). -/
structure UnitStruct where
deriving DecidableEq

end WiringRs
