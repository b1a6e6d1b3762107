import WiringRs.Derive

/-!
# The grouping loop without overflow checks

`Layout` is what the attributes ask for: a field alone, or a group over the range that
an attribute gives. The loop of the macro follows it. With `#[fixed(0)]` the countdown
passes zero: with overflow checks the macro panics there, and without them it counts
on from `usize::MAX`. Then the group has no end, and its fields are in none of the
lists.
-/

namespace WiringRs

/-! ## What the attributes ask for -/

section

variable {ι : Type}

/-- How many fields the attribute groups, where `left` are left. -/
def FixedAttr.range (left : Nat) : FixedAttr → Option Nat
  | .list tokens => tokens
  | .path => some left

/-- The group of a range: its first field, those in the middle, and its last. -/
def rangeGroup (f : ι) (mid : List ι) (g : ι) : Call ι :=
  .group (f :: mid ++ [g]) (.start f :: mid.map .mid ++ [.last g])

/-- Fields without an attribute. -/
abbrev plain (fs : List ι) : List (ι × List FixedAttr) := fs.map fun f => (f, [])

/-- The calls for some fields of a struct, with `after` more behind them. -/
inductive Layout (after : Nat) : List (ι × List FixedAttr) → List (Call ι) → Prop where
  | nil : Layout after [] []
  | field {f : ι} {rest : List (ι × List FixedAttr)} {calls : List (Call ι)}
      (h : Layout after rest calls) :
      Layout after ((f, []) :: rest) (.field f :: calls)
  | group {f g : ι} {mid : List ι} {attr : FixedAttr} {rest : List (ι × List FixedAttr)}
      {calls : List (Call ι)}
      (range : attr.range (mid.length + 2 + rest.length + after) = some (mid.length + 2))
      (h : Layout after rest calls) :
      Layout after ((f, [attr]) :: (plain mid ++ (g, []) :: rest))
        (rangeGroup f mid g :: calls)

theorem Layout.covers {after : Nat} {fields : List (ι × List FixedAttr)}
    {calls : List (Call ι)} (h : Layout after fields calls) :
    Covers calls (fields.map Prod.fst) := by
  induction h with
  | nil => exact .nil
  | field _ ih =>
      refine ⟨?_, ?_⟩
      · rw [List.flatMap_cons, ih.fields_eq]
        rfl
      · exact List.forall_mem_cons.mpr ⟨trivial, ih.filled⟩
  | @group f g mid _ _ _ _ _ ih =>
      refine ⟨?_, ?_⟩
      · rw [List.flatMap_cons, ih.fields_eq]
        simp [rangeGroup, Call.fields, Function.comp_def]
      · exact List.forall_mem_cons.mpr ⟨⟨f, mid, g, rfl, rfl⟩, ih.filled⟩

/-! ## The states of the loop -/

/-- Between two groups. -/
def GroupLoop.closed (count : Nat) (calls : List (Call ι)) : GroupLoop ι where
  fieldCount := count
  wiringCalls := calls
  wiringRefCalls := calls
  syncWiringCalls := calls

/-- In a group of the fields `fs` so far, with `left` to come. -/
def GroupLoop.opened (count left : Nat) (calls : List (Call ι)) (fs : List ι) :
    GroupLoop ι where
  fieldCount := count
  concatStart := some left
  wiringCalls := calls
  wiringRefCalls := calls
  syncWiringCalls := calls
  wiringConcatFieldsCalls := pending fs
  refConcatFieldsCalls := pending fs
  syncConcatFieldsCalls := pending fs
  concatFixedSizeTokens := fs

variable {checks : Bool} {len count left : Nat} {calls : List (Call ι)} {f g : ι}
  {mid : List ι} {s : GroupLoop ι} {attr : FixedAttr} {attrs : List FixedAttr}

theorem groupField_alone : groupField checks len (.closed count calls) (f, []) =
    some (.closed (count + 1) (calls ++ [.field f])) := rfl

theorem groupField_mid : groupField checks len (.opened count (left + 2) calls (f :: mid))
    (g, []) = some (.opened (count + 1) (left + 1) calls (f :: (mid ++ [g]))) := by
  rw [GroupLoop.opened, GroupLoop.opened, ← List.cons_append,
    pending_append (List.cons_ne_nil f mid)]
  rfl

theorem groupField_last : groupField checks len (.opened count 1 calls (f :: mid)) (g, []) =
    some (.closed (count + 1) (calls ++ [rangeGroup f mid g])) := rfl

/-- A countdown is not started twice. -/
theorem fixedAttr_some {isStart : Bool} :
    fixedAttr len count (some left, isStart) attr = none := by
  cases attr <;> rfl

/-- What the macro asks of an attribute. -/
theorem fixedAttr_none {isStart : Bool} {r : Option Nat × Bool} (hcount : count < len) :
    fixedAttr len (count + 1) (none, isStart) attr = some r ↔
      2 ≤ len ∧ ∃ t, attr.range (len - count) = some t ∧ t ≠ 1 ∧ t ≤ len - count ∧
        r = (some t, true) := by
  cases attr with
  | path =>
      by_cases hone : len - count = 1
      · refine iff_of_false (by simp [fixedAttr, hone]) ?_
        rintro ⟨-, t, ht, hne, -⟩
        exact hne ((Option.some.inj ht).symm.trans hone)
      · simp [fixedAttr, FixedAttr.range, hone, eq_comm (a := r)]
        omega
  | list tokens =>
      cases tokens with
      | none => simp [fixedAttr, FixedAttr.range]
      | some t =>
          by_cases hlen : len = 1
          · simp [fixedAttr, hlen]
          · by_cases hone : t = 1
            · simp [fixedAttr, FixedAttr.range, hlen, hone]
            · by_cases hle : t ≤ len - count
              · simp [fixedAttr, FixedAttr.range, hlen, hone, hle, eq_comm (a := r)]
                omega
              · simp [fixedAttr, FixedAttr.range, hlen, hone, hle]

/-- An attribute within a group is a panic. -/
theorem groupField_conflict :
    groupField checks len (.opened count left calls mid) (f, attr :: attrs) = none := by
  have h : (attr :: attrs).foldlM (fixedAttr len (count + 1)) (some left, false) = none := by
    rw [List.foldlM_cons, fixedAttr_some]
    rfl
  rw [groupField, GroupLoop.opened, h]
  rfl

/-- So is a second one at a field. -/
theorem groupField_twice {attr' : FixedAttr} (hcount : count < len) :
    groupField checks len (.closed count calls) (f, attr :: attr' :: attrs) = none := by
  have h : (attr :: attr' :: attrs).foldlM (fixedAttr len (count + 1)) (none, false) =
      none := by
    rw [List.foldlM_cons]
    refine Option.bind_eq_none_iff.mpr fun r hr => ?_
    obtain ⟨-, t, -, -, -, rfl⟩ := (fixedAttr_none hcount).mp hr
    rw [List.foldlM_cons, fixedAttr_some]
    rfl
  rw [groupField, GroupLoop.closed, h]
  rfl

theorem countdown_some {t : Nat} {start : Option Nat}
    (h : countdown checks (some t) = some start) : ∃ left, start = some left := by
  cases t with
  | zero =>
      cases checks with
      | true => cases h
      | false => exact ⟨usizeMax, (Option.some.inj h).symm⟩
  | succ t => exact ⟨t, (Option.some.inj h).symm⟩

/-- One attribute opens a group, if the macro accepts it. -/
theorem groupField_start (hcount : count < len) :
    groupField checks len (.closed count calls) (f, [attr]) = some s ↔
      2 ≤ len ∧ ∃ t, attr.range (len - count) = some t ∧ t ≠ 1 ∧ t ≤ len - count ∧
        ∃ left, countdown checks (some t) = some (some left) ∧
          s = .opened (count + 1) left calls [f] := by
  have hfold : [attr].foldlM (fixedAttr len (count + 1)) (none, false) =
      fixedAttr len (count + 1) (none, false) attr := by
    rw [List.foldlM_cons]
    exact bind_pure _
  rw [groupField, GroupLoop.closed, hfold]
  constructor
  · intro h
    obtain ⟨r, hr, h⟩ := Option.bind_eq_some_iff.mp h
    obtain ⟨hlen, t, hrange, hne, hle, rfl⟩ := (fixedAttr_none hcount).mp hr
    obtain ⟨start, hstart, h⟩ := Option.bind_eq_some_iff.mp h
    obtain ⟨left, rfl⟩ := countdown_some hstart
    exact ⟨hlen, t, hrange, hne, hle, left, hstart, (Option.some.inj h).symm⟩
  · rintro ⟨hlen, t, hrange, hne, hle, left, hstart, rfl⟩
    rw [(fixedAttr_none hcount).mpr ⟨hlen, t, hrange, hne, hle, rfl⟩]
    show (countdown checks (some t) >>= _) = _
    rw [hstart]
    rfl

/-! ## Runs -/

/-- A group with `left + 1` fields to come, over fields without attributes: it ends
with the last of them, or not yet. -/
theorem foldlM_opened {fields : List (ι × List FixedAttr)} {s' : GroupLoop ι}
    (h : fields.foldlM (groupField checks len) (.opened count (left + 1) calls (f :: mid)) =
      some s') :
    (∃ fs, fields = plain fs ∧ fs.length ≤ left ∧ s'.concatStart ≠ none) ∨
    ∃ fs g rest, fields = plain fs ++ (g, []) :: rest ∧ fs.length = left ∧
      rest.foldlM (groupField checks len)
        (.closed (count + left + 1) (calls ++ [rangeGroup f (mid ++ fs) g])) = some s' := by
  induction fields generalizing count left mid with
  | nil =>
      cases Option.some.inj h
      exact Or.inl ⟨[], rfl, Nat.zero_le _, by rintro ⟨⟩⟩
  | cons field fields ih =>
      obtain ⟨g, attrs⟩ := field
      rw [List.foldlM_cons] at h
      cases attrs with
      | cons attr attrs =>
          rw [groupField_conflict] at h
          cases h
      | nil =>
          cases left with
          | zero =>
              rw [groupField_last] at h
              refine Or.inr ⟨[], g, fields, rfl, rfl, ?_⟩
              rwa [List.append_nil]
          | succ left =>
              rw [groupField_mid] at h
              rcases ih h with ⟨fs, rfl, hle, hs'⟩ | ⟨fs, g', rest, rfl, hlen, hrest⟩
              · exact Or.inl ⟨g :: fs, rfl, Nat.succ_le_succ hle, hs'⟩
              · refine Or.inr ⟨g :: fs, g', rest, rfl, congrArg Nat.succ hlen, ?_⟩
                rw [List.append_assoc, Nat.add_right_comm count 1] at hrest
                exact hrest

/-- The fields of a range are collected. -/
theorem foldlM_plain (fs : List ι) :
    (plain fs).foldlM (groupField checks len)
        (.opened count (left + 1 + fs.length) calls (f :: mid)) =
      some (.opened (count + fs.length) (left + 1) calls (f :: (mid ++ fs))) := by
  induction fs generalizing count mid with
  | nil =>
      rw [List.append_nil]
      rfl
  | cons g fs ih =>
      have hnext := @ih (count + 1) (mid ++ [g])
      rw [Nat.add_right_comm count 1, Nat.add_right_comm left 1, List.append_assoc] at hnext
      rw [plain, List.map_cons, List.foldlM_cons, List.length_cons,
        show left + 1 + (fs.length + 1) = left + fs.length + 2 by omega, groupField_mid]
      exact hnext

/-- The loop follows a layout to its end. -/
theorem Layout.run {after : Nat} {fields : List (ι × List FixedAttr)} {cs : List (Call ι)}
    (h : Layout after fields cs) (hlen : count + fields.length + after = len) :
    fields.foldlM (groupField checks len) (.closed count calls) =
      some (.closed (count + fields.length) (calls ++ cs)) := by
  induction h generalizing count calls with
  | nil =>
      rw [List.append_nil]
      rfl
  | @field f rest cs _ ih =>
      rw [List.length_cons] at hlen
      have hnext := @ih (count + 1) (calls ++ [.field f]) (by omega)
      rw [List.append_assoc, Nat.add_right_comm] at hnext
      exact hnext
  | @group f g mid attr rest cs range _ ih =>
      simp only [List.length_cons, List.length_append, List.length_map] at hlen
      have hleft : len - count = mid.length + 2 + rest.length + after := by omega
      have hstart : groupField checks len (.closed count calls) (f, [attr]) =
          some (.opened (count + 1) (0 + 1 + mid.length) calls [f]) := by
        refine (groupField_start (by omega)).mpr ⟨by omega, mid.length + 2, ?_, ?_, ?_, ?_⟩
        · rw [hleft, range]
        · omega
        · omega
        · exact ⟨0 + 1 + mid.length, congrArg (some ∘ some) (Nat.add_comm ..), rfl⟩
      have hnext := @ih (count + 1 + mid.length + 1) (calls ++ [rangeGroup f mid g]) (by omega)
      have hmid := @foldlM_plain ι checks len (count + 1) 0 calls f [] mid
      rw [List.foldlM_cons, hstart, Option.bind_eq_bind, Option.bind_some, List.foldlM_append,
        hmid, Option.bind_eq_bind, Option.bind_some, List.foldlM_cons, List.nil_append,
        groupField_last, Option.bind_eq_bind, Option.bind_some]
      refine hnext.trans ?_
      rw [List.append_assoc]
      congr 2
      simp only [List.length_cons, List.length_append, List.length_map]
      omega

/-- The macro reaches `#[fixed(0)]` between two groups, in a struct of at least two
fields, and finds no attribute behind it. -/
def Unclosed (fields : List (ι × List FixedAttr)) : Prop :=
  2 ≤ fields.length ∧ ∃ before f after calls,
    fields = before ++ (f, [.list (some 0)]) :: plain after ∧
      Layout (after.length + 1) before calls

/-- How a run over the last fields of a struct ends: it has followed a layout, or is in
a group that does not close. -/
def RunEnds (checks : Bool) (len : Nat) (calls : List (Call ι))
    (fields : List (ι × List FixedAttr)) (s' : GroupLoop ι) : Prop :=
  (∃ cs, Layout 0 fields cs ∧ s' = .closed len (calls ++ cs)) ∨
    checks = false ∧ s'.concatStart ≠ none ∧ 2 ≤ len ∧ ∃ before f after cs,
      fields = before ++ (f, [.list (some 0)]) :: plain after ∧
        Layout (after.length + 1) before cs

variable {rest : List (ι × List FixedAttr)} {s' : GroupLoop ι}

theorem RunEnds.field (h : RunEnds checks len (calls ++ [.field f]) rest s') :
    RunEnds checks len calls ((f, []) :: rest) s' := by
  rcases h with ⟨cs, hcs, rfl⟩ | ⟨hchecks, hstart, hlen, before, f', after, cs, rfl, hcs⟩
  · refine Or.inl ⟨_, .field hcs, ?_⟩
    rw [List.append_assoc]
    rfl
  · exact Or.inr ⟨hchecks, hstart, hlen, (f, []) :: before, f', after, _, rfl, .field hcs⟩

theorem RunEnds.group
    (hrange : attr.range (mid.length + 2 + rest.length) = some (mid.length + 2))
    (h : RunEnds checks len (calls ++ [rangeGroup f mid g]) rest s') :
    RunEnds checks len calls ((f, [attr]) :: (plain mid ++ (g, []) :: rest)) s' := by
  rcases h with ⟨cs, hcs, rfl⟩ | ⟨hchecks, hstart, hlen, before, f', after, cs, rfl, hcs⟩
  · refine Or.inl ⟨_, .group hrange hcs, ?_⟩
    rw [List.append_assoc]
    rfl
  · have hleft : mid.length + 2 + (before ++ (f', [.list (some 0)]) :: plain after).length =
        mid.length + 2 + before.length + (after.length + 1) := by
      simp only [List.length_append, List.length_cons, List.length_map]
      omega
    rw [hleft] at hrange
    refine Or.inr ⟨hchecks, hstart, hlen, (f, [attr]) :: (plain mid ++ (g, []) :: before), f',
      after, _, ?_, .group hrange hcs⟩
    simp only [List.cons_append, List.append_assoc]

/-- A group without an end is one that the countdown from zero opens. -/
theorem range_eq_zero (hleft : 0 < left) (h : attr.range left = some 0) :
    attr = .list (some 0) := by
  cases attr with
  | path => exact absurd (Option.some.inj h) (Nat.ne_of_gt hleft)
  | list tokens => exact congrArg FixedAttr.list h

/-- **A run of the loop.** -/
theorem runEnds_of_foldlM {fields : List (ι × List FixedAttr)}
    (h : fields.foldlM (groupField checks len) (.closed count calls) = some s')
    (hlen : count + fields.length = len) (husize : len ≤ usizeMax) :
    RunEnds checks len calls fields s' := by
  induction hn : fields.length using Nat.strong_induction_on generalizing fields count calls with
  | _ n ih =>
      cases fields with
      | nil =>
          cases Option.some.inj h
          refine Or.inl ⟨[], .nil, ?_⟩
          rw [List.append_nil, ← hlen]
          rfl
      | cons field rest =>
          obtain ⟨f, attrs⟩ := field
          rw [List.length_cons] at hlen hn
          rw [List.foldlM_cons] at h
          obtain ⟨s1, h1, h2⟩ := Option.bind_eq_some_iff.mp h
          match attrs with
          | [] =>
              rw [groupField_alone] at h1
              obtain rfl := Option.some.inj h1
              exact (ih _ (by omega) h2 (by omega) rfl).field
          | attr :: attr' :: attrs =>
              rw [groupField_twice (by omega)] at h1
              cases h1
          | [attr] =>
              obtain ⟨htwo, t, hrange, hne, hle, left, hstart, rfl⟩ :=
                (groupField_start (by omega)).mp h1
              match t with
              | 0 =>
                  cases checks with
                  | true => cases hstart
                  | false =>
                      obtain rfl : usizeMax = left := Option.some.inj (Option.some.inj hstart)
                      obtain rfl := range_eq_zero (by omega) hrange
                      rw [show usizeMax = usizeMax - 1 + 1 from rfl] at h2
                      rcases foldlM_opened h2 with ⟨fs, rfl, -, hs⟩ | ⟨fs, g, rest, rfl, hfs, -⟩
                      · exact Or.inr ⟨rfl, hs, htwo, [], f, fs, [], rfl, .nil⟩
                      · -- there are not that many fields
                        simp only [List.length_append, List.length_cons, List.length_map] at hlen
                        omega
              | 1 => exact absurd rfl hne
              | t + 2 =>
                  cases hstart
                  rcases foldlM_opened h2 with ⟨fs, rfl, hfs, -⟩ | ⟨fs, g, rest, rfl, rfl, hrest⟩
                  · rw [List.length_map] at hlen
                    omega
                  · simp only [List.length_append, List.length_cons, List.length_map] at hlen hn
                    have hleft : len - count = fs.length + 2 + rest.length := by omega
                    rw [hleft] at hrange
                    exact (ih _ (by omega) hrest (by omega) rfl).group hrange

/-! ## What is emitted -/

/-- The three lists have every field once, in declaration order, in the groups that the
attributes ask for, and nothing is left to flush. -/
structure Emitted (fields : List (ι × List FixedAttr)) (s : GroupLoop ι) : Prop where
  wiring_eq : s.wiringCalls = s.syncWiringCalls
  ref_eq : s.wiringRefCalls = s.syncWiringCalls
  layout : Layout 0 fields s.syncWiringCalls
  covers : Covers s.syncWiringCalls (fields.map Prod.fst)
  closed : s.concatStart = none
  flushed : s.wiringConcatFieldsCalls = [] ∧ s.refConcatFieldsCalls = [] ∧
    s.syncConcatFieldsCalls = [] ∧ s.concatFixedSizeTokens = []

/-- The macro, compiled without overflow checks, panics or emits every field. -/
def EmitsOnce (fields : List (ι × List FixedAttr)) : Prop :=
  ∀ s, groupFields false fields = some s → Emitted fields s

theorem Unclosed.run {fields : List (ι × List FixedAttr)} (h : Unclosed fields)
    (hsize : fields.length ≤ usizeMax) :
    ∃ s, groupFields false fields = some s ∧ s.concatStart ≠ none := by
  obtain ⟨hlen, before, f, after, cs, rfl, hcs⟩ := h
  let len := (before ++ (f, [.list (some 0)]) :: plain after).length
  have hsplit : len = 0 + before.length + (after.length + 1) := by
    simp only [len, List.length_append, List.length_cons, List.length_map]
    omega
  have hbefore := @Layout.run ι false len 0 [] _ _ _ hcs hsplit.symm
  have hstart : groupField false len (.closed (0 + before.length) ([] ++ cs))
      (f, [.list (some 0)]) = some (.opened (0 + before.length + 1) usizeMax ([] ++ cs) [f]) :=
    (groupField_start (by omega)).mpr
      ⟨hlen, 0, rfl, Nat.zero_ne_one, Nat.zero_le _, usizeMax, rfl, rfl⟩
  have hafter := @foldlM_plain ι false len (0 + before.length + 1)
    (usizeMax - 1 - after.length) ([] ++ cs) f [] after
  rw [show usizeMax - 1 - after.length + 1 + after.length = usizeMax by omega] at hafter
  have hrun : groupFields false (before ++ (f, [.list (some 0)]) :: plain after) =
      some (.opened (0 + before.length + 1 + after.length) (usizeMax - 1 - after.length + 1)
        ([] ++ cs) (f :: ([] ++ after))) := by
    rw [groupFields, List.foldlM_append]
    show (List.foldlM (groupField false len) (.closed 0 []) before >>= _) = _
    rw [hbefore, Option.bind_eq_bind, Option.bind_some, List.foldlM_cons]
    show (groupField false len _ _ >>= _) = _
    rw [hstart]
    exact hafter
  exact ⟨_, hrun, by rintro ⟨⟩⟩

/-- **When every field is emitted.** A count of fields is a `usize`. -/
theorem emitsOnce_iff {fields : List (ι × List FixedAttr)} (hsize : fields.length ≤ usizeMax) :
    EmitsOnce fields ↔ ¬ Unclosed fields := by
  constructor
  · intro h hunclosed
    obtain ⟨s, hs, hstart⟩ := hunclosed.run hsize
    exact hstart (h s hs).closed
  · intro h s hs
    rcases runEnds_of_foldlM hs (Nat.zero_add _) hsize with ⟨cs, hcs, rfl⟩ | ⟨-, -, hun⟩
    · exact ⟨rfl, rfl, hcs, hcs.covers, rfl, rfl, rfl, rfl, rfl⟩
    · exact absurd hun h

end

/-- `struct Pair { #[fixed] a: A, b: B }` -/
theorem emitsOnce_pair : EmitsOnce [("a", [.path]), ("b", [])] := by
  refine (emitsOnce_iff (by decide)).mpr ?_
  rintro ⟨-, before, f, after, cs, h, -⟩
  have hmem : (f, [.list (some 0)]) ∈ [("a", [FixedAttr.path]), ("b", [])] := by
    rw [h]
    exact List.mem_append_right _ List.mem_cons_self
  simp at hmem

/-- `struct Pair { #[fixed(0)] a: A, b: B }` is wired as nothing. -/
theorem pair_not_emitsOnce :
    (groupFields false [("a", [.list (some 0)]), ("b", [])]).map GroupLoop.syncWiringCalls =
        some [] ∧
      ¬ EmitsOnce [("a", [.list (some 0)]), ("b", [])] := by
  refine ⟨rfl, fun h => ?_⟩
  cases (h _ rfl).closed

end WiringRs
