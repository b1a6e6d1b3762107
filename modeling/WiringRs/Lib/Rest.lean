import Mathlib.Logic.Relation
import Mathlib.Order.WellFounded
import WiringRs.Lib.Machine

/-!
# Coming to rest

Some actions of a machine are its own, and the others those of its users. While the
users do nothing it may go on by its own actions, in any order. It is at rest when
none of these can be taken. If in no order they go on forever, then from every state
the machine can come to rest, and it can do nothing else.
-/

namespace WiringRs

namespace Machine

variable {σ α : Type} (M : Machine σ α)

/-- A step by an action that meets `own`. -/
def Next (own : α → Prop) (s t : σ) : Prop := ∃ a, own a ∧ M.step s a = some t

/-- Steps by such actions lead from one state to the other. -/
abbrev Leads (own : α → Prop) : σ → σ → Prop := Relation.ReflTransGen (M.Next own)

/-- There is no such step. -/
def AtRest (own : α → Prop) (s : σ) : Prop := ∀ a, own a → M.step s a = none

/-- Such steps do not go on forever. -/
def Settles (own : α → Prop) : Prop := WellFounded fun t s => M.Next own s t

variable {M} {own : α → Prop} {s t : σ}

/-- Every step makes a measure less. -/
theorem settles_of_measure {β : Type} [LT β] [WellFoundedLT β] (f : σ → β)
    (h : ∀ s a t, own a → M.step s a = some t → f t < f s) : M.Settles own := by
  refine Subrelation.wf ?_ (InvImage.wf f wellFounded_lt)
  rintro t s ⟨a, ha, hs⟩
  exact h s a t ha hs

theorem Settles.exists_atRest (h : M.Settles own) (s : σ) :
    ∃ t, M.Leads own s t ∧ M.AtRest own t := by
  induction s using h.induction with
  | _ s ih =>
      by_cases hrest : M.AtRest own s
      · exact ⟨s, .refl, hrest⟩
      · simp only [AtRest, not_forall] at hrest
        obtain ⟨a, ha, hstep⟩ := hrest
        obtain ⟨s', hs'⟩ := Option.ne_none_iff_exists'.mp hstep
        obtain ⟨t, hlead, ht⟩ := ih s' ⟨a, ha, hs'⟩
        exact ⟨t, .head ⟨a, ha, hs'⟩ hlead, ht⟩

/-- From this state on such steps do not go on forever. -/
def SettlesFrom (M : Machine σ α) (own : α → Prop) (s : σ) : Prop :=
  Acc (fun t s => M.Next own s t) s

/-- Every step makes a measure less while an invariant holds. -/
theorem settlesFrom_of_measure {β : Type} [LT β] [WellFoundedLT β] {I : σ → Prop} (f : σ → β)
    (hI : I s) (h : ∀ s a t, I s → own a → M.step s a = some t → I t ∧ f t < f s) :
    M.SettlesFrom own s := by
  have hwf : WellFounded (InvImage (· < ·) f) := InvImage.wf f wellFounded_lt
  induction s using hwf.induction with
  | _ s ih =>
      refine Acc.intro s fun t hnext => ?_
      obtain ⟨a, ha, hs⟩ := hnext
      obtain ⟨hIt, hlt⟩ := h s a t hI ha hs
      exact ih t hlt hIt

/-- What is reachable leads to what is reachable. -/
theorem ReachableBy.leads {ok : σ → α → Prop} (h : M.ReachableBy ok s)
    (hok : ∀ s a, own a → ok s a) (hlead : M.Leads own s t) : M.ReachableBy ok t := by
  induction hlead with
  | refl => exact h
  | tail _ hnext ih =>
      obtain ⟨a, ha, hs⟩ := hnext
      exact .step ih (hok _ a ha) hs

theorem ReachableBy.of_init (h : M.Reachable s) : M.Leads (fun _ => True) M.init s := by
  induction h with
  | init => exact .refl
  | step _ _ hs ih => exact .tail ih ⟨_, trivial, hs⟩

/-- If every step is seen as a step of another kind, or not at all, then so is every
run. -/
theorem ReachableBy.seen {τ : Type} {ok : σ → α → Prop} {next : τ → τ → Prop} {f : σ → τ}
    (h : M.ReachableBy ok s) (hstep : ∀ s a t, M.ReachableBy ok s → ok s a →
      M.step s a = some t → next (f s) (f t) ∨ f t = f s) :
    Relation.ReflTransGen next (f M.init) (f s) := by
  induction h with
  | init => exact .refl
  | step h hok hs ih =>
      rcases hstep _ _ _ h hok hs with hnext | heq
      · exact ih.tail hnext
      · rwa [heq]

/-- An invariant of the states from `s` on. -/
theorem Leads.invariant {I : σ → Prop} (hlead : M.Leads own s t) (h : I s)
    (hstep : ∀ s a t, I s → own a → M.step s a = some t → I t) : I t := by
  induction hlead with
  | refl => exact h
  | tail _ hnext ih =>
      obtain ⟨a, ha, hs⟩ := hnext
      exact hstep _ a _ ih ha hs

/-- What comes later in a run is led to. -/
theorem leads_run {as bs : List α} (h : ∀ a ∈ bs, own a) :
    M.Leads own (M.run as) (M.run (as ++ bs)) := by
  rw [run, run, List.foldl_append]
  generalize as.foldl (fun s a => (M.step s a).getD s) M.init = s
  induction bs generalizing s with
  | nil => exact .refl
  | cons a bs ih =>
      have htail := fun s => ih (fun b hb => h b (List.mem_cons_of_mem _ hb)) s
      cases hs : M.step s a with
      | none => simpa [hs] using htail s
      | some s' =>
          refine .head ⟨a, h a List.mem_cons_self, hs⟩ ?_
          simpa [hs] using htail s'

/-! ## Two parties -/

variable {init : σ} {step : σ → σ → α → Option (σ × σ)}

/-- The measure of the two may be proved for a step of the first one. -/
theorem duo_settles {β : Type} [LT β] [WellFoundedLT β] (f : σ → σ → β)
    (hsymm : ∀ x y, f x y = f y x)
    (hstep : ∀ x y a x' y', own a → step x y a = some (x', y') → f x' y' < f x y) :
    (duo init step).Settles fun a => own a.2 := by
  refine settles_of_measure (fun s => f s.1 s.2) ?_
  rintro ⟨x, y⟩ ⟨first, a⟩ t ha hs
  cases first with
  | true => exact hstep x y a _ _ ha hs
  | false =>
      obtain ⟨⟨y', x'⟩, hstep', rfl⟩ := Option.map_eq_some_iff.mp hs
      rw [hsymm x y]
      exact (hsymm x' y').trans_lt (hstep y x a y' x' ha hstep')

/-- Neither of the two can take a step. -/
theorem duo_atRest {x y : σ} :
    (duo init step).AtRest (fun a => own a.2) (x, y) ↔
      (∀ a, own a → step x y a = none) ∧ ∀ a, own a → step y x a = none := by
  constructor
  · intro h
    refine ⟨fun a ha => h (true, a) ha, fun a ha => ?_⟩
    exact Option.map_eq_none_iff.mp (h (false, a) ha)
  · rintro ⟨hx, hy⟩ ⟨first, a⟩ ha
    cases first with
    | true => exact hx a ha
    | false => exact Option.map_eq_none_iff.mpr (hy a ha)

/-- An invariant of each of the two beside the other one. -/
theorem duo_both (ok : σ → α → Prop) {P : σ → σ → Prop} {s : σ × σ}
    (h : (duo init step).ReachableBy (fun s a => ok (if a.1 then s.1 else s.2) a.2) s)
    (h0 : P init init)
    (hstep : ∀ x y a x' y', P x y → P y x → ok x a → step x y a = some (x', y') →
      P x' y' ∧ P y' x') : P s.1 s.2 ∧ P s.2 s.1 := by
  refine h.invariant (I := fun s => P s.1 s.2 ∧ P s.2 s.1) ⟨h0, h0⟩ ?_
  rintro ⟨x, y⟩ ⟨first, a⟩ s' ⟨hxy, hyx⟩ hok hs
  cases first with
  | true => exact hstep x y a _ _ hxy hyx hok hs
  | false =>
      obtain ⟨⟨y', x'⟩, hstep', rfl⟩ := Option.map_eq_some_iff.mp hs
      exact (hstep y x a y' x' hyx hxy hok hstep').symm

/-- An invariant of the two from a state on may be proved for a step of the first. -/
theorem duo_leads (own : α → Prop) {I : σ → σ → Prop} {s t : σ × σ}
    (hlead : (duo init step).Leads (fun a => own a.2) s t) (h : I s.1 s.2)
    (hsymm : ∀ x y, I x y → I y x)
    (hstep : ∀ x y a x' y', I x y → own a → step x y a = some (x', y') → I x' y') :
    I t.1 t.2 := by
  refine hlead.invariant (I := fun s => I s.1 s.2) h ?_
  rintro ⟨x, y⟩ ⟨first, a⟩ s' hinv ha hs
  cases first with
  | true => exact hstep x y a _ _ hinv ha hs
  | false =>
      obtain ⟨⟨y', x'⟩, hstep', rfl⟩ := Option.map_eq_some_iff.mp hs
      exact hsymm _ _ (hstep y x a y' x' (hsymm _ _ hinv) ha hstep')

end Machine

end WiringRs
