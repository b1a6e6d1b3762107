import Mathlib.Data.List.Basic

/-!
# State machines

A machine has a first state and a partial step function of an action. A
property of all runs is a property of the states `Reachable`, or, for runs
whose steps all meet a condition, of the states `ReachableBy` it; both are
proved by an invariant. `steps` lists the steps of one run, to say exactly in
which runs a property holds.
-/

namespace WiringRs

structure Machine (σ α : Type) where
  init : σ
  /-- `none`: the action is not enabled. -/
  step : σ → α → Option σ

namespace Machine

variable {σ α : Type} (M : Machine σ α)

/-- The states of the runs in which every step meets `ok`. -/
inductive ReachableBy (ok : σ → α → Prop) : σ → Prop where
  | init : ReachableBy ok M.init
  | step {s s' : σ} {a : α} (h : ReachableBy ok s) (hok : ok s a)
      (hs : M.step s a = some s') : ReachableBy ok s'

/-- The states of all runs. -/
abbrev Reachable : σ → Prop := M.ReachableBy fun _ _ => True

variable {M}

theorem ReachableBy.invariant {ok : σ → α → Prop} {I : σ → Prop} {s : σ}
    (h : M.ReachableBy ok s) (h0 : I M.init)
    (hstep : ∀ s a s', I s → ok s a → M.step s a = some s' → I s') : I s := by
  induction h with
  | init => exact h0
  | step _ hok hs ih => exact hstep _ _ _ ih hok hs

theorem ReachableBy.mono {ok ok' : σ → α → Prop} {s : σ} (h : M.ReachableBy ok s)
    (hok : ∀ s a, ok s a → ok' s a) : M.ReachableBy ok' s := by
  induction h with
  | init => exact .init
  | step _ h hs ih => exact .step ih (hok _ _ h) hs

variable (M)

/-- A step of a run. -/
structure Step (σ α : Type) where
  before : σ
  action : α
  after : σ

/-- The steps taken from a state by a list of actions. An action that is not
enabled is passed over. -/
def steps : σ → List α → List (Step σ α)
  | _, [] => []
  | s, a :: as =>
      match M.step s a with
      | none => steps s as
      | some s' => ⟨s, a, s'⟩ :: steps s' as

/-- The last state of a run. An action that is not enabled is passed over. -/
def run (as : List α) : σ := as.foldl (fun s a => (M.step s a).getD s) M.init

variable {M}

theorem reachableBy_run {ok : σ → α → Prop} {as : List α}
    (hok : ∀ s, ∀ a ∈ as, ok s a) : M.ReachableBy ok (M.run as) := by
  suffices h : ∀ s, M.ReachableBy ok s →
      M.ReachableBy ok (as.foldl (fun s a => (M.step s a).getD s) s) from h _ .init
  induction as with
  | nil => exact fun _ h => h
  | cons a as ih =>
      intro s h
      refine ih (fun s a' ha' => hok s a' (List.mem_cons_of_mem _ ha')) _ ?_
      dsimp only
      cases hs : M.step s a with
      | none => exact h
      | some s' => exact .step h (hok s a List.mem_cons_self) hs

/-- If under an invariant `P` says of a step what the condition `ok` does, and
the steps that meet the condition keep the invariant, then a run has `P`
throughout iff its steps all meet the condition. -/
theorem forall_steps_iff {Inv : σ → Prop} {P : Step σ α → Prop}
    {ok : σ → α → Prop}
    (hstep : ∀ s a s', Inv s → M.step s a = some s' →
      (ok s a → Inv s') ∧ (P ⟨s, a, s'⟩ ↔ ok s a)) {s : σ} (h : Inv s)
    (as : List α) :
    (∀ t ∈ M.steps s as, P t) ↔ ∀ t ∈ M.steps s as, ok t.before t.action := by
  induction as generalizing s with
  | nil => exact ⟨fun _ => nofun, fun _ => nofun⟩
  | cons a as ih =>
      cases hs : M.step s a with
      | none =>
          simp only [steps, hs]
          exact ih h
      | some s' =>
          obtain ⟨hinv, hP⟩ := hstep s a s' h hs
          simp only [steps, hs, List.forall_mem_cons, hP]
          exact and_congr_right fun hok => ih (hinv hok)

/-! ## Two parties -/

/-- Two machines of one kind take turns in any order. `step` is a step of its first
argument, which may take something from the second. -/
def duo {σ α : Type} (init : σ) (step : σ → σ → α → Option (σ × σ)) :
    Machine (σ × σ) (Bool × α) :=
  ⟨(init, init), fun s a =>
    if a.1 then step s.1 s.2 a.2 else (step s.2 s.1 a.2).map Prod.swap⟩

/-- An invariant of the two may be proved for a step of the first one. -/
theorem duo_invariant {init : σ} {step : σ → σ → α → Option (σ × σ)}
    (ok : σ → α → Prop) {Inv : σ → σ → Prop} {s : σ × σ}
    (h : (duo init step).ReachableBy (fun s a => ok (if a.1 then s.1 else s.2) a.2) s)
    (h0 : Inv init init) (hsymm : ∀ x y, Inv x y → Inv y x)
    (hstep : ∀ x y a x' y', Inv x y → ok x a → step x y a = some (x', y') → Inv x' y') :
    Inv s.1 s.2 := by
  refine h.invariant (I := fun s => Inv s.1 s.2) h0 ?_
  rintro ⟨x, y⟩ ⟨first, a⟩ s' hinv hok hs
  cases first with
  | true => exact hstep x y a _ _ hinv hok hs
  | false =>
      obtain ⟨⟨y', x'⟩, hstep', rfl⟩ := Option.map_eq_some_iff.mp hs
      exact hsymm _ _ (hstep y x a y' x' (hsymm _ _ hinv) hok hstep')

end Machine

end WiringRs
