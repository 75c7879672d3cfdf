import Mathlib.Data.List.Basic

/-! Runs of a system whose steps are named by actions. A step that is not enabled
ends a run; a guard is a condition on the steps that a run takes. -/
namespace Runs
variable {σ α : Type}

def run (step : σ → α → Option σ) : σ → List α → Option σ
  | s, [] => some s
  | s, a::rest => (step s a).bind (fun t => run step t rest)

/-- Every step of the run is taken where the guard allows it. -/
def Meets (step : σ → α → Option σ) (guard : σ → α → Prop) : σ → List α → Prop
  | _, [] => True
  | s, a::rest => guard s a ∧ ∀ t, step s a = some t → Meets step guard t rest

def After (step : σ → α → Option σ) (post : σ → Prop) : σ → List α → Prop :=
  Meets step (fun s a => ∀ t, step s a = some t → post t)

instance decidableAfter (step : σ → α → Option σ) (post : σ → Prop) [DecidablePred post] :
    (s : σ) → (actions : List α) → Decidable (After step post s actions)
  | _, [] => isTrue trivial
  | s, a::rest => match enabled : step s a with
    | none =>
      have stops (t : σ) : step s a ≠ some t := fun there => Option.some_ne_none t (there.symm.trans enabled)
      isTrue ⟨fun t there => (stops t there).elim,fun t there => (stops t there).elim⟩
    | some t =>
      have one (u : σ) (there : step s a = some u) : t = u := Option.some.inj (enabled.symm.trans there)
      have := decidableAfter step post t rest
      decidable_of_iff (post t ∧ After step post t rest)
        ⟨fun both => ⟨fun u there => one u there ▸ both.1,fun u there => one u there ▸ both.2⟩,
          fun both => ⟨both.1 t enabled,both.2 t enabled⟩⟩

instance decidableMeets (step : σ → α → Option σ) (guard : σ → α → Prop) [∀ s a, Decidable (guard s a)] :
    (s : σ) → (actions : List α) → Decidable (Meets step guard s actions)
  | _, [] => isTrue trivial
  | s, a::rest => match enabled : step s a with
    | none => decidable_of_iff (guard s a)
        ⟨fun here => ⟨here,fun t there => (Option.some_ne_none t (there.symm.trans enabled)).elim⟩,And.left⟩
    | some t =>
      have one (u : σ) (there : step s a = some u) : t = u := Option.some.inj (enabled.symm.trans there)
      have := decidableMeets step guard t rest
      decidable_of_iff (guard s a ∧ Meets step guard t rest)
        ⟨fun both => ⟨both.1,fun u there => one u there ▸ both.2⟩,fun both => ⟨both.1,both.2 t enabled⟩⟩

section
variable {step : σ → α → Option σ} {guard : σ → α → Prop}

theorem run_cons (s t : σ) (a : α) (rest : List α) (enabled : step s a = some t) :
    run step s (a::rest) = run step t rest := by
  rw [run,enabled,Option.bind_some]

theorem run_append (s : σ) (first second : List α) :
    run step s (first ++ second) = (run step s first).bind (fun t => run step t second) := by
  induction first generalizing s with
  | nil => rfl
  | cons a first ih =>
    rw [List.cons_append,run,run]
    cases step s a with
    | none => rfl
    | some t => exact ih t

theorem run_still (s : σ) (actions : List α) (still : ∀ a ∈ actions, step s a = some s) :
    run step s actions = some s := by
  induction actions with
  | nil => rfl
  | cons a rest ih =>
    rw [run_cons s s a rest (still a List.mem_cons_self)]
    exact ih fun a member => still a (List.mem_cons_of_mem _ member)

/-- What holds at first and is kept by every guarded step holds after every guarded run. -/
theorem run_guarded (inv : σ → Prop) (kept : ∀ s t a, inv s → guard s a → step s a = some t → inv t)
    (s t : σ) (actions : List α) (start : inv s) (meets : Meets step guard s actions)
    (reached : run step s actions = some t) : inv t := by
  induction actions generalizing s with
  | nil =>
    obtain rfl := Option.some.inj reached
    exact start
  | cons a rest ih =>
    obtain ⟨allowed,later⟩ := meets
    obtain ⟨next,enabled,reached⟩ := Option.bind_eq_some_iff.mp reached
    exact ih next (kept s next a start allowed enabled) (later next enabled) reached

theorem meets_everywhere (s : σ) (actions : List α) (allowed : ∀ a ∈ actions, ∀ s, guard s a) :
    Meets step guard s actions := by
  induction actions generalizing s with
  | nil => trivial
  | cons a rest ih =>
    refine ⟨allowed a List.mem_cons_self s,fun t _ => ?_⟩
    exact ih t fun b member => allowed b (List.mem_cons_of_mem _ member)

theorem run_invariant (inv : σ → Prop) (kept : ∀ s t a, inv s → step s a = some t → inv t)
    (s t : σ) (actions : List α) (start : inv s) (reached : run step s actions = some t) : inv t :=
  run_guarded inv (fun s t a holds _ enabled => kept s t a holds enabled) s t actions start
    (meets_everywhere s actions fun _ _ _ => trivial) reached

/-- Where a guard tells which steps end well, it tells which runs do after every step. -/
theorem after_iff (inv post : σ → Prop) (exact : ∀ s t a, inv s → step s a = some t → (post t ↔ guard s a))
    (kept : ∀ s t a, inv s → guard s a → step s a = some t → inv t) (s t : σ) (actions : List α) (start : inv s)
    (reached : run step s actions = some t) : After step post s actions ↔ Meets step guard s actions := by
  induction actions generalizing s with
  | nil => exact Iff.rfl
  | cons a rest ih =>
    obtain ⟨next,enabled,reached⟩ := Option.bind_eq_some_iff.mp reached
    have one (u : σ) (there : step s a = some u) : u = next := Option.some.inj (there.symm.trans enabled)
    have here := exact s next a start enabled
    constructor
    · rintro ⟨good,after⟩
      have allowed := here.mp (good next enabled)
      refine ⟨allowed,fun u there => ?_⟩
      rw [one u there]
      exact (ih next (kept s next a start allowed enabled) reached).mp (after next enabled)
    · rintro ⟨allowed,meets⟩
      refine ⟨fun u there => ?_,fun u there => ?_⟩
      · rw [one u there]
        exact here.mpr allowed
      · rw [one u there]
        exact (ih next (kept s next a start allowed enabled) reached).mpr (meets next enabled)

end

end Runs
