import Jbdtool.Base.Traced
import Jbdtool.Base.Runs

/-! Safety properties of logs as automata, and rules to watch a computation with one.
A monitor takes a step on every event and may refuse it. -/
namespace Monitor
variable {σ ω q k α β ε : Type}

/-- From every monitor state in `pre`, the run is accepted and ends in `post`. -/
def Triple (step : q → ω → Option q) (pre : q → Prop) (m : Traced σ ω α) (post : α → q → Prop) : Prop :=
  ∀ p, pre p → ∀ s, ∃ p', Runs.run step p (m s).events = some p' ∧ post (m s).value p'

section
variable {step : q → ω → Option q} {pre : q → Prop}

theorem triple_pure {a : α} {post : α → q → Prop} (holds : ∀ p, pre p → post a p) :
    Triple step pre (pure a : Traced σ ω α) post :=
  fun p start _ => ⟨p,rfl,holds p start⟩

private theorem triple_value {m : Traced σ ω α} {next : α → Traced σ ω β} (result : α → Prop) {mid : α → q → Prop}
    {post : β → q → Prop} (first : Triple step pre m mid) (value : ∀ s, result (m s).value)
    (rest : ∀ a, result a → Triple step (mid a) (next a) post) : Triple step pre (m >>= next) post := by
  intro p start s
  obtain ⟨p',run,middle⟩ := first p start s
  obtain ⟨p'',run',final⟩ := rest _ (value s) p' middle (m s).state
  refine ⟨p'',?_,final⟩
  rw [Traced.bind_run,Outcome.after_events,Runs.run_append,run]
  exact run'

theorem triple_bind {m : Traced σ ω α} {next : α → Traced σ ω β} {mid : α → q → Prop} {post : β → q → Prop}
    (first : Triple step pre m mid) (rest : ∀ a, Triple step (mid a) (next a) post) :
    Triple step pre (m >>= next) post :=
  triple_value (fun _ => True) first (fun _ => trivial) fun a _ => rest a

theorem triple_exact {m : Traced σ ω α} {next : α → Traced σ ω β} {a : α} {mid : q → Prop} {post : β → q → Prop}
    (first : Triple step pre m (fun b p => b = a ∧ mid p)) (rest : Triple step mid (next a) post) :
    Triple step pre (m >>= next) post := by
  refine triple_bind first fun b p ⟨value,middle⟩ => ?_
  rw [value]
  exact rest p middle

theorem triple_emit {e : ω} {post : Unit → q → Prop}
    (taken : ∀ p, pre p → ∃ p', step p e = some p' ∧ post () p') :
    Triple step pre (Traced.emit e : Traced σ ω Unit) post := by
  intro p start s
  obtain ⟨p',moved,final⟩ := taken p start
  exact ⟨p',by simp [Runs.run,moved],final⟩

theorem triple_weaken {m : Traced σ ω α} {pre' : q → Prop} {post post' : α → q → Prop}
    (known : Triple step pre' m post') (before : ∀ p, pre p → pre' p) (after : ∀ a p, post' a p → post a p) :
    Triple step pre m post := by
  intro p start s
  obtain ⟨p',run,final⟩ := known p (before p start) s
  exact ⟨p',run,after _ _ final⟩

/-- Events that the monitor does not see leave it where it is. -/
theorem triple_unseen {m : Traced σ ω α} {unseen : ω → Prop}
    (still : ∀ p e, pre p → unseen e → step p e = some p) (only : Traced.Emits unseen m) :
    Triple step pre m (fun _ => pre) :=
  fun p start s => ⟨p,Runs.run_still p _ fun e member => still p e start (only s e member),start⟩

theorem triple_ite {c : Prop} [Decidable c] {m n : Traced σ ω α} {post : α → q → Prop}
    (yes : c → Triple step pre m post) (no : ¬ c → Triple step pre n post) :
    Triple step pre (if c then m else n) post := by
  split_ifs with holds
  · exact yes holds
  · exact no holds

end

def Guarded (step : q → ω → Option q) (pre : q → Prop) (m : ExceptT ε (Traced σ ω) α) (post : α → q → Prop)
    (exit : ε → q → Prop) : Prop :=
  Triple step pre m.run (fun r p => match r with
    | .ok a => post a p
    | .error e => exit e p)

section
variable {step : q → ω → Option q} {pre : q → Prop} {exit : ε → q → Prop}

theorem guarded_pure {a : α} {post : α → q → Prop} (holds : ∀ p, pre p → post a p) :
    Guarded step pre (pure a : ExceptT ε (Traced σ ω) α) post exit :=
  triple_pure holds

theorem guarded_throw {e : ε} {post : α → q → Prop} (holds : ∀ p, pre p → exit e p) :
    Guarded step pre (throw e : ExceptT ε (Traced σ ω) α) post exit :=
  triple_pure holds

theorem guarded_lift {m : Traced σ ω α} {post : α → q → Prop} (known : Triple step pre m post) :
    Guarded step pre (liftM m : ExceptT ε (Traced σ ω) α) post exit :=
  triple_bind known fun _ => triple_pure fun _ holds => holds

theorem guarded_bind {m : ExceptT ε (Traced σ ω) α} {next : α → ExceptT ε (Traced σ ω) β}
    {mid : α → q → Prop} {post : β → q → Prop} (first : Guarded step pre m mid exit)
    (rest : ∀ a, Guarded step (mid a) (next a) post exit) : Guarded step pre (m >>= next) post exit := by
  refine triple_bind first fun r => ?_
  cases r with
  | ok a => exact rest a
  | error e => exact triple_pure fun _ holds => holds

theorem guarded_exit {m : ExceptT ε (Traced σ ω) α} {next : α → ExceptT ε (Traced σ ω) β} {post : β → q → Prop}
    (leaves : Guarded step pre m (fun _ _ => False) exit) : Guarded step pre (m >>= next) post exit :=
  guarded_bind leaves fun _ _ absurd => absurd.elim

theorem guarded_value {m : Traced σ ω α} {next : α → ExceptT ε (Traced σ ω) β} (result : α → Prop)
    {mid : α → q → Prop} {post : β → q → Prop} (first : Triple step pre m mid) (value : ∀ s, result (m s).value)
    (rest : ∀ a, result a → Guarded step (mid a) (next a) post exit) :
    Guarded step pre ((liftM m : ExceptT ε (Traced σ ω) α) >>= next) post exit := by
  have flattened : ((liftM m : ExceptT ε (Traced σ ω) α) >>= next).run = m >>= fun a => (next a).run :=
    ExceptT.run_bind_lift m next
  unfold Guarded
  rw [flattened]
  exact triple_value result first value rest

theorem guarded_weaken {m : ExceptT ε (Traced σ ω) α} {pre' : q → Prop} {post post' : α → q → Prop}
    (known : Guarded step pre' m post' exit) (before : ∀ p, pre p → pre' p)
    (after : ∀ a p, post' a p → post a p) : Guarded step pre m post exit := by
  refine triple_weaken known before fun r p holds => ?_
  cases r with
  | ok a => exact after a p holds
  | error e => exact holds

theorem guarded_ite {c : Prop} [Decidable c] {m n : ExceptT ε (Traced σ ω) α} {post : α → q → Prop}
    (yes : c → Guarded step pre m post exit) (no : ¬ c → Guarded step pre n post exit) :
    Guarded step pre (if c then m else n) post exit := by
  split_ifs with holds
  · exact yes holds
  · exact no holds

end

def total (step : q → ω → Option q) (p : Option q) (e : ω) : Option (Option q) := some (p.bind (fun s => step s e))

theorem run_total (step : q → ω → Option q) (p : Option q) (l : List ω) :
    Runs.run (total step) p l = some (p.bind (fun s => Runs.run step s l)) := by
  induction l generalizing p with
  | nil => cases p <;> rfl
  | cons e l ih =>
    rw [Runs.run_cons p _ e l rfl,ih]
    cases p <;> rfl

/-- A monitor that has refused stays where it is. -/
def both (first : q → ω → Option q) (second : k → ω → Option k) (p : Option q × Option k) (e : ω) :
    Option (Option q × Option k) :=
  some (p.1.bind (fun s => first s e),p.2.bind (fun s => second s e))

theorem run_both (first : q → ω → Option q) (second : k → ω → Option k) (p : Option q) (b : Option k)
    (l : List ω) : Runs.run (both first second) (p,b) l =
      some (p.bind (fun s => Runs.run first s l),b.bind (fun s => Runs.run second s l)) := by
  induction l generalizing p b with
  | nil => cases p <;> cases b <;> rfl
  | cons e l ih =>
    rw [Runs.run_cons (p,b) _ e l rfl,ih]
    cases p <;> cases b <;> rfl

end Monitor
