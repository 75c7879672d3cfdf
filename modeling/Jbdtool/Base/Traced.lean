import Mathlib.Data.List.Basic
import Mathlib.Tactic.SplitIfs

/-! Computations over a state that append events to a log, oldest event first.
Nothing here names a program: a model supplies the state and the events. -/

/-- What one run from a state leaves behind. -/
structure Outcome (σ ω α : Type) where
  value : α
  state : σ
  events : List ω

def Traced (σ ω α : Type) : Type := σ → Outcome σ ω α

namespace Outcome
variable {σ ω α : Type}

def after (o : Outcome σ ω α) (earlier : List ω) : Outcome σ ω α :=
  {o with events := earlier ++ o.events}

variable (o : Outcome σ ω α) (earlier : List ω)

@[simp] theorem after_value : (o.after earlier).value = o.value := rfl
@[simp] theorem after_state : (o.after earlier).state = o.state := rfl
@[simp] theorem after_events : (o.after earlier).events = earlier ++ o.events := rfl
@[simp] theorem after_nil : o.after [] = o := rfl

@[simp] theorem after_after (first second : List ω) :
    (o.after second).after first = o.after (first ++ second) := by
  simp [after,List.append_assoc]

def Always (p : ω → Prop) (o : Outcome σ ω α) : Prop := ∀ e ∈ o.events, p e

@[simp] theorem always_mk (p : ω → Prop) (a : α) (s : σ) (l : List ω) :
    Always p (⟨a,s,l⟩ : Outcome σ ω α) ↔ ∀ e ∈ l, p e := Iff.rfl

@[simp] theorem always_after (p : ω → Prop) :
    Always p (o.after earlier) ↔ (∀ e ∈ earlier, p e) ∧ Always p o := by
  simp only [Always,after_events,List.mem_append]
  exact ⟨fun all => ⟨fun e member => all e (.inl member),fun e member => all e (.inr member)⟩,
    fun both e member => member.elim (both.1 e) (both.2 e)⟩

end Outcome

namespace Traced
variable {σ ω α β : Type}

instance : Monad (Traced σ ω) where
  pure a := fun s => ⟨a,s,[]⟩
  bind m k := fun s => (k (m s).value (m s).state).after (m s).events

def get : Traced σ ω σ := fun s => ⟨s,s,[]⟩

def modify (f : σ → σ) : Traced σ ω Unit := fun s => ⟨(),f s,[]⟩

def emit (e : ω) : Traced σ ω Unit := fun s => ⟨(),s,[e]⟩

@[simp] theorem pure_run (a : α) (s : σ) : (pure a : Traced σ ω α) s = ⟨a,s,[]⟩ := rfl

theorem bind_run (m : Traced σ ω α) (k : α → Traced σ ω β) (s : σ) :
    (m >>= k) s = (k (m s).value (m s).state).after (m s).events := rfl

theorem bind_of_run {m : Traced σ ω α} {s t : σ} {a : α} {l : List ω} (known : m s = ⟨a,t,l⟩)
    (k : α → Traced σ ω β) : (m >>= k) s = (k a t).after l := by
  rw [bind_run,known]

@[simp] theorem get_bind (k : σ → Traced σ ω β) (s : σ) : (get >>= k) s = k s s := rfl

@[simp] theorem modify_run (f : σ → σ) (s : σ) : (modify f : Traced σ ω Unit) s = ⟨(),f s,[]⟩ := rfl

@[simp] theorem modify_bind (f : σ → σ) (k : Unit → Traced σ ω β) (s : σ) :
    (modify f >>= k) s = k () (f s) := rfl

@[simp] theorem emit_run (e : ω) (s : σ) : (emit e : Traced σ ω Unit) s = ⟨(),s,[e]⟩ := rfl

@[simp] theorem emit_bind (e : ω) (k : Unit → Traced σ ω β) (s : σ) :
    (emit e >>= k) s = (k () s).after [e] := rfl

theorem always_bind (p : ω → Prop) (m : Traced σ ω α) (k : α → Traced σ ω β) (s : σ) :
    ((m >>= k) s).Always p ↔ (m s).Always p ∧ (k (m s).value (m s).state).Always p := by
  rw [bind_run,Outcome.always_after]
  rfl

@[simp] theorem ite_run (c : Prop) [Decidable c] (m n : Traced σ ω α) (s : σ) :
    (if c then m else n) s = if c then m s else n s := by
  split_ifs <;> rfl

/-- Whatever the state, only events that satisfy `p` are appended. -/
def Emits (p : ω → Prop) (m : Traced σ ω α) : Prop := ∀ s, (m s).Always p

section
variable {p : ω → Prop}

theorem emits_pure (a : α) : Emits p (pure a : Traced σ ω α) := fun s => by simp [Outcome.Always]

theorem emits_get : Emits p (get : Traced σ ω σ) := fun s => by simp [Outcome.Always,get]

theorem emits_modify (f : σ → σ) : Emits p (modify f : Traced σ ω Unit) := fun s => by simp [Outcome.Always]

theorem emits_emit {e : ω} (known : p e) : Emits p (emit e : Traced σ ω Unit) := fun s => by
  simpa [Outcome.Always] using known

theorem emits_bind {m : Traced σ ω α} {k : α → Traced σ ω β} (first : Emits p m) (rest : ∀ a, Emits p (k a)) :
    Emits p (m >>= k) := fun s => (always_bind p m k s).mpr ⟨first s,rest _ _⟩

theorem emits_ite {c : Prop} [Decidable c] {m n : Traced σ ω α} (yes : c → Emits p m) (no : ¬ c → Emits p n) :
    Emits p (if c then m else n) := by
  split_ifs with holds
  · exact yes holds
  · exact no holds
end

/-- From this state an event that satisfies `p` is appended. -/
def Shows (p : ω → Prop) (m : Traced σ ω α) (s : σ) : Prop := ∃ e ∈ (m s).events, p e

section
variable {p : ω → Prop} {s : σ}

theorem shows_first {m : Traced σ ω α} {k : α → Traced σ ω β} (shown : Shows p m s) : Shows p (m >>= k) s := by
  obtain ⟨e,member,holds⟩ := shown
  exact ⟨e,List.mem_append_left _ member,holds⟩

theorem shows_rest {m : Traced σ ω α} {k : α → Traced σ ω β} (shown : Shows p (k (m s).value) (m s).state) :
    Shows p (m >>= k) s := by
  obtain ⟨e,member,holds⟩ := shown
  exact ⟨e,List.mem_append_right _ member,holds⟩

end

/-- A property of states that a computation does not destroy. -/
def Preserves (inv : σ → Prop) (m : Traced σ ω α) : Prop := ∀ s, inv s → inv (m s).state

section
variable {inv : σ → Prop}

theorem preserves_pure (a : α) : Preserves inv (pure a : Traced σ ω α) := fun _ holds => holds

theorem preserves_emit (e : ω) : Preserves inv (emit e : Traced σ ω Unit) := fun _ holds => holds

theorem preserves_modify {f : σ → σ} (kept : ∀ s, inv s → inv (f s)) : Preserves inv (modify f : Traced σ ω Unit) :=
  kept

theorem preserves_bind {m : Traced σ ω α} {k : α → Traced σ ω β} (first : Preserves inv m)
    (rest : ∀ a, Preserves inv (k a)) : Preserves inv (m >>= k) :=
  fun s holds => rest _ _ (first s holds)

theorem preserves_ite {c : Prop} [Decidable c] {m n : Traced σ ω α} (yes : c → Preserves inv m)
    (no : ¬ c → Preserves inv n) : Preserves inv (if c then m else n) := by
  split_ifs with holds
  · exact yes holds
  · exact no holds

end

/-- From every state the result satisfies `post`. -/
def Results (post : α → Prop) (m : Traced σ ω α) : Prop := ∀ s, post (m s).value

section
variable {post : α → Prop}

theorem results_pure {a : α} (holds : post a) : Results post (pure a : Traced σ ω α) := fun _ => holds

theorem results_bind {m : Traced σ ω β} {k : β → Traced σ ω α} (rest : ∀ b, Results post (k b)) : Results post (m >>= k) :=
  fun s => rest _ (m s).state

theorem results_ite {c : Prop} [Decidable c] {m n : Traced σ ω α} (yes : c → Results post m) (no : ¬ c → Results post n) :
    Results post (if c then m else n) := by
  split_ifs with holds
  · exact yes holds
  · exact no holds

end

instance : LawfulMonad (Traced σ ω) := LawfulMonad.mk' _
  (fun m => by
    funext s
    change (Outcome.mk (m s).value (m s).state ((m s).events ++ [])) = m s
    rw [List.append_nil])
  (fun _ _ => rfl)
  (fun m f g => by
    funext s
    simp only [bind_run,Outcome.after_after,Outcome.after_value,Outcome.after_state,Outcome.after_events])

end Traced
