import Jbdtool.Base.Traced

/-! Exact accounts of computations: from every state with a given view, the value, the
view afterwards, what is seen of the log, and when the log is safe throughout. -/
namespace Observe
variable {σ ω α β v o : Type}

/-- How states and events are looked at. -/
structure Observer (σ ω v o : Type) where
  view : σ → v
  seen : ω → List o
  safe : ω → Prop

variable {look : Observer σ ω v o}

def Does (look : Observer σ ω v o) (start : v) (m : Traced σ ω α) (a : α) (final : v) (shown : List o)
    (bounded : Prop) : Prop :=
  ∀ s, look.view s = start → (m s).value = a ∧ look.view (m s).state = final ∧
    (m s).events.flatMap look.seen = shown ∧ ((m s).Always look.safe ↔ bounded)

section
variable {start mid final : v} {shown shown' : List o} {bounded bounded' : Prop}

theorem does_pure (a : α) : Does look start (pure a) a start [] True :=
  fun s known => ⟨rfl,known,rfl,by simp⟩

theorem does_bind {m : Traced σ ω α} {next : α → Traced σ ω β} {a : α} {b : β}
    (first : Does look start m a mid shown bounded) (rest : Does look mid (next a) b final shown' bounded') :
    Does look start (m >>= next) b final (shown ++ shown') (bounded ∧ bounded') := by
  intro s known
  obtain ⟨value,state,log,safe⟩ := first s known
  obtain ⟨value',state',log',safe'⟩ := rest (m s).state state
  rw [Traced.always_bind,Traced.bind_run,value]
  refine ⟨value',state',?_,and_congr safe safe'⟩
  rw [Outcome.after_events,List.flatMap_append,log,log']

/-- A step that shows nothing and is always safe. -/
theorem does_silent {m : Traced σ ω α} {next : α → Traced σ ω β} {a : α} {b : β}
    (first : Does look start m a mid [] True) (rest : Does look mid (next a) b final shown bounded) :
    Does look start (m >>= next) b final shown bounded := by
  simpa using does_bind first rest

/-- A last step that shows nothing and is always safe. -/
theorem does_then {m : Traced σ ω α} {next : α → Traced σ ω β} {a : α} {b : β}
    (first : Does look start m a mid shown bounded) (rest : Does look mid (next a) b final [] True) :
    Does look start (m >>= next) b final shown bounded := by
  simpa using does_bind first rest

theorem does_get {next : σ → Traced σ ω β} {b : β}
    (rest : ∀ s, look.view s = start → Does look start (next s) b final shown bounded) :
    Does look start (Traced.get >>= next) b final shown bounded :=
  fun s known => rest s known s known

theorem does_modify {f : σ → σ} (moved : ∀ s, look.view s = start → look.view (f s) = final) :
    Does look start (Traced.modify f) () final [] True :=
  fun s known => ⟨rfl,moved s known,rfl,by simp⟩

theorem does_emit (e : ω) : Does look start (Traced.emit e) () start (look.seen e) (look.safe e) :=
  fun s known => ⟨rfl,known,by simp,by simp⟩

theorem does_note {e : ω} (unseen : look.seen e = []) (safe : look.safe e) :
    Does look start (Traced.emit e) () start [] True :=
  fun s known => ⟨rfl,known,by simp [unseen],by simp [safe]⟩

theorem does_pos {c : Prop} [Decidable c] {m n : Traced σ ω α} {a : α} (holds : c)
    (known : Does look start m a final shown bounded) :
    Does look start (if c then m else n) a final shown bounded := by
  rwa [if_pos holds]

theorem does_neg {c : Prop} [Decidable c] {m n : Traced σ ω α} {a : α} (fails : ¬ c)
    (known : Does look start n a final shown bounded) :
    Does look start (if c then m else n) a final shown bounded := by
  rwa [if_neg fails]

theorem does_congr {m : Traced σ ω α} {a : α} (known : Does look start m a final shown bounded)
    (same : shown = shown') (exact' : bounded ↔ bounded') : Does look start m a final shown' bounded' :=
  fun s begins => by
    obtain ⟨value,state,log,safe⟩ := known s begins
    exact ⟨value,state,log.trans same,safe.trans exact'⟩

end

end Observe
