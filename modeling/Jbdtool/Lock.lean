import Jbdtool.Base.Runs
import Mathlib.Logic.Function.Basic

/-! The lock on the target, between any number of processes. The record lock is on
the inode that lock_file opened; the path is only how the inode is found. -/
namespace Jbdtool.Lock
variable {P : Type}

/-- How far a process is. -/
inductive Place where
  | starting
  /-- lock_file has opened the path and is in fcntl. -/
  | opened (inode : Nat)
  /-- fcntl has failed, the descriptor is still open. -/
  | refused (inode : Nat)
  /-- lock_file has returned the descriptor and it is still open. -/
  | locked (inode : Nat)
  /-- unlock_file has been called, by main or by clear_lock. -/
  | closed
  | exited
  /-- lock_file has returned -1; no exit handler is registered yet. -/
  | failed
deriving DecidableEq, Repr

inductive Act where
  | openPath
  | openError
  | lock
  | busy
  | giveUp
  | work
  | close
  | closeAgain
  | unlink
deriving DecidableEq, Repr

/-- The directory entry of the lockfile, the next inode, the owners of the record
locks and the places of the processes. -/
structure State (P : Type) where
  entry : Option Nat
  fresh : Nat
  owner : Nat → Option P
  place : P → Place

/-- A lockfile may be left over from an earlier run. -/
def start (entry : Option Nat) : State P where
  entry := entry
  fresh := (entry.map (· + 1)).getD 0
  owner := fun _ => none
  place := fun _ => .starting

def State.setOwner (s : State P) (inode : Nat) (owner : Option P) : State P :=
  {s with owner := Function.update s.owner inode owner}

@[simp] theorem setOwner_owner (s : State P) (inode i : Nat) (owner : Option P) :
    (s.setOwner inode owner).owner i = if i = inode then owner else s.owner i := by
  simp [State.setOwner,Function.update_apply]

@[simp] theorem setOwner_place (s : State P) (inode : Nat) (owner : Option P) :
    (s.setOwner inode owner).place = s.place := rfl
@[simp] theorem setOwner_entry (s : State P) (inode : Nat) (owner : Option P) :
    (s.setOwner inode owner).entry = s.entry := rfl
@[simp] theorem setOwner_fresh (s : State P) (inode : Nat) (owner : Option P) :
    (s.setOwner inode owner).fresh = s.fresh := rfl

variable [DecidableEq P]

def State.move (s : State P) (p : P) (place : Place) : State P :=
  {s with place := Function.update s.place p place}

@[simp] theorem move_place (s : State P) (p q : P) (place : Place) :
    (s.move p place).place q = if q = p then place else s.place q := by
  simp [State.move,Function.update_apply]

@[simp] theorem move_entry (s : State P) (p : P) (place : Place) : (s.move p place).entry = s.entry := rfl
@[simp] theorem move_fresh (s : State P) (p : P) (place : Place) : (s.move p place).fresh = s.fresh := rfl
@[simp] theorem move_owner (s : State P) (p : P) (place : Place) : (s.move p place).owner = s.owner := rfl

/-- One atomic step of one process; `wait` is false under `-N`. -/
def step (wait : P → Bool) (s : State P) (a : P × Act) : Option (State P) :=
  match a.2,s.place a.1 with
  | .openPath, .starting => match s.entry with
    | some inode => some (s.move a.1 (.opened inode))
    | none => some ({s with entry := some s.fresh,fresh := s.fresh + 1}.move a.1 (.opened s.fresh))
  | .openError, .starting => some (s.move a.1 .failed)
  | .lock, .opened inode =>
    if s.owner inode = none then some ((s.setOwner inode (some a.1)).move a.1 (.locked inode)) else none
  | .busy, .opened inode =>
    if wait a.1 = false ∧ s.owner inode ≠ none then some (s.move a.1 (.refused inode)) else none
  | .giveUp, .refused _ => some (s.move a.1 .failed)
  | .work, .locked _ => some s
  | .close, .locked inode => some ((s.setOwner inode none).move a.1 .closed)
  -- clear_lock closes the descriptor that main has closed already.
  | .closeAgain, .closed => some s
  | .unlink, .closed => some ({s with entry := none}.move a.1 .exited)
  | _, _ => none

/-- A process may come to hold this inode's lock, or holds it. -/
def Place.Uses (inode : Nat) (place : Place) : Prop := place = .opened inode ∨ place = .locked inode

def Exclusive (s : State P) : Prop :=
  ∀ p q i j, s.place p = .locked i → s.place q = .locked j → p = q

/-- No process unlinks the path while another one has opened it to lock it. -/
def Alone (s : State P) (a : P × Act) : Prop :=
  a.2 = .unlink → ∀ q inode, q ≠ a.1 → ¬ (s.place q).Uses inode

inductive Effect (wait : P → Bool) (s : State P) (p : P) : Act → State P → Prop where
  | found (inode : Nat) (at_start : s.place p = .starting) (named : s.entry = some inode) :
    Effect wait s p .openPath (s.move p (.opened inode))
  | created (at_start : s.place p = .starting) (named : s.entry = none) :
    Effect wait s p .openPath ({s with entry := some s.fresh,fresh := s.fresh + 1}.move p (.opened s.fresh))
  | openError (at_start : s.place p = .starting) : Effect wait s p .openError (s.move p .failed)
  | lock (inode : Nat) (here : s.place p = .opened inode) (free : s.owner inode = none) :
    Effect wait s p .lock ((s.setOwner inode (some p)).move p (.locked inode))
  | busy (inode : Nat) (here : s.place p = .opened inode) (asked : wait p = false)
    (taken : s.owner inode ≠ none) : Effect wait s p .busy (s.move p (.refused inode))
  | giveUp (inode : Nat) (here : s.place p = .refused inode) : Effect wait s p .giveUp (s.move p .failed)
  | work (inode : Nat) (here : s.place p = .locked inode) : Effect wait s p .work s
  | close (inode : Nat) (here : s.place p = .locked inode) :
    Effect wait s p .close ((s.setOwner inode none).move p .closed)
  | closeAgain (here : s.place p = .closed) : Effect wait s p .closeAgain s
  | unlink (here : s.place p = .closed) : Effect wait s p .unlink ({s with entry := none}.move p .exited)

theorem step_effect (wait : P → Bool) (s t : State P) (p : P) (act : Act)
    (enabled : step wait s (p,act) = some t) : Effect wait s p act t := by
  cases act with
  | openPath =>
    cases here : s.place p <;> simp only [step,here,reduceCtorEq] at enabled
    cases named : s.entry with
    | some inode =>
      simp only [named,Option.some.injEq] at enabled
      exact enabled ▸ .found inode here named
    | none =>
      simp only [named,Option.some.injEq] at enabled
      exact enabled ▸ .created here named
  | openError =>
    cases here : s.place p <;> simp only [step,here,reduceCtorEq,Option.some.injEq] at enabled
    exact enabled ▸ .openError here
  | lock =>
    cases here : s.place p <;> simp only [step,here,reduceCtorEq] at enabled
    split_ifs at enabled with free
    exact Option.some.inj enabled ▸ .lock _ here free
  | busy =>
    cases here : s.place p <;> simp only [step,here,reduceCtorEq] at enabled
    split_ifs at enabled with refused
    exact Option.some.inj enabled ▸ .busy _ here refused.1 refused.2
  | giveUp =>
    cases here : s.place p <;> simp only [step,here,reduceCtorEq,Option.some.injEq] at enabled
    exact enabled ▸ .giveUp _ here
  | work =>
    cases here : s.place p <;> simp only [step,here,reduceCtorEq,Option.some.injEq] at enabled
    exact enabled ▸ .work _ here
  | close =>
    cases here : s.place p <;> simp only [step,here,reduceCtorEq,Option.some.injEq] at enabled
    exact enabled ▸ .close _ here
  | closeAgain =>
    cases here : s.place p <;> simp only [step,here,reduceCtorEq,Option.some.injEq] at enabled
    exact enabled ▸ .closeAgain here
  | unlink =>
    cases here : s.place p <;> simp only [step,here,reduceCtorEq,Option.some.injEq] at enabled
    exact enabled ▸ .unlink here

/-- The owner of a record lock is the process in its critical section, and every
inode in use has been handed out. -/
structure Owned (s : State P) : Prop where
  owner_locked : ∀ i p, s.owner i = some p ↔ s.place p = .locked i
  entry_fresh : ∀ i, s.entry = some i → i < s.fresh
  place_fresh : ∀ p i, (s.place p).Uses i → i < s.fresh

omit [DecidableEq P] in
theorem owned_start (entry : Option Nat) : Owned (start entry : State P) := by
  refine ⟨by simp [start],fun i named => ?_,by simp [start,Place.Uses]⟩
  change entry = some i at named
  subst named
  exact Nat.lt_succ_self i

omit [DecidableEq P] in
private theorem owned_entry (s : State P) (entry : Option Nat) (fresh : Nat) (owned : Owned s) (later : s.fresh ≤ fresh)
    (named : ∀ i, entry = some i → i < fresh) : Owned {s with entry := entry,fresh := fresh} :=
  ⟨owned.owner_locked,named,fun p i uses => Nat.lt_of_lt_of_le (owned.place_fresh p i uses) later⟩

private theorem owned_move (s : State P) (p : P) (place : Place) (owned : Owned s)
    (outside : ∀ i, s.place p ≠ .locked i) (stays : ∀ i, place ≠ .locked i)
    (inside : ∀ i, place.Uses i → i < s.fresh) : Owned (s.move p place) := by
  refine ⟨fun i q => ?_,owned.entry_fresh,fun q i uses => ?_⟩
  · rw [move_owner,owned.owner_locked,move_place]
    split_ifs with self
    · subst self
      exact ⟨fun here => (outside i here).elim,fun here => (stays i here).elim⟩
    · rfl
  · rw [move_place] at uses
    split_ifs at uses
    · exact inside i uses
    · exact owned.place_fresh q i uses

private theorem owned_lock (s : State P) (p : P) (inode : Nat) (owned : Owned s) (here : s.place p = .opened inode)
    (free : s.owner inode = none) : Owned ((s.setOwner inode (some p)).move p (.locked inode)) := by
  refine ⟨fun i q => ?_,owned.entry_fresh,fun q i uses => ?_⟩
  · have known := owned.owner_locked i q
    simp only [move_owner,setOwner_owner,move_place,setOwner_place]
    by_cases same : i = inode
    · subst same
      rw [free] at known
      by_cases self : q = p
      · simp [self]
      · simp [self,← known,Ne.symm self]
    · by_cases self : q = p
      · subst self
        simp [same,known,here,Ne.symm same]
      · simp [same,self,known]
  · rw [move_place] at uses
    split_ifs at uses
    · exact owned.place_fresh p i (by simpa [Place.Uses,here] using uses)
    · exact owned.place_fresh q i uses

private theorem owned_close (s : State P) (p : P) (inode : Nat) (owned : Owned s) (here : s.place p = .locked inode) :
    Owned ((s.setOwner inode none).move p .closed) := by
  have mine := (owned.owner_locked inode p).mpr here
  refine ⟨fun i q => ?_,owned.entry_fresh,fun q i uses => ?_⟩
  · have known := owned.owner_locked i q
    simp only [move_owner,setOwner_owner,move_place,setOwner_place]
    by_cases same : i = inode
    · subst same
      rw [mine] at known
      by_cases self : q = p
      · simp [self]
      · simp [self,← known,Ne.symm self]
    · by_cases self : q = p
      · subst self
        simp [same,known,here,Ne.symm same]
      · simp [same,self,known]
  · rw [move_place] at uses
    split_ifs at uses
    · simp [Place.Uses] at uses
    · exact owned.place_fresh q i uses

theorem owned_step (wait : P → Bool) (s t : State P) (a : P × Act) (owned : Owned s)
    (enabled : step wait s a = some t) : Owned t := by
  obtain ⟨p,act⟩ := a
  cases step_effect wait s t p act enabled with
  | found inode here entry =>
    refine owned_move s p _ owned (by simp [here]) (by simp) fun i uses => ?_
    obtain rfl : inode = i := by simpa [Place.Uses] using uses
    exact owned.entry_fresh inode entry
  | created here entry =>
    refine owned_move _ p _ (owned_entry s _ _ owned (by omega) (by simp)) (by simp [here]) (by simp) fun i uses => ?_
    obtain rfl : s.fresh = i := by simpa [Place.Uses] using uses
    exact Nat.lt_succ_self s.fresh
  | openError here => exact owned_move s p _ owned (by simp [here]) (by simp) (by simp [Place.Uses])
  | lock inode here free => exact owned_lock s p inode owned here free
  | busy inode here asked taken => exact owned_move s p _ owned (by simp [here]) (by simp) (by simp [Place.Uses])
  | giveUp inode here => exact owned_move s p _ owned (by simp [here]) (by simp) (by simp [Place.Uses])
  | work inode here => exact owned
  | close inode here => exact owned_close s p inode owned here
  | closeAgain here => exact owned
  | unlink here =>
    exact owned_move _ p _ (owned_entry s _ _ owned (Nat.le_refl _) (by simp)) (by simp [here]) (by simp)
      (by simp [Place.Uses])

/-- Every inode in use is the one that the path names. -/
def Named (s : State P) : Prop := ∀ p i, (s.place p).Uses i → s.entry = some i

omit [DecidableEq P] in
theorem exclusive_of_named (s : State P) (owned : Owned s) (named : Named s) : Exclusive s := by
  intro p q i j first second
  have one := named p i (.inr first)
  have two := named q j (.inr second)
  obtain rfl : i = j := Option.some.inj (one.symm.trans two)
  exact Option.some.inj (((owned.owner_locked i p).mpr first).symm.trans ((owned.owner_locked i q).mpr second))

private theorem named_move (s : State P) (p : P) (place : Place) (named : Named s)
    (inside : ∀ i, place.Uses i → s.entry = some i) : Named (s.move p place) := by
  intro q i uses
  rw [move_place] at uses
  split_ifs at uses
  · exact inside i uses
  · exact named q i uses

theorem named_step (wait : P → Bool) (s t : State P) (a : P × Act) (named : Named s) (alone : Alone s a)
    (enabled : step wait s a = some t) : Named t := by
  obtain ⟨p,act⟩ := a
  cases step_effect wait s t p act enabled with
  | found inode here entry => exact named_move s p _ named (by simp [Place.Uses,entry])
  | created here entry =>
    intro q i uses
    rw [move_place] at uses
    split_ifs at uses
    · simpa [Place.Uses] using uses
    · have absent := named q i uses
      simp [entry] at absent
  | openError here => exact named_move s p _ named (by simp [Place.Uses])
  | lock inode here free =>
    exact named_move _ p _ named fun i uses => named p i (by simpa [Place.Uses,here] using uses)
  | busy inode here asked taken => exact named_move s p _ named (by simp [Place.Uses])
  | giveUp inode here => exact named_move s p _ named (by simp [Place.Uses])
  | work inode here => exact named
  | close inode here => exact named_move _ p _ named (by simp [Place.Uses])
  | closeAgain here => exact named
  | unlink here =>
    intro q i uses
    rw [move_place] at uses
    split_ifs at uses with self
    · simp [Place.Uses] at uses
    · exact (alone rfl q i self uses).elim

/-- With no path to meet at, a process that starts gets a lock of its own. -/
private theorem newcomer_locks (wait : P → Bool) (s : State P) (r : P) (owned : Owned s) (gone : s.entry = none)
    (here : s.place r = .starting) :
    ∃ t, Runs.run (step wait) s [(r,.openPath),(r,.lock)] = some t ∧ t.place r = .locked s.fresh ∧
      (∀ q, q ≠ r → t.place q = s.place q) ∧ ∀ i, i ≠ s.fresh → t.owner i = s.owner i := by
  have unowned : s.owner s.fresh = none := by
    cases taken : s.owner s.fresh with
    | none => rfl
    | some q =>
      have inside := owned.place_fresh q s.fresh (.inr ((owned.owner_locked _ q).mp taken))
      omega
  refine ⟨(({s with entry := some s.fresh,fresh := s.fresh + 1}.move r (.opened s.fresh)).setOwner s.fresh
    (some r)).move r (.locked s.fresh),?_,by simp,fun q other => by simp [other],fun i other => by simp [other]⟩
  simp [Runs.run,step,here,gone,unowned]

/-- Unlinking the path while somebody uses its inode lets a newcomer in beside them. -/
private theorem unlink_breaks (wait : P → Bool) (s : State P) (p q r : P) (inode : Nat) (owned : Owned s)
    (here : s.place p = .closed) (uses : (s.place q).Uses inode) (idle : s.place r = .starting) :
    ∃ more t, Runs.run (step wait) s ((p,.unlink)::more) = some t ∧ ¬ Exclusive t := by
  have unlinked : step wait s (p,.unlink) = some ({s with entry := none}.move p .exited) := by simp [step,here]
  have after := owned_step wait s _ _ owned unlinked
  have apart (o : P) (i : Nat) (inUse : (s.place o).Uses i) : o ≠ p ∧ o ≠ r := by
    constructor
    · rintro rfl
      simp [Place.Uses,here] at inUse
    · rintro rfl
      simp [Place.Uses,idle] at inUse
  have idle' : ({s with entry := none}.move p .exited).place r = .starting := by
    rw [move_place,if_neg]
    · exact idle
    · rintro rfl
      simp [here] at idle
  obtain ⟨t,reached,locked,others,owners⟩ := newcomer_locks wait _ r after rfl idle'
  have whole : Runs.run (step wait) s [(p,.unlink),(r,.openPath),(r,.lock)] = some t := by
    rw [Runs.run_cons s _ _ _ unlinked]
    exact reached
  have kept (o : P) (i : Nat) (inUse : (s.place o).Uses i) : t.place o = s.place o := by
    rw [others o (apart o i inUse).2,move_place,if_neg (apart o i inUse).1]
  cases holder : s.owner inode with
  | some o =>
    have held := (owned.owner_locked inode o).mp holder
    have stays := (kept o inode (.inr held)).trans held
    exact ⟨_,t,whole,fun exclusive => (apart o inode (.inr held)).2 (exclusive o r inode s.fresh stays locked)⟩
  | none =>
    have waiting : s.place q = .opened inode := by
      rcases uses with waiting | held
      · exact waiting
      · simp [(owned.owner_locked inode q).mpr held] at holder
    have below := owned.place_fresh q inode uses
    have stays := (kept q inode uses).trans waiting
    have free : t.owner inode = none := (owners inode (by change inode ≠ s.fresh; omega)).trans holder
    refine ⟨[(r,.openPath),(r,.lock)] ++ [(q,.lock)],(t.setOwner inode (some q)).move q (.locked inode),?_,?_⟩
    · rw [← List.cons_append,Runs.run_append,whole]
      simp [Runs.run,step,stays,free]
    · intro exclusive
      have other := (apart q inode uses).2
      exact other (exclusive q r inode s.fresh (by simp) (by simp [Ne.symm other,locked]))

/-- The lock excludes in every run in which a process unlinks the path only when no
other one has opened it to lock it; a run that does otherwise can be continued to
two processes that hold the lock. -/
theorem lock_exclusive (wait : P → Bool) (entry : Option Nat) :
    (∀ actions t, Runs.Meets (step wait) Alone (start entry) actions →
      Runs.run (step wait) (start entry) actions = some t → Exclusive t) ∧
    (∀ actions s p q r inode, Runs.run (step wait) (start entry) actions = some s → s.place p = .closed →
      (s.place q).Uses inode → s.place r = .starting →
      ∃ more t, Runs.run (step wait) s ((p,.unlink)::more) = some t ∧ ¬ Exclusive t) := by
  have owned := Runs.run_invariant Owned (owned_step wait) (start entry)
  constructor
  · intro actions t alone reached
    have named := Runs.run_guarded Named (named_step wait) (start entry) t actions
      (by simp [Named,start,Place.Uses]) alone reached
    exact exclusive_of_named t (owned t actions (owned_start entry) reached) named
  · intro actions s p q r inode reached here uses idle
    exact unlink_breaks wait s p q r inode (owned s actions (owned_start entry) reached) here uses idle

/-- One leaves while a second one waits for the inode; a third one creates a new one. -/
def handover : List (Fin 3 × Act) :=
  [(0,.openPath),(0,.lock),(1,.openPath),(0,.work),(0,.close),(0,.closeAgain),(1,.lock),(0,.unlink),
    (2,.openPath),(2,.lock)]

theorem lock_handover :
    ¬ ∀ t, Runs.run (step (fun _ : Fin 3 => true)) (start none) handover = some t → Exclusive t := by
  intro exclusive
  have both : (Runs.run (step (fun _ : Fin 3 => true)) (start none) handover).map (fun t => (t.place 1,t.place 2)) =
      some (.locked 0,.locked 1) := by decide
  obtain ⟨t,reached,places⟩ := Option.map_eq_some_iff.mp both
  obtain ⟨second,third⟩ := Prod.mk.inj places
  exact absurd (exclusive t reached 1 2 0 1 second third) (by decide)

end Jbdtool.Lock
