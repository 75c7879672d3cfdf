import Jbdtool.Lock
import Jbdtool.Main
import Jbdtool.Strele
import Jbdtool.Transports

/-! Several processes with targets of their own: each one locks the file that stands for its
target, and the serial transport opens what strele and access make of the target. -/
namespace Jbdtool.Devices
open CString Split Strele Transports
variable {P : Type}

/-- The path that serial_open opens, for what main leaves of the target. -/
def device (access : Bytes → Bool) (target : Bytes) : Option Bytes := do
  let element ← strele 0 (bytes ",") (target.takeWhile (· ≠ 44))
  return serialPath access (serialNew element.1).target

/-- Every path has its lock. -/
abbrev State (P : Type) := Bytes → Lock.State P

def start (leftover : Bytes → Option Nat) : State P := fun path => Lock.start (leftover path)

section
variable (target : P → Bytes)

/-- Where a process is with the lock of its own path. -/
def place (s : State P) (p : P) : Lock.Place := (s (lockfile (target p))).place p

variable [DecidableEq P]

def step (wait : P → Bool) (s : State P) (a : P × Lock.Act) : Option (State P) :=
  (Lock.step wait (s (lockfile (target a.1))) a).map (Function.update s (lockfile (target a.1)))

def Alone (s : State P) (a : P × Lock.Act) : Prop := Lock.Alone (s (lockfile (target a.1))) a

end

def named (c : UInt8) : Bool := isdigit c || (65 ≤ c && c ≤ 90) || (97 ≤ c && c ≤ 122) || c == 95 || c == 45

def suffix (s : Bytes) : Bytes := ((s.map (fun c => if c = 58 then 95 else c)).reverse.takeWhile named).reverse

private theorem lockfile_suffix (target : Bytes) :
    lockfile target = bytes "/tmp/" ++ suffix (target.takeWhile (· ≠ 44)) ++ bytes ".lock" := rfl

/-- A slash ends the suffix. -/
private theorem suffix_dev (s : Bytes) : suffix (bytes "/dev/" ++ s) = suffix s := by
  have front : (bytes "/dev/").map (fun c => if c = 58 then 95 else c) = bytes "/dev/" := rfl
  have none : (bytes "/dev/").reverse.takeWhile named = [] := rfl
  unfold suffix
  rw [List.map_append,front,List.reverse_append,List.takeWhile_append,none,List.append_nil]
  split_ifs with whole
  · rw [(List.takeWhile_prefix named).eq_of_length whole]
  · rfl

private theorem suffix_serialPath (access : Bytes → Bool) (target : Bytes) :
    suffix (serialPath access target) = suffix target := by
  unfold serialPath
  split_ifs
  · exact suffix_dev target
  · rfl

/-- A target without quotes and blanks that fits into the session is opened as it is. -/
private theorem device_plain (access : Bytes → Bool) (target : Bytes) (plain : Plain target)
    (fits : (target.takeWhile (· ≠ 44)).length ≤ 31) :
    device access target = some (serialPath access (target.takeWhile (· ≠ 44))) := by
  have inside : Plain (target.takeWhile (· ≠ 44)) := fun c member => plain c ((List.takeWhile_prefix _).subset member)
  have comma : bytes "," = [44] := rfl
  have single : split [44] (target.takeWhile (· ≠ 44)) = [target.takeWhile (· ≠ 44)] := by
    apply split_last
    rintro i ⟨rest,found⟩
    have first : (44 : UInt8) ∈ [44] ++ rest := List.mem_cons_self
    rw [found] at first
    have member : 44 ∈ target.takeWhile (· ≠ 44) := List.mem_of_mem_drop first
    have other := List.all_eq_true.mp List.all_takeWhile _ member
    simp at other
  have separator : Plain [44] := fun c member => by
    rw [List.mem_singleton.mp member]
    decide
  have element := strele_split 0 [44] (target.takeWhile (· ≠ 44)) (by simp) separator inside (by
    rw [single]
    intro e member
    rw [List.mem_singleton.mp member]
    omega)
  rw [single] at element
  rw [device,comma]
  change (strele (0 : Nat) [44] _).bind _ = _
  rw [element,Option.bind_some]
  change some (serialPath access ((target.takeWhile (· ≠ 44)).take 31)) = _
  rw [List.take_of_length_le fits]

private theorem lockfile_device (access access' : Bytes → Bool) (target target' : Bytes) (plain : Plain target)
    (plain' : Plain target')
    (fits : (target.takeWhile (· ≠ 44)).length ≤ 31) (fits' : (target'.takeWhile (· ≠ 44)).length ≤ 31)
    (same : device access target = device access' target') : lockfile target = lockfile target' := by
  rw [device_plain access target plain fits,device_plain access' target' plain' fits'] at same
  have suffixes := congrArg suffix (Option.some.inj same)
  rw [suffix_serialPath,suffix_serialPath] at suffixes
  rw [lockfile_suffix,lockfile_suffix,suffixes]

section
variable [DecidableEq P] {target : P → Bytes} {wait : P → Bool}

private theorem lock_others {s t : Lock.State P} {p q : P} {act : Lock.Act}
    (enabled : Lock.step wait s (p,act) = some t) (other : q ≠ p) :
    t.place q = s.place q := by
  cases Lock.step_effect wait s t p act enabled <;> simp [other]

private theorem step_component {s t : State P} {a : P × Lock.Act} (enabled : step target wait s a = some t) :
    Lock.step wait (s (lockfile (target a.1))) a = some (t (lockfile (target a.1))) ∧
      ∀ path, path ≠ lockfile (target a.1) → t path = s path := by
  obtain ⟨u,taken,rfl⟩ := Option.map_eq_some_iff.mp enabled
  refine ⟨?_,fun path other => Function.update_of_ne other _ _⟩
  rw [Function.update_self]
  exact taken

/-- What holds of the lock of every path at first, and is kept by the steps on it, holds of all. -/
private theorem component_step {inv : Lock.State P → Prop} {s t : State P} {a : P × Lock.Act} (holds : ∀ path, inv (s path))
    (kept : ∀ u, Lock.step wait (s (lockfile (target a.1))) a = some u → inv u) (enabled : step target wait s a = some t) :
    ∀ path, inv (t path) := by
  obtain ⟨taken,others⟩ := step_component enabled
  intro path
  by_cases own : path = lockfile (target a.1)
  · rw [own]
    exact kept _ taken
  · rw [others path own]
    exact holds path

/-- Processes that have not come to a path, since it is not theirs, stay away from it. -/
def Apart (target : P → Bytes) (s : State P) : Prop := ∀ path q, lockfile (target q) ≠ path → (s path).place q = .starting

private theorem apart_step {s t : State P} {a : P × Lock.Act} (apart : Apart target s)
    (enabled : step target wait s a = some t) :
    Apart target t := by
  obtain ⟨taken,others⟩ := step_component enabled
  intro path q away
  by_cases own : path = lockfile (target a.1)
  · subst own
    have other : q ≠ a.1 := fun same => away (by rw [same])
    rw [lock_others taken other]
    exact apart _ q away
  · rw [others path own]
    exact apart path q away

end

/-- No two processes are in the critical section with one serial device, where no process
unlinks a path that another one of it has opened to lock; and nobody has to wait for a path of its own. -/
theorem serial_exclusive [DecidableEq P] (wait : P → Bool) (access : P → Bytes → Bool) (target : P → Bytes)
    (leftover : Bytes → Option Nat) (plain : ∀ p, Plain (target p)) (fits : ∀ p, ((target p).takeWhile (· ≠ 44)).length ≤ 31)
    (actions : List (P × Lock.Act)) (t : State P) (alone : Runs.Meets (step target wait) (Alone target) (start leftover) actions)
    (reached : Runs.run (step target wait) (start leftover) actions = some t) :
    (∀ p q i j, place target t p = .locked i → place target t q = .locked j →
      device (access p) (target p) = device (access q) (target q) → p = q) ∧
    ∀ p i, place target t p = .opened i → (∀ q, lockfile (target q) = lockfile (target p) → q = p) →
      ∃ u, step target wait t (p,.lock) = some u ∧ place target u p = .locked i := by
  have owned : ∀ path, Lock.Owned (t path) := by
    apply Runs.run_invariant (fun s => ∀ path, Lock.Owned (s path)) _ (start leftover) t actions _ reached
    · intro s u a holds enabled
      apply component_step holds _ enabled
      intro v taken
      exact Lock.owned_step wait _ v a (holds _) taken
    · exact fun path => Lock.owned_start (leftover path)
  have named : ∀ path, Lock.Named (t path) := by
    apply Runs.run_guarded (fun s => ∀ path, Lock.Named (s path)) _ (start leftover) t actions _ alone reached
    · intro s u a holds alone enabled
      apply component_step holds _ enabled
      intro v taken
      exact Lock.named_step wait _ v a (holds _) alone taken
    · intro path
      simp [Lock.Named,start,Lock.start,Lock.Place.Uses]
  have apart : Apart target t :=
    Runs.run_invariant (Apart target) (fun _ _ _ holds enabled => apart_step holds enabled) _ t actions (fun _ _ _ => rfl) reached
  constructor
  · intro p q i j first second same
    have path := lockfile_device _ _ _ _ (plain p) (plain q) (fits p) (fits q) same
    unfold place at first second
    rw [← path] at second
    exact Lock.exclusive_of_named _ (owned _) (named _) p q i j first second
  · intro p i here sole
    unfold place at here
    have free : (t (lockfile (target p))).owner i = none := by
      cases holder : (t (lockfile (target p))).owner i with
      | none => rfl
      | some q =>
        have locked := ((owned _).owner_locked i q).mp holder
        by_cases own : lockfile (target q) = lockfile (target p)
        · rw [sole q own,here] at locked
          cases locked
        · rw [apart _ q own] at locked
          cases locked
    have taken : Lock.step wait (t (lockfile (target p))) (p,.lock) =
        some (((t (lockfile (target p))).setOwner i (some p)).move p (.locked i)) := by
      simp only [Lock.step,here,free,if_true]
    refine ⟨_,congrArg (Option.map _) taken,?_⟩
    unfold place
    rw [Function.update_self,Lock.move_place,if_pos rfl]

/-- One process holds the lock, a second one names the same device differently. -/
def twoNames : List (Fin 2 × Lock.Act) := [(0,.openPath),(0,.lock),(1,.openPath)]

def sameDevice (p : Fin 2) : Bytes := if p = 0 then bytes "/dev/ttyS0,9600" else bytes "ttyS0"

theorem serial_exclusive_two : ¬ ∃ t, Runs.run (step sameDevice (fun _ => true)) (start fun _ => none) twoNames = some t ∧
    place sameDevice t 0 = .locked 0 ∧ place sameDevice t 1 = .locked 0 := by
  rintro ⟨t,reached,first,second⟩
  have plain (p : Fin 2) : Plain (sameDevice p) := by
    unfold Plain
    revert p
    decide +kernel
  have calm : ∀ a ∈ twoNames, a.2 ≠ .unlink := by decide
  have alone : Runs.Meets (step sameDevice (fun _ => true)) (Alone sameDevice) (start fun _ => none) twoNames :=
    Runs.meets_everywhere _ _ fun a member _ unlinks => absurd unlinks (calm a member)
  have same := (serial_exclusive (fun _ => true) (fun _ _ => true) sameDevice (fun _ => none) plain (by decide +kernel) twoNames t
    alone reached).1 0 1 0 0 first second (by decide +kernel)
  exact absurd same (by decide)

end Jbdtool.Devices
