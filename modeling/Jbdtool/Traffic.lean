import Jbdtool.Eeprom

/-! The session of the transport: what main sends and receives while it is open, and what
it sends after it has closed it. -/
namespace Jbdtool
open CString Monitor Traced
variable {τ : Type}

/-- The opens not closed yet. Traffic and a close need one. -/
def session : Nat → Event → Option Nat
  | n, .opened r => some (if r = 0 then n + 1 else n)
  | 0, .closed => none
  | n + 1, .closed => some n
  | 0, .wrote _ _ => none
  | 0, .received _ => none
  | 0, .canWrote _ => none
  | 0, .canReceived _ _ => none
  | n, _ => some n

/-- All traffic is inside an open session, and no session is closed twice. -/
def InSession (events : List Event) : Prop := Runs.run session 0 events ≠ none

instance (events : List Event) : Decidable (InSession events) :=
  inferInstanceAs (Decidable (_ ≠ _))

def Event.Inner : Event → Prop
  | .opened _ => False
  | .closed => False
  | _ => True

/-- Nor any traffic. -/
def Event.Quiet : Event → Prop
  | .opened _ => False
  | .closed => False
  | .wrote _ _ => False
  | .received _ => False
  | .canWrote _ => False
  | .canReceived _ _ => False
  | _ => True

theorem session_inner (n : Nat) (e : Event) (inner : e.Inner) : session (n + 1) e = some (n + 1) := by
  cases e <;> first | rfl | cases inner

theorem session_quiet (n : Nat) (e : Event) (quiet : e.Quiet) : session n e = some n := by
  cases e <;> cases n <;> first | rfl | cases quiet

instance : Routine Event.Inner where
  plain e known := by cases e <;> trivial

instance (host : Host τ) : Ordinary host Event.Inner (fun _ => True) where
  rw _ _ _ _ := emits_rw trivial fun _ => trivial

section
variable {host : Host τ} {n : Nat}

private theorem inner_event {e : Event} (inner : e.Inner) : Emits Event.Inner (Traced.emit e : Program τ Unit) :=
  emits_emit inner

theorem inner_start : Emits Event.Inner (jbdEepromStart host) :=
  emits_bind (inner_event trivial) fun _ => emits_bind (calls_rw trivial) fun _ =>
    emits_bind (inner_event trivial) fun _ => emits_pure _

theorem inner_end : Emits Event.Inner (jbdEepromEnd host) :=
  emits_bind (inner_event trivial) fun _ => emits_bind (calls_rw trivial) fun _ =>
    emits_bind (inner_event trivial) fun _ => emits_pure _

theorem inner_mosfet (val : Int) : Emits Event.Inner (jbdSetMosfet host val) := by
  have left {r : Int} : Emits Event.Inner (do Traced.emit (.leave .jbdSetMosfet r); return r : Program τ Int) :=
    emits_bind (inner_event trivial) fun _ => emits_pure _
  refine emits_bind (inner_event trivial) fun _ => emits_bind inner_start fun _ => ?_
  refine emits_ite (fun _ => left) fun _ => emits_bind (calls_rw trivial) fun _ => ?_
  exact emits_bind inner_end fun _ => emits_ite (fun _ => left) fun _ => left

theorem inner_reset : Emits Event.Inner (jbdReset host) :=
  emits_bind (calls_rw trivial) fun _ => emits_ite
    (fun _ => emits_bind (calls_rw trivial) fun _ => emits_pure _) fun _ => emits_pure _

/-- From `n` open sessions to `n'`. -/
abbrev Sessions {α : Type} (n : Nat) (m : Main τ α) (n' : Nat) : Prop :=
  Guarded session (· = n) m (fun _ p => p = n') (fun _ _ => True)

/-- Out of main in any case. -/
abbrev Leaves {α : Type} (n : Nat) (m : Main τ α) : Prop :=
  Guarded session (· = n) m (fun _ _ => False) (fun _ _ => True)

private theorem sessions_same {α : Type} {a : α} : Sessions n (pure a : Main τ α) n := guarded_pure fun _ holds => holds

private theorem leaves_throw {α : Type} {code : Int} : Leaves n (throw code : Main τ α) := guarded_throw fun _ _ => trivial

private theorem sessions_throw {α : Type} {code : Int} {n' : Nat} : Sessions n (throw code : Main τ α) n' :=
  guarded_throw fun _ _ => trivial

private theorem sessions_leaves {α β : Type} {m : Main τ α} {next : α → Main τ β} {n' : Nat} (gone : Leaves n m) :
    Sessions n (m >>= next) n' :=
  guarded_bind gone fun _ _ absurd => absurd.elim

private theorem sessions_quiet {α : Type} {m : Program τ α} (quiet : Emits Event.Quiet m) :
    Sessions n (liftM m : Main τ α) n :=
  guarded_lift (triple_unseen (fun p e start quiet => by rw [start,session_quiet n e quiet]) quiet)

private theorem triple_inner {α : Type} {m : Program τ α} (inner : Emits Event.Inner m) :
    Triple session (· = n + 1) m (fun _ => (· = n + 1)) :=
  triple_unseen (fun p e start inner => by rw [start,session_inner n e inner]) inner

private theorem sessions_inner {α : Type} {m : Program τ α} (inner : Emits Event.Inner m) :
    Sessions (n + 1) (liftM m : Main τ α) (n + 1) :=
  guarded_lift (triple_inner inner)

private theorem sessions_print {text : Bytes} : Sessions n (liftM (print text : Program τ Unit) : Main τ Unit) n :=
  sessions_quiet (emits_emit trivial)

private theorem leaves_failWith {α : Type} {text : Bytes} : Leaves n (failWith text : Main τ α) :=
  guarded_bind sessions_print fun _ => leaves_throw

private theorem openOrReturn_sessions : Sessions n (openOrReturn host) (n + 1) := by
  have opened : Triple session (· = n) (packOpen host) (fun r p => p = if r = 0 then n + 1 else n) := by
    rintro p rfl w
    exact ⟨_,rfl,rfl⟩
  refine guarded_bind (guarded_lift opened) fun r => guarded_ite (fun _ => sessions_throw) fun zero => ?_
  rw [if_pos (not_not.mp zero)]
  exact sessions_same

private theorem startOrReturn_sessions : Sessions (n + 1) (startOrReturn host) (n + 1) :=
  guarded_bind (sessions_inner inner_start) fun _ => guarded_ite (fun _ => sessions_throw) fun _ => sessions_same

private theorem packClose_sessions : Sessions (n + 1) (liftM (packClose host) : Main τ Unit) n := by
  refine guarded_lift ?_
  rintro p rfl w
  exact ⟨n,rfl,rfl⟩

private theorem endAndClose_sessions : Sessions (n + 1) (liftM (endAndClose host) : Main τ Unit) n := by
  refine guarded_lift (triple_bind (triple_inner inner_end) fun _ => ?_)
  rintro p rfl w
  exact ⟨n,rfl,rfl⟩

private theorem setFets_sessions (s : Settings) (info : JbdInfo) : Sessions n (setFets host s info) n := by
  have printed {what : Bytes} {state : Int} : Emits Event.Inner (printFet what state : Program τ Unit) :=
    emits_ite (fun _ => calls_print) fun _ => emits_pure _
  refine guarded_bind openOrReturn_sessions fun _ => ?_
  refine guarded_bind (sessions_inner (calls_getInfo trivial trivial trivial)) fun r => ?_
  refine guarded_ite (fun _ => ?_) fun _ => guarded_bind packClose_sessions fun _ => sessions_same
  refine guarded_bind (sessions_inner (inner_mosfet _)) fun i => ?_
  refine guarded_ite (fun _ => ?_) fun _ => guarded_bind packClose_sessions fun _ => sessions_same
  refine guarded_bind (sessions_inner printed) fun _ => guarded_bind (sessions_inner printed) fun _ => ?_
  exact guarded_bind packClose_sessions fun _ => sessions_same

private theorem resetBms_leaves : Leaves n (resetBms host) := by
  refine guarded_bind sessions_print fun _ => guarded_bind openOrReturn_sessions fun _ => ?_
  refine guarded_bind (sessions_inner inner_start) fun _ => guarded_ite (fun _ => ?_) fun _ => ?_
  · refine guarded_bind (sessions_inner inner_reset) fun _ => guarded_bind (sessions_inner inner_end) fun _ => ?_
    exact guarded_bind packClose_sessions fun _ => leaves_throw
  · exact guarded_bind packClose_sessions fun _ => leaves_throw

private theorem dumpAll_leaves : Leaves n (dumpAll host) := by
  refine guarded_bind openOrReturn_sessions fun _ => guarded_bind startOrReturn_sessions fun _ => ?_
  refine guarded_bind (sessions_inner calls_dumpRegisters) fun _ => ?_
  exact guarded_bind endAndClose_sessions fun _ => leaves_throw

private theorem region_sessions {m : Main τ Unit} (inside : Sessions (n + 1) m (n + 1)) :
    Sessions n (do
      openOrReturn host
      startOrReturn host
      m
      endAndClose host) n :=
  guarded_bind openOrReturn_sessions fun _ => guarded_bind startOrReturn_sessions fun _ =>
    guarded_bind inside fun _ => endAndClose_sessions

private theorem readRegister_sessions (fmt : Fmt) (reg : Int) : Sessions n (readRegister host fmt reg) n := by
  refine guarded_bind openOrReturn_sessions fun _ => guarded_bind startOrReturn_sessions fun _ => ?_
  refine guarded_bind (sessions_inner (calls_readReply trivial)) fun _ => ?_
  refine guarded_ite (fun _ => guarded_bind (sessions_inner calls_pdisp) fun _ => ?_) fun _ => ?_
  all_goals exact endAndClose_sessions

private theorem readMembers_sessions (fmt : Fmt) (members : List (Bytes × Json)) :
    Sessions (n + 1) (readMembers host fmt members) (n + 1) := by
  induction members with
  | nil => exact sessions_same
  | cons member members ih =>
    refine guarded_bind (sessions_inner calls_findParm) fun found => ?_
    cases found with
    | none => exact guarded_bind sessions_print fun _ => sessions_throw
    | some pp => exact guarded_bind (sessions_inner (calls_readParm trivial)) fun _ => ih

private theorem readOperands_sessions (fmt : Fmt) (operands : List Bytes) :
    Sessions (n + 1) (readOperands host fmt operands) (n + 1) := by
  induction operands with
  | nil => exact sessions_same
  | cons name operands ih =>
    refine guarded_bind (sessions_inner calls_findParm) fun found => ?_
    cases found with
    | none => exact guarded_bind sessions_print fun _ => sessions_throw
    | some pp => exact guarded_bind (sessions_inner (calls_readParm trivial)) fun _ => ih

private theorem parseFile_sessions (env : Env) (filename : Bytes) (next : List (Bytes × Json) → Main τ Unit)
    (known : ∀ members, fileValue env filename = some (.object members) → Sessions n (next members) n) :
    Sessions n (parseFile env filename >>= next) n := by
  unfold parseFile
  rw [bind_assoc]
  refine guarded_bind (sessions_quiet (emits_modify _)) fun _ => ?_
  cases value : fileValue env filename with
  | none => exact sessions_leaves leaves_failWith
  | some v =>
    cases v
    case object members => exact known members value
    all_goals exact sessions_leaves leaves_failWith

private theorem openLines_sessions (env : Env) (filename : Bytes) :
    Sessions n (openLines env filename : Main τ (List Bytes)) n := by
  unfold openLines
  cases env.files filename with
  | ok content => exact sessions_same
  | error reason => exact guarded_bind sessions_print fun _ => sessions_throw

private theorem readParms_sessions (env : Env) (s : Settings) (operands : List Bytes) :
    Sessions n (readParms host env s operands) n := by
  unfold readParms
  cases s.filename with
  | none =>
    refine guarded_bind openOrReturn_sessions fun _ => guarded_bind startOrReturn_sessions fun _ => ?_
    refine guarded_ite (fun _ => ?_) fun _ => ?_
    · exact guarded_bind (sessions_inner calls_readAll) fun _ => endAndClose_sessions
    · exact guarded_bind (readOperands_sessions s.fmt operands) fun _ => endAndClose_sessions
  | some filename =>
    refine guarded_ite (fun _ => ?_) fun _ => ?_
    · exact parseFile_sessions env filename _ fun members _ => region_sessions (readMembers_sessions s.fmt members)
    · exact guarded_bind (openLines_sessions env filename) fun lines => region_sessions (sessions_inner calls_readLines)

private theorem readAction_sessions (env : Env) (s : Settings) (operands : List Bytes) :
    Sessions n (readAction host env s operands) n := by
  have parms := @readParms_sessions τ host n env s operands
  refine guarded_ite (fun _ => sessions_leaves leaves_failWith) fun _ => guarded_ite (fun _ => ?_) fun _ => parms
  exact guarded_bind (readRegister_sessions s.fmt s.reg) fun _ => parms

end

/-- The loop over the members can come to its end: no unknown name stands before the
first value that goes to write_parm. -/
def endsLoop (object : List (Bytes × Json)) : List (Bytes × Json) → Bool
  | [] => true
  | (name,_)::members => match getp name with
    | none => false
    | some pp => match memberText object pp.label with
      | .error _ => endsLoop object members
      | .ok _ => true

/-- The WRITE action comes to the end of a JSON file. -/
def closesTwice (env : Env) (s : Settings) : Bool :=
  s.action = .write && s.transport ≠ some (bytes "can") && match s.filename with
    | none => false
    | some filename => isJson filename && match fileValue env filename with
      | some (.object members) => endsLoop members members
      | _ => false

def SessionKept (env : Env) (args : List Bytes) : Prop :=
  match readOptions args with
  | .error _ => True
  | .ok (s,_) => reachesAction env s → closesTwice env s = false

section
variable {host : Host τ} {n : Nat}

private theorem writeMembers_leaves (object members : List (Bytes × Json)) (returned : endsLoop object members = false) :
    Leaves (n + 1) (writeMembers host object members) := by
  induction members with
  | nil => cases returned
  | cons member members ih =>
    obtain ⟨name,value⟩ := member
    unfold endsLoop at returned
    refine guarded_value (fun pp => pp = getp name) (triple_inner calls_findParm) (fun _ => rfl) fun pp same => ?_
    rw [same]
    cases found : getp name with
    | none => exact leaves_failWith
    | some pp =>
      simp only [found] at returned ⊢
      cases text : memberText object pp.label with
      | error type =>
        simp only [text] at returned ⊢
        exact guarded_bind sessions_print fun _ => ih returned
      | ok value => simp [text] at returned

private theorem writeAction_sessions (env : Env) (s : Settings) (operands : List Bytes) (write : s.action = .write)
    (kept : closesTwice env s = false) : Sessions n (writeAction host env s operands) n := by
  refine guarded_ite (fun _ => sessions_leaves leaves_failWith) fun serial => ?_
  cases file : s.filename with
  | none => exact region_sessions (sessions_inner calls_writeOperands)
  | some filename =>
    simp only [closesTwice,write,serial,file,decide_true,Bool.true_and,ne_eq,not_false_eq_true] at kept
    refine guarded_ite (fun json => ?_) fun _ => ?_
    · refine parseFile_sessions env filename _ fun members value => ?_
      simp only [json,value,Bool.true_and] at kept
      refine guarded_bind openOrReturn_sessions fun _ => guarded_bind startOrReturn_sessions fun _ => ?_
      exact sessions_leaves (writeMembers_leaves members members kept)
    · exact guarded_bind (openLines_sessions env filename) fun lines =>
        region_sessions (sessions_inner calls_writeLines)

private theorem runAction_sessions (env : Env) (s : Settings) (operands : List Bytes) (info : JbdInfo)
    (kept : closesTwice env s = false) : Sessions n (runAction host env s operands info) n := by
  unfold runAction
  cases action : s.action with
  | info =>
    refine guarded_bind openOrReturn_sessions fun _ => ?_
    exact guarded_bind (sessions_inner (calls_showInfo trivial trivial trivial)) fun _ => packClose_sessions
  | read => exact readAction_sessions env s operands
  | write => exact writeAction_sessions env s operands action kept

theorem closesTwice_output (env : Env) (s : Settings) : closesTwice env s.output = closesTwice env s := by
  unfold Settings.output
  split
  · split_ifs <;> rfl
  · rfl

private theorem mainBody_sessions (env : Env) (s : Settings) (operands : List Bytes)
    (kept : reachesAction env s → closesTwice env s = false) : Sessions n (mainBody host env s operands) n := by
  refine guarded_ite (fun _ => sessions_leaves leaves_throw) fun loads => ?_
  refine guarded_ite (fun _ => sessions_leaves leaves_throw) fun locks => ?_
  have printed : Emits Event.Quiet (printDocument s.output : Program τ Unit) :=
    emits_ite (fun _ => emits_bind emits_get fun _ => emits_emit trivial) fun _ => emits_pure _
  have last (reset : s.reset ≠ true) (info : JbdInfo) : Sessions n (do
      openOutput env s
      if s.dump then dumpAll host
      runAction host env s.output operands info
      (printDocument s.output : Program τ Unit) : Main τ Unit) n := by
    by_cases made : created env s
    · rw [openOutput_created env s made]
      refine guarded_bind (guarded_ite (fun _ => sessions_quiet (emits_modify _)) fun _ => sessions_same) fun _ => ?_
      refine guarded_ite (fun _ => sessions_leaves dumpAll_leaves) fun dump => ?_
      refine guarded_bind (runAction_sessions env s.output operands info ?_) fun _ => sessions_quiet printed
      rw [closesTwice_output]
      apply kept
      simp_all [reachesAction]
    · rw [openOutput_failed env s made]
      exact sessions_throw
  refine guarded_ite (fun _ => guarded_bind (setFets_sessions s .zero) fun info => ?_) fun _ =>
    guarded_bind sessions_same fun info => ?_
  all_goals exact guarded_ite (fun _ => sessions_leaves resetBms_leaves) fun reset => last reset _

theorem main_sessions (env : Env) (args : List Bytes) (kept : SessionKept env args) (w : World τ) :
    InSession (main host env args w).events := by
  suffices watched : Triple session (· = 0) (main host env args) (fun _ _ => True) by
    obtain ⟨p,run,-⟩ := watched 0 rfl w
    rw [InSession,run]
    exact Option.some_ne_none p
  unfold main
  unfold SessionKept at kept
  cases read : readOptions args with
  | error e =>
    have usage : Emits Event.Quiet (do
        if e.usage then Traced.emit .usage
        return e.code : Program τ Int) :=
      emits_ite (fun _ => emits_bind (emits_emit trivial) fun _ => emits_pure _) fun _ => emits_pure _
    have quiet : Emits Event.Quiet (do
        if e.text ≠ [] then print e.text
        if e.usage then Traced.emit .usage
        return e.code : Program τ Int) :=
      emits_ite (fun _ => emits_bind (emits_emit trivial) fun _ => usage) fun _ => usage
    refine triple_weaken (triple_unseen ?_ quiet) (fun _ holds => holds) fun _ _ _ => trivial
    rintro p e rfl unseen
    exact session_quiet 0 e unseen
  | ok given =>
    obtain ⟨s,operands⟩ := given
    simp only [read] at kept
    refine triple_bind (mainBody_sessions env s operands kept) fun r => ?_
    cases r <;> exact triple_pure fun _ _ => trivial

end

end Jbdtool
