import Jbdtool.Calls
import Jbdtool.Base.Monitor

/-! The EEPROM bracket over whole runs of main: what follows a start that returned 0,
and which registers are read and written outside. -/
namespace Jbdtool
open CString Monitor
variable {τ : Type}

def isParm (reg : UInt8) : Bool := params.any (fun pp => pp.reg == reg)

inductive Mode where
  | closed
  | opened
deriving DecidableEq, Repr

/-- Open from a start that returned 0 to the next end; a parameter register is only
accessed while open. -/
def bracket : Mode → Event → Option Mode
  | mode, .leave .jbdEepromStart r => some (if r = 0 then .opened else mode)
  | _, .enter .jbdEepromEnd => some .closed
  | .closed, .rwCall _ reg => if isParm reg then none else some .closed
  | mode, _ => some mode

/-- Accesses are bracketed, and the last bracket is closed. -/
def Bracketed (events : List Event) : Prop := Runs.run bracket .closed events = some .closed

instance (events : List Event) : Decidable (Bracketed events) :=
  inferInstanceAs (Decidable (Runs.run bracket .closed events = some .closed))

/-- Inside jbd_set_mosfet no start is answered with a payload; the state says
whether we are inside. -/
def fetStart : Bool → Event → Option Bool
  | _, .enter .jbdSetMosfet => some true
  | _, .leave .jbdSetMosfet _ => some false
  | true, .leave .jbdEepromStart r => if r > 0 then none else some true
  | inside, _ => some inside

/-- No start inside jbd_set_mosfet is answered with a payload. -/
def FetStarted (events : List Event) : Prop := Runs.run fetStart false events ≠ none

instance (events : List Event) : Decidable (FetStarted events) :=
  inferInstanceAs (Decidable (_ ≠ _))

abbrev watch : Option Mode × Option Bool → Event → Option (Option Mode × Option Bool) := both bracket fetStart

/-- In a mode and inside jbd_set_mosfet or not, unless both monitors have refused. -/
def At (mode : Mode) (inside : Bool) (p : Option Mode × Option Bool) : Prop :=
  p = (some mode,some inside) ∨ p = (none,none)

section
variable {mode : Mode} {inside : Bool}

private theorem triple_event {e : Event} (mode' : Mode) (inside' : Bool) (assumed : fetStart inside e = some inside')
    (stepped : bracket mode e = some mode') :
    Triple watch (At mode inside) (Traced.emit e : Program τ Unit) (fun _ => At mode' inside') := by
  refine triple_emit fun p start => ?_
  rcases start with rfl | rfl
  · exact ⟨(some mode',some inside'),by simp [both,assumed,stepped],.inl rfl⟩
  · exact ⟨(none,none),rfl,.inr rfl⟩

theorem watch_calls (e : Event) (only : e.Calls (fun reg => isParm reg = false)) :
    watch (some mode,some inside) e = some (some mode,some inside) := by
  cases e
  case enter | leave => exact only.elim
  case rwCall action reg =>
    have other : isParm reg = false := only
    cases mode <;> simp [both,bracket,fetStart,other]
  all_goals cases mode <;> cases inside <;> rfl

theorem watch_opened (e : Event) (only : e.Calls (fun _ => True)) :
    watch (some .opened,some inside) e = some (some .opened,some inside) := by
  cases e
  case enter | leave => exact only.elim
  all_goals cases inside <;> rfl

private theorem triple_calls {α : Type} {m : Program τ α} (only : Calls (fun reg => isParm reg = false) m) :
    Triple watch (At mode inside) m (fun _ => At mode inside) := by
  refine triple_unseen (fun p e start quiet => ?_) only
  rcases start with rfl | rfl
  · exact watch_calls e quiet
  · rfl

private theorem triple_opened {α : Type} {m : Program τ α} (only : Calls (fun _ => True) m) :
    Triple watch (At .opened inside) m (fun _ => At .opened inside) := by
  refine triple_unseen (fun p e start quiet => ?_) only
  rcases start with rfl | rfl
  · exact watch_opened e quiet
  · rfl

private theorem start_triple (host : Host τ) : Triple watch (At mode false) (jbdEepromStart host)
    (fun r => At (if r = 0 then .opened else mode) false) := by
  refine triple_bind (triple_event mode false rfl (by cases mode <;> rfl)) fun _ => ?_
  refine triple_bind (triple_calls (calls_rw (by decide))) fun r => ?_
  refine triple_bind (triple_event _ false rfl ?_) fun _ => triple_pure fun _ holds => holds
  cases mode <;> rfl

/-- A start inside jbd_set_mosfet, up to the call behind it. -/
def Answered (r : Int) (p : Option Mode × Option Bool) : Prop :=
  At (if r < 0 then .closed else .opened) true p ∨ r > 0 ∧ p = (some .closed,none)

private theorem start_mosfet (host : Host τ) : Triple watch (At .closed true) (jbdEepromStart host) Answered := by
  refine triple_bind (triple_event .closed true rfl rfl) fun _ => ?_
  refine triple_bind (triple_calls (calls_rw (by decide))) fun r => ?_
  suffices left : Triple watch (At .closed true) (Traced.emit (.leave .jbdEepromStart r.1) : Program τ Unit)
      (fun _ => Answered r.1) from
    triple_bind left fun _ => triple_pure fun _ holds => holds
  refine triple_emit fun p start => ?_
  rcases start with rfl | rfl
  · rcases lt_trichotomy r.1 0 with negative | zero | positive
    · refine ⟨(some .closed,some true),?_,.inl (.inl (by simp [negative]))⟩
      have below : ¬ r.1 > 0 := by omega
      have other : r.1 ≠ 0 := by omega
      simp [both,bracket,fetStart,below,other]
    · exact ⟨(some .opened,some true),by simp [both,bracket,fetStart,zero],.inl (.inl (by simp [zero]))⟩
    · have other : r.1 ≠ 0 := by omega
      exact ⟨(some .closed,none),by simp [both,bracket,fetStart,positive,other],.inr ⟨positive,rfl⟩⟩
  · exact ⟨(none,none),rfl,.inl (.inr rfl)⟩

/-- The write behind a start that is not negative; MOSFET is a parameter register. -/
private theorem write_mosfet (host : Host τ) (payload : Bytes) (r : Int) (started : ¬ r < 0) :
    Triple watch (Answered r) (jbdRw host jbdCmdWrite jbdRegMosfet payload) (fun _ => At .opened true) := by
  rintro p (known | ⟨positive,rfl⟩) w
  · rw [if_neg started] at known
    exact triple_opened (calls_rw trivial) p known w
  · refine ⟨(none,none),?_,.inr rfl⟩
    rw [jbdRw_run]
    exact run_both bracket fetStart none none _

private theorem end_triple (host : Host τ) : Triple watch (At mode inside) (jbdEepromEnd host)
    (fun _ => At .closed inside) := by
  refine triple_bind (triple_event .closed inside ?_ (by cases mode <;> rfl)) fun _ => ?_
  · cases inside <;> rfl
  refine triple_bind (triple_calls (calls_rw (by decide))) fun r => ?_
  refine triple_bind (triple_event .closed inside ?_ rfl) fun _ => triple_pure fun _ holds => holds
  cases inside <;> rfl

private theorem mosfet_triple (host : Host τ) (val : Int) : Triple watch (At .closed false) (jbdSetMosfet host val)
    (fun _ => At .closed false) := by
  have left {r : Int} : Triple watch (At .closed true)
      (do Traced.emit (.leave .jbdSetMosfet r); return r : Program τ Int) (fun _ => At .closed false) :=
    triple_bind (triple_event _ _ rfl rfl) fun _ => triple_pure fun _ holds => holds
  refine triple_bind (triple_event .closed true rfl rfl) fun _ => ?_
  refine triple_bind (start_mosfet host) fun r => triple_ite (fun negative => ?_) fun started => ?_
  · refine triple_weaken left (fun p answered => ?_) fun _ _ holds => holds
    rcases answered with known | ⟨positive,-⟩
    · rwa [if_pos negative] at known
    · omega
  · refine triple_bind (write_mosfet host _ r started) fun _ => triple_bind (end_triple host) fun _ => ?_
    exact triple_ite (fun _ => left) fun _ => left

end

/-- In any mode to a state that is closed, or out of main in one. -/
abbrev Keeps {α : Type} (mode : Mode) (m : Main τ α) (mode' : Mode) : Prop :=
  Guarded watch (At mode false) m (fun _ => At mode' false) (fun _ => At .closed false)

section
variable {mode : Mode} {host : Host τ}

private theorem keeps_same {α : Type} {a : α} : Keeps mode (pure a : Main τ α) mode := guarded_pure fun _ holds => holds

private theorem keeps_exit {α : Type} {code : Int} : Keeps .closed (throw code : Main τ α) mode :=
  guarded_throw fun _ holds => holds

/-- Out of main in any case. -/
abbrev Exits {α : Type} (m : Main τ α) : Prop :=
  Guarded watch (At .closed false) m (fun _ _ => False) (fun _ => At .closed false)

private theorem exits_throw {α : Type} {code : Int} : Exits (throw code : Main τ α) := guarded_throw fun _ holds => holds

private theorem exits_failWith {α : Type} {text : Bytes} : Exits (failWith text : Main τ α) :=
  guarded_bind (guarded_lift (triple_calls calls_print)) fun _ => exits_throw

private theorem keeps_exits {α β : Type} {m : Main τ α} {next : α → Main τ β} (gone : Exits m) :
    Keeps .closed (m >>= next) mode :=
  guarded_bind gone fun _ _ absurd => absurd.elim

private theorem exits_keeps {α : Type} {m : Main τ α} (gone : Exits m) : Keeps .closed m mode :=
  guarded_weaken gone (fun _ holds => holds) fun _ _ absurd => absurd.elim

private theorem keeps_calls {α : Type} {m : Program τ α} (only : Calls (fun reg => isParm reg = false) m) :
    Keeps mode (liftM m : Main τ α) mode :=
  guarded_lift (triple_calls only)

private theorem keeps_opened {α : Type} {m : Program τ α} (only : Calls (fun _ => True) m) :
    Keeps .opened (liftM m : Main τ α) .opened :=
  guarded_lift (triple_opened only)

private theorem openOrReturn_keeps : Keeps .closed (openOrReturn host) .closed :=
  guarded_bind (keeps_calls calls_packOpen) fun _ => guarded_ite (fun _ => keeps_exit) fun _ => keeps_same

private theorem startOrReturn_keeps : Keeps .closed (startOrReturn host) .opened := by
  refine guarded_bind (guarded_lift (start_triple host)) fun r => guarded_ite (fun failed => ?_) fun started => ?_
  · rw [if_neg failed]
    exact keeps_exit
  · rw [if_pos (not_not.mp started)]
    exact keeps_same

private theorem endAndClose_keeps : Keeps mode (liftM (endAndClose host) : Main τ Unit) .closed :=
  guarded_lift (triple_bind (end_triple host) fun _ => triple_calls calls_packClose)

private theorem setFets_keeps (s : Settings) (info : JbdInfo) : Keeps .closed (setFets host s info) .closed := by
  have printed {what : Bytes} {state : Int} :
      Calls (fun reg => isParm reg = false) (printFet what state : Program τ Unit) :=
    Traced.emits_ite (fun _ => calls_print) fun _ => Traced.emits_pure _
  refine guarded_bind openOrReturn_keeps fun _ => ?_
  refine guarded_bind (keeps_calls (calls_getInfo (by decide) (by decide) (by decide))) fun r => ?_
  refine guarded_ite (fun _ => ?_) fun _ => guarded_bind (keeps_calls calls_packClose) fun _ => keeps_same
  refine guarded_bind (guarded_lift (mosfet_triple host _)) fun i => ?_
  refine guarded_ite (fun _ => ?_) fun _ => guarded_bind (keeps_calls calls_packClose) fun _ => keeps_same
  refine guarded_bind (keeps_calls printed) fun _ => guarded_bind (keeps_calls printed) fun _ => ?_
  exact guarded_bind (keeps_calls calls_packClose) fun _ => keeps_same

private theorem resetBms_exits : Exits (resetBms host) := by
  have reset : Calls (fun reg => isParm reg = false) (jbdReset host) :=
    Traced.emits_bind (calls_rw (by decide)) fun _ => Traced.emits_ite
      (fun _ => Traced.emits_bind (calls_rw (by decide)) fun _ => Traced.emits_pure _) fun _ => Traced.emits_pure _
  refine guarded_bind (keeps_calls calls_print) fun _ => guarded_bind openOrReturn_keeps fun _ => ?_
  refine guarded_bind (guarded_lift (start_triple host)) fun r => guarded_ite (fun zero => ?_) fun failed => ?_
  · refine guarded_bind (keeps_calls reset) fun _ => guarded_bind (guarded_lift (end_triple host)) fun _ => ?_
    exact guarded_bind (keeps_calls calls_packClose) fun _ => exits_throw
  · rw [if_neg failed]
    exact guarded_bind (keeps_calls calls_packClose) fun _ => exits_throw

private theorem dumpAll_exits : Exits (dumpAll host) := by
  refine guarded_bind openOrReturn_keeps fun _ => guarded_bind startOrReturn_keeps fun _ => ?_
  exact guarded_bind (keeps_opened calls_dumpRegisters) fun _ => guarded_bind endAndClose_keeps fun _ => exits_throw

end

def refused (pp : JbdParams) (value : Bytes) : Bool :=
  match pp.dt with
  | .func => (parseBits value funcBits).toOption.isNone
  | .ntc => (parseBits value ntcBits).toOption.isNone
  | _ => false

/-- The names up to the first member whose value is refused. -/
def namesWritten (object : List (Bytes × Json)) : List (Bytes × Json) → List Bytes
  | [] => []
  | (name,_)::members => match getp name with
    | none => [name]
    | some pp => match memberText object pp.label with
      | .error _ => name::namesWritten object members
      | .ok value => name::(if refused pp value then [] else namesWritten object members)

/-- The names that are looked up where an unknown one makes main return. -/
def namesLooked (env : Env) (s : Settings) (operands : List Bytes) : List Bytes :=
  if s.transport = some (bytes "can") then [] else
  match s.action,s.filename with
  | .info, _ => []
  | .read, none => if s.all then [] else operands
  | .write, none => []
  | .read, some filename => match isJson filename,fileValue env filename with
    | true, some (.object members) => members.map Prod.fst
    | _, _ => []
  | .write, some filename => match isJson filename,fileValue env filename with
    | true, some (.object members) => namesWritten members members
    | _, _ => []

def created (env : Env) (s : Settings) : Bool :=
  match s.outfile with
  | some outfile => env.creates outfile
  | none => true

def reachesAction (env : Env) (s : Settings) : Bool :=
  env.loads && env.locks (lockfile s.target) !s.dontWait && !s.reset && created env s && !s.dump

def NamesKnown (env : Env) (args : List Bytes) : Prop :=
  match readOptions args with
  | .error _ => True
  | .ok (s,operands) => reachesAction env s → ∀ name ∈ namesLooked env s operands, (getp name).isSome

section
variable {host : Host τ}

private theorem findParm_keeps {α : Type} {mode mode' : Mode} {name : Bytes} {next : Option JbdParams → Main τ α}
    (found : Keeps mode (next (getp name)) mode') :
    Keeps mode ((liftM (findParm name : Program τ (Option JbdParams)) : Main τ (Option JbdParams)) >>= next) mode' := by
  refine guarded_value (fun pp => pp = getp name) (triple_calls calls_findParm) (fun _ => rfl) fun pp same => ?_
  rw [same]
  exact found

private theorem readMembers_keeps (fmt : Fmt) (members : List (Bytes × Json))
    (known : ∀ name ∈ members.map Prod.fst, (getp name).isSome) :
    Keeps .opened (readMembers host fmt members) .opened := by
  induction members with
  | nil => exact keeps_same
  | cons member members ih =>
    obtain ⟨name,value⟩ := member
    obtain ⟨pp,found⟩ := Option.isSome_iff_exists.mp (known name (by simp))
    refine findParm_keeps ?_
    rw [found]
    refine guarded_bind (keeps_opened (calls_readParm trivial)) fun _ => ih fun name member => ?_
    exact known name (List.mem_cons_of_mem _ member)

private theorem readOperands_keeps (fmt : Fmt) (operands : List Bytes) (known : ∀ name ∈ operands, (getp name).isSome) :
    Keeps .opened (readOperands host fmt operands) .opened := by
  induction operands with
  | nil => exact keeps_same
  | cons name operands ih =>
    obtain ⟨pp,found⟩ := Option.isSome_iff_exists.mp (known name (by simp))
    refine findParm_keeps ?_
    rw [found]
    refine guarded_bind (keeps_opened (calls_readParm trivial)) fun _ => ih fun name member => ?_
    exact known name (List.mem_cons_of_mem _ member)

theorem writeParm_refused (pp : JbdParams) (value : Bytes) (w : World τ) (bad : refused pp value) :
    (writeParm host pp value w).value = -1 := by
  have bits (data : Mem UInt8) (table : List JbdBit) (w : World τ)
      (bad : (parseBits value table).toOption.isNone = true) :
      (writeBits host pp data value table w).value = -1 := by
    unfold writeBits
    cases read : parseBits value table with
    | error message => rfl
    | ok mask => simp [read,Except.toOption] at bad
  change (writeParmFrom host (host.parmData w.parmCalls) pp value _).value = -1
  unfold writeParmFrom
  unfold refused at bad
  cases kind : pp.dt <;> simp only [kind] at bad ⊢
  case func | ntc => exact bits _ _ _ bad
  all_goals cases bad

private theorem writeMembers_keeps (object members : List (Bytes × Json))
    (known : ∀ name ∈ namesWritten object members, (getp name).isSome) :
    Keeps .opened (writeMembers host object members) .opened := by
  induction members with
  | nil => exact keeps_same
  | cons member members ih =>
    obtain ⟨name,value⟩ := member
    refine findParm_keeps ?_
    unfold namesWritten at known
    cases found : getp name with
    | none => simp [found] at known
    | some pp =>
      simp only [found] at known ⊢
      cases text : memberText object pp.label with
      | error type =>
        simp only [text,List.forall_mem_cons] at known ⊢
        exact guarded_bind (keeps_opened calls_print) fun _ => ih known.2
      | ok value =>
        simp only [text,List.forall_mem_cons] at known ⊢
        refine guarded_value (fun r => refused pp value → r = -1) (triple_opened (calls_writeParm trivial))
          (fun w bad => writeParm_refused pp value w bad) fun r fails => ?_
        refine guarded_ite (fun _ => keeps_same) fun written => ih ?_
        have sent : refused pp value ≠ true := fun bad => written (by simp [fails bad])
        simpa [sent] using known.2

private theorem readRegister_keeps (fmt : Fmt) (reg : Int) : Keeps .closed (readRegister host fmt reg) .closed := by
  refine guarded_bind openOrReturn_keeps fun _ => guarded_bind startOrReturn_keeps fun _ => ?_
  refine guarded_bind (keeps_opened (calls_readReply trivial)) fun r => guarded_ite (fun _ => ?_) fun _ =>
    endAndClose_keeps
  exact guarded_bind (keeps_opened calls_pdisp) fun _ => endAndClose_keeps

private theorem parseFile_keeps (env : Env) (filename : Bytes) (next : List (Bytes × Json) → Main τ Unit)
    (known : ∀ members, fileValue env filename = some (.object members) → Keeps .closed (next members) .closed) :
    Keeps .closed (parseFile env filename >>= next) .closed := by
  unfold parseFile
  rw [bind_assoc]
  refine guarded_bind (keeps_calls (Traced.emits_modify _)) fun _ => ?_
  cases value : fileValue env filename with
  | none => exact keeps_exits exits_failWith
  | some v =>
    cases v
    case object members => exact known members value
    all_goals exact keeps_exits exits_failWith

private theorem openLines_keeps (env : Env) (filename : Bytes) :
    Keeps .closed (openLines env filename : Main τ (List Bytes)) .closed := by
  unfold openLines
  cases env.files filename with
  | ok content => exact keeps_same
  | error reason => exact exits_keeps exits_failWith

private theorem region_keeps {m : Main τ Unit} (inside : Keeps .opened m .opened) :
    Keeps .closed (do
      openOrReturn host
      startOrReturn host
      m
      endAndClose host) .closed :=
  guarded_bind openOrReturn_keeps fun _ => guarded_bind startOrReturn_keeps fun _ =>
    guarded_bind inside fun _ => endAndClose_keeps

private theorem readParms_keeps (env : Env) (s : Settings) (operands : List Bytes) (serial : s.transport ≠ some (bytes "can"))
    (read : s.action = .read) (known : ∀ name ∈ namesLooked env s operands, (getp name).isSome) :
    Keeps .closed (readParms host env s operands) .closed := by
  simp only [namesLooked,serial,if_false,read] at known
  unfold readParms
  cases file : s.filename with
  | none =>
    simp only [file] at known
    refine guarded_bind openOrReturn_keeps fun _ => guarded_bind startOrReturn_keeps fun _ => ?_
    refine guarded_ite (fun _ => ?_) fun named => ?_
    · exact guarded_bind (keeps_opened calls_readAll) fun _ => endAndClose_keeps
    · rw [if_neg named] at known
      exact guarded_bind (readOperands_keeps s.fmt operands known) fun _ => endAndClose_keeps
  | some filename =>
    simp only [file] at known
    refine guarded_ite (fun json => ?_) fun _ => ?_
    · refine parseFile_keeps env filename _ fun members value => region_keeps (readMembers_keeps s.fmt members ?_)
      simpa only [json,value] using known
    · exact guarded_bind (openLines_keeps env filename) fun lines => region_keeps (keeps_opened calls_readLines)

private theorem writeAction_keeps (env : Env) (s : Settings) (operands : List Bytes) (write : s.action = .write)
    (known : ∀ name ∈ namesLooked env s operands, (getp name).isSome) :
    Keeps .closed (writeAction host env s operands) .closed := by
  unfold namesLooked at known
  refine guarded_ite (fun _ => exits_keeps exits_failWith) fun serial => ?_
  simp only [serial,if_false,write] at known
  cases file : s.filename with
  | none => exact region_keeps (keeps_opened calls_writeOperands)
  | some filename =>
    simp only [file] at known
    refine guarded_ite (fun json => ?_) fun _ => ?_
    · refine parseFile_keeps env filename _ fun members value => ?_
      refine guarded_bind openOrReturn_keeps fun _ => guarded_bind startOrReturn_keeps fun _ => ?_
      refine guarded_bind (writeMembers_keeps members members ?_) fun _ => ?_
      · simpa only [json,value] using known
      · exact guarded_bind endAndClose_keeps fun _ => endAndClose_keeps
    · refine guarded_bind (openLines_keeps env filename) fun lines => region_keeps (keeps_opened calls_writeLines)

private theorem readAction_keeps (env : Env) (s : Settings) (operands : List Bytes) (read : s.action = .read)
    (known : ∀ name ∈ namesLooked env s operands, (getp name).isSome) :
    Keeps .closed (readAction host env s operands) .closed := by
  by_cases can : s.transport = some (bytes "can")
  · unfold readAction
    rw [if_pos can]
    exact keeps_exits exits_failWith
  · have parms := @readParms_keeps τ host env s operands can read known
    unfold readAction
    rw [if_neg can]
    exact guarded_ite (fun _ => guarded_bind (readRegister_keeps _ _) fun _ => parms) fun _ => parms

private theorem runAction_keeps (env : Env) (s : Settings) (operands : List Bytes) (info : JbdInfo)
    (known : ∀ name ∈ namesLooked env s operands, (getp name).isSome) :
    Keeps .closed (runAction host env s operands info) .closed := by
  unfold runAction
  cases action : s.action with
  | info =>
    refine guarded_bind openOrReturn_keeps fun _ => ?_
    refine guarded_bind (keeps_calls (calls_showInfo (by decide) (by decide) (by decide))) fun _ => ?_
    exact keeps_calls calls_packClose
  | read => exact readAction_keeps env s operands action known
  | write => exact writeAction_keeps env s operands action known

theorem namesLooked_output (env : Env) (s : Settings) (operands : List Bytes) :
    namesLooked env s.output operands = namesLooked env s operands := by
  unfold Settings.output
  split
  · split_ifs <;> rfl
  · rfl

theorem openOutput_created (env : Env) (s : Settings) (made : created env s) : (openOutput env s : Main τ Unit) =
    if s.output.outfmt = .json then liftM (startDocument : Program τ Unit) else pure () := by
  unfold openOutput
  cases file : s.outfile with
  | none => rfl
  | some outfile =>
    simp only [created,file] at made
    simp only [made,if_true]

theorem openOutput_failed (env : Env) (s : Settings) (failed : created env s ≠ true) :
    (openOutput env s : Main τ Unit) = throw 1 := by
  unfold openOutput
  cases file : s.outfile with
  | none => simp [created,file] at failed
  | some outfile =>
    simp only [created,file] at failed
    simp only [failed]
    rfl

private theorem mainBody_keeps (env : Env) (s : Settings) (operands : List Bytes)
    (known : reachesAction env s → ∀ name ∈ namesLooked env s operands, (getp name).isSome) :
    Keeps .closed (mainBody host env s operands) .closed := by
  refine guarded_ite (fun _ => keeps_exits exits_throw) fun loads => ?_
  refine guarded_ite (fun _ => keeps_exits exits_throw) fun locks => ?_
  have last (reset : s.reset ≠ true) (info : JbdInfo) : Keeps .closed (do
      openOutput env s
      if s.dump then dumpAll host
      runAction host env s.output operands info
      (printDocument s.output : Program τ Unit) : Main τ Unit) .closed := by
    by_cases made : created env s
    · rw [openOutput_created env s made]
      refine guarded_bind (guarded_ite (fun _ => keeps_calls (Traced.emits_modify _)) fun _ => keeps_same) fun _ => ?_
      refine guarded_ite (fun _ => keeps_exits dumpAll_exits) fun dump => ?_
      refine guarded_bind (runAction_keeps env s.output operands info ?_) fun _ => keeps_calls calls_printDocument
      rw [namesLooked_output]
      apply known
      simp_all [reachesAction]
    · rw [openOutput_failed env s made]
      exact keeps_exits exits_throw
  refine guarded_ite (fun _ => guarded_bind (setFets_keeps s .zero) fun info => ?_) fun _ =>
    guarded_bind keeps_same fun info => ?_
  all_goals exact guarded_ite (fun _ => keeps_exits resetBms_exits) fun reset => last reset _

end

private theorem main_keeps (host : Host τ) (env : Env) (args : List Bytes) (known : NamesKnown env args) :
    Triple watch (At .closed false) (main host env args) (fun _ => At .closed false) := by
  unfold main
  unfold NamesKnown at known
  cases read : readOptions args with
  | error e =>
    have usage : Calls (fun reg => isParm reg = false) (do
        if e.usage then Traced.emit .usage
        return e.code : Program τ Int) :=
      Traced.emits_ite (fun _ => Traced.emits_bind (Traced.emits_emit trivial) fun _ => Traced.emits_pure _)
        fun _ => Traced.emits_pure _
    exact triple_calls (Traced.emits_ite (fun _ => Traced.emits_bind calls_print fun _ => usage) fun _ => usage)
  | ok given =>
    obtain ⟨s,operands⟩ := given
    simp only [read] at known
    refine triple_bind (mainBody_keeps env s operands known) fun r => ?_
    cases r <;> exact triple_pure fun _ holds => holds

theorem main_known (host : Host τ) (env : Env) (args : List Bytes) (w : World τ) (known : NamesKnown env args) :
    Bracketed (main host env args w).events ↔ FetStarted (main host env args w).events := by
  obtain ⟨p,watched,closed⟩ := main_keeps host env args known _ (.inl rfl) w
  have ended := (run_both bracket fetStart (some .closed) (some false) _).symm.trans watched
  obtain rfl := Option.some.inj ended
  unfold Bracketed FetStarted
  rcases closed with same | same
  all_goals
    simp only [Option.bind_some,Prod.mk.injEq] at same
    simp [same]

end Jbdtool
