import Jbdtool.Traffic
import Jbdtool.EepromExact
import Jbdtool.Transports

/-! The descriptor of the serial port in the runs of main: what the calls of the transport
in a run do to it, whatever the kernel grants. -/
namespace Jbdtool
open CString Monitor Traced Descriptors Transports
variable {τ : Type}

/-- Whether the transport is open. Nothing that is open is opened. -/
def channel : Bool → Event → Option Bool
  | false, .opened r => some (decide (r = 0))
  | true, .opened _ => none
  | _, .closed => some false
  | b, _ => some b

private theorem channel_inner (b : Bool) (e : Event) (inner : e.Inner) : channel b e = some b := by
  cases e <;> cases b <;> first | rfl | cases inner

section
variable {host : Host τ} {b b' : Bool}

/-- From one state of the transport to another; a return of 0 leaves it closed. -/
abbrev Lone {α : Type} (b : Bool) (m : Main τ α) (b' : Bool) : Prop :=
  Guarded channel (· = b) m (fun _ p => p = b') (fun code p => code = 0 → p = false)

/-- Out of main with an error. -/
abbrev LoneExit {α : Type} (b : Bool) (m : Main τ α) : Prop :=
  Guarded channel (· = b) m (fun _ _ => False) (fun code p => code = 0 → p = false)

private theorem lone_same {α : Type} {a : α} : Lone b (pure a : Main τ α) b := guarded_pure fun _ holds => holds

private theorem lone_throw {α : Type} : LoneExit b (throw 1 : Main τ α) := guarded_throw fun _ _ zero => absurd zero (by decide)

private theorem lone_exit {α β : Type} {m : Main τ α} {next : α → Main τ β} (gone : LoneExit b m) : Lone b (m >>= next) b' :=
  guarded_bind gone fun _ _ absurd => absurd.elim

private theorem lone_thrown {α : Type} : Lone b (throw 1 : Main τ α) b' := guarded_throw fun _ _ zero => absurd zero (by decide)

private theorem lone_triple {α : Type} {m : Program τ α} (inner : Emits Event.Inner m) :
    Triple channel (· = b) m (fun _ => (· = b)) :=
  triple_unseen (fun p e start inner => by rw [start,channel_inner b e inner]) inner

private theorem lone_inner {α : Type} {m : Program τ α} (inner : Emits Event.Inner m) : Lone b (liftM m : Main τ α) b :=
  guarded_lift (lone_triple inner)

private theorem lone_print {text : Bytes} : Lone b (liftM (print text : Program τ Unit) : Main τ Unit) b :=
  lone_inner (emits_emit trivial)

private theorem lone_failWith {α : Type} {text : Bytes} : LoneExit b (failWith text : Main τ α) :=
  guarded_bind lone_print fun _ => lone_throw

private theorem lone_open : Lone false (openOrReturn host) true := by
  have opened : Triple channel (· = false) (packOpen host) (fun r p => p = decide (r = 0)) := by
    rintro p rfl w
    exact ⟨_,rfl,rfl⟩
  refine guarded_bind (guarded_lift opened) fun r => guarded_ite (fun nonzero => ?_) fun zero => ?_
  · exact guarded_throw fun _ _ zero => absurd zero (by decide)
  · rw [not_not.mp zero]
    exact lone_same

private theorem lone_start : Lone b (startOrReturn host) b :=
  guarded_bind (lone_inner inner_start) fun _ => guarded_ite (fun _ => lone_thrown) fun _ => lone_same

private theorem lone_close : Lone b (liftM (packClose host) : Main τ Unit) false := by
  refine guarded_lift ?_
  rintro p rfl w
  exact ⟨false,by cases p <;> rfl,rfl⟩

private theorem lone_endAndClose : Lone b (liftM (endAndClose host) : Main τ Unit) false := by
  refine guarded_lift (triple_bind (lone_triple inner_end) fun _ => ?_)
  rintro p rfl w
  exact ⟨false,by cases p <;> rfl,rfl⟩

private theorem lone_setFets (s : Settings) (info : JbdInfo) : Lone false (setFets host s info) false := by
  have printed {what : Bytes} {state : Int} : Emits Event.Inner (printFet what state : Program τ Unit) :=
    emits_ite (fun _ => calls_print) fun _ => emits_pure _
  have closed {info : JbdInfo} : Lone true (do packClose host; return info : Main τ JbdInfo) false :=
    guarded_bind lone_close fun _ => lone_same
  refine guarded_bind lone_open fun _ => guarded_bind (lone_inner (calls_getInfo trivial trivial trivial)) fun r => ?_
  refine guarded_ite (fun _ => ?_) fun _ => closed
  refine guarded_bind (lone_inner (inner_mosfet _)) fun i => guarded_ite (fun _ => ?_) fun _ => closed
  exact guarded_bind (lone_inner printed) fun _ => guarded_bind (lone_inner printed) fun _ => closed

private theorem lone_reset : LoneExit false (resetBms host) := by
  refine guarded_bind lone_print fun _ => guarded_bind lone_open fun _ => ?_
  refine guarded_bind (lone_inner inner_start) fun _ => guarded_ite (fun _ => ?_) fun _ => ?_
  · refine guarded_bind (lone_inner inner_reset) fun _ => guarded_bind (lone_inner inner_end) fun _ => ?_
    exact guarded_bind lone_close fun _ => lone_throw
  · exact guarded_bind lone_close fun _ => lone_throw

private theorem lone_dumpAll : LoneExit false (dumpAll host) := by
  refine guarded_bind lone_open fun _ => guarded_bind lone_start fun _ => ?_
  refine guarded_bind (lone_inner calls_dumpRegisters) fun _ => guarded_bind lone_endAndClose fun _ => ?_
  exact guarded_throw fun _ closed _ => closed

private theorem lone_region {m : Main τ Unit} (inside : Lone true m true) :
    Lone false (do
      openOrReturn host
      startOrReturn host
      m
      endAndClose host) false :=
  guarded_bind lone_open fun _ => guarded_bind lone_start fun _ => guarded_bind inside fun _ => lone_endAndClose

private theorem lone_readRegister (fmt : Fmt) (reg : Int) : Lone false (readRegister host fmt reg) false := by
  refine guarded_bind lone_open fun _ => guarded_bind lone_start fun _ => ?_
  refine guarded_bind (lone_inner (calls_readReply trivial)) fun _ => ?_
  refine guarded_ite (fun _ => guarded_bind (lone_inner calls_pdisp) fun _ => ?_) fun _ => ?_
  all_goals exact lone_endAndClose

private theorem lone_readMembers (fmt : Fmt) (members : List (Bytes × Json)) : Lone b (readMembers host fmt members) b := by
  induction members with
  | nil => exact lone_same
  | cons member members ih =>
    refine guarded_bind (lone_inner calls_findParm) fun found => ?_
    cases found with
    | none => exact guarded_bind lone_print fun _ => lone_thrown
    | some pp => exact guarded_bind (lone_inner (calls_readParm trivial)) fun _ => ih

private theorem lone_readOperands (fmt : Fmt) (operands : List Bytes) : Lone b (readOperands host fmt operands) b := by
  induction operands with
  | nil => exact lone_same
  | cons name operands ih =>
    refine guarded_bind (lone_inner calls_findParm) fun found => ?_
    cases found with
    | none => exact guarded_bind lone_print fun _ => lone_thrown
    | some pp => exact guarded_bind (lone_inner (calls_readParm trivial)) fun _ => ih

private theorem lone_writeMembers (object members : List (Bytes × Json)) : Lone b (writeMembers host object members) b := by
  induction members with
  | nil => exact lone_same
  | cons member members ih =>
    refine guarded_bind (lone_inner calls_findParm) fun found => ?_
    cases found with
    | none => exact guarded_bind lone_print fun _ => lone_thrown
    | some pp =>
      dsimp only
      cases memberText object pp.label with
      | error type => exact guarded_bind lone_print fun _ => ih
      | ok value =>
        exact guarded_bind (lone_inner (calls_writeParm trivial)) fun r => guarded_ite (fun _ => lone_same) fun _ => ih

private theorem lone_parseFile (env : Env) (filename : Bytes) :
    Lone b (parseFile env filename : Main τ (List (Bytes × Json))) b := by
  refine guarded_bind (lone_inner (emits_modify _)) fun _ => ?_
  cases fileValue env filename with
  | none => exact guarded_bind lone_print fun _ => lone_thrown
  | some v =>
    cases v
    case object members => exact lone_same
    all_goals exact guarded_bind lone_print fun _ => lone_thrown

private theorem lone_openLines (env : Env) (filename : Bytes) : Lone b (openLines env filename : Main τ (List Bytes)) b := by
  unfold openLines
  cases env.files filename with
  | ok content => exact lone_same
  | error reason => exact guarded_bind lone_print fun _ => lone_thrown

private theorem lone_readParms (env : Env) (s : Settings) (operands : List Bytes) :
    Lone false (readParms host env s operands) false := by
  unfold readParms
  cases s.filename with
  | none =>
    refine guarded_bind lone_open fun _ => guarded_bind lone_start fun _ => guarded_ite (fun _ => ?_) fun _ => ?_
    · exact guarded_bind (lone_inner calls_readAll) fun _ => lone_endAndClose
    · exact guarded_bind (lone_readOperands s.fmt operands) fun _ => lone_endAndClose
  | some filename =>
    refine guarded_ite (fun _ => ?_) fun _ => ?_
    · exact guarded_bind (lone_parseFile env filename) fun members => lone_region (lone_readMembers s.fmt members)
    · exact guarded_bind (lone_openLines env filename) fun lines => lone_region (lone_inner calls_readLines)

private theorem lone_readAction (env : Env) (s : Settings) (operands : List Bytes) :
    Lone false (readAction host env s operands) false := by
  have parms : Lone false (readParms host env s operands) false := lone_readParms env s operands
  refine guarded_ite (fun _ => lone_exit lone_failWith) fun _ => guarded_ite (fun _ => ?_) fun _ => parms
  exact guarded_bind (lone_readRegister s.fmt s.reg) fun _ => parms

private theorem lone_writeAction (env : Env) (s : Settings) (operands : List Bytes) :
    Lone false (writeAction host env s operands) false := by
  refine guarded_ite (fun _ => lone_exit lone_failWith) fun _ => ?_
  cases s.filename with
  | none => exact lone_region (lone_inner calls_writeOperands)
  | some filename =>
    refine guarded_ite (fun _ => ?_) fun _ => ?_
    · refine guarded_bind (lone_parseFile env filename) fun members => ?_
      refine guarded_bind lone_open fun _ => guarded_bind lone_start fun _ => ?_
      -- The second close finds the transport closed.
      refine guarded_bind (lone_writeMembers members members) fun _ => guarded_bind lone_endAndClose fun _ => ?_
      exact lone_endAndClose
    · exact guarded_bind (lone_openLines env filename) fun lines => lone_region (lone_inner calls_writeLines)

private theorem lone_runAction (env : Env) (s : Settings) (operands : List Bytes) (info : JbdInfo) :
    Lone false (runAction host env s operands info) false := by
  unfold runAction
  cases s.action with
  | info =>
    refine guarded_bind lone_open fun _ => ?_
    exact guarded_bind (lone_inner (calls_showInfo trivial trivial trivial)) fun _ => lone_close
  | read => exact lone_readAction env s operands
  | write => exact lone_writeAction env s operands

private theorem lone_mainBody (env : Env) (s : Settings) (operands : List Bytes) :
    Lone false (mainBody host env s operands) false := by
  refine guarded_ite (fun _ => lone_exit lone_throw) fun _ => guarded_ite (fun _ => lone_exit lone_throw) fun _ => ?_
  have last (info : JbdInfo) : Lone false (do
      openOutput env s
      if s.dump then dumpAll host
      runAction host env s.output operands info
      (printDocument s.output : Program τ Unit) : Main τ Unit) false := by
    by_cases made : created env s
    · rw [openOutput_created env s made]
      refine guarded_bind (guarded_ite (fun _ => lone_inner (emits_modify _)) fun _ => lone_same) fun _ => ?_
      refine guarded_ite (fun _ => lone_exit lone_dumpAll) fun _ => ?_
      exact guarded_bind (lone_runAction env s.output operands info) fun _ => lone_inner calls_printDocument
    · rw [openOutput_failed env s made]
      exact lone_exit lone_throw
  refine guarded_ite (fun _ => guarded_bind (lone_setFets s .zero) fun info => ?_) fun _ => guarded_bind lone_same fun info => ?_
  all_goals exact guarded_ite (fun _ => lone_exit lone_reset) fun _ => last _

/-- No run opens what is open, and one that returns 0 has closed it. -/
private theorem main_lone (env : Env) (args : List Bytes) :
    Triple channel (· = false) (main host env args) (fun code p => code = 0 → p = false) := by
  unfold main
  cases readOptions args with
  | error e =>
    have usage : Emits Event.Inner (do
        if e.usage then Traced.emit .usage
        return e.code : Program τ Int) :=
      emits_ite (fun _ => emits_bind (emits_emit trivial) fun _ => emits_pure _) fun _ => emits_pure _
    have inner : Emits Event.Inner (do
        if e.text ≠ [] then print e.text
        if e.usage then Traced.emit .usage
        return e.code : Program τ Int) :=
      emits_ite (fun _ => emits_bind (emits_emit trivial) fun _ => usage) fun _ => usage
    exact triple_weaken (lone_triple inner) (fun _ holds => holds) fun _ _ closed _ => closed
  | ok given =>
    refine triple_bind (lone_mainBody env given.1 given.2) fun r => ?_
    cases r with
    | ok _ => exact triple_pure fun _ closed _ => closed
    | error code => exact triple_pure fun _ closed zero => closed zero

end

/-- What an event of a run is to the transport. -/
def transportCall (access : Bytes → Bool) : Event → Option (Call (Bytes → Bool))
  | .opened _ => some (.opens access)
  | .closed => some .close
  | .wrote _ _ => some .transfer
  | .received _ => some .transfer
  | .canWrote _ => some .transfer
  | .canReceived _ _ => some .transfer
  | _ => none

def follow (kernel : Kernel) (access : Bytes → Bool) (s : Descriptors.Process SerialSession) (e : Event) :
    Option (Descriptors.Process SerialSession) :=
  match transportCall access e with
  | some call => step (serial kernel).exec s call
  | none => some s

/-- The kernel has a descriptor to give just where the open is answered with 0. -/
def Granted (kernel : Kernel) (s : Descriptors.Process SerialSession) : Event → Prop
  | .opened r => r = 0 ↔ kernel.pick s.opens s.live ≠ -1
  | _ => True

/-- What the two monitors know of the session. -/
structure Follows (n : Nat) (b : Bool) (s : Descriptors.Process SerialSession) : Prop where
  count : n = if b then 1 else 0
  owns : Owns s.session.fd s.live
  tight : Tight s
  open' : 0 ≤ s.session.fd ↔ b = true

section
variable {kernel : Kernel} {access : Bytes → Bool}

private theorem follow_traffic {n : Nat} {b : Bool} {s : Descriptors.Process SerialSession} (follows : Follows n b s)
    (open' : n ≠ 0) :
    step (serial kernel).exec s .transfer = some s := by
  have there : b = true := by
    cases b with
    | true => rfl
    | false => exact absurd follows.count open'
  obtain ⟨r,s',ran,rfl⟩ := serialTransfer_ends s (follows.owns.inside (follows.open'.mpr there))
  exact congrArg (Option.map Prod.snd) ran

private theorem follow_open (r : Int) {n n' : Nat} {b b' : Bool} {s : Descriptors.Process SerialSession}
    (follows : Follows n b s)
    (watched : session n (.opened r) = some n') (seen : channel b (.opened r) = some b') (granted : Granted kernel s (.opened r)) :
    ∃ s', follow kernel access s (.opened r) = some s' ∧ Follows n' b' s' := by
  cases b with
  | true => cases seen
  | false =>
    cases seen
    obtain rfl := follows.count
    obtain ⟨a,s',ran,picked,outcome⟩ := @serialOpen_ends kernel access s
    have taken : step (serial kernel).exec s (.opens access) = some s' := congrArg (Option.map Prod.snd) ran
    have closed : s.session.fd = -1 := by
      refine follows.owns.closed (not_le.mp fun there => ?_)
      exact absurd (follows.open'.mp there) Bool.false_ne_true
    obtain ⟨owns,tight,-⟩ := serial_effect _ s s' follows.owns taken
    refine ⟨s',taken,⟨?_,owns,(tight follows.tight).mpr closed,?_⟩⟩
    · rw [← Option.some.inj watched]
      by_cases zero : r = 0 <;> simp [zero]
    · have given : r = 0 ↔ kernel.pick s.opens s.live ≠ -1 := granted
      rw [decide_eq_true_iff,given,← picked]
      rcases outcome with ⟨failed,-⟩ | ⟨there,-,-⟩
      · exact iff_of_false (by rw [failed]; decide) (not_not.mpr failed)
      · exact iff_of_true there fun none => absurd (none ▸ there) (by decide)

private theorem follow_step (e : Event) {n n' : Nat} {b b' : Bool} {s : Descriptors.Process SerialSession}
    (follows : Follows n b s)
    (watched : session n e = some n') (seen : channel b e = some b') (granted : Granted kernel s e) :
    ∃ s', follow kernel access s e = some s' ∧ Follows n' b' s' := by
  cases e
  case opened r => exact follow_open r follows watched seen granted
  case closed =>
    cases n with
    | zero => cases watched
    | succ n =>
      cases b with
      | false => exact absurd follows.count (Nat.succ_ne_zero n)
      | true =>
        cases watched
        cases seen
        obtain rfl : n' = 0 := Nat.succ.inj follows.count
        obtain ⟨a,s',ran,closed,-⟩ := serialClose_ends s follows.owns
        have taken : step (serial kernel).exec s .close = some s' := congrArg (Option.map Prod.snd) ran
        obtain ⟨owns,tight,-⟩ := serial_effect _ s s' follows.owns taken
        refine ⟨s',taken,⟨rfl,owns,(tight follows.tight).mpr trivial,?_⟩⟩
        rw [closed]
        decide
  case wrote | received | canWrote | canReceived =>
    cases n with
    | zero => cases watched
    | succ n =>
      cases watched
      refine ⟨s,follow_traffic follows (Nat.succ_ne_zero n),?_⟩
      cases b <;> cases seen <;> exact follows
  all_goals
    refine ⟨s,rfl,?_⟩
    cases n <;> cases watched <;> cases b <;> cases seen <;> exact follows

private theorem follow_run (events : List Event) {n n' : Nat} {b b' : Bool} {s : Descriptors.Process SerialSession}
    (follows : Follows n b s) (watched : Runs.run session n events = some n') (seen : Runs.run channel b events = some b')
    (granted : Runs.Meets (follow kernel access) (Granted kernel) s events) :
    ∃ s', Runs.run (follow kernel access) s events = some s' ∧ Follows n' b' s' := by
  induction events generalizing n b s with
  | nil =>
    cases watched
    cases seen
    exact ⟨s,rfl,follows⟩
  | cons e events ih =>
    obtain ⟨m,moved,watched⟩ := Option.bind_eq_some_iff.mp watched
    obtain ⟨c,turned,seen⟩ := Option.bind_eq_some_iff.mp seen
    obtain ⟨here,later⟩ := granted
    obtain ⟨t,taken,next⟩ := follow_step e follows moved turned here
    obtain ⟨s',reached,final⟩ := ih next watched seen (later t taken)
    exact ⟨s',(Runs.run_cons s t e events taken).trans reached,final⟩

end

/-- In a run of main over a serial port no descriptor is misused and none is lost, whatever the kernel
grants and the BMS answers; a run that returns 0 has none open. -/
theorem main_descriptors (kernel : Kernel) (access : Bytes → Bool) (element : Bytes) (env : Env) (args : List Bytes)
    (kept : SessionKept env args) (host : Host τ) (w : World τ)
    (granted : Runs.Meets (follow kernel access) (Granted kernel) (Transports.start (serialNew element))
      (main host env args w).events) :
    ∃ s, Runs.run (follow kernel access) (Transports.start (serialNew element)) (main host env args w).events = some s ∧
      s.live = own s.session.fd ∧ ((main host env args w).value = 0 → s.live = ∅) := by
  have begun : Follows 0 false (Transports.start (serialNew element)) := ⟨rfl,owns_start,rfl,iff_of_false (by norm_num [Transports.start,serialNew]) Bool.false_ne_true⟩
  obtain ⟨n,watched⟩ := Option.ne_none_iff_exists'.mp (main_sessions env args kept w)
  obtain ⟨b,seen,closes⟩ := @main_lone τ host env args false rfl w
  obtain ⟨s,reached,follows⟩ := follow_run _ begun watched seen granted
  refine ⟨s,reached,follows.tight,fun zero => ?_⟩
  rw [follows.tight,own_empty]
  refine not_le.mp fun there => ?_
  exact absurd (follows.open'.mp there) (by rw [closes zero]; decide)

instance (kernel : Kernel) (s : Descriptors.Process SerialSession) (e : Event) : Decidable (Granted kernel s e) :=
  match e with
  | .opened r => inferInstanceAs (Decidable (r = 0 ↔ kernel.pick s.opens s.live ≠ -1))
  | .closed | .wrote _ _ | .received _ | .canWrote _ | .canReceived _ _ | .rwCall _ _ | .rwReturn _ _ _ | .enter _ | .leave _ _
  | .touch _ _ _ | .getp _ _ | .printed _ _ | .usage => isTrue trivial

/-- `jbdtool -t serial:x -r DesignCapacity` -/
def serialCapacity : List Bytes := [bytes "-t",bytes "serial:x",bytes "-r",bytes "DesignCapacity"]

theorem main_descriptors_capacity : ∃ s, Runs.run (follow twoFiles fun _ => true) (Transports.start (serialNew (bytes "x")))
    (main replying plainEnv serialCapacity (World.start acknowledged)).events = some s ∧ s.live = ∅ := by
  have kept : SessionKept plainEnv serialCapacity := by
    have once : ((readOptions serialCapacity).toOption.all fun given => !closesTwice plainEnv given.1) = true := by decide +kernel
    unfold SessionKept
    cases given : readOptions serialCapacity with
    | error e => trivial
    | ok given' =>
      rw [given] at once
      exact fun _ => Bool.not_eq_true' _ |>.mp once
  have granted : Runs.Meets (follow twoFiles fun _ => true) (Granted twoFiles) (Transports.start (serialNew (bytes "x")))
      (main replying plainEnv serialCapacity (World.start acknowledged)).events := by decide +kernel
  have zero : (main replying plainEnv serialCapacity (World.start acknowledged)).value = 0 := by decide +kernel
  obtain ⟨s,reached,-,closed⟩ := main_descriptors twoFiles (fun _ => true) (bytes "x") plainEnv serialCapacity kept replying
    (World.start acknowledged) granted
  exact ⟨s,reached,closed zero⟩

end Jbdtool
