import Jbdtool.StartOnly
import Jbdtool.ReadRuns

/-! The exit status of a WRITE run, against the settings it was asked for. -/
namespace Jbdtool
open CString Numbers Traced Monitor
variable {τ α β : Type}

/-- The first two words of a line; a line without any asks for nothing. -/
def linePair (line : Bytes) : Option (Bytes × Option Bytes) :=
  let text := (Json.cstr line).dropWhile isspace
  let value := ((text.dropWhile (fun c => !isspace c)).dropWhile isspace).takeWhile (fun c => !isspace c)
  if text = [] then none
  else some (text.takeWhile (fun c => !isspace c),if value = [] then none else some value)

def operandPairs : List Bytes → List (Bytes × Option Bytes)
  | [] => []
  | [name] => [(name,none)]
  | name::value::operands => (name,some value)::operandPairs operands

def memberPairs (members : List (Bytes × Json)) : List (Bytes × Option Bytes) :=
  members.map (fun m => (m.1,(memberText members m.1).toOption))

/-- The settings named, with their values where there is one that can be used. -/
def settingsNamed (env : Env) (s : Settings) (operands : List Bytes) : List (Bytes × Option Bytes) :=
  match s.filename with
  | none => operandPairs operands
  | some filename =>
    if isJson filename then
      match fileValue env filename with
      | some (.object members) => memberPairs members
      | _ => []
    else
      match env.files filename with
      | .ok content => (fgetsLines (content.length + 1) content).filterMap linePair
      | .error _ => []

/-- The lookup of a setting, and the return of the jbd_rw that writes it. -/
def settingMarks : Bytes × Option Bytes → Option (List Event)
  | (name,some _) => (getp name).map (fun pp => [.getp name true,.rwReturn jbdCmdWrite pp.reg 0])
  | (_,none) => none

/-- All are known and have a value, and one after the other they are written and
acknowledged. -/
def Acknowledged (events : List Event) (settings : List (Bytes × Option Bytes)) : Prop :=
  ∃ marks, settings.mapM settingMarks = some marks ∧ marks.flatten.Sublist events

/-- Exit status 0 stands for settings that have all arrived. -/
def StatusHonest (env : Env) (args : List Bytes) (o : Outcome (World τ) Event Int) : Prop :=
  match readOptions args with
  | .error _ => True
  | .ok (s,operands) => s.action = .write → o.value = 0 → Acknowledged o.events (settingsNamed env s operands)

/-- The WRITE action can come to its end. -/
def comesToEnd (env : Env) (s : Settings) : Bool :=
  s.transport ≠ some (bytes "can") && match s.filename with
    | none => true
    | some filename =>
      if isJson filename then
        match fileValue env filename with
        | some (.object members) => endsLoop members members
        | _ => false
      else
        match env.files filename with
        | .ok _ => true
        | .error _ => false

def endsWell (env : Env) (s : Settings) : Bool :=
  env.loads && env.locks (lockfile s.target) !s.dontWait && !s.reset && created env s && (s.dump || comesToEnd env s)

/-- Nothing is asked for, or main cannot return 0. -/
def NothingPromised (env : Env) (args : List Bytes) : Prop :=
  match readOptions args with
  | .error _ => True
  | .ok (s,operands) => s.action = .write → settingsNamed env s operands = [] ∨ endsWell env s = false

/-- What comes out of a part of main, whatever the world. -/
def Gives (results : Except Int α → Prop) (m : Main τ α) : Prop := ∀ w, results (m.run w).value

/-- Returns, if at all, with 1. -/
abbrev Sound (m : Main τ α) : Prop := Gives (fun r => ∀ code, r = .error code → code = 1) m

abbrev Fails (m : Main τ α) : Prop := Gives (· = .error 1) m

section
variable {host : Host τ}

private theorem gives_next {first : Except Int α → Prop} {results : Except Int β → Prop} {m : Main τ α} {next : α → Main τ β}
    (before : Gives first m) (returned : ∀ code, first (.error code) → results (.error code))
    (rest : ∀ a, first (.ok a) → Gives results (next a)) : Gives results (m >>= next) := by
  intro w
  have run : (m >>= next).run w = (ExceptT.bindCont next (m.run w).value (m.run w).state).after (m.run w).events := rfl
  have here := before w
  rw [run,Outcome.after_value]
  cases value : (m.run w).value with
  | error code => exact returned code (value ▸ here)
  | ok a => exact rest a (value ▸ here) _

private theorem gives_if {results : Except Int α → Prop} {c : Prop} [Decidable c] {m n : Main τ α} (yes : c → Gives results m)
    (no : ¬ c → Gives results n) : Gives results (if c then m else n) := by
  split_ifs with holds
  · exact yes holds
  · exact no holds

private theorem fails_throw : Fails (throw 1 : Main τ α) := fun _ => rfl

private theorem fails_next {m : Main τ α} {next : α → Main τ β} (first : Sound m) (rest : ∀ a, Fails (next a)) :
    Fails (m >>= next) :=
  gives_next first (fun code one => congrArg _ (one code rfl)) fun a _ => rest a

private theorem fails_first {m : Main τ α} {next : α → Main τ β} (first : Fails m) : Fails (m >>= next) :=
  gives_next first (fun _ same => congrArg _ (Except.error.inj same)) fun _ absurd => by cases absurd

private theorem sound_fails {m : Main τ α} (fails : Fails m) : Sound m := fun w code same => by
  rw [fails w] at same
  exact (Except.error.inj same).symm

private theorem sound_next {m : Main τ α} {next : α → Main τ β} (first : Sound m) (rest : ∀ a, Sound (next a)) :
    Sound (m >>= next) :=
  gives_next first (fun code one _ same => Except.error.inj same ▸ one code rfl) fun a _ => rest a

private theorem sound_lift (m : Program τ α) : Sound (liftM m : Main τ α) := fun _ _ absurd => by cases absurd

private theorem sound_same (a : α) : Sound (pure a : Main τ α) := fun _ _ absurd => by cases absurd

private theorem sound_if {c : Prop} [Decidable c] {m n : Main τ α} (yes : Sound m) (no : Sound n) :
    Sound (if c then m else n) :=
  gives_if (fun _ => yes) fun _ => no

private theorem sound_open : Sound (openOrReturn host) :=
  sound_next (sound_lift _) fun _ => sound_if (sound_fails fails_throw) (sound_same _)

private theorem sound_start : Sound (startOrReturn host) :=
  sound_next (sound_lift _) fun _ => sound_if (sound_fails fails_throw) (sound_same _)

private theorem fails_failWith (text : Bytes) : Fails (failWith text : Main τ α) :=
  fails_next (sound_lift _) fun _ => fails_throw

private theorem sound_setFets (s : Settings) (info : JbdInfo) : Sound (setFets host s info) := by
  refine sound_next sound_open fun _ => sound_next (sound_lift _) fun r => ?_
  have closes : Sound (do
      (packClose host : Program τ Unit)
      return r.2 : Main τ JbdInfo) :=
    sound_next (sound_lift _) fun _ => sound_same _
  refine sound_if (sound_next (sound_lift _) fun i => sound_if ?_ closes) closes
  exact sound_next (sound_lift _) fun _ => sound_next (sound_lift _) fun _ => closes

private theorem fails_reset : Fails (resetBms host) := by
  refine fails_next (sound_lift _) fun _ => fails_next sound_open fun _ => fails_next (sound_lift _) fun _ => ?_
  refine gives_if (fun _ => ?_) fun _ => fails_next (sound_lift _) fun _ => fails_throw
  refine fails_next (sound_lift _) fun _ => fails_next (sound_lift _) fun _ => ?_
  exact fails_next (sound_lift _) fun _ => fails_throw

private theorem fails_writeMembers (object members : List (Bytes × Json)) (returned : endsLoop object members = false) :
    Fails (writeMembers host object members) := by
  induction members with
  | nil => cases returned
  | cons member members ih =>
    obtain ⟨name,value⟩ := member
    unfold endsLoop at returned
    have looked : Gives (· = .ok (getp name)) (liftM (findParm name : Program τ (Option JbdParams)) : Main τ _) :=
      fun _ => rfl
    refine gives_next looked (fun _ absurd => by cases absurd) fun found same => ?_
    obtain rfl := Except.ok.inj same
    cases found : getp name with
    | none => exact fails_failWith _
    | some pp =>
      simp only [found] at returned ⊢
      cases text : memberText object pp.label with
      | error type =>
        simp only [text] at returned ⊢
        exact fails_next (sound_lift _) fun _ => ih returned
      | ok value => simp [text] at returned

private theorem fails_parseFile (env : Env) (filename : Bytes)
    (other : ∀ members, fileValue env filename = some (.object members) → False) :
    Fails (parseFile env filename : Main τ (List (Bytes × Json))) := by
  unfold parseFile
  refine fails_next (sound_lift _) fun _ => ?_
  generalize fileValue env filename = v at other
  cases v with
  | none => exact fails_failWith _
  | some value =>
    cases value with
    | object members => exact (other members rfl).elim
    | _ => exact fails_failWith _

private theorem fails_writeAction (env : Env) (s : Settings) (operands : List Bytes) (returned : comesToEnd env s = false) :
    Fails (writeAction host env s operands) := by
  refine gives_if (fun _ => fails_first (fails_failWith _)) fun serial => ?_
  simp only [comesToEnd,serial,ne_eq,not_false_eq_true,decide_true,Bool.true_and] at returned
  cases file : s.filename with
  | none => simp [file] at returned
  | some filename =>
    simp only [file] at returned
    refine gives_if (fun json => ?_) fun text => ?_
    · rw [if_pos json] at returned
      split at returned
      · rename_i members value
        unfold parseFile
        simp only [value,bind_assoc,pure_bind]
        refine fails_next (sound_lift _) fun _ => fails_next sound_open fun _ => fails_next sound_start fun _ => ?_
        exact fails_first (fails_writeMembers members members returned)
      · rename_i other
        exact fails_first (fails_parseFile env filename other)
    · rw [if_neg text] at returned
      unfold openLines
      cases known : env.files filename with
      | ok content => simp [known] at returned
      | error reason => exact fails_first (fails_failWith _)

private theorem comesToEnd_output (env : Env) (s : Settings) : comesToEnd env s.output = comesToEnd env s := by
  unfold Settings.output
  split
  · split_ifs <;> rfl
  · rfl

private theorem fails_mainBody (env : Env) (s : Settings) (operands : List Bytes) (write : s.action = .write)
    (never : endsWell env s = false) : Fails (mainBody host env s operands) := by
  refine gives_if (fun _ => fails_first fails_throw) fun loads => ?_
  refine gives_if (fun _ => fails_first fails_throw) fun locks => ?_
  have last (info : JbdInfo) : Fails (do
      if s.reset then resetBms host
      openOutput env s
      if s.dump then dumpAll host
      runAction host env s.output operands info
      (printDocument s.output : Program τ Unit) : Main τ Unit) := by
    refine gives_if (fun _ => fails_first fails_reset) fun reset => ?_
    by_cases made : created env s
    · rw [openOutput_created env s made]
      have dump : s.dump = false ∧ comesToEnd env s = false := by
        simp_all [endsWell]
      refine fails_next (sound_if (sound_lift _) (sound_same _)) fun _ => ?_
      rw [dump.1,if_neg Bool.false_ne_true]
      refine fails_first ?_
      unfold runAction
      rw [(output_same s).1,write]
      exact fails_writeAction env s.output operands ((comesToEnd_output env s).trans dump.2)
    · rw [openOutput_failed env s made]
      exact fails_first fails_throw
  refine gives_if (fun _ => fails_next (sound_setFets s .zero) last) fun _ => fails_next (sound_same _) last

end

/-- Where main cannot return 0 it promises nothing. -/
private theorem main_fails (host : Host τ) (env : Env) (args : List Bytes) (s : Settings) (operands : List Bytes)
    (read : readOptions args = .ok (s,operands)) (write : s.action = .write) (never : endsWell env s = false)
    (w : World τ) : (main host env args w).value = 1 := by
  unfold main
  rw [read]
  dsimp only
  rw [bind_run,Outcome.after_value,fails_mainBody env s operands write never w]
  rfl

/-- On a BMS that acknowledges no setting. -/
def Event.Unacknowledged : Event → Prop
  | .rwReturn action reg result => action = jbdCmdWrite → result = 0 → reg = jbdRegEeprom
  | _ => True

private theorem unacknowledged_rw (action reg : UInt8) (data : Bytes) :
    Emits Event.Unacknowledged (jbdRw startOnly action reg data) := by
  intro w
  have answer := startOnly_rw action reg data w
  rw [jbdRw_run] at answer ⊢
  refine rwEvents_elim _ _ _ _ _ trivial (fun _ zero => ?_) (fun e member => ?_) fun _ _ _ => trivial
  · by_contra other
    dsimp only at answer
    rw [if_neg other] at answer
    rw [answer] at zero
    cases zero
  · have wire := exchange_onWire _ _ _ _ _ _ e member
    cases e <;> trivial

instance : Outer startOnly Event.Unacknowledged where
  plain e known := by cases e <;> trivial
  rw action reg data _ := unacknowledged_rw action reg data
  starts := emits_bind (emits_emit trivial) fun _ => emits_bind (unacknowledged_rw _ _ _) fun _ =>
    emits_bind (emits_emit trivial) fun _ => emits_pure _
  ends := emits_bind (emits_emit trivial) fun _ => emits_bind (unacknowledged_rw _ _ _) fun _ =>
    emits_bind (emits_emit trivial) fun _ => emits_pure _
  opens := emits_bind emits_get fun _ => emits_bind (emits_modify _) fun _ => emits_bind (emits_emit trivial) fun _ =>
    emits_pure _
  closes := emits_bind emits_get fun _ => emits_bind (emits_modify _) fun _ => emits_emit trivial

private theorem unacknowledged_mosfet (opt : Int) : Emits Event.Unacknowledged (jbdSetMosfet startOnly opt) := by
  have left (r : Int) : Emits Event.Unacknowledged (do
      Traced.emit (.leave .jbdSetMosfet r)
      return r : Program Unit Int) :=
    emits_bind (emits_emit trivial) fun _ => emits_pure _
  refine emits_bind (emits_emit trivial) fun _ => emits_bind Outer.starts fun _ => emits_ite (fun _ => ?_) fun _ => ?_
  · exact emits_bind (emits_pure _) left
  · refine emits_bind (unacknowledged_rw _ _ _) fun _ => emits_bind Outer.ends fun _ => emits_ite (fun _ => ?_) fun _ => ?_
    all_goals exact emits_bind (emits_pure _) left

private theorem acknowledged_marks {events : List Event} {name : Bytes} {value : Option Bytes}
    {settings : List (Bytes × Option Bytes)} (acknowledged : Acknowledged events ((name,value)::settings)) :
    ∃ pp ∈ params, .rwReturn jbdCmdWrite pp.reg 0 ∈ events := by
  obtain ⟨marks,made,inside⟩ := acknowledged
  rw [List.mapM_cons] at made
  obtain ⟨mark,first,rest⟩ := Option.bind_eq_some_iff.mp made
  obtain ⟨others,-,whole⟩ := Option.bind_eq_some_iff.mp rest
  obtain rfl := Option.some.inj whole
  cases value with
  | none => cases first
  | some value =>
    obtain ⟨pp,found,rfl⟩ := Option.map_eq_some_iff.mp first
    exact ⟨pp,getp_member name pp found,inside.subset (by simp)⟩

/-- On this BMS only an empty request can be acknowledged. -/
private theorem acknowledged_none (env : Env) (args : List Bytes) (w : World Unit) (settings : List (Bytes × Option Bytes))
    (acknowledged : Acknowledged (main startOnly env args w).events settings) : settings = [] := by
  cases settings with
  | nil => rfl
  | cons setting settings =>
    obtain ⟨name,value⟩ := setting
    obtain ⟨pp,listed,member⟩ := acknowledged_marks acknowledged
    have only := outer_main Event.Unacknowledged unacknowledged_mosfet env args w _ member rfl rfl
    exact (params_started pp listed only).elim

section
variable {n n' n'' : Option Nat} {k : Nat}

private theorem lands_returned {m : Main Unit α} {next : α → Main Unit β} {code : Int}
    (first : Lands n m.run (.error code) n') :
    Lands n (m >>= next).run (.error code) n' :=
  lands_bind first (lands_pure _)

private theorem lands_writeLines (lines : List Bytes) (line : Mem UInt8) :
    Lands (some (k + 1)) (writeLines startOnly lines line) () (some (k + 1)) := by
  induction lines generalizing line with
  | nil => exact lands_pure _
  | cons text lines ih =>
    refine lands_bind (lands_find _) ?_
    split
    · exact ih _
    · rename_i pp found
      refine lands_bind (lands_write pp _ ?_) (lands_pure _)
      exact params_started pp (getp_member _ pp found)

private theorem lands_writeOperands (operands : List Bytes) :
    Lands (some (k + 1)) (writeOperands startOnly operands) () (some (k + 1)) := by
  cases operands with
  | nil =>
    unfold writeOperands
    exact lands_pure _
  | cons name operands =>
    unfold writeOperands
    refine lands_bind (lands_find name) ?_
    split
    · exact lands_print _
    · rename_i pp found
      cases operands with
      | nil => exact lands_print _
      | cons value operands =>
        refine lands_bind (lands_write pp value ?_) (lands_pure _)
        exact params_started pp (getp_member name pp found)

private theorem lands_writeAction (env : Env) (s : Settings) (operands : List Bytes) (write : s.action = .write)
    (comes : comesToEnd env s = true) : ∃ n', Lands (some 0) (writeAction startOnly env s operands).run (.ok ()) n' := by
  simp only [comesToEnd,Bool.and_eq_true,decide_eq_true_eq] at comes
  obtain ⟨serial,file⟩ := comes
  by_cases json : ∃ filename, s.filename = some filename ∧ isJson filename
  · obtain ⟨filename,named,json⟩ := json
    refine ⟨none,lands_closesTwice env s operands ?_⟩
    simp only [named,json,if_true] at file
    simp only [closesTwice,write,serial,named,json,decide_true,ne_eq,not_false_eq_true,Bool.true_and]
    exact file
  · refine ⟨some 0,?_⟩
    unfold writeAction
    rw [if_neg serial]
    cases named : s.filename with
    | none =>
      refine lands_next lands_openOrReturn (lands_next lands_startOrReturn ?_)
      exact lands_next (lands_lift (lands_writeOperands operands)) (lands_lift lands_endAndClose)
    | some filename =>
      have text : ¬ isJson filename = true := fun isJson => json ⟨filename,named,isJson⟩
      simp only [named,if_neg text] at file ⊢
      split at file
      · rename_i content readable
        unfold openLines
        rw [readable]
        refine lands_next (lands_pure _) (lands_next lands_openOrReturn (lands_next lands_startOrReturn ?_))
        exact lands_next (lands_lift (lands_writeLines _ _)) (lands_lift lands_endAndClose)
      · cases file

private theorem lands_dump : Lands (some k) (dumpAll startOnly).run (.error 0) (some k) := by
  have registers (l : List Nat) : Lands (some (k + 1)) (dumpRegisters startOnly l) () (some (k + 1)) := by
    induction l with
    | nil => exact lands_pure _
    | cons i l ih =>
      refine lands_bind (lands_rw jbdCmdRead (UInt8.ofNat i) (List.replicate 128 0)) ?_
      have nothing : ¬ (settle 128 (if UInt8.ofNat i = jbdRegEeprom then some [] else none)).1 > 0 := by
        split_ifs <;> decide
      rw [List.length_replicate,if_neg nothing]
      exact ih
  refine lands_next lands_openOrReturn (lands_next lands_startOrReturn (lands_next (lands_lift (registers _)) ?_))
  exact lands_next (lands_lift lands_endAndClose) (lands_pure _)

private theorem lands_mainDump (env : Env) (s : Settings) (operands : List Bytes) (well : endsWell env s = true)
    (dump : s.dump = true) : Lands (some 0) (mainBody startOnly env s operands).run (.error 0) (some 0) := by
  simp only [endsWell,Bool.and_eq_true,Bool.not_eq_true'] at well
  obtain ⟨⟨⟨⟨loads,locks⟩,reset⟩,made⟩,-⟩ := well
  have last (info : JbdInfo) : Lands (some 0) (do
      openOutput env s
      dumpAll startOnly
      runAction startOnly env s.output operands info
      (printDocument s.output : Program Unit Unit) : Main Unit Unit).run (.error 0) (some 0) :=
    lands_next (lands_openOutput env s made) (lands_returned lands_dump)
  unfold mainBody
  simp only [loads,locks,reset,dump,Bool.not_true,Bool.false_eq_true,if_false,if_true]
  split_ifs
  · exact lands_next (lands_setFets s .zero) (last _)
  · exact lands_next (lands_pure _) (last _)

end

private theorem startOnly_zero (env : Env) (args : List Bytes) (s : Settings) (operands : List Bytes)
    (read : readOptions args = .ok (s,operands)) (write : s.action = .write) (well : endsWell env s = true) :
    (main startOnly env args (World.start ())).value = 0 := by
  have lands : ∃ n', Lands (some 0) (main startOnly env args) 0 n' := by
    by_cases dump : s.dump = true
    · refine ⟨some 0,?_⟩
      unfold main
      rw [read]
      exact lands_bind (lands_mainDump env s operands well dump) (lands_pure _)
    · have reaches : reachesAction env s = true := by simp_all [endsWell,reachesAction]
      have comes : comesToEnd env s.output = true := by
        rw [comesToEnd_output]
        simp_all [endsWell]
      have action : s.output.action = .write := (output_same s).1.trans write
      obtain ⟨n',lands⟩ := lands_writeAction env s.output operands action comes
      refine ⟨n',lands_main env args s operands n' read reaches fun info => ?_⟩
      unfold runAction
      rw [action]
      exact lands
  obtain ⟨n',lands⟩ := lands
  obtain ⟨-,-,value,-⟩ := lands (some 0) rfl (World.start ())
  exact value

/-- The exit status says that all settings have arrived, whatever the BMS answers, exactly
where there are none or main cannot return 0. -/
theorem main_statusHonest (env : Env) (args : List Bytes) :
    (∀ (τ : Type) (host : Host τ) (w : World τ), StatusHonest env args (main host env args w)) ↔
      NothingPromised env args := by
  unfold StatusHonest NothingPromised
  cases read : readOptions args with
  | error e => simp
  | ok given =>
    obtain ⟨s,operands⟩ := given
    constructor
    · intro honest write
      by_contra promised
      obtain ⟨asked,well⟩ := not_or.mp promised
      have zero := startOnly_zero env args s operands read write (Bool.not_eq_false _ ▸ well)
      exact asked (acknowledged_none env args _ _ (honest Unit startOnly (World.start ()) write zero))
    · intro promised τ host w write zero
      rcases promised write with none | never
      · rw [none]
        exact ⟨[],rfl,List.nil_sublist _⟩
      · rw [main_fails host env args s operands read write never w] at zero
        cases zero

/-- `jbdtool -t serial:x -w DesignCapacity 100` -/
def writeCapacity : List Bytes :=
  [bytes "-t",bytes "serial:x",bytes "-w",bytes "DesignCapacity",bytes "100"]

theorem writeCapacity_zero : ¬ StatusHonest plainEnv writeCapacity (main startOnly plainEnv writeCapacity (World.start ())) := by
  intro honest
  have zero : (main startOnly plainEnv writeCapacity (World.start ())).value = 0 := by decide +kernel
  have asked := acknowledged_none plainEnv writeCapacity (World.start ()) _ (honest rfl zero)
  cases asked

end Jbdtool
