import Jbdtool.Eeprom

/-! When the bracket is lost: for every unknown parameter that main returns on there is
a transport with which it leaves the bracket open. -/
namespace Jbdtool
open CString Numbers Monitor
variable {α β : Type}

/-- A transport that returns the results in its state one after the other, whatever is
written; past them every read fails. -/
def replying : Host (List (ReadResult 256)) where
  can := false
  opens replies := (0,replies)
  closes replies := (0,replies)
  write replies _ len := (len,replies)
  read replies := (replies.headD .error,replies.tail)
  canWrite replies _ := (0,replies)
  canRead replies _ := (.error,replies)
  single := roundSingle
  double := roundDouble
  infoText := []
  lineBuf := fun _ => 0
  rwBuf := fun _ _ => 0
  parmData := fun _ _ => 0

/-- Some results of reads take the run from one mode to another, with the value. -/
def Reaches (mode : Mode) (m : Program (List (ReadResult 256)) α) (value : α) (mode' : Mode) : Prop :=
  ∃ replies, ∀ w more, w.line = replies ++ more → (m w).value = value ∧ (m w).state.line = more ∧
    Runs.run watch (some mode,some false) (m w).events = some (some mode',some false)

section
variable {mode mode' mode'' : Mode}

theorem reaches_pure (a : α) : Reaches mode (pure a) a mode := ⟨[],fun _ _ same => ⟨rfl,same,rfl⟩⟩

theorem reaches_bind {m : Program (List (ReadResult 256)) α} {next : α → Program (List (ReadResult 256)) β}
    {a : α} {b : β} (first : Reaches mode m a mode') (rest : Reaches mode' (next a) b mode'') :
    Reaches mode (m >>= next) b mode'' := by
  obtain ⟨replies,first⟩ := first
  obtain ⟨replies',rest⟩ := rest
  refine ⟨replies ++ replies',fun w more same => ?_⟩
  obtain ⟨value,line,ran⟩ := first w (replies' ++ more) (by rw [same,List.append_assoc])
  obtain ⟨value',line',ran'⟩ := rest (m w).state more line
  rw [Traced.bind_run,value]
  refine ⟨value',line',?_⟩
  rw [Outcome.after_events,Runs.run_append,ran]
  exact ran'

private theorem reaches_quiet {m : Program (List (ReadResult 256)) α} (a : α)
    (quiet : ∀ w, (m w).value = a ∧ (m w).state.line = w.line)
    (only : Calls (fun reg => isParm reg = false) m) : Reaches mode m a mode :=
  ⟨[],fun w _ same => ⟨(quiet w).1,(quiet w).2.trans same,Runs.run_still _ _ fun e member =>
    watch_calls e (only w e member)⟩⟩

private theorem reaches_event {e : Event} (mode' : Mode) (assumed : fetStart false e = some false)
    (stepped : bracket mode e = some mode') :
    Reaches mode (Traced.emit e) () mode' := by
  refine ⟨[],fun w _ same => ⟨rfl,same,?_⟩⟩
  simp [Runs.run,both,assumed,stepped]

/-- jbd_rw on a register that may be accessed in the mode, with its only read given. -/
private theorem reaches_rw (action reg : UInt8) (data : Bytes) (result : ReadResult 256) (answer : Option Bytes)
    (taken : accepted reg result = answer) (last : result = .error ∨ answer ≠ none)
    (within : mode = .opened ∨ isParm reg = false) :
    Reaches mode (jbdRw replying action reg data) (settle data.length answer) mode := by
  refine ⟨[result],fun w more same => ?_⟩
  have first (packet : Bytes) (len : Int) : (exchange replying packet len reg 5 w.line).value = answer ∧
      (exchange replying packet len reg 5 w.line).state = more := by
    simp only [exchange,replying,same]
    cases result with
    | error => exact ⟨taken,rfl⟩
    | bytes content fits =>
      obtain ⟨payload,found⟩ := Option.ne_none_iff_exists'.mp (last.resolve_left (by simp))
      have kept : payloadOf reg content = some payload := taken.trans found
      simp [kept,found]
  have ran (e : Event) (member : e ∈ (jbdRw replying action reg data w).events) :
      watch (some mode,some false) e = some (some mode,some false) := by
    rcases within with rfl | other
    · exact watch_opened e (calls_rw trivial w e member)
    · exact watch_calls e (calls_rw other w e member)
  rw [jbdRw_run] at ran ⊢
  exact ⟨congrArg (settle data.length) (first _ _).1,(first _ _).2,Runs.run_still _ _ ran⟩

private theorem reaches_silence (action reg : UInt8) (data : Bytes) (within : mode = .opened ∨ isParm reg = false) :
    Reaches mode (jbdRw replying action reg data) (settle data.length none) mode :=
  reaches_rw action reg data .error none rfl (.inl rfl) within

private theorem reaches_reply (action reg : UInt8) (data payload : Bytes) (short : payload.length ≤ 249)
    (within : mode = .opened ∨ isParm reg = false) :
    Reaches mode (jbdRw replying action reg data) (settle data.length (some payload)) mode := by
  have fits : (frame reg 0 payload).length ≤ 256 := by
    rw [frame_length]
    omega
  refine reaches_rw action reg data (.bytes (frame reg 0 payload) fits) (some payload) ?_ (.inr nofun) within
  exact (payloadOf_iff reg _ payload fits).mpr ⟨0,rfl⟩

private theorem reaches_start : Reaches .closed (jbdEepromStart replying) 0 .opened := by
  refine reaches_bind (reaches_event _ rfl rfl) ?_
  refine reaches_bind (reaches_reply _ _ _ [] (by simp) (.inr (by decide))) ?_
  exact reaches_bind (reaches_event _ rfl rfl) (reaches_pure _)

private theorem reaches_end : Reaches mode (jbdEepromEnd replying) (-1) .closed := by
  refine reaches_bind (reaches_event .closed rfl (by cases mode <;> rfl)) ?_
  refine reaches_bind (reaches_silence _ _ _ (.inr (by decide))) ?_
  exact reaches_bind (reaches_event _ rfl rfl) (reaches_pure _)

private theorem reaches_open : Reaches mode (packOpen replying) 0 mode :=
  reaches_quiet 0 (fun _ => ⟨rfl,rfl⟩) calls_packOpen

private theorem reaches_close : Reaches mode (packClose replying) () mode :=
  reaches_quiet () (fun _ => ⟨rfl,rfl⟩) calls_packClose

theorem reaches_find (name : Bytes) : Reaches mode (findParm name) (getp name) mode :=
  reaches_quiet _ (fun _ => ⟨rfl,rfl⟩) calls_findParm

/-- A parameter that is not answered is not shown. -/
private theorem reaches_read (fmt : Fmt) (least : Int) (pp : JbdParams) (nonneg : 0 ≤ least) :
    Reaches .opened (readParm replying fmt least pp) () .opened := by
  refine reaches_bind (reaches_silence _ _ _ (.inl rfl)) ?_
  have below : ¬ (settle 128 none).1 ≥ least := by
    rw [settle_none_value]
    omega
  rw [List.length_replicate,if_neg below]
  exact reaches_pure ()

private theorem writeParm_counted (pp : JbdParams) (value : Bytes) : writeParm replying pp value =
    (Traced.modify (fun w => {w with parmCalls := w.parmCalls + 1}) >>= fun _ =>
      writeParmFrom replying (fun _ => 0) pp value) := rfl

/-- A parameter that is acknowledged is written, unless its value is refused. -/
theorem reaches_write (pp : JbdParams) (value : Bytes) (sent : refused pp value = false) :
    Reaches .opened (writeParm replying pp value) 0 .opened := by
  have send (data : Mem UInt8) (len : Nat) : Reaches .opened (sendParm replying pp.reg data len) 0 .opened :=
    reaches_bind (reaches_reply _ _ _ [] (by simp) (.inl rfl)) (reaches_pure _)
  have bits (data : Mem UInt8) (table : List JbdBit) (read : (parseBits value table).toOption.isNone = false) :
      Reaches .opened (writeBits replying pp data value table) 0 .opened := by
    unfold writeBits
    cases parsed : parseBits value table with
    | error message => simp [parsed,Except.toOption] at read
    | ok mask => exact send _ _
  have byte (data : Mem UInt8) (index : Nat) : Reaches .opened (writeByte replying pp data value index) 0 .opened :=
    reaches_bind (reaches_reply _ _ _ [0] (by simp) (.inl rfl)) (send _ _)
  rw [writeParm_counted]
  refine reaches_bind (reaches_quiet () (fun _ => ⟨rfl,rfl⟩) (Traced.emits_modify _)) ?_
  unfold refused at sent
  unfold writeParmFrom
  cases kind : pp.dt <;> simp only [kind] at sent ⊢
  case func | ntc => exact bits _ _ sent
  case b0 | b1 => exact byte _ _
  case str => exact reaches_bind (reaches_quiet () (fun _ => ⟨rfl,rfl⟩) calls_touch) (send _ _)
  all_goals exact send _ _

theorem reaches_refused (pp : JbdParams) (value : Bytes) (bad : refused pp value = true) :
    Reaches .opened (writeParm replying pp value) (-1) .opened := by
  have bits (data : Mem UInt8) (table : List JbdBit) (unread : (parseBits value table).toOption.isNone = true) :
      Reaches .opened (writeBits replying pp data value table) (-1) .opened := by
    unfold writeBits
    cases parsed : parseBits value table with
    | error message => exact reaches_bind (reaches_event .opened rfl rfl) (reaches_pure _)
    | ok mask => simp [parsed,Except.toOption] at unread
  rw [writeParm_counted]
  refine reaches_bind (reaches_quiet () (fun _ => ⟨rfl,rfl⟩) (Traced.emits_modify _)) ?_
  unfold refused at bad
  unfold writeParmFrom
  cases kind : pp.dt <;> simp only [kind] at bad ⊢
  case func | ntc => exact bits _ _ bad
  all_goals cases bad

end

section
variable {mode mode' mode'' : Mode}

private theorem reaches_next {m : Main (List (ReadResult 256)) α} {next : α → Main (List (ReadResult 256)) β} {a : α}
    {r : Except Int β} (first : Reaches mode m.run (.ok a) mode') (rest : Reaches mode' (next a).run r mode'') :
    Reaches mode (m >>= next).run r mode'' :=
  reaches_bind first rest

private theorem reaches_returned {m : Main (List (ReadResult 256)) α} {next : α → Main (List (ReadResult 256)) β}
    {code : Int} (first : Reaches mode m.run (.error code) mode') :
    Reaches mode (m >>= next).run (.error code) mode' :=
  reaches_bind first (reaches_pure _)

private theorem reaches_lift {m : Program (List (ReadResult 256)) α} {a : α} (known : Reaches mode m a mode') :
    Reaches mode (liftM m : Main (List (ReadResult 256)) α).run (.ok a) mode' :=
  reaches_bind known (reaches_pure _)

private theorem reaches_failWith (text : Bytes) :
    Reaches mode (failWith text : Main (List (ReadResult 256)) α).run (.error 1) mode :=
  reaches_next (reaches_lift (reaches_quiet () (fun _ => ⟨rfl,rfl⟩) calls_print)) (reaches_pure _)

private theorem reaches_openOrReturn : Reaches mode (openOrReturn replying).run (.ok ()) mode :=
  reaches_next (reaches_lift reaches_open) (reaches_pure _)

private theorem reaches_startOrReturn : Reaches .closed (startOrReturn replying).run (.ok ()) .opened :=
  reaches_next (reaches_lift reaches_start) (reaches_pure _)

private theorem reaches_endAndClose : Reaches mode (endAndClose replying) () .closed :=
  reaches_bind reaches_end reaches_close

end

private theorem reaches_readMembers (fmt : Fmt) (members : List (Bytes × Json))
    (unknown : ∃ name ∈ members.map Prod.fst, (getp name).isSome = false) :
    Reaches .opened (readMembers replying fmt members).run (.error 1) .opened := by
  induction members with
  | nil => simp at unknown
  | cons member members ih =>
    obtain ⟨name,value⟩ := member
    refine reaches_next (reaches_lift (reaches_find name)) ?_
    cases found : getp name with
    | none => exact reaches_failWith _
    | some pp =>
      refine reaches_next (reaches_lift (reaches_read fmt 0 pp (le_refl _))) (ih ?_)
      simpa [found] using unknown

private theorem reaches_readOperands (fmt : Fmt) (operands : List Bytes)
    (unknown : ∃ name ∈ operands, (getp name).isSome = false) :
    Reaches .opened (readOperands replying fmt operands).run (.error 1) .opened := by
  induction operands with
  | nil => simp at unknown
  | cons name operands ih =>
    refine reaches_next (reaches_lift (reaches_find name)) ?_
    cases found : getp name with
    | none => exact reaches_failWith _
    | some pp =>
      refine reaches_next (reaches_lift (reaches_read fmt 1 pp (by omega))) (ih ?_)
      simpa [found] using unknown

private theorem reaches_writeMembers (object members : List (Bytes × Json))
    (unknown : ∃ name ∈ namesWritten object members, (getp name).isSome = false) :
    Reaches .opened (writeMembers replying object members).run (.error 1) .opened := by
  induction members with
  | nil => simp [namesWritten] at unknown
  | cons member members ih =>
    obtain ⟨name,value⟩ := member
    refine reaches_next (reaches_lift (reaches_find name)) ?_
    unfold namesWritten at unknown
    cases found : getp name with
    | none => exact reaches_failWith _
    | some pp =>
      simp only [found] at unknown ⊢
      cases text : memberText object pp.label with
      | error type =>
        simp only [text] at unknown ⊢
        refine reaches_next (reaches_lift (reaches_quiet () (fun _ => ⟨rfl,rfl⟩) calls_print)) (ih ?_)
        simpa [found] using unknown
      | ok value =>
        simp only [text] at unknown ⊢
        cases bad : refused pp value with
        | true => simp [bad,found] at unknown
        | false =>
          refine reaches_next (reaches_lift (reaches_write pp value bad)) (ih ?_)
          simpa [found,bad] using unknown

private theorem reaches_setFets (s : Settings) (info : JbdInfo) :
    Reaches .closed (setFets replying s info).run (.ok info) .closed := by
  have failed : Reaches .closed (jbdGetInfo replying info) (1,info) .closed := by
    refine reaches_bind (a := (1,info)) ?_ (reaches_pure _)
    exact reaches_bind (reaches_silence _ _ _ (.inr (by decide))) (reaches_pure _)
  refine reaches_next reaches_openOrReturn (reaches_next (reaches_lift failed) ?_)
  exact reaches_next (reaches_lift reaches_close) (reaches_pure _)

private theorem reaches_readRegister (fmt : Fmt) (reg : Int) :
    Reaches .closed (readRegister replying fmt reg).run (.ok ()) .closed := by
  refine reaches_next reaches_openOrReturn (reaches_next reaches_startOrReturn ?_)
  exact reaches_next (reaches_lift (reaches_silence _ _ _ (.inl rfl))) (reaches_lift reaches_endAndClose)

private theorem reaches_parseFile (env : Env) (filename : Bytes) (members : List (Bytes × Json))
    (value : fileValue env filename = some (.object members)) :
    Reaches .closed (parseFile env filename).run (.ok members) .closed := by
  unfold parseFile
  rw [value]
  exact reaches_next (reaches_lift (reaches_quiet () (fun _ => ⟨rfl,rfl⟩) (Traced.emits_modify _))) (reaches_pure _)

private theorem reaches_region {m rest : Main (List (ReadResult 256)) Unit} (lost : Reaches .opened m.run (.error 1) .opened) :
    Reaches .closed (do
      openOrReturn replying
      startOrReturn replying
      m
      rest : Main _ Unit).run (.error 1) .opened :=
  reaches_next reaches_openOrReturn (reaches_next reaches_startOrReturn (reaches_returned lost))

private theorem namesMembers {env : Env} {filename : Bytes} {names : List (Bytes × Json) → List Bytes}
    (unknown : ∃ name ∈ (match isJson filename,fileValue env filename with
      | true, some (.object members) => names members
      | _, _ => []), (getp name).isSome = false) :
    ∃ members, isJson filename = true ∧ fileValue env filename = some (.object members) ∧
      ∃ name ∈ names members, (getp name).isSome = false := by
  split at unknown
  · rename_i members json value
    exact ⟨members,json,value,unknown⟩
  · simp at unknown

private theorem reaches_readParms (env : Env) (s : Settings) (operands : List Bytes)
    (serial : s.transport ≠ some (bytes "can")) (read : s.action = .read)
    (unknown : ∃ name ∈ namesLooked env s operands, (getp name).isSome = false) :
    Reaches .closed (readParms replying env s operands).run (.error 1) .opened := by
  simp only [namesLooked,serial,if_false,read] at unknown
  unfold readParms
  cases file : s.filename with
  | none =>
    simp only [file] at unknown ⊢
    cases all : s.all with
    | true => simp [all] at unknown
    | false =>
      simp only [all] at unknown
      exact reaches_region (reaches_readOperands s.fmt operands unknown)
  | some filename =>
    simp only [file] at unknown ⊢
    obtain ⟨members,json,value,unknown⟩ := namesMembers unknown
    rw [if_pos json]
    exact reaches_next (reaches_parseFile env filename members value)
      (reaches_region (reaches_readMembers s.fmt members unknown))

private theorem reaches_writeAction (env : Env) (s : Settings) (operands : List Bytes)
    (serial : s.transport ≠ some (bytes "can")) (write : s.action = .write)
    (unknown : ∃ name ∈ namesLooked env s operands, (getp name).isSome = false) :
    Reaches .closed (writeAction replying env s operands).run (.error 1) .opened := by
  simp only [namesLooked,serial,if_false,write] at unknown
  unfold writeAction
  rw [if_neg serial]
  cases file : s.filename with
  | none => simp [file] at unknown
  | some filename =>
    simp only [file] at unknown ⊢
    obtain ⟨members,json,value,unknown⟩ := namesMembers unknown
    rw [if_pos json]
    exact reaches_next (reaches_parseFile env filename members value)
      (reaches_region (reaches_writeMembers members members unknown))

private theorem reaches_runAction (env : Env) (s : Settings) (operands : List Bytes) (info : JbdInfo)
    (unknown : ∃ name ∈ namesLooked env s operands, (getp name).isSome = false) :
    Reaches .closed (runAction replying env s operands info).run (.error 1) .opened := by
  have serial : s.transport ≠ some (bytes "can") := by
    intro can
    simp [namesLooked,can] at unknown
  unfold runAction
  cases action : s.action with
  | info => simp [namesLooked,serial,action] at unknown
  | read =>
    have parms := reaches_readParms env s operands serial action unknown
    simp only [readAction,serial,if_false]
    split_ifs
    · exact reaches_next (reaches_readRegister s.fmt s.reg) parms
    · exact parms
  | write => exact reaches_writeAction env s operands serial action unknown

private theorem reaches_openOutput (env : Env) (s : Settings) (made : created env s) :
    Reaches .closed (openOutput env s).run (.ok ()) .closed := by
  rw [openOutput_created env s made]
  split_ifs
  · exact reaches_lift (reaches_quiet () (fun _ => ⟨rfl,rfl⟩) (Traced.emits_modify _))
  · exact reaches_pure _

private theorem reaches_mainBody (env : Env) (s : Settings) (operands : List Bytes) (reaches : reachesAction env s)
    (unknown : ∃ name ∈ namesLooked env s operands, (getp name).isSome = false) :
    Reaches .closed (mainBody replying env s operands).run (.error 1) .opened := by
  simp only [reachesAction,Bool.and_eq_true,Bool.not_eq_true'] at reaches
  obtain ⟨⟨⟨⟨loads,locks⟩,reset⟩,made⟩,dump⟩ := reaches
  have last (info : JbdInfo) : Reaches .closed (do
      openOutput env s
      runAction replying env s.output operands info
      (printDocument s.output : Program (List (ReadResult 256)) Unit) :
        Main (List (ReadResult 256)) Unit).run (.error 1) .opened := by
    refine reaches_next (reaches_openOutput env s made) (reaches_returned (reaches_runAction env _ operands info ?_))
    rwa [namesLooked_output]
  unfold mainBody
  simp only [loads,locks,reset,dump,Bool.not_true,Bool.false_eq_true,if_false]
  split_ifs
  · exact reaches_next (reaches_setFets s .zero) (last _)
  · exact reaches_next (reaches_pure _) (last _)

/-- Where a name that is looked up is unknown, main can end with the bracket open. -/
private theorem reaches_main (env : Env) (args : List Bytes) (unknown : ¬ NamesKnown env args) :
    Reaches .closed (main replying env args) 1 .opened := by
  unfold NamesKnown at unknown
  unfold main
  cases read : readOptions args with
  | error e => simp [read] at unknown
  | ok given =>
    obtain ⟨s,operands⟩ := given
    simp only [read,not_forall] at unknown ⊢
    obtain ⟨reaches,name,looked,missing⟩ := unknown
    exact reaches_bind (reaches_mainBody env s operands reaches ⟨name,looked,by simpa using missing⟩) (reaches_pure 1)

/-- The bracket is kept on every transport, up to the starts that jbd_set_mosfet
mistakes for good ones, exactly when every name that is looked up where main returns
on an unknown one is in the table. -/
theorem main_bracketed (env : Env) (args : List Bytes) :
    (∀ (τ : Type) (host : Host τ) (w : World τ),
      Bracketed (main host env args w).events ↔ FetStarted (main host env args w).events) ↔
    NamesKnown env args := by
  constructor
  · intro kept
    by_contra unknown
    obtain ⟨replies,lost⟩ := reaches_main env args unknown
    obtain ⟨-,-,watched⟩ := lost (World.start replies) [] (List.append_nil replies).symm
    have ended := Option.some.inj ((run_both bracket fetStart (some .closed) (some false) _).symm.trans watched)
    simp only [Option.bind_some,Prod.mk.injEq] at ended
    have bracketed := (kept _ replying (World.start replies)).mpr (by simp [FetStarted,ended.2])
    simp [Bracketed,ended.1] at bracketed
  · intro known τ host w
    exact main_known host env args w known

/-- `jbdtool -t serial:x -r NoSuchParm` on a BMS that acknowledges the start. -/
def noSuchParm : List Bytes := [bytes "-t",bytes "serial:x",bytes "-r",bytes "NoSuchParm"]

def plainEnv : Env where
  loads := true
  locks := fun _ _ => true
  files := fun _ => .error (bytes "No such file or directory")
  creates := fun _ => true

def acknowledged : List (ReadResult 256) := [.bytes (frame jbdRegEeprom 0 []) acknowledgement_fits]

theorem main_leftOpen : .leave .jbdEepromStart 0 ∈ (main replying plainEnv noSuchParm (World.start acknowledged)).events ∧
    ¬ Bracketed (main replying plainEnv noSuchParm (World.start acknowledged)).events := by
  decide +kernel

end Jbdtool
