import Jbdtool.Traffic

/-! A BMS that acknowledges the start of a bracket and nothing else: where main comes out
on it, and with the session open or closed. -/
namespace Jbdtool
open CString Numbers Monitor Traced
variable {α β : Type}

def startOnly : Host Unit where
  can := false
  opens _ := (0,())
  closes _ := (0,())
  write _ _ len := (len,())
  read _ := (.bytes (frame jbdRegEeprom 0 []) acknowledgement_fits,())
  canWrite _ _ := (0,())
  canRead _ _ := (.error,())
  single := roundSingle
  double := roundDouble
  infoText := []
  lineBuf := fun _ => 0
  rwBuf := fun _ _ => 0
  parmData := fun _ _ => 0

private theorem startOnly_payload (reg : UInt8) :
    payloadOf reg (frame jbdRegEeprom 0 []) = if reg = jbdRegEeprom then some [] else none := by
  split_ifs with start
  · subst start
    exact (payloadOf_iff _ _ _ (by decide)).mpr ⟨0,rfl⟩
  · cases found : payloadOf reg (frame jbdRegEeprom 0 []) with
    | none => rfl
    | some payload =>
      obtain ⟨status,same⟩ := (payloadOf_iff _ _ _ (by decide)).mp found
      have bytes := List.cons.inj (List.cons.inj same).2
      exact absurd bytes.1.symm start

theorem startOnly_rw (action reg : UInt8) (data : Bytes) (w : World Unit) :
    (jbdRw startOnly action reg data w).value =
      settle data.length (if reg = jbdRegEeprom then some [] else none) := by
  have heard (packet : Bytes) (len : Int) : ∀ rounds, (exchange startOnly packet len reg (rounds + 1) w.line).value =
      if reg = jbdRegEeprom then some [] else none := by
    intro rounds
    induction rounds with
    | zero =>
      simp only [exchange,startOnly,startOnly_payload]
      split_ifs <;> rfl
    | succ rounds ih =>
      rw [exchange]
      simp only [startOnly,startOnly_payload]
      split_ifs with start
      · rfl
      · rw [if_neg start] at ih
        exact ih
  rw [jbdRw_run,heard]

/-- The value and where the monitor of the session is left, none once it has refused. -/
abbrev Lands (n : Option Nat) (m : Program Unit α) (a : α) (n' : Option Nat) : Prop :=
  Triple (total session) (· = n) m (fun b p => b = a ∧ p = n')

section
variable {n n' n'' : Option Nat} {k : Nat}

theorem lands_pure (a : α) : Lands n (pure a) a n := triple_pure fun _ holds => ⟨rfl,holds⟩

theorem lands_bind {m : Program Unit α} {next : α → Program Unit β} {a : α} {b : β} (first : Lands n m a n')
    (rest : Lands n' (next a) b n'') : Lands n (m >>= next) b n'' :=
  triple_exact first rest

private theorem lands_inner {m : Program Unit α} {a : α} (known : ∀ w, (m w).value = a) (inner : Emits Event.Inner m) :
    Lands (some (k + 1)) m a (some (k + 1)) := by
  rintro p rfl w
  refine ⟨some (k + 1),?_,known w,rfl⟩
  refine Runs.run_still _ _ fun e member => ?_
  exact congrArg some (session_inner k e (inner w e member))

private theorem lands_quiet {m : Program Unit α} {a : α} (known : ∀ w, (m w).value = a) (quiet : Emits Event.Quiet m) :
    Lands (some k) m a (some k) := by
  rintro p rfl w
  refine ⟨some k,?_,known w,rfl⟩
  refine Runs.run_still _ _ fun e member => ?_
  exact congrArg some (session_quiet k e (quiet w e member))

private theorem lands_event {e : Event} (inner : e.Inner) : Lands (some (k + 1)) (Traced.emit e) () (some (k + 1)) :=
  lands_inner (fun _ => rfl) (emits_emit inner)

theorem lands_rw (action reg : UInt8) (data : Bytes) : Lands (some (k + 1)) (jbdRw startOnly action reg data)
    (settle data.length (if reg = jbdRegEeprom then some [] else none)) (some (k + 1)) :=
  lands_inner (startOnly_rw action reg data) (calls_rw trivial)

private theorem lands_unanswered (action reg : UInt8) (data : Bytes) (other : reg ≠ jbdRegEeprom) :
    Lands (some (k + 1)) (jbdRw startOnly action reg data) (settle data.length none) (some (k + 1)) := by
  have known : Lands (some (k + 1)) (jbdRw startOnly action reg data) _ (some (k + 1)) := lands_rw action reg data
  rwa [if_neg other] at known

private theorem lands_start : Lands (some (k + 1)) (jbdEepromStart startOnly) 0 (some (k + 1)) :=
  lands_bind (lands_event trivial) (lands_bind (lands_rw _ _ _) (lands_bind (lands_event trivial) (lands_pure _)))

private theorem lands_end : Lands (some (k + 1)) (jbdEepromEnd startOnly) (-1) (some (k + 1)) :=
  lands_bind (lands_event trivial) (lands_bind (lands_unanswered _ _ _ (by decide))
    (lands_bind (lands_event trivial) (lands_pure _)))

private theorem lands_open : Lands (some k) (packOpen startOnly) 0 (some (k + 1)) := by
  rintro p rfl w
  exact ⟨_,rfl,rfl,rfl⟩

private theorem lands_close : Lands (some (k + 1)) (packClose startOnly) () (some k) := by
  rintro p rfl w
  exact ⟨_,rfl,rfl,rfl⟩

theorem lands_endAndClose : Lands (some (k + 1)) (endAndClose startOnly) () (some k) :=
  lands_bind lands_end lands_close

theorem lands_find (name : Bytes) : Lands (some (k + 1)) (findParm name) (getp name) (some (k + 1)) :=
  lands_inner (fun _ => rfl) calls_findParm

theorem lands_print (text : Bytes) : Lands (some k) (print text) () (some k) :=
  lands_quiet (fun _ => rfl) (emits_emit trivial)

theorem lands_write (pp : JbdParams) (value : Bytes) (other : pp.reg ≠ jbdRegEeprom) :
    Lands (some (k + 1)) (writeParm startOnly pp value) (-1) (some (k + 1)) := by
  refine lands_inner (fun w => ?_) (calls_writeParm trivial)
  have sent (data : Mem UInt8) (len : Nat) (w : World Unit) : (sendParm startOnly pp.reg data len w).value = -1 := by
    change (jbdRw startOnly jbdCmdWrite pp.reg (Mem.slice data 0 len) w).value.1 = -1
    rw [startOnly_rw,if_neg other]
    rfl
  have bits (data : Mem UInt8) (table : List JbdBit) (w : World Unit) :
      (writeBits startOnly pp data value table w).value = -1 := by
    unfold writeBits
    cases parseBits value table with
    | error message => rfl
    | ok mask => exact sent _ _ w
  have byte (data : Mem UInt8) (index : Nat) (w : World Unit) : (writeByte startOnly pp data value index w).value = -1 := by
    unfold writeByte
    rw [bind_run,Outcome.after_value,startOnly_rw,if_neg other]
    rfl
  change (writeParmFrom startOnly (startOnly.parmData w.parmCalls) pp value _).value = -1
  unfold writeParmFrom
  cases pp.dt
  case func | ntc => exact bits _ _ _
  case b0 | b1 => exact byte _ _ _
  all_goals exact sent _ _ _

theorem lands_next {m : Main Unit α} {next : α → Main Unit β} {a : α} {r : Except Int β}
    (first : Lands n m.run (.ok a) n') (rest : Lands n' (next a).run r n'') : Lands n (m >>= next).run r n'' :=
  lands_bind first rest

theorem lands_lift {m : Program Unit α} {a : α} (known : Lands n m a n') :
    Lands n (liftM m : Main Unit α).run (.ok a) n' :=
  lands_bind known (lands_pure _)

theorem lands_openOrReturn : Lands (some k) (openOrReturn startOnly).run (.ok ()) (some (k + 1)) :=
  lands_next (lands_lift lands_open) (lands_pure _)

theorem lands_startOrReturn : Lands (some (k + 1)) (startOrReturn startOnly).run (.ok ()) (some (k + 1)) :=
  lands_next (lands_lift lands_start) (lands_pure _)

theorem lands_setFets (s : Settings) (info : JbdInfo) : Lands (some k) (setFets startOnly s info).run (.ok info) (some k) := by
  have failed : Lands (some (k + 1)) (jbdGetInfo startOnly info) (1,info) (some (k + 1)) := by
    refine lands_bind (a := (1,info)) ?_ (lands_pure _)
    exact lands_bind (lands_unanswered _ _ _ (by decide)) (lands_pure _)
  refine lands_next lands_openOrReturn (lands_next (lands_lift failed) ?_)
  exact lands_next (lands_lift lands_close) (lands_pure _)

private theorem lands_parseFile (env : Env) (filename : Bytes) (members : List (Bytes × Json))
    (value : fileValue env filename = some (.object members)) :
    Lands (some k) (parseFile env filename).run (.ok members) (some k) := by
  unfold parseFile
  rw [value]
  exact lands_next (lands_lift (lands_quiet (fun _ => rfl) (emits_modify _))) (lands_pure _)

theorem params_started : ∀ pp ∈ params, pp.reg ≠ jbdRegEeprom := by decide +kernel

theorem getp_member (name : Bytes) (pp : JbdParams) (found : getp name = some pp) : pp ∈ params :=
  List.mem_of_find?_eq_some found

private theorem lands_writeMembers (object members : List (Bytes × Json)) (ends : endsLoop object members = true) :
    Lands (some (k + 1)) (writeMembers startOnly object members).run (.ok ()) (some (k + 1)) := by
  induction members with
  | nil => exact lands_pure _
  | cons member members ih =>
    obtain ⟨name,value⟩ := member
    unfold endsLoop at ends
    refine lands_next (lands_lift (lands_find name)) ?_
    cases found : getp name with
    | none => simp [found] at ends
    | some pp =>
      simp only [found] at ends ⊢
      cases text : memberText object pp.label with
      | error type =>
        simp only [text] at ends ⊢
        exact lands_next (lands_lift (lands_print _)) (ih ends)
      | ok value =>
        refine lands_next (lands_lift (lands_write pp value ?_)) (lands_pure _)
        exact params_started pp (getp_member name pp found)

/-- What is sent on a closed session is refused. -/
private theorem lands_closed (action reg : UInt8) (data : Bytes) : Lands (some 0) (jbdRw startOnly action reg data)
    (settle data.length (if reg = jbdRegEeprom then some [] else none)) none := by
  rintro p rfl w
  refine ⟨none,?_,startOnly_rw action reg data w,rfl⟩
  rw [jbdRw_run,run_total]
  rfl

private theorem lands_after {m : Program Unit α} {a : α} (known : ∀ w, (m w).value = a) : Lands none m a none := by
  rintro p rfl w
  exact ⟨none,run_total session none _,known w,rfl⟩

private theorem lands_endAgain : Lands (some 0) (endAndClose startOnly) () none := by
  have ended : Lands (some 0) (jbdEepromEnd startOnly) (-1) none := by
    refine lands_bind (lands_quiet (fun _ => rfl) (emits_emit trivial)) ?_
    refine lands_bind (lands_closed jbdCmdWrite jbdRegConfig [0x00,0x00]) ?_
    exact lands_bind (lands_after fun _ => rfl) (lands_pure _)
  exact lands_bind ended (lands_after fun _ => rfl)

/-- After the session has been closed the bracket is ended once more. -/
theorem lands_closesTwice (env : Env) (s : Settings) (operands : List Bytes) (twice : closesTwice env s = true) :
    Lands (some 0) (writeAction startOnly env s operands).run (.ok ()) none := by
  unfold closesTwice at twice
  simp only [Bool.and_eq_true,decide_eq_true_eq] at twice
  obtain ⟨⟨-,serial⟩,file⟩ := twice
  unfold writeAction
  rw [if_neg serial]
  cases named : s.filename with
  | none => simp [named] at file
  | some filename =>
    simp only [named,Bool.and_eq_true] at file ⊢
    obtain ⟨json,members⟩ := file
    rw [if_pos json]
    split at members
    · rename_i members' value
      refine lands_next (lands_parseFile env filename members' value) (lands_next lands_openOrReturn ?_)
      refine lands_next lands_startOrReturn (lands_next (lands_writeMembers members' members' members) ?_)
      exact lands_next (lands_lift lands_endAndClose) (lands_lift lands_endAgain)
    · cases members

theorem lands_openOutput (env : Env) (s : Settings) (made : created env s) :
    Lands (some k) (openOutput env s : Main Unit Unit).run (.ok ()) (some k) := by
  rw [openOutput_created env s made]
  split_ifs
  · exact lands_lift (lands_quiet (fun _ => rfl) (emits_modify _))
  · exact lands_pure _

/-- Where main gets to its action, it comes out of main where the action does. -/
private theorem lands_mainBody (env : Env) (s : Settings) (operands : List Bytes) (n' : Option Nat)
    (reaches : reachesAction env s)
    (action : ∀ info, Lands (some 0) (runAction startOnly env s.output operands info).run (.ok ()) n') :
    Lands (some 0) (mainBody startOnly env s operands).run (.ok ()) n' := by
  simp only [reachesAction,Bool.and_eq_true,Bool.not_eq_true'] at reaches
  obtain ⟨⟨⟨⟨loads,locks⟩,reset⟩,made⟩,dump⟩ := reaches
  have printed : Lands n' (printDocument s.output : Program Unit Unit) () n' := by
    have quiet : Emits Event.Quiet (printDocument s.output : Program Unit Unit) :=
      emits_ite (fun _ => emits_bind emits_get fun _ => emits_emit trivial) fun _ => emits_pure _
    cases n' with
    | none => exact lands_after fun _ => rfl
    | some k => exact lands_quiet (fun _ => rfl) quiet
  have last (info : JbdInfo) : Lands (some 0) (do
      openOutput env s
      runAction startOnly env s.output operands info
      (printDocument s.output : Program Unit Unit) : Main Unit Unit).run (.ok ()) n' :=
    lands_next (lands_openOutput env s made) (lands_next (action info) (lands_lift printed))
  unfold mainBody
  simp only [loads,locks,reset,dump,Bool.not_true,Bool.false_eq_true,if_false]
  split_ifs
  · exact lands_next (lands_setFets s .zero) (last _)
  · exact lands_next (lands_pure _) (last _)

/-- main comes to the end of its action, with value 0. -/
theorem lands_main (env : Env) (args : List Bytes) (s : Settings) (operands : List Bytes) (n' : Option Nat)
    (read : readOptions args = .ok (s,operands)) (reaches : reachesAction env s)
    (action : ∀ info, Lands (some 0) (runAction startOnly env s.output operands info).run (.ok ()) n') :
    Lands (some 0) (main startOnly env args) 0 n' := by
  unfold main
  rw [read]
  exact lands_bind (lands_mainBody env s operands n' reaches action) (lands_pure _)

end

/-- All traffic of main is inside its session, whatever the BMS answers, exactly where the
write action does not come to the end of a JSON file. -/
theorem main_inSession (env : Env) (args : List Bytes) :
    (∀ (τ : Type) (host : Host τ) (w : World τ), InSession (main host env args w).events) ↔
      SessionKept env args := by
  refine ⟨fun always => ?_,fun kept τ host w => main_sessions env args kept w⟩
  unfold SessionKept
  cases read : readOptions args with
  | error e => trivial
  | ok given =>
    obtain ⟨s,operands⟩ := given
    intro reaches
    by_contra twice
    have again : closesTwice env s.output = true := by
      rw [closesTwice_output]
      exact Bool.not_eq_false _ ▸ twice
    have write : s.output.action = .write := by
      simp only [closesTwice,Bool.and_eq_true,decide_eq_true_eq] at again
      exact again.1.1
    have action (info : JbdInfo) :
        Lands (some 0) (runAction startOnly env s.output operands info).run (.ok ()) none := by
      unfold runAction
      rw [write]
      exact lands_closesTwice env s.output operands again
    have lands := lands_main env args s operands none read reaches action
    obtain ⟨p,run,-,refused⟩ := lands (some 0) rfl (World.start ())
    rw [run_total,refused] at run
    exact always Unit startOnly (World.start ()) (Option.some.inj run)

/-- `jbdtool -t serial:x -w -f settings.json`, the file being `{}`. -/
def emptySettings : List Bytes :=
  [bytes "-t",bytes "serial:x",bytes "-w",bytes "-f",bytes "settings.json"]

def emptyFileEnv : Env where
  loads := true
  locks := fun _ _ => true
  files := fun _ => .ok [123,125]
  creates := fun _ => true

theorem main_outOfSession :
    ¬ InSession (main startOnly emptyFileEnv emptySettings (World.start ())).events := by
  decide +kernel

end Jbdtool
