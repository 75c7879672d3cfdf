import Jbdtool.Readings
import Jbdtool.EepromExact

/-! The READ action as a whole: what a run does up to its loop, what the loop goes over,
and what comes behind it. -/
namespace Jbdtool
open CString Numbers Observe Traced
variable {τ α β : Type}

theorem getp_name (name : Bytes) (pp : JbdParams) (found : getp name = some pp) : pp.label = name := by
  simpa using List.find?_some found

/-- The four ways of naming parameters. -/
inductive Request where
  | operands (labels : List Bytes)
  | all
  | lines (texts : List Bytes)
  | members (object : List (Bytes × Json))

/-- What a command line and its file ask for, if the file can be read. -/
def request? (env : Env) (s : Settings) (operands : List Bytes) : Option Request :=
  match s.filename with
  | none => some (if s.all then .all else .operands operands)
  | some filename =>
    if isJson filename then
      match fileValue env filename with
      | some (.object members) => some (.members members)
      | _ => none
    else
      match env.files filename with
      | .ok content => some (.lines (fgetsLines (content.length + 1) content))
      | .error _ => none

namespace Request

/-- The names that have to be known. -/
def names : Request → List Bytes
  | .operands labels => labels
  | .all => []
  | .lines _ => []
  | .members object => object.map Prod.fst

def pps : Request → List JbdParams
  | .operands labels => labels.filterMap getp
  | .all => params
  | .lines texts => (texts.map lineLabel).filterMap getp
  | .members object => (object.map Prod.fst).filterMap getp

/-- The length from which on a reply is shown. -/
def least : Request → Nat
  | .operands _ => 1
  | .all => 1
  | .lines _ => 0
  | .members _ => 0

def stops : Request → Bool
  | .all => true
  | _ => false

def loop (host : Host τ) (fmt : Fmt) : Request → Main τ Unit
  | .operands labels => readOperands host fmt labels
  | .all => readAll host fmt params
  | .lines texts => readLines host fmt texts
  | .members object => readMembers host fmt object

/-- A file parsed becomes `root_value`. -/
def parsed : Request → Main τ Unit
  | .members object => (setRootValue (.parsed (.object object)) : Program τ Unit)
  | _ => pure ()

/-- `root_value` while the parameters are read, in JSON mode. -/
def rootValue : Request → RootValue
  | .members object => .parsed (.object object)
  | _ => .document

end Request

/-- `-g` and `-G`, if given. -/
def switchFets (host : Host τ) (s : Settings) : Main τ JbdInfo :=
  if s.charge ≥ 0 ∨ s.discharge ≥ 0 then setFets host s .zero else pure .zero

def toAction (host : Host τ) (s : Settings) : Main τ JbdInfo := do
  let info ← switchFets host s
  if s.output.outfmt = .json then (startDocument : Program τ Unit)
  return info

def toReads (host : Host τ) (s : Settings) (r : Request) : Main τ Unit := do
  let _ ← toAction host s
  if s.reg ≠ 0 then readRegister host s.output.fmt s.reg
  r.parsed
  openOrReturn host
  startOrReturn host

private theorem mainBody_reaches (host : Host τ) (env : Env) (s : Settings) (operands : List Bytes)
    (reaches : reachesAction env s) : mainBody host env s operands = (do
      let info ← toAction host s
      runAction host env s.output operands info
      (printDocument s.output : Program τ Unit) : Main τ Unit) := by
  simp only [reachesAction,Bool.and_eq_true,Bool.not_eq_true'] at reaches
  obtain ⟨⟨⟨⟨loads,locks⟩,reset⟩,made⟩,dump⟩ := reaches
  unfold mainBody toAction switchFets
  simp only [loads,locks,reset,dump,openOutput_created env s made,Bool.not_true,Bool.false_eq_true,if_false]
  split_ifs <;> simp only [bind_assoc,pure_bind]

private theorem readParms_request (host : Host τ) (env : Env) (s : Settings) (operands : List Bytes) (r : Request)
    (found : request? env s operands = some r) : readParms host env s operands = (do
      r.parsed
      openOrReturn host
      startOrReturn host
      r.loop host s.fmt
      endAndClose host : Main τ Unit) := by
  unfold readParms
  unfold request? at found
  cases file : s.filename with
  | none =>
    simp only [file,Option.some.injEq] at found
    subst found
    split_ifs <;> simp only [Request.parsed,Request.loop,pure_bind]
  | some filename =>
    simp only [file] at found ⊢
    split_ifs at found ⊢ with json
    · split at found
      · rename_i members value
        obtain rfl := Option.some.inj found
        unfold parseFile
        rw [value,bind_assoc]
        simp only [Request.parsed,Request.loop,pure_bind]
      · cases found
    · split at found
      · rename_i content readable
        obtain rfl := Option.some.inj found
        unfold openLines
        rw [readable]
        simp only [Request.parsed,Request.loop,pure_bind]
      · cases found

/-- What `-o` changes is not looked at. -/
private theorem request?_output (env : Env) (s : Settings) (operands : List Bytes) :
    request? env s.output operands = request? env s operands := by
  unfold Settings.output
  split
  · split_ifs <;> rfl
  · rfl

theorem output_same (s : Settings) : s.output.action = s.action ∧ s.output.transport = s.transport ∧
    s.output.reg = s.reg := by
  unfold Settings.output
  split
  · split_ifs <;> exact ⟨rfl,rfl,rfl⟩
  · exact ⟨rfl,rfl,rfl⟩

/-- A command line that gets main to read what a request names. -/
structure Reads (env : Env) (s : Settings) (operands : List Bytes) (r : Request) : Prop where
  reaches : reachesAction env s = true
  action : s.action = .read
  serial : s.transport ≠ some (bytes "can")
  found : request? env s operands = some r
  known : ∀ name ∈ r.names, (getp name).isSome

private theorem mainBody_reads (host : Host τ) (env : Env) (s : Settings) (operands : List Bytes) (r : Request)
    (reads : Reads env s operands r) : mainBody host env s operands = (do
      toReads host s r
      r.loop host s.output.fmt
      endAndClose host
      (printDocument s.output : Program τ Unit) : Main τ Unit) := by
  obtain ⟨action,transport,reg⟩ := output_same s
  rw [mainBody_reaches host env s operands reads.reaches]
  unfold toReads runAction readAction
  rw [action,reads.action,transport,if_neg reads.serial,reg]
  simp only [readParms_request host env s.output operands r ((request?_output env s operands).trans reads.found)]
  split_ifs <;> simp only [bind_assoc]

section
variable {host : Host τ} {p : Page τ}

private theorem filterMap_known (names : List Bytes) (known : ∀ name ∈ names, (getp name).isSome) :
    names.map getp = (names.filterMap getp).map some := by
  induction names with
  | nil => rfl
  | cons name names ih =>
    obtain ⟨here,others⟩ := List.forall_mem_cons.mp known
    obtain ⟨pp,found⟩ := Option.isSome_iff_exists.mp here
    rw [List.filterMap_cons_some found,List.map_cons,List.map_cons,found,ih others]

/-- The four loops differ in what they read, and in what they show of it. -/
private theorem page_loop (fmt : Fmt) (r : Request) (known : ∀ name ∈ r.names, (getp name).isSome) :
    OnPage p (r.loop host fmt).run (.ok ()) (p.after host r.stops fmt r.least r.pps)
      (loopShown host r.stops fmt r.least r.pps p.line) := by
  cases r with
  | operands labels => exact page_readOperands fmt labels _ (filterMap_known labels known)
  | all => exact page_lift (page_readAll fmt params)
  | lines texts => exact page_lift (page_readLines fmt texts)
  | members object =>
    refine page_readMembers fmt object _ ?_
    have names := filterMap_known (object.map Prod.fst) known
    rwa [List.map_map] at names

/-- What is left of main once it comes to its loop. -/
private theorem page_reads (s : Settings) (r : Request) (known : ∀ name ∈ r.names, (getp name).isSome) : ∃ line shown,
    OnPage p (do
      r.loop host s.output.fmt
      endAndClose host
      (printDocument s.output : Program τ Unit) : Main τ Unit).run (.ok ())
      ((p.after host r.stops s.output.fmt r.least r.pps).move line)
      (loopShown host r.stops s.output.fmt r.least r.pps p.line ++ shown) ∧ (s.output.outfmt ≠ .json → shown = []) := by
  obtain ⟨line,closed⟩ := @page_endAndClose τ host (p.after host r.stops s.output.fmt r.least r.pps)
  obtain ⟨shown,printed,plain⟩ := @page_printDocument τ ((p.after host r.stops s.output.fmt r.least r.pps).move line) s.output
  refine ⟨line,shown,?_,plain⟩
  exact page_next (page_loop s.output.fmt r known) (page_silent (page_lift closed) (page_lift printed))

end

/-- Where main comes to its loop, its result, the document and its output. -/
theorem main_reads (host : Host τ) (env : Env) (args : List Bytes) (s : Settings) (operands : List Bytes) (r : Request)
    (read : readOptions args = .ok (s,operands)) (reads : Reads env s operands r) (w : World τ)
    (comes : ((toReads host s r).run w).value = .ok ()) : ∃ line shown,
      (main host env args w).value = 0 ∧
      (main host env args w).state.page = ((((toReads host s r).run w).state.page.after host r.stops s.output.fmt r.least
        r.pps).move line) ∧
      (main host env args w).events.flatMap Event.output = ((toReads host s r).run w).events.flatMap Event.output ++
        (loopShown host r.stops s.output.fmt r.least r.pps ((toReads host s r).run w).state.line ++ shown) ∧
      (s.output.outfmt ≠ .json → shown = []) := by
  obtain ⟨line,shown,known,plain⟩ := @page_reads τ host ((toReads host s r).run w).state.page s r reads.known
  obtain ⟨value,state,log,-⟩ := known ((toReads host s r).run w).state rfl
  generalize behind : (do
    r.loop host s.output.fmt
    endAndClose host
    (printDocument s.output : Program τ Unit) : Main τ Unit) = rest at value state log
  have run : (toReads host s r >>= fun _ => rest).run w =
      (rest.run ((toReads host s r).run w).state).after ((toReads host s r).run w).events := by
    change (ExceptT.bindCont (fun _ => rest) ((toReads host s r).run w).value ((toReads host s r).run w).state).after _ = _
    rw [comes]
    rfl
  have whole : main host env args w = ⟨0,(rest.run ((toReads host s r).run w).state).state,
      ((toReads host s r).run w).events ++ (rest.run ((toReads host s r).run w).state).events⟩ := by
    unfold main
    rw [read]
    dsimp only
    rw [mainBody_reads host env s operands r reads,behind,bind_run,run,Outcome.after_value,value]
    simp [Outcome.after]
  refine ⟨line,shown,?_,?_,?_,plain⟩
  · rw [whole]
  · rw [whole]
    exact state
  · rw [whole,List.flatMap_append]
    exact congrArg _ log

/-- Where main does not come to its loop, nothing is left of it. -/
theorem main_returned (host : Host τ) (env : Env) (args : List Bytes) (s : Settings) (operands : List Bytes) (r : Request)
    (read : readOptions args = .ok (s,operands)) (reads : Reads env s operands r) (w : World τ) (code : Int)
    (returned : ((toReads host s r).run w).value = .error code) :
    (main host env args w).events = ((toReads host s r).run w).events := by
  unfold main
  rw [read]
  dsimp only
  rw [mainBody_reads host env s operands r reads]
  generalize (fun _ : Unit => (do
    r.loop host s.output.fmt
    endAndClose host
    (printDocument s.output : Program τ Unit) : Main τ Unit)) = rest
  have run : (toReads host s r >>= rest).run w = ⟨.error code,((toReads host s r).run w).state,
      ((toReads host s r).run w).events⟩ := by
    change (ExceptT.bindCont rest ((toReads host s r).run w).value ((toReads host s r).run w).state).after _ = _
    rw [returned]
    exact congrArg _ (List.append_nil _)
  rw [bind_run,run]
  exact List.append_nil _

theorem preserves_next {inv : World τ → Prop} {m : Main τ α} {next : α → Main τ β} (first : Preserves inv m.run)
    (rest : ∀ a, Preserves inv (next a).run) : Preserves inv (m >>= next).run := by
  refine preserves_bind first fun r => ?_
  cases r with
  | ok a => exact rest a
  | error code => exact preserves_pure _

theorem preserves_lift {inv : World τ → Prop} {m : Program τ α} (kept : Preserves inv m) :
    Preserves inv (liftM m : Main τ α).run :=
  preserves_bind kept fun _ => preserves_pure _

theorem next_ok {m : Main τ α} {next : α → Main τ β} {w : World τ} {b : β} (ok : ((m >>= next).run w).value = .ok b) :
    ∃ a, (m.run w).value = .ok a ∧ ((next a).run (m.run w).state).value = .ok b ∧
      ((m >>= next).run w).state = ((next a).run (m.run w).state).state := by
  have run : (m >>= next).run w = (ExceptT.bindCont next (m.run w).value (m.run w).state).after (m.run w).events := rfl
  rw [run] at ok ⊢
  cases first : (m.run w).value with
  | ok a =>
    rw [first] at ok
    exact ⟨a,rfl,ok,rfl⟩
  | error code =>
    rw [first] at ok
    cases ok

/-- The state is the register asked for last. -/
def answering (replies : UInt8 → Option Bytes) : Host UInt8 where
  can := false
  opens reg := (0,reg)
  closes reg := (0,reg)
  write _ packet len := (len,byteAt packet 2)
  read reg := (match replies reg with
    | none => .error
    | some payload =>
      if fits : (frame reg 0 payload).length ≤ 256 then .bytes (frame reg 0 payload) fits else .error,reg)
  canWrite reg _ := (0,reg)
  canRead reg _ := (.error,reg)
  single := roundSingle
  double := roundDouble
  infoText := []
  lineBuf := fun _ => 0
  rwBuf := fun _ _ => 0
  parmData := fun _ _ => 0

def thousand (reg : UInt8) : Option Bytes := some (if reg < 2 then [] else [0x03,0xE8])

/-- A reply that fits the buffer of jbd_rw. -/
def received (replies : UInt8 → Option Bytes) (reg : UInt8) : Option Bytes :=
  (replies reg).filter (fun payload => payload.length ≤ 249)

theorem exchange_answering (replies : UInt8 → Option Bytes) (packet : Bytes) (len : Int) (reg : UInt8) (line : UInt8)
    (asked : byteAt packet 2 = reg) : (exchange (answering replies) packet len reg 5 line).value = received replies reg := by
  simp only [exchange,answering,asked,received]
  cases reply : replies reg with
  | none => rfl
  | some payload =>
    by_cases fits : payload.length ≤ 249
    · have whole : (frame reg 0 payload).length ≤ 256 := by
        rw [frame_length]
        omega
      have found : payloadOf reg (frame reg 0 payload) = some payload := (payloadOf_iff reg _ payload whole).mpr ⟨0,rfl⟩
      rw [Option.filter_some,if_pos (by simpa using fits)]
      simp [whole,found]
    · have long : ¬ (frame reg 0 payload).length ≤ 256 := by
        rw [frame_length]
        omega
      rw [Option.filter_some,if_neg (by simpa using fits)]
      simp [long]

theorem reading_answering (replies : UInt8 → Option Bytes) (pp : JbdParams) (line : UInt8) :
    (reading (answering replies) pp line).value = received replies pp.reg :=
  exchange_answering replies _ _ _ _ rfl

end Jbdtool
