import Jbdtool.Main

/-! Which registers the functions of the program call jbd_rw on. Whatever is neither a
bracket nor made of brackets calls it on registers that can be named here. -/
namespace Jbdtool
open CString Traced
variable {τ : Type}

/-- Neither an entry or a return that is followed, nor a jbd_rw on a register not allowed. -/
def Event.Calls (allowed : UInt8 → Prop) : Event → Prop
  | .rwCall _ reg => allowed reg
  | .enter _ => False
  | .leave _ _ => False
  | _ => True

abbrev Calls {α : Type} (allowed : UInt8 → Prop) (m : Program τ α) : Prop := Emits (Event.Calls allowed) m

/-- No call, open or close, and no entry or return that is followed. -/
def Event.Plain : Event → Prop
  | .rwCall _ _ => False
  | .rwReturn _ _ _ => False
  | .enter _ => False
  | .leave _ _ => False
  | .opened _ => False
  | .closed => False
  | _ => True

class Routine (p : Event → Prop) : Prop where
  plain : ∀ e : Event, e.Plain → p e

/-- What holds of all plain events and, on a transport, of the calls on the registers allowed. -/
class Ordinary (host : Host τ) (p : Event → Prop) (allowed : outParam (UInt8 → Prop)) : Prop extends Routine p where
  rw : ∀ action reg data, allowed reg → Emits p (jbdRw host action reg data)

theorem emits_rw {p : Event → Prop} [Routine p] {host : Host τ} {action reg : UInt8} {data : Bytes}
    (call : p (.rwCall action reg)) (result : ∀ r, p (.rwReturn action reg r)) :
    Emits p (jbdRw host action reg data) := by
  intro w
  rw [jbdRw_run]
  refine rwEvents_elim action reg data.length _ _ call (result _) (fun e member => ?_) fun _ _ _ => Routine.plain _ trivial
  have wire := exchange_onWire _ _ _ _ _ _ e member
  refine Routine.plain e ?_
  cases e <;> trivial

instance (allowed : UInt8 → Prop) : Routine (Event.Calls allowed) where
  plain e known := by cases e <;> trivial

instance (host : Host τ) (allowed : UInt8 → Prop) : Ordinary host (Event.Calls allowed) allowed where
  rw _ _ _ known := emits_rw known fun _ => trivial

theorem calls_packOpen {allowed : UInt8 → Prop} {host : Host τ} : Calls allowed (packOpen host) :=
  emits_bind emits_get fun _ => emits_bind (emits_modify _) fun _ => emits_bind (emits_emit trivial) fun _ =>
    emits_pure _

theorem calls_packClose {allowed : UInt8 → Prop} {host : Host τ} : Calls allowed (packClose host) :=
  emits_bind emits_get fun _ => emits_bind (emits_modify _) fun _ => emits_emit trivial

section
variable {p : Event → Prop} [routine : Routine p]
include routine

private theorem emits_plain {e : Event} (known : e.Plain) : Emits p (Traced.emit e : Program τ Unit) :=
  emits_emit (Routine.plain e known)

theorem calls_touch {region : Region} {first count : Nat} :
    Emits p (emitTouch region first count : Program τ Unit) :=
  emits_plain trivial

theorem calls_print {text : Bytes} : Emits p (print text : Program τ Unit) := emits_plain trivial

omit routine in
private theorem calls_setRoot {label : Bytes} {value : Option Json} :
    Emits p (setRoot label value : Program τ Unit) :=
  emits_modify _

private theorem calls_output {fmt : Fmt} {label text : Bytes} {value : Option Json} :
    Emits p (output fmt label value text : Program τ Unit) :=
  emits_ite (fun _ => calls_setRoot) fun _ => emits_plain trivial

theorem calls_pdisp {fmt : Fmt} {label : Bytes} {dt : ParmDt} {data : Bytes} {len : Nat} :
    Emits p (pdisp fmt label dt data len : Program τ Unit) := by
  have bits (table : List JbdBit) (short : Int) :
      Emits p (pdispBits fmt label table short : Program τ Unit) :=
    emits_ite (fun _ => calls_output) fun _ =>
      emits_ite (fun _ => calls_setRoot) fun _ => calls_output
  have field (signed : Bool) (vals : List Int) (i : UInt8) :
      Emits p (pdispField fmt label signed vals i : Program τ Unit) :=
    emits_ite (fun _ => calls_output) fun _ => calls_output
  cases dt
  case func | ntc => exact bits _ _
  case scval | scdelay | dsgoc2 | dsgoc2delay | hcovpdelay | hcuvpdelay => exact field _ _ _
  case str => exact emits_bind calls_touch fun _ => calls_output
  case dump => exact emits_ite (fun _ => calls_setRoot) fun _ => emits_plain trivial
  case unk => exact emits_pure _
  all_goals exact calls_output

private theorem calls_decodeWords {region : Region} {datasz offset : Nat} {data : Bytes} {f : Bytes → Nat → ℚ}
    {count i : Nat} {array : Mem ℚ} :
    Emits p (decodeWords region datasz offset data f count i array : Program τ (Mem ℚ)) := by
  induction count generalizing i array with
  | zero => exact emits_pure array
  | succ count ih =>
    exact emits_bind calls_touch fun _ => emits_bind calls_touch fun _ => ih

private theorem calls_canGetLoop {host : Host τ} {id datalen : Nat} {chk : Bool} {rounds : Nat} {data : Bytes} :
    Emits p (jbdCanGetLoop host id datalen chk rounds data) :=
  canGetLoop_emits (Routine.plain _ trivial) (fun _ => Routine.plain _ trivial) (fun _ => Routine.plain _ trivial) _ _ _ _

private theorem calls_decodeFrames {host : Host τ} {region : Region} {limit : Nat} {f : Bytes → Nat → ℚ}
    {ids : List Nat} {i : Nat} {array : Mem ℚ} :
    Emits p (decodeFrames host region limit f ids i array) := by
  induction ids generalizing i array with
  | nil => exact emits_pure _
  | cons id ids ih =>
    refine emits_bind calls_canGetLoop fun _ => emits_ite (fun _ => emits_pure _) fun _ => ?_
    refine emits_bind calls_touch fun _ => emits_ite (fun _ => emits_pure _) fun _ => ?_
    refine emits_bind calls_touch fun _ => emits_ite (fun _ => emits_pure _) fun _ => ?_
    exact emits_bind calls_touch fun _ => emits_ite (fun _ => emits_pure _) fun _ => ih

private theorem calls_canModel {host : Host τ} {frames : List (Nat × Nat)} {model : Mem UInt8} :
    Emits p (canModel host frames model) := by
  induction frames generalizing model with
  | nil => exact emits_pure _
  | cons frame frames ih =>
    refine emits_bind calls_canGetLoop fun _ => emits_ite (fun _ => emits_pure _) fun _ => ?_
    exact emits_bind calls_touch fun _ => ih

private theorem calls_canGetInfo {host : Host τ} {info : JbdInfo} : Emits p (jbdCanGetInfo host info) := by
  refine emits_bind calls_canGetLoop fun _ => emits_ite (fun _ => emits_pure _) fun _ => ?_
  refine emits_bind calls_canGetLoop fun _ => emits_ite (fun _ => emits_pure _) fun _ => ?_
  refine emits_bind calls_canGetLoop fun _ => emits_ite (fun _ => emits_pure _) fun _ => ?_
  refine emits_bind calls_canGetLoop fun _ => emits_ite (fun _ => emits_pure _) fun _ => ?_
  refine emits_bind calls_canGetLoop fun _ => emits_ite (fun _ => emits_pure _) fun _ => ?_
  refine emits_bind calls_decodeFrames fun _ => emits_ite (fun _ => emits_pure _) fun _ => ?_
  refine emits_bind calls_decodeFrames fun _ => emits_ite (fun _ => emits_pure _) fun _ => ?_
  exact emits_bind calls_canModel fun _ => emits_ite (fun _ => emits_pure _) fun _ => emits_pure _

private theorem calls_scanCells {host : Host τ} {cellvolt : Mem ℚ} {count i : Nat} {stats : CellStats} :
    Emits p (scanCells host cellvolt count i stats) := by
  induction count generalizing i stats with
  | zero => exact emits_pure _
  | succ count ih => exact emits_bind calls_touch fun _ => ih

/-- On the CAN bus a status needs no register. -/
theorem calls_canInfo {host : Host τ} {info : JbdInfo} (can : host.can = true) : Emits p (jbdGetInfo host info) := by
  unfold jbdGetInfo
  rw [if_pos can]
  refine emits_bind calls_canGetInfo fun _ => emits_ite (fun _ => emits_pure _) fun _ => ?_
  exact emits_bind calls_scanCells fun _ => emits_pure _

private theorem calls_displayLists {host : Host τ} {fmt : Fmt} {info : JbdInfo} :
    Emits p (displayLists host fmt info) := by
  have flat {region : Region} {key : Bytes} {digits : Nat} {array : Mem ℚ} {count i : Nat} :
      Emits p (displayFlat fmt region key digits array count i : Program τ Unit) := by
    induction count generalizing i with
    | zero => exact emits_pure _
    | succ count ih => exact emits_bind calls_touch fun _ => emits_bind calls_output fun _ => ih
  have joined {region : Region} {sep : UInt8} {digits : Nat} {array : Mem ℚ} {count i : Nat} {text : Bytes} :
      Emits p (joinElements region sep digits array count i text : Program τ Bytes) := by
    induction count generalizing i text with
    | zero => exact emits_pure _
    | succ count ih => exact emits_bind calls_touch fun _ => ih
  have list {region : Region} {label : Bytes} {digits : Nat} {array : Mem ℚ} {count : Nat} {temp : Bytes} :
      Emits p (displayList fmt region label digits array count temp : Program τ Bytes) :=
    emits_ite (fun _ => emits_bind joined fun _ => emits_bind calls_setRoot fun _ => emits_pure _)
      fun _ => emits_bind joined fun _ => emits_bind calls_output fun _ => emits_pure _
  exact emits_ite (fun _ => emits_bind flat fun _ => flat)
    fun _ => emits_bind list fun _ => emits_bind list fun _ => emits_pure _

theorem calls_displayInfo {host : Host τ} {fmt : Fmt} {info : JbdInfo} :
    Emits p (displayInfo host fmt info) := by
  have bits {fuel i : Nat} {text : Bytes} :
      Emits p (balanceBits info.balancebits info.strings fuel i text : Program τ Bytes) := by
    induction fuel generalizing i text with
    | zero => exact emits_pure _
    | succ fuel ih => exact emits_bind calls_touch fun _ => emits_ite (fun _ => emits_pure _) fun _ => ih
  have balance : Emits p (displayBalance fmt info : Program τ Unit) :=
    emits_bind bits fun _ => emits_bind calls_touch fun _ => calls_output
  have avg : Emits p (displayAvg fmt info.cellAvg : Program τ Unit) := by
    cases info.cellAvg <;> exact calls_output
  have model : Emits p (displayModel fmt info.model : Program τ Unit) :=
    emits_bind calls_touch fun _ => calls_output
  have fet : Emits p (displayFet fmt info.fetstate : Program τ Unit) :=
    emits_ite (fun _ => calls_output) fun _ => calls_output
  refine emits_bind (emits_ite (fun _ => calls_output) fun _ => emits_pure _) fun _ => ?_
  iterate 8 refine emits_bind calls_output fun _ => ?_
  refine emits_bind calls_displayLists fun _ => emits_bind balance fun _ => ?_
  iterate 4 refine emits_bind calls_output fun _ => ?_
  refine emits_bind avg fun _ => emits_bind model fun _ => ?_
  iterate 2 refine emits_bind calls_output fun _ => ?_
  exact fet

theorem calls_findParm {label : Bytes} : Emits p (findParm label : Program τ (Option JbdParams)) :=
  emits_bind (emits_plain trivial) fun _ => emits_pure _

theorem calls_printDocument {s : Settings} : Emits p (printDocument s : Program τ Unit) :=
  emits_ite (fun _ => emits_bind emits_get fun _ => emits_plain trivial) fun _ => emits_pure _

end

section
variable {host : Host τ} {p : Event → Prop} {allowed : UInt8 → Prop} [ordinary : Ordinary host p allowed]
include ordinary

theorem calls_rw {action reg : UInt8} {data : Bytes} (known : allowed reg) : Emits p (jbdRw host action reg data) :=
  Ordinary.rw action reg data known

theorem calls_readReply {reg : UInt8} {datasz : Nat} (known : allowed reg) : Emits p (readReply host reg datasz) :=
  calls_rw known

private theorem calls_stdGetInfo {info : JbdInfo} (hwinfo : allowed jbdCmdHwinfo)
    (cells : allowed jbdCmdCellinfo) (model : allowed jbdCmdHwver) :
    Emits p (jbdStdGetInfo host info) := by
  refine emits_bind (calls_readReply hwinfo) fun _ => emits_ite (fun _ => emits_pure _) fun _ => ?_
  refine emits_bind calls_decodeWords fun _ => ?_
  refine emits_bind (calls_readReply cells) fun _ => emits_ite (fun _ => emits_pure _) fun _ => ?_
  refine emits_bind calls_decodeWords fun _ => ?_
  refine emits_bind (calls_rw model) fun _ => emits_ite (fun _ => emits_pure _) fun _ => ?_
  exact emits_bind calls_touch fun _ => emits_pure _

theorem calls_getInfo {info : JbdInfo} (hwinfo : allowed jbdCmdHwinfo)
    (cells : allowed jbdCmdCellinfo) (model : allowed jbdCmdHwver) : Emits p (jbdGetInfo host info) := by
  refine emits_ite (fun _ => emits_bind calls_canGetInfo fun _ => ?_) fun _ =>
    emits_bind (calls_stdGetInfo hwinfo cells model) fun _ => ?_
  all_goals
    refine emits_ite (fun _ => emits_pure _) fun _ => ?_
    exact emits_bind calls_scanCells fun _ => emits_pure _

theorem calls_showInfo {fmt : Fmt} {info : JbdInfo} (hwinfo : allowed jbdCmdHwinfo)
    (cells : allowed jbdCmdCellinfo) (model : allowed jbdCmdHwver) : Emits p (showInfo host fmt info) :=
  emits_bind (calls_getInfo hwinfo cells model) fun _ => emits_ite (fun _ => calls_displayInfo) fun _ => emits_pure _

theorem calls_readParm {fmt : Fmt} {least : Int} {pp : JbdParams} (known : allowed pp.reg) :
    Emits p (readParm host fmt least pp) :=
  emits_bind (calls_readReply known) fun _ => emits_ite (fun _ => calls_pdisp) fun _ => emits_pure _

theorem calls_writeParm {pp : JbdParams} {value : Bytes} (known : allowed pp.reg) :
    Emits p (writeParm host pp value) := by
  have sent {data : Mem UInt8} {len : Nat} : Emits p (sendParm host pp.reg data len) :=
    emits_bind (calls_rw known) fun _ => emits_pure _
  have bits {data : Mem UInt8} {table : List JbdBit} : Emits p (writeBits host pp data value table) := by
    unfold writeBits
    cases parseBits value table with
    | error message => exact emits_bind (emits_plain trivial) fun _ => emits_pure _
    | ok mask => exact sent
  have byte {data : Mem UInt8} {index : Nat} : Emits p (writeByte host pp data value index) :=
    emits_bind (calls_rw known) fun _ => emits_ite (fun _ => emits_pure _) fun _ => sent
  refine emits_bind emits_get fun w => emits_bind (emits_modify _) fun _ => ?_
  unfold writeParmFrom
  cases pp.dt
  case func | ntc => exact bits
  case b0 | b1 => exact byte
  case str => exact emits_bind calls_touch fun _ => sent
  all_goals exact sent

end

section
variable {host : Host τ} {p : Event → Prop} [ordinary : Ordinary host p (fun _ => True)] {fmt : Fmt}
include ordinary

theorem calls_dumpRegisters {registers : List Nat} : Emits p (dumpRegisters host registers) := by
  induction registers with
  | nil => exact emits_pure _
  | cons i registers ih =>
    exact emits_bind (calls_readReply trivial) fun _ =>
      emits_ite (fun _ => emits_bind calls_print fun _ => ih) fun _ => ih

theorem calls_readAll {table : List JbdParams} : Emits p (readAll host fmt table) := by
  induction table with
  | nil => exact emits_pure _
  | cons pp table ih =>
    refine emits_bind (calls_readReply trivial) fun _ => emits_ite (fun _ => emits_pure _) fun _ => ?_
    exact emits_ite (fun _ => emits_bind calls_pdisp fun _ => ih) fun _ => ih

theorem calls_readLines {lines : List Bytes} : Emits p (readLines host fmt lines) := by
  induction lines with
  | nil => exact emits_pure _
  | cons line lines ih =>
    refine emits_bind calls_findParm fun found => ?_
    cases found with
    | none => exact ih
    | some pp => exact emits_bind (calls_readParm trivial) fun _ => ih

theorem calls_writeLines {lines : List Bytes} {line : Mem UInt8} :
    Emits p (writeLines host lines line) := by
  induction lines generalizing line with
  | nil => exact emits_pure _
  | cons text lines ih =>
    refine emits_bind calls_findParm fun found => ?_
    cases found with
    | none => exact ih
    | some pp => exact emits_bind (calls_writeParm trivial) fun _ => emits_ite (fun _ => emits_pure _) fun _ => ih

theorem calls_writeOperands {operands : List Bytes} : Emits p (writeOperands host operands) := by
  induction operands using writeOperands.induct with
  | case1 =>
    unfold writeOperands
    exact emits_pure _
  | case2 name operands ih =>
    unfold writeOperands
    refine emits_bind calls_findParm fun found => ?_
    cases found with
    | none => exact calls_print
    | some pp =>
      cases operands with
      | nil => exact calls_print
      | cons value operands =>
        exact emits_bind (calls_writeParm trivial) fun _ => emits_ite (fun _ => emits_pure _) fun _ => ih

end

/-- What holds of all calls and of every open, close and bracket holds of all that main does but switch FETs. -/
class Outer (host : Host τ) (p : Event → Prop) : Prop extends Ordinary host p (fun _ => True) where
  starts : Emits p (jbdEepromStart host)
  ends : Emits p (jbdEepromEnd host)
  opens : Emits p (packOpen host)
  closes : Emits p (packClose host)

section
variable {host : Host τ} {p : Event → Prop} {α β : Type}

theorem emits_next {m : Main τ α} {next : α → Main τ β} (first : Emits p m.run) (rest : ∀ a, Emits p (next a).run) :
    Emits p (m >>= next).run := by
  refine emits_bind first fun r => ?_
  cases r with
  | ok a => exact rest a
  | error code => exact emits_pure _

private theorem emits_throw {code : Int} : Emits p (throw code : Main τ α).run := emits_pure _

theorem emits_same {a : α} : Emits p (pure a : Main τ α).run := emits_pure _

theorem emits_lift {m : Program τ α} (known : Emits p m) : Emits p (liftM m : Main τ α).run :=
  emits_bind known fun _ => emits_pure _

theorem emits_choice {c : Prop} [Decidable c] {m n : Main τ α} (yes : Emits p m.run) (no : Emits p n.run) :
    Emits p (if c then m else n).run := by
  split_ifs
  · exact yes
  · exact no

private theorem emits_failWith [Routine p] {text : Bytes} : Emits p (failWith text : Main τ α).run :=
  emits_next (emits_lift calls_print) fun _ => emits_throw

private theorem emits_parseFile [Routine p] {env : Env} {filename : Bytes} :
    Emits p (parseFile env filename : Main τ (List (Bytes × Json))).run := by
  refine emits_next (emits_lift (emits_modify _)) fun _ => ?_
  split
  · exact emits_same
  · exact emits_failWith

private theorem emits_openLines [Routine p] {env : Env} {filename : Bytes} :
    Emits p (openLines env filename : Main τ (List Bytes)).run := by
  unfold openLines
  split
  · exact emits_same
  · exact emits_failWith

private theorem emits_openOutput {env : Env} {s : Settings} : Emits p (openOutput env s : Main τ Unit).run := by
  unfold openOutput
  cases s.outfile with
  | none => exact emits_choice (emits_lift (emits_modify _)) emits_same
  | some outfile =>
    refine emits_choice (emits_choice (emits_lift (emits_modify _)) emits_same) (emits_next emits_throw fun _ => ?_)
    exact emits_choice (emits_lift (emits_modify _)) emits_same

end

section
variable {host : Host τ} (p : Event → Prop) [outer : Outer host p]
include outer

theorem outer_open : Emits p (openOrReturn host).run :=
  emits_next (emits_lift Outer.opens) fun _ => emits_choice emits_throw emits_same

private theorem outer_start : Emits p (startOrReturn host).run :=
  emits_next (emits_lift Outer.starts) fun _ => emits_choice emits_throw emits_same

private theorem outer_end : Emits p (liftM (endAndClose host) : Main τ Unit).run :=
  emits_lift (emits_bind Outer.ends fun _ => Outer.closes)

private theorem outer_reset : Emits p (resetBms host).run := by
  have reset : Emits p (jbdReset host) :=
    emits_bind (calls_rw trivial) fun _ => emits_ite
      (fun _ => emits_bind (calls_rw trivial) fun _ => emits_pure _) fun _ => emits_pure _
  refine emits_next (emits_lift calls_print) fun _ => emits_next (outer_open p) fun _ => ?_
  refine emits_next (emits_lift Outer.starts) fun _ => emits_choice ?_ ?_
  · refine emits_next (emits_lift reset) fun _ => emits_next (emits_lift Outer.ends) fun _ => ?_
    exact emits_next (emits_lift Outer.closes) fun _ => emits_throw
  · exact emits_next (emits_lift Outer.closes) fun _ => emits_throw

private theorem outer_dump : Emits p (dumpAll host).run := by
  refine emits_next (outer_open p) fun _ => emits_next (outer_start p) fun _ => ?_
  exact emits_next (emits_lift calls_dumpRegisters) fun _ => emits_next (outer_end p) fun _ => emits_throw

/-- A region of main: open, start, what is between, end and close. -/
private theorem outer_region {m : Main τ Unit} (inside : Emits p m.run) : Emits p (do
    openOrReturn host
    startOrReturn host
    m
    endAndClose host : Main τ Unit).run :=
  emits_next (outer_open p) fun _ => emits_next (outer_start p) fun _ => emits_next inside fun _ => outer_end p

private theorem outer_readMembers (fmt : Fmt) (members : List (Bytes × Json)) :
    Emits p (readMembers host fmt members).run := by
  induction members with
  | nil => exact emits_same
  | cons member members ih =>
    refine emits_next (emits_lift calls_findParm) fun found => ?_
    cases found with
    | none => exact emits_failWith
    | some pp => exact emits_next (emits_lift (calls_readParm trivial)) fun _ => ih

private theorem outer_readOperands (fmt : Fmt) (operands : List Bytes) : Emits p (readOperands host fmt operands).run := by
  induction operands with
  | nil => exact emits_same
  | cons name operands ih =>
    refine emits_next (emits_lift calls_findParm) fun found => ?_
    cases found with
    | none => exact emits_failWith
    | some pp => exact emits_next (emits_lift (calls_readParm trivial)) fun _ => ih

private theorem outer_writeMembers (object members : List (Bytes × Json)) :
    Emits p (writeMembers host object members).run := by
  induction members with
  | nil => exact emits_same
  | cons member members ih =>
    refine emits_next (emits_lift calls_findParm) fun found => ?_
    cases found with
    | none => exact emits_failWith
    | some pp =>
      dsimp only
      cases memberText object pp.label with
      | error type => exact emits_next (emits_lift calls_print) fun _ => ih
      | ok value => exact emits_next (emits_lift (calls_writeParm trivial)) fun _ => emits_choice emits_same ih

private theorem outer_readParms (env : Env) (s : Settings) (operands : List Bytes) :
    Emits p (readParms host env s operands).run := by
  unfold readParms
  cases s.filename with
  | none =>
    refine emits_next (outer_open p) fun _ => emits_next (outer_start p) fun _ => emits_choice ?_ ?_
    · exact emits_next (emits_lift calls_readAll) fun _ => outer_end p
    · exact emits_next (outer_readOperands p s.fmt operands) fun _ => outer_end p
  | some filename =>
    refine emits_choice ?_ ?_
    · exact emits_next emits_parseFile fun members => outer_region p (outer_readMembers p s.fmt members)
    · exact emits_next emits_openLines fun lines => outer_region p (emits_lift calls_readLines)

private theorem outer_readAction (env : Env) (s : Settings) (operands : List Bytes) :
    Emits p (readAction host env s operands).run := by
  have register : Emits p (readRegister host s.fmt s.reg).run := by
    refine emits_next (outer_open p) fun _ => emits_next (outer_start p) fun _ => ?_
    refine emits_next (emits_lift (calls_readReply trivial)) fun _ => emits_choice ?_ (outer_end p)
    exact emits_next (emits_lift calls_pdisp) fun _ => outer_end p
  have rest : Emits p (do
      if s.reg ≠ 0 then readRegister host s.fmt s.reg
      readParms host env s operands : Main τ Unit).run :=
    emits_choice (emits_next register fun _ => outer_readParms p env s operands) (outer_readParms p env s operands)
  exact emits_choice (emits_next emits_failWith fun _ => rest) rest

private theorem outer_writeAction (env : Env) (s : Settings) (operands : List Bytes) :
    Emits p (writeAction host env s operands).run := by
  refine emits_choice (emits_next emits_failWith fun _ => ?_) ?_
  all_goals
    cases s.filename with
    | none => exact outer_region p (emits_lift calls_writeOperands)
    | some filename =>
      refine emits_choice ?_ ?_
      · refine emits_next emits_parseFile fun members => emits_next (outer_open p) fun _ => ?_
        refine emits_next (outer_start p) fun _ => emits_next (outer_writeMembers p members members) fun _ => ?_
        exact emits_next (outer_end p) fun _ => outer_end p
      · exact emits_next emits_openLines fun lines => outer_region p (emits_lift calls_writeLines)

private theorem outer_runAction (env : Env) (s : Settings) (operands : List Bytes) (info : JbdInfo) :
    Emits p (runAction host env s operands info).run := by
  unfold runAction
  cases s.action with
  | info =>
    refine emits_next (outer_open p) fun _ => emits_next (emits_lift ?_) fun _ => emits_lift Outer.closes
    exact calls_showInfo trivial trivial trivial
  | read => exact outer_readAction p env s operands
  | write => exact outer_writeAction p env s operands

private theorem outer_setFets (switched : ∀ opt, Emits p (jbdSetMosfet host opt)) (s : Settings) (info : JbdInfo) :
    Emits p (setFets host s info).run := by
  refine emits_next (outer_open p) fun _ => emits_next (emits_lift (calls_getInfo trivial trivial trivial)) fun r => ?_
  have closes : Emits p (do
      (packClose host : Program τ Unit)
      return r.2 : Main τ JbdInfo).run :=
    emits_next (emits_lift Outer.closes) fun _ => emits_same
  have shown (what : Bytes) (state : Int) : Emits p (printFet what state : Program τ Unit) :=
    emits_ite (fun _ => calls_print) fun _ => emits_pure _
  refine emits_choice (emits_next (emits_lift (switched _)) fun i => emits_choice ?_ closes) closes
  exact emits_next (emits_lift (shown _ _)) fun _ => emits_next (emits_lift (shown _ _)) fun _ => closes

theorem outer_rest (env : Env) (s : Settings) (operands : List Bytes) (info : JbdInfo) : Emits p (do
    if s.reset then resetBms host
    openOutput env s
    if s.dump then dumpAll host
    runAction host env s.output operands info
    (printDocument s.output : Program τ Unit) : Main τ Unit).run := by
  have action : Emits p (do
      runAction host env s.output operands info
      (printDocument s.output : Program τ Unit) : Main τ Unit).run :=
    emits_next (outer_runAction p env s.output operands info) fun _ => emits_lift calls_printDocument
  have output : Emits p (do
      openOutput env s
      if s.dump then dumpAll host
      runAction host env s.output operands info
      (printDocument s.output : Program τ Unit) : Main τ Unit).run :=
    emits_next emits_openOutput fun _ => emits_choice (emits_next (outer_dump p) fun _ => action) action
  exact emits_choice (emits_next (outer_reset p) fun _ => output) output

private theorem outer_mainBody (switched : ∀ opt, Emits p (jbdSetMosfet host opt)) (env : Env) (s : Settings)
    (operands : List Bytes) : Emits p (mainBody host env s operands).run := by
  have fets : Emits p (do
      let info ← if s.charge ≥ 0 ∨ s.discharge ≥ 0 then setFets host s .zero else pure .zero
      if s.reset then resetBms host
      openOutput env s
      if s.dump then dumpAll host
      runAction host env s.output operands info
      (printDocument s.output : Program τ Unit) : Main τ Unit).run :=
    emits_choice (emits_next (outer_setFets p switched s .zero) fun info => outer_rest p env s operands info)
      (emits_next emits_same fun info => outer_rest p env s operands info)
  have locked : Emits p (do
      if !env.locks (lockfile s.target) !s.dontWait then throw 1
      let info ← if s.charge ≥ 0 ∨ s.discharge ≥ 0 then setFets host s .zero else pure .zero
      if s.reset then resetBms host
      openOutput env s
      if s.dump then dumpAll host
      runAction host env s.output operands info
      (printDocument s.output : Program τ Unit) : Main τ Unit).run :=
    emits_choice (emits_next emits_throw fun _ => fets) fets
  exact emits_choice (emits_next emits_throw fun _ => locked) locked

/-- What holds of jbd_set_mosfet too holds of all of main. -/
theorem outer_main (switched : ∀ opt, Emits p (jbdSetMosfet host opt)) (env : Env) (args : List Bytes) :
    Emits p (main host env args) := by
  unfold main
  cases readOptions args with
  | error e =>
    have usage : Emits p (do
        if e.usage then Traced.emit .usage
        return e.code : Program τ Int) :=
      emits_ite (fun _ => emits_bind (emits_plain trivial) fun _ => emits_pure _) fun _ => emits_pure _
    exact emits_ite (fun _ => emits_bind calls_print fun _ => usage) fun _ => usage
  | ok given =>
    obtain ⟨s,operands⟩ := given
    refine emits_bind (outer_mainBody p switched env s operands) fun r => ?_
    cases r <;> exact emits_pure _

end

end Jbdtool
