import Jbdtool.Dump
import Jbdtool.Write
import Jbdtool.Status

/-! Restoring a settings dump: what `-w -f` makes of the registers of a BMS. -/
namespace Jbdtool
open CString Numbers Observe

/-- The content that write_parm gives a register, with `data` its stale buffer; none
when nothing is written. -/
def effect (data : Mem UInt8) (pp : JbdParams) (value content : Bytes) : Option Bytes :=
  match pp.dt with
  | .uint | .int | .temp | .date | .pct => some (shortPayload (atoi value))
  | .func => (parseBits value funcBits).toOption.map (fun mask => shortPayload mask.toNat)
  | .ntc => (parseBits value ntcBits).toOption.map (fun mask => shortPayload mask.toNat)
  | .b0 => if content = [] then none else some [UInt8.ofInt (atoi value),content.getD 1 0]
  | .b1 => if content = [] then none else some [content.getD 0 0,UInt8.ofInt (atoi value)]
  | .float => some (floatPayload value)
  | .str => some value
  | .unk | .double | .scval | .scdelay | .dsgoc2 | .dsgoc2delay | .hcovpdelay | .hcuvpdelay | .dump =>
    some (Mem.slice data 0 2)

/-- The view with the content of a register replaced, if it is. -/
def View.put (v : View) (reg : UInt8) : Option Bytes → View
  | none => v
  | some content => {v with regs := Function.update v.regs reg content}

def View.count (v : View) : View := {v with parmCalls := v.parmCalls + 1}

def outcome (reg : UInt8) : Option Bytes → Int × List Event
  | none => (-1,[])
  | some _ => (0,[.rwCall jbdCmdWrite reg])

section
variable {rwBuf parmData : Nat → Mem UInt8} {v : View}

private theorem does_sendParm (reg : UInt8) (data : Mem UInt8) (len : Nat) (short : len ≤ 249) (parm : isParm reg = true) :
    OnBms v (sendParm (bms rwBuf parmData) reg data len) (outcome reg (some (Mem.slice data 0 len))).1
      (v.put reg (some (Mem.slice data 0 len))) (outcome reg (some (Mem.slice data 0 len))).2 True := by
  have wrote : OnBms v (jbdRw (bms rwBuf parmData) jbdCmdWrite reg (Mem.slice data 0 len)) _ _ _ True :=
    does_write reg (Mem.slice data 0 len) (by simpa using short)
  rw [if_pos parm] at wrote
  exact does_then wrote (does_pure 0)

private theorem does_overlaid (reg : UInt8) (data : Mem UInt8) (payload : Bytes) (len : Nat) (whole : len = payload.length)
    (short : len ≤ 249) (parm : isParm reg = true) :
    OnBms v (sendParm (bms rwBuf parmData) reg (Mem.overlay data 0 payload) len) (outcome reg (some payload)).1
      (v.put reg (some payload)) (outcome reg (some payload)).2 True := by
  have sent : OnBms v (sendParm (bms rwBuf parmData) reg (Mem.overlay data 0 payload) len) _ _ _ True :=
    does_sendParm reg (Mem.overlay data 0 payload) len short parm
  rwa [whole,Mem.slice_overlay,← whole] at sent

private theorem does_writeBits (pp : JbdParams) (data : Mem UInt8) (value : Bytes) (table : List JbdBit)
    (parm : isParm pp.reg = true) (after : Option Bytes)
    (known : (parseBits value table).toOption.map (fun mask => shortPayload mask.toNat) = after) :
    OnBms v (writeBits (bms rwBuf parmData) pp data value table) (outcome pp.reg after).1 (v.put pp.reg after)
      (outcome pp.reg after).2 True := by
  subst known
  unfold writeBits
  cases parseBits value table with
  | error message => exact does_silent (does_event _ rfl (by simp)) (does_pure _)
  | ok mask => exact does_overlaid pp.reg data _ 2 rfl (by omega) parm

private theorem slice_modified (data : Mem UInt8) (content : Bytes) (b : UInt8) (short : content.length ≤ 128) :
    let reply := (settle 128 (some content)).2
    Mem.slice (Mem.overlay (Mem.overlay data 0 reply) 0 [b]) 0 2 = [b,content.getD 1 0] ∧
      Mem.slice (Mem.overlay (Mem.overlay data 0 reply) 1 [b]) 0 2 = [content.getD 0 0,b] := by
  intro reply
  have whole : reply.length = 128 := settle_length 128 _
  have byte (i : Nat) (bound : i < 2) : Mem.overlay data 0 reply i = content.getD i 0 := by
    have inside := Mem.overlay_inside data 0 reply i (by omega)
    rw [Nat.zero_add] at inside
    have kept : reply.getD i 0 = content.getD i 0 := settle_getD 128 content i short
    rw [inside,← kept,List.getD_eq_getElem _ _ (by omega)]
  have words (mem : Mem UInt8) : Mem.slice mem 0 2 = [mem 0,mem 1] := by simp [Mem.slice,List.range_succ]
  rw [words,words,← byte 0 (by omega),← byte 1 (by omega)]
  simp [Mem.overlay]

private theorem does_writeByte (pp : JbdParams) (data : Mem UInt8) (value : Bytes) (index : Nat)
    (parm : isParm pp.reg = true) (short : (v.regs pp.reg).length ≤ 128) (after : Option Bytes)
    (known : (if v.regs pp.reg = [] then none else some (Mem.slice (Mem.overlay (Mem.overlay data 0
      (settle 128 (some (v.regs pp.reg))).2) index [UInt8.ofInt (atoi value)]) 0 2)) = after) :
    OnBms v (writeByte (bms rwBuf parmData) pp data value index) (outcome pp.reg after).1 (v.put pp.reg after)
      (outcome pp.reg after).2 True := by
  have read : OnBms v (jbdRw (bms rwBuf parmData) jbdCmdRead pp.reg (Mem.slice data 0 128))
      (settle 128 (some (v.regs pp.reg))) v [] True := by
    have read : OnBms v (jbdRw (bms rwBuf parmData) jbdCmdRead pp.reg (Mem.slice data 0 128)) _ v [] _ :=
      does_read pp.reg (Mem.slice data 0 128) (by omega)
    rw [Mem.slice_length] at read
    exact does_congr read rfl (by simpa using short)
  refine does_silent read ?_
  by_cases empty : v.regs pp.reg = []
  · rw [if_pos empty] at known
    subst known
    exact does_pos (by simp [empty]) (does_pure _)
  · rw [if_neg empty] at known
    subst known
    refine does_neg ?_ (does_sendParm pp.reg _ 2 (by omega) parm)
    rw [settle_some_value]
    have : 0 < (v.regs pp.reg).length := List.length_pos_of_ne_nil empty
    omega

private theorem does_writeParmFrom (pp : JbdParams) (data : Mem UInt8) (value : Bytes) (parm : isParm pp.reg = true)
    (text : value.length ≤ 128) (short : (v.regs pp.reg).length ≤ 128) (after : Option Bytes)
    (known : effect data pp value (v.regs pp.reg) = after) :
    OnBms v (writeParmFrom (bms rwBuf parmData) data pp value) (outcome pp.reg after).1 (v.put pp.reg after)
      (outcome pp.reg after).2 True := by
  unfold effect at known
  unfold writeParmFrom
  cases kind : pp.dt <;> simp only [kind] at known ⊢
  case uint | int | temp | date | pct =>
    subst known
    exact does_overlaid pp.reg data _ 2 rfl (by omega) parm
  case func | ntc => exact does_writeBits pp data value _ parm after known
  case b0 | b1 =>
    refine does_writeByte pp data value _ parm short after ?_
    simpa only [slice_modified data _ _ short] using known
  case float =>
    subst known
    exact does_overlaid pp.reg data _ 2 rfl (by omega) parm
  case str =>
    subst known
    refine does_silent (does_event _ rfl ?_) (does_overlaid pp.reg data value value.length rfl (by omega) parm)
    simpa [Region.size] using text
  all_goals
    subst known
    exact does_sendParm pp.reg data 2 (by omega) parm

private theorem does_writeParm (pp : JbdParams) (value : Bytes) (parm : isParm pp.reg = true)
    (text : value.length ≤ 128) (short : (v.regs pp.reg).length ≤ 128) (after : Option Bytes)
    (known : effect (parmData v.parmCalls) pp value (v.regs pp.reg) = after) :
    OnBms v (writeParm (bms rwBuf parmData) pp value) (outcome pp.reg after).1 (v.count.put pp.reg after)
      (outcome pp.reg after).2 True := by
  have counted : OnBms v (Traced.modify fun w => {w with parmCalls := w.parmCalls + 1}) () v.count [] True :=
    does_modify fun w same => by rw [← same]; rfl
  refine does_get fun w same => does_silent counted ?_
  have stale : (bms rwBuf parmData).parmData w.parmCalls = parmData v.parmCalls := by rw [← same]; rfl
  rw [stale]
  exact does_writeParmFrom (v := v.count) pp _ value parm text short after known

/-- The registers and the writes after a list of rows with their texts; it ends at
the first row that is refused. The n-th row finds the stale bytes `parmData n`. -/
def restoreRows (parmData : Nat → Mem UInt8) :
    List (JbdParams × Bytes) → Nat → (UInt8 → Bytes) → (UInt8 → Bytes) × List UInt8
  | [], _, regs => (regs,[])
  | (pp,text)::rows, k, regs => match effect (parmData k) pp text (regs pp.reg) with
    | none => (regs,[])
    | some content =>
      ((restoreRows parmData rows (k + 1) (Function.update regs pp.reg content)).1,
        pp.reg::(restoreRows parmData rows (k + 1) (Function.update regs pp.reg content)).2)

/-- The member stands for the row, and its value for the text. -/
def StandsFor (object : List (Bytes × Json)) (member : Bytes × Json) (row : JbdParams × Bytes) : Prop :=
  getp member.1 = some row.1 ∧ memberText object row.1.label = .ok row.2

private theorem effect_length (data : Mem UInt8) (pp : JbdParams) (value content after : Bytes) (text : value.length ≤ 128)
    (known : effect data pp value content = some after) : after.length ≤ 128 := by
  unfold effect at known
  cases kind : pp.dt <;> simp only [kind] at known
  case func | ntc =>
    obtain ⟨mask,-,rfl⟩ := Option.map_eq_some_iff.mp known
    simp [shortPayload]
  case b0 | b1 =>
    split_ifs at known
    obtain rfl := Option.some.inj known
    simp
  all_goals
    obtain rfl := Option.some.inj known
    simp [shortPayload,floatPayload,text]

private theorem does_writeMembers (object members : List (Bytes × Json)) (rows : List (JbdParams × Bytes))
    (stands : List.Forall₂ (StandsFor object) members rows)
    (fine : ∀ row ∈ rows, isParm row.1.reg = true ∧ row.2.length ≤ 128)
    (short : ∀ reg, isParm reg = true → (v.regs reg).length ≤ 128) :
    ∃ calls, OnBms v (writeMembers (bms rwBuf parmData) object members).run (.ok ())
      {v with
        parmCalls := calls
        regs := (restoreRows parmData rows v.parmCalls v.regs).1}
      ((restoreRows parmData rows v.parmCalls v.regs).2.map (.rwCall jbdCmdWrite)) True := by
  induction stands generalizing v with
  | nil => exact ⟨v.parmCalls,does_pure _⟩
  | @cons member row members rows first others ih =>
    obtain ⟨name,value⟩ := member
    obtain ⟨pp,text⟩ := row
    obtain ⟨found,read⟩ := first
    obtain ⟨⟨parm,size⟩,rest⟩ := List.forall_mem_cons.mp fine
    have wrote (after : Option Bytes) (known : effect (parmData v.parmCalls) pp text (v.regs pp.reg) = after) :
        OnBms v (writeParm (bms rwBuf parmData) pp text) _ _ _ True :=
      does_writeParm pp text parm size (short pp.reg parm) after known
    have looked {final : View} {shown : List Event} (rest : OnBms v (do
          if (← (writeParm (bms rwBuf parmData) pp text : Program Bms Int)) ≠ 0 then return ()
          writeMembers (bms rwBuf parmData) object members : Main Bms Unit).run (.ok ()) final shown True) :
        OnBms v (writeMembers (bms rwBuf parmData) object ((name,value)::members)).run (.ok ()) final shown True := by
      refine does_next (does_lift (does_find name)) ?_
      dsimp only at found read
      rw [found]
      simp only [read]
      exact rest
    cases known : effect (parmData v.parmCalls) pp text (v.regs pp.reg) with
    | none =>
      simp only [restoreRows,known]
      exact ⟨v.parmCalls + 1,looked (does_next (does_lift (wrote none known)) (does_yes (by simp [outcome]) (does_pure _)))⟩
    | some content =>
      simp only [restoreRows,known]
      have still (reg : UInt8) (parm : isParm reg = true) :
          ((v.count.put pp.reg (some content)).regs reg).length ≤ 128 := by
        by_cases same : reg = pp.reg
        · subst same
          simpa [View.put] using effect_length _ pp text _ content size known
        · simpa [View.put,View.count,same] using short reg parm
      obtain ⟨calls,next⟩ := ih (v := v.count.put pp.reg (some content)) rest still
      exact ⟨calls,looked (does_congr (does_bind (does_lift (wrote _ known)) (does_no (by simp [outcome]) next)) rfl (by simp))⟩

end

def restoreArgs (target : Bytes) (numeric : Bool) : List Bytes :=
  [bytes "-t",target,bytes "-w",bytes "-f",bytes "file.json"] ++ if numeric then [bytes "-n"] else []

def restoreSettings (target : Bytes) (numeric : Bool) : Settings :=
  {Settings.initial with
    action := .write
    dontInterpret := numeric
    transport := some (target.takeWhile (· ≠ 58))
    target := (target.dropWhile (· ≠ 58)).drop 1
    filename := some (bytes "file.json")}

private theorem getopt_restore (target : Bytes) (numeric : Bool) : getopt (restoreArgs target numeric) =
    ([('t',target),('w',[]),('f',bytes "file.json")] ++ (if numeric then [('n',[])] else []),[]) := by
  cases numeric <;> rfl

private theorem readOptions_restore (target : Bytes) (numeric : Bool) (serial : Serial target) :
    readOptions (restoreArgs target numeric) = .ok (restoreSettings target numeric,[]) := by
  unfold readOptions
  rw [getopt_restore]
  cases numeric <;> simp [setOptions,setOption,serial.named,restoreSettings,Settings.initial] <;> rfl

theorem isParm_iff (reg : UInt8) : isParm reg = true ↔ ∃ pp ∈ params, pp.reg = reg := by
  simp [isParm]

section
variable {rwBuf parmData : Nat → Mem UInt8} {v : View}

private theorem does_writeAction (text : Bytes) (s : Settings) (members : List (Bytes × Json))
    (rows : List (JbdParams × Bytes)) (serial : s.transport ≠ some (bytes "can"))
    (file : s.filename = some (bytes "file.json")) (parsed : Json.parseString text = some (.object members))
    (stands : List.Forall₂ (StandsFor members) members rows)
    (fine : ∀ row ∈ rows, isParm row.1.reg = true ∧ row.2.length ≤ 128)
    (short : ∀ reg, isParm reg = true → (v.regs reg).length ≤ 128) :
    ∃ final, OnBms v (writeAction (bms rwBuf parmData) (fileEnv text) s []).run (.ok ()) final
      ((restoreRows parmData rows v.parmCalls (opened v.regs)).2.map (.rwCall jbdCmdWrite)) True ∧
      final.regs = closed (closed (restoreRows parmData rows v.parmCalls (opened v.regs)).1) := by
  have value : fileValue (fileEnv text) (bytes "file.json") = some (.object members) := parsed
  have json : isJson (bytes "file.json") = true := by decide
  have still (reg : UInt8) (parm : isParm reg = true) : (opened v.regs reg).length ≤ 128 := by
    obtain ⟨pp,member,rfl⟩ := (isParm_iff reg).mp parm
    rw [opened_regs v.regs pp member]
    exact short pp.reg parm
  have parse : OnBms v (parseFile (fileEnv text) (bytes "file.json") : Main Bms _).run (.ok members)
      {v with rootValue := .parsed (.object members)} [] True := by
    unfold parseFile
    rw [value]
    exact does_next (does_lift (does_modify fun w same => by rw [← same]; rfl)) (does_pure _)
  obtain ⟨calls,wrote⟩ := @does_writeMembers rwBuf parmData
    {v with
      rootValue := .parsed (.object members)
      regs := opened v.regs} members members rows stands fine still
  refine ⟨{v with
    rootValue := .parsed (.object members)
    parmCalls := calls
    regs := closed (closed (restoreRows parmData rows v.parmCalls (opened v.regs)).1)},does_no serial ?_,rfl⟩
  rw [file]
  refine does_yes json (does_next parse (does_next does_openOrReturn (does_next does_startOrReturn ?_)))
  exact does_last wrote (does_next (does_lift does_endAndClose) (does_lift does_endAndClose))

/-- The restore: the writes it makes and the registers it leaves. -/
theorem does_restore (target text : Bytes) (numeric : Bool) (regs : UInt8 → Bytes) (members : List (Bytes × Json))
    (rows : List (JbdParams × Bytes)) (serial : Serial target) (parsed : Json.parseString text = some (.object members))
    (stands : List.Forall₂ (StandsFor members) members rows)
    (fine : ∀ row ∈ rows, isParm row.1.reg = true ∧ row.2.length ≤ 128)
    (short : ∀ reg, isParm reg = true → (regs reg).length ≤ 128) :
    ∃ final, OnBms (View.start regs) (main (bms rwBuf parmData) (fileEnv text) (restoreArgs target numeric)) 0 final
      ((restoreRows parmData rows 0 (opened regs)).2.map (.rwCall jbdCmdWrite)) True ∧
      final.regs = closed (closed (restoreRows parmData rows 0 (opened regs)).1) := by
  obtain ⟨final,wrote,left⟩ := @does_writeAction rwBuf parmData (View.start regs) text (restoreSettings target numeric)
    members rows (fun can => serial.notCan (Option.some.inj can)) rfl parsed stands fine short
  refine ⟨final,?_,left⟩
  unfold main
  rw [readOptions_restore target numeric serial]
  refine does_then (a := .ok ()) ?_ (does_pure 0)
  refine does_no (by simp [fileEnv]) (does_no (by simp [fileEnv])
    (does_no (by simp [restoreSettings,Settings.initial]) ?_))
  refine does_next (does_pure _) (does_no (by simp [restoreSettings,Settings.initial]) ?_)
  refine does_next (does_no (by simp [restoreSettings,Settings.initial,Settings.output]) (does_pure _))
    (does_no (by simp [restoreSettings,Settings.initial]) ?_)
  exact does_last wrote (does_lift (does_neg (by simp [restoreSettings,Settings.initial,Settings.output]) (does_pure _)))

end

end Jbdtool
