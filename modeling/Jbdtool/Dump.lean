import Jbdtool.Bms
import Jbdtool.Json.RoundTrip

/-! The settings dump: what `-r -a -j` prints for the registers of a BMS. -/
namespace Jbdtool
open CString Numbers Observe

def fieldValue (fmt : Fmt) (vals : List Int) (i : UInt8) : Option Json :=
  some (.number ((if fmt.dontInterpret then i.toNat else vals.getD i.toNat 0 : Int) : ℚ))

def bitsValue (fmt : Fmt) (bits : List JbdBit) (short : Int) : Option Json :=
  if fmt.dontInterpret then some (.number short) else bracketed (bitList fmt bits (UInt16.ofInt short))

def dumpValue (fmt : Fmt) (val : Int) : Option Json :=
  let unsigned := (val % 65536).toNat
  bracketed (addstr fmt 64 (addstr fmt 64 (addstr fmt 64 [] (showInt val)) (showNat unsigned)) (showHex 4 unsigned))

/-- The member that pdisp sets in JSON mode. -/
def pdispValue (fmt : Fmt) (dt : ParmDt) (data : Bytes) (len : Nat) : Option Json :=
  let d0 := data.getD 0 0
  let d1 := data.getD 1 0
  match dt with
  | .uint => some (.number (getushort d0 d1 : Int))
  | .int | .temp | .date | .pct | .float => some (.number (getshort d0 d1))
  | .b0 => some (.number (d0.toNat : Int))
  | .b1 => some (.number (d1.toNat : Int))
  | .func => bitsValue fmt funcBits (getshort d0 d1)
  | .ntc => bitsValue fmt ntcBits (getshort d0 d1)
  | .str => Json.initString (trim (Json.cstr (data.take len)))
  | .dump => dumpValue fmt (getshort d0 d1)
  | .double => some (.boolean (d0 &&& 0x80 ≠ 0))
  | .dsgoc2 => fieldValue fmt [8,11,14,17,19,22,25,28,31,33,36,39,42,44,47,50] (d1 &&& 0x0f)
  | .dsgoc2delay => fieldValue fmt [8,20,40,80,160,320,640,1280] ((d1 >>> 4) &&& 0x07)
  | .scval => fieldValue fmt [22,33,44,56,67,78,89,100] (d0 &&& 0x07)
  | .scdelay => fieldValue fmt [70,100,200,400] ((d0 >>> 3) &&& 0x03)
  | .hcovpdelay => fieldValue fmt [1,2,4,8] ((d0 >>> 4) &&& 0x03)
  | .hcuvpdelay => fieldValue fmt [1,4,8,16] ((d0 >>> 6) &&& 0x03)
  | .unk => none

/-- The members of the document changed by `f`. -/
def View.edit (v : View) (f : List (Bytes × Json) → List (Bytes × Json)) : View :=
  {v with rootObject := v.rootObject.map f}

@[simp] theorem View.edit_regs (v : View) (f : List (Bytes × Json) → List (Bytes × Json)) :
    (v.edit f).regs = v.regs := rfl

@[simp] theorem View.edit_edit (v : View) (f g : List (Bytes × Json) → List (Bytes × Json)) :
    (v.edit f).edit g = v.edit (g ∘ f) := by
  simp [edit]

@[simp] theorem View.edit_same (v : View) : v.edit (fun o => o) = v := by
  cases v
  simp [edit]

def View.set (v : View) (label : Bytes) (value : Option Json) : View :=
  v.edit (fun o => Json.setValue o label value)

section
variable {rwBuf parmData : Nat → Mem UInt8} {v : View} {fmt : Fmt}

private theorem does_setRoot (label : Bytes) (value : Option Json) :
    OnBms v (setRoot label value) () (v.set label value) [] True :=
  does_modify fun w same => by rw [← same]; rfl

private theorem does_output (json : fmt.outfmt = .json) (label text : Bytes) (value : Option Json) :
    OnBms v (output fmt label value text) () (v.set label value) [] True := by
  unfold output
  rw [if_pos json]
  exact does_setRoot label value

private theorem does_pdisp (json : fmt.outfmt = .json) (label : Bytes) (dt : ParmDt) (data : Bytes) (len : Nat) :
    OnBms v (pdisp fmt label dt data len) () (v.set label (pdispValue fmt dt data len)) [] (dt = .str → len < 128) := by
  have bits (table : List JbdBit) (short : Int) :
      OnBms v (pdispBits fmt label table short) () (v.set label (bitsValue fmt table short)) [] True := by
    unfold pdispBits bitsValue
    split_ifs
    · exact does_output json label _ _
    · exact does_setRoot label _
  have field (signed : Bool) (vals : List Int) (i : UInt8) :
      OnBms v (pdispField fmt label signed vals i) () (v.set label (fieldValue fmt vals i)) [] True := by
    unfold pdispField fieldValue
    cases signed <;> exact does_output json label _ _
  have raw (val : Int) : OnBms v (dump fmt label val) () (v.set label (dumpValue fmt val)) [] True := by
    unfold dump
    rw [if_pos json]
    exact does_setRoot label _
  have text (value : Bytes) : OnBms v (dstr fmt label value) () (v.set label (Json.initString value)) [] True :=
    does_output json label _ _
  by_cases str : dt = .str
  · subst str
    have stored : observer.safe (.touch (.buffer 128) len 1) ↔ (ParmDt.str = .str → len < 128) := by
      change len + 1 ≤ 128 ↔ _
      constructor
      · intro inside _
        omega
      · intro short
        have := short rfl
        omega
    exact does_congr (does_then (does_emit _) (text _)) rfl stored
  · suffices silent : OnBms v (pdisp fmt label dt data len) () (v.set label (pdispValue fmt dt data len)) [] True from
      does_congr silent rfl (by simp [str])
    cases dt
    case func | ntc => exact bits _ _
    case scval | scdelay | dsgoc2 | dsgoc2delay | hcovpdelay | hcuvpdelay => exact field _ _ _
    case dump => exact raw _
    case unk =>
      have unchanged : v.set label none = v := v.edit_same
      rw [show pdispValue fmt .unk data len = none from rfl,unchanged]
      exact does_pure ()
    case str => exact absurd rfl str
    all_goals exact does_output json label _ _

def dumpRow (fmt : Fmt) (regs : UInt8 → Bytes) (members : List (Bytes × Json)) (pp : JbdParams) :
    List (Bytes × Json) :=
  if regs pp.reg = [] then members else
  Json.setValue members pp.label
    (pdispValue fmt pp.dt (settle 128 (some (regs pp.reg))).2 (regs pp.reg).length)

/-- The content of the register of a row fits the buffer of main, with a terminator
behind a string. -/
def Fits (regs : UInt8 → Bytes) (pp : JbdParams) : Prop :=
  (regs pp.reg).length ≤ 128 ∧ (pp.dt = .str → (regs pp.reg).length < 128)

private theorem does_readReply (reg : UInt8) (datasz : Nat) (answered : (v.regs reg).length ≤ 249) :
    OnBms v (readReply (bms rwBuf parmData) reg datasz) (settle datasz (some (v.regs reg))) v []
      ((v.regs reg).length ≤ datasz) := by
  have read : OnBms v (readReply (bms rwBuf parmData) reg datasz) _ v [] _ :=
    does_read reg (List.replicate datasz 0) answered
  rwa [List.length_replicate] at read

private theorem does_readAll (json : fmt.outfmt = .json) (table : List JbdParams)
    (answered : ∀ pp ∈ table, (v.regs pp.reg).length ≤ 249) :
    OnBms v (readAll (bms rwBuf parmData) fmt table) () (v.edit (fun o => table.foldl (dumpRow fmt v.regs) o)) []
      (∀ pp ∈ table, Fits v.regs pp) := by
  induction table generalizing v with
  | nil =>
    have done : OnBms v (readAll (bms rwBuf parmData) fmt []) () v [] True := does_pure ()
    simpa using done
  | cons pp table ih =>
    obtain ⟨short,others⟩ := List.forall_mem_cons.mp answered
    have shown : OnBms v (do
        if (settle 128 (some (v.regs pp.reg))).1 ≠ 0 then
          pdisp fmt pp.label pp.dt (settle 128 (some (v.regs pp.reg))).2 (settle 128 (some (v.regs pp.reg))).1.toNat
        readAll (bms rwBuf parmData) fmt table : Program Bms Unit) ()
        (v.edit (fun o => (pp::table).foldl (dumpRow fmt v.regs) o)) []
        ((pp.dt = .str → (v.regs pp.reg).length < 128) ∧ ∀ pp ∈ table, Fits v.regs pp) := by
      by_cases empty : v.regs pp.reg = []
      · have skipped : (fun o => (pp::table).foldl (dumpRow fmt v.regs) o) =
            fun o => table.foldl (dumpRow fmt v.regs) o := by
          funext o
          simp [dumpRow,empty]
        rw [skipped]
        exact does_neg (by simp [empty]) (does_congr (ih others) rfl (by simp [empty]))
      · refine does_pos (by simpa using empty) ?_
        have next := ih (v := v.set pp.label (pdispValue fmt pp.dt (settle 128 (some (v.regs pp.reg))).2
          (v.regs pp.reg).length)) others
        have final : (v.set pp.label (pdispValue fmt pp.dt (settle 128 (some (v.regs pp.reg))).2
            (v.regs pp.reg).length)).edit (fun o => table.foldl (dumpRow fmt v.regs) o) =
            v.edit (fun o => (pp::table).foldl (dumpRow fmt v.regs) o) := by
          rw [View.set,View.edit_edit]
          congr 1
          funext o
          simp [dumpRow,empty]
        rw [← final]
        exact does_congr (does_bind (does_pdisp json _ _ _ _) next) rfl Iff.rfl
    refine does_congr (does_bind (does_readReply pp.reg 128 short) (does_neg ?_ shown)) rfl ?_
    · rw [settle_some_value]
      omega
    · simp only [List.forall_mem_cons,Fits]
      tauto

end

def dumpArgs (target : Bytes) (numeric : Bool) : List Bytes :=
  [bytes "-t",target,bytes "-r",bytes "-a",bytes "-j"] ++ if numeric then [bytes "-n"] else []

def dumpSettings (target : Bytes) (numeric : Bool) : Settings :=
  {Settings.initial with
    action := .read
    all := true
    outfmt := .json
    dontInterpret := numeric
    transport := some (target.takeWhile (· ≠ 58))
    target := (target.dropWhile (· ≠ 58)).drop 1}

/-- A target on a transport that is not the CAN bus. -/
structure Serial (target : Bytes) : Prop where
  named : 58 ∈ target
  notCan : target.takeWhile (· ≠ 58) ≠ bytes "can"

private theorem getopt_dump (target : Bytes) (numeric : Bool) : getopt (dumpArgs target numeric) =
    ([('t',target),('r',[]),('a',[]),('j',[])] ++ (if numeric then [('n',[])] else []),[]) := by
  cases numeric <;> rfl

private theorem readOptions_dump (target : Bytes) (numeric : Bool) (serial : Serial target) :
    readOptions (dumpArgs target numeric) = .ok (dumpSettings target numeric,[]) := by
  unfold readOptions
  rw [getopt_dump]
  cases numeric <;> simp [setOptions,setOption,serial.named,dumpSettings,Settings.initial] <;> rfl

/-- Every module loads, every lock is free, and every file has the content. -/
def fileEnv (content : Bytes) : Env where
  loads := true
  locks := fun _ _ => true
  files := fun _ => .ok content
  creates := fun _ => true

/-- A process that has just started, on a BMS with these registers. -/
def View.start (regs : UInt8 → Bytes) : View := ⟨regs,0,none,.null⟩

def dumped (numeric : Bool) (regs : UInt8 → Bytes) : List (Bytes × Json) :=
  params.foldl (dumpRow (dumpSettings [] numeric).fmt regs) []

section
variable {rwBuf parmData : Nat → Mem UInt8} {v : View}

private theorem does_printDocument (s : Settings) (members : List (Bytes × Json)) (json : s.outfmt = .json)
    (object : v.rootObject = some members) (document : v.rootValue = .document) :
    OnBms v (printDocument s) () v
      [.printed .outfp (Json.serialize s.pretty 0 (.object members))] True := by
  refine does_pos json (does_get fun w known => ?_)
  have text : rootText s.pretty w = Json.serialize s.pretty 0 (.object members) := by
    rw [← known] at object document
    unfold rootText
    rw [show w.rootValue = .document from document,show w.rootObject = some members from object]
    rfl
  rw [text]
  exact does_congr (does_emit _) rfl (by simp [observer])

private theorem foldl_dumpRow (fmt : Fmt) (first second : UInt8 → Bytes) (table : List JbdParams)
    (members : List (Bytes × Json)) (same : ∀ pp ∈ table, first pp.reg = second pp.reg) :
    table.foldl (dumpRow fmt first) members = table.foldl (dumpRow fmt second) members := by
  induction table generalizing members with
  | nil => rw [List.foldl_nil,List.foldl_nil]
  | cons pp table ih =>
    rw [List.forall_mem_cons] at same
    have row : dumpRow fmt first members pp = dumpRow fmt second members pp := by
      simp only [dumpRow,same.1]
    rw [List.foldl_cons,List.foldl_cons,row]
    exact ih _ same.2

private theorem params_apart : ∀ pp ∈ params, pp.reg ≠ jbdRegEeprom ∧ pp.reg ≠ jbdRegConfig := by
  decide +kernel

theorem opened_regs (regs : UInt8 → Bytes) : ∀ pp ∈ params, opened regs pp.reg = regs pp.reg :=
  fun pp member => Function.update_of_ne (params_apart pp member).1 _ _

theorem closed_regs (regs : UInt8 → Bytes) : ∀ pp ∈ params, closed regs pp.reg = regs pp.reg :=
  fun pp member => Function.update_of_ne (params_apart pp member).2 _ _

private theorem does_readParms (env : Env) (s : Settings) (json : s.outfmt = .json)
    (noFile : s.filename = none) (all : s.all = true) (answered : ∀ pp ∈ params, (v.regs pp.reg).length ≤ 249) :
    OnBms v (readParms (bms rwBuf parmData) env s []).run (.ok ())
      {v with
        regs := closed (opened v.regs)
        rootObject := v.rootObject.map (fun o => params.foldl (dumpRow s.fmt v.regs) o)} []
      (∀ pp ∈ params, Fits v.regs pp) := by
  have same := opened_regs v.regs
  have table : OnBms {v with regs := opened v.regs} (readAll (bms rwBuf parmData) s.fmt params) ()
      {v with
        regs := opened v.regs
        rootObject := v.rootObject.map (fun o => params.foldl (dumpRow s.fmt v.regs) o)} []
      (∀ pp ∈ params, Fits v.regs pp) := by
    have added : (fun o => params.foldl (dumpRow s.fmt (opened v.regs)) o) =
        fun o => params.foldl (dumpRow s.fmt v.regs) o :=
      funext fun o => foldl_dumpRow s.fmt _ _ params o same
    have short : ∀ pp ∈ params, (opened v.regs pp.reg).length ≤ 249 := fun pp member => by
      rw [same pp member]
      exact answered pp member
    have known : OnBms {v with regs := opened v.regs} (readAll (bms rwBuf parmData) s.fmt params) () _ [] _ :=
      does_readAll json params short
    have fits : (∀ pp ∈ params, Fits (opened v.regs) pp) ↔ ∀ pp ∈ params, Fits v.regs pp :=
      forall₂_congr fun pp member => by rw [Fits,Fits,same pp member]
    rw [added] at known
    exact does_congr known rfl fits
  unfold readParms
  rw [noFile]
  refine does_next does_openOrReturn (does_next does_startOrReturn (does_yes all ?_))
  exact does_last (does_lift table) (does_lift does_endAndClose)

/-- The dump: its output, where it leaves the BMS, and when it stays inside its buffer. -/
theorem does_dump (target content : Bytes) (numeric : Bool) (regs : UInt8 → Bytes) (serial : Serial target)
    (answered : ∀ pp ∈ params, (regs pp.reg).length ≤ 249) :
    OnBms (View.start regs) (main (bms rwBuf parmData) (fileEnv content) (dumpArgs target numeric)) 0
      ⟨closed (opened regs),0,some (dumped numeric regs),.document⟩
      [.printed .outfp (Json.serialize false 0 (.object (dumped numeric regs)))] (∀ pp ∈ params, Fits regs pp) := by
  have document : OnBms (View.start regs) (openOutput (fileEnv content) (dumpSettings target numeric)).run (.ok ())
      ⟨regs,0,some [],.document⟩ [] True :=
    does_yes rfl (does_lift (does_modify fun w same => by
      obtain ⟨line,calls,parmCalls,object,value⟩ := w
      cases same
      rfl))
  have read : OnBms ⟨regs,0,some [],.document⟩
      (readAction (bms rwBuf parmData) (fileEnv content) (dumpSettings target numeric) []).run (.ok ())
      ⟨closed (opened regs),0,some (dumped numeric regs),.document⟩ [] (∀ pp ∈ params, Fits regs pp) :=
    does_no (fun can => serial.notCan (Option.some.inj can)) (does_no (by simp [dumpSettings,Settings.initial])
      (does_readParms (fileEnv content) (dumpSettings target numeric) rfl rfl rfl answered))
  unfold main
  rw [readOptions_dump target numeric serial]
  refine does_then (a := .ok ()) ?_ (does_pure 0)
  refine does_no (by simp [fileEnv]) (does_no (by simp [fileEnv]) (does_no (by simp [dumpSettings,Settings.initial]) ?_))
  refine does_next (does_pure _) (does_no (by simp [dumpSettings,Settings.initial]) (does_next document ?_))
  refine does_no (by simp [dumpSettings,Settings.initial]) ?_
  have shown : OnBms ⟨closed (opened regs),0,some (dumped numeric regs),.document⟩
      (liftM (printDocument (dumpSettings target numeric) : Program Bms Unit) : Main Bms Unit).run (.ok ())
      ⟨closed (opened regs),0,some (dumped numeric regs),.document⟩
      [.printed .outfp (Json.serialize false 0 (.object (dumped numeric regs)))] True :=
    does_lift (does_printDocument (dumpSettings target numeric) _ rfl rfl rfl)
  exact does_congr (does_bind read shown) rfl (iff_of_eq (and_true _))

end

end Jbdtool
