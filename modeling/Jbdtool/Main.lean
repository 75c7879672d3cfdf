import Jbdtool.Options
import Jbdtool.Session
import Jbdtool.Write
import Jbdtool.Info

/-! main on Linux, without MQTT. A `return` is a throw of the exit code; the debug
output, the log and the exit handler are left out. -/
namespace Jbdtool
open CString Numbers
variable {τ : Type}

/-- What main finds around it: whether the modules load, whether lock_file returns a
descriptor for a path, the files it can read or the text of the error, and the files
it can create. -/
structure Env where
  loads : Bool
  locks : Bytes → Bool → Bool
  files : Bytes → Except Bytes Bytes
  creates : Bytes → Bool

abbrev Main (τ α : Type) := ExceptT Int (Program τ) α

def print (text : Bytes) : Program τ Unit := Traced.emit (.printed .stdout text)

/-- An error message and `return 1`. -/
def failWith {α : Type} (text : Bytes) : Main τ α := do
  (print text : Program τ Unit)
  throw 1

def packOpen (host : Host τ) : Program τ Int := do
  let w ← Traced.get
  Traced.modify (fun w => {w with line := (host.opens w.line).2})
  Traced.emit (.opened (host.opens w.line).1)
  return (host.opens w.line).1

def packClose (host : Host τ) : Program τ Unit := do
  Traced.modify (fun w => {w with line := (host.closes w.line).2})
  Traced.emit .closed

/-- `_getp`, with a trace of the lookup. -/
def findParm (label : Bytes) : Program τ (Option JbdParams) := do
  Traced.emit (.getp label (getp label).isSome)
  return getp label

/-- `if (pack.open(pack.handle)) return 1;` -/
def openOrReturn (host : Host τ) : Main τ Unit := do
  if (← packOpen host) ≠ 0 then throw 1

/-- `if (jbd_eeprom_start(pack.handle)) return 1;` -/
def startOrReturn (host : Host τ) : Main τ Unit := do
  if (← jbdEepromStart host) ≠ 0 then throw 1

def endAndClose (host : Host τ) : Program τ Unit := do
  let _ ← jbdEepromEnd host
  packClose host

/-- The file that stands for a target: its longest suffix of word characters. -/
def lockfile (target : Bytes) : Bytes :=
  let named (c : UInt8) : Bool := isdigit c || (65 ≤ c && c ≤ 90) || (97 ≤ c && c ≤ 122) || c == 95 || c == 45
  let target := (target.takeWhile (· ≠ 44)).map (fun c => if c = 58 then 95 else c)
  bytes "/tmp/" ++ (target.reverse.takeWhile named).reverse ++ bytes ".lock"

/-- The bits of the MOSFET register for `-g` and `-G`. -/
def fetBits (s : Settings) (fetstate : UInt16) : UInt16 :=
  let opt := 0
  let opt := if s.charge = 0 ∨ fetstate &&& jbdMosCharge = 0 then opt ||| jbdMosCharge else opt
  let opt := if s.charge = 1 then opt &&& ~~~jbdMosCharge else opt
  let opt := if s.discharge = 0 ∨ fetstate &&& jbdMosDischarge = 0 then opt ||| jbdMosDischarge else opt
  if s.discharge = 1 then opt &&& ~~~jbdMosDischarge else opt

def printFet (what : Bytes) (state : Int) : Program τ Unit :=
  if state ≥ 0 then print (what ++ [32] ++ bytes (if state ≠ 0 then "enabled" else "disabled") ++ [10]) else return ()

/-- `-g` and `-G` -/
def setFets (host : Host τ) (s : Settings) (info : JbdInfo) : Main τ JbdInfo := do
  openOrReturn host
  let r ← jbdGetInfo host info
  if r.1 = 0 then
    let i ← jbdSetMosfet host (fetBits s r.2.fetstate).toNat
    if i = 0 then
      (printFet (bytes "charging") s.charge : Program τ Unit)
      (printFet (bytes "discharging") s.discharge : Program τ Unit)
  packClose host
  return r.2

/-- `-X` -/
def resetBms (host : Host τ) : Main τ Unit := do
  (print (bytes "*** RESETTING ***\n") : Program τ Unit)
  openOrReturn host
  if (← jbdEepromStart host) = 0 then
    let _ ← jbdReset host
    let _ ← jbdEepromEnd host
  packClose host
  throw 1

def dumpRegisters (host : Host τ) : List Nat → Program τ Unit
  | [] => return ()
  | i::registers => do
    let r ← readReply host (UInt8.ofNat i) 128
    if r.1 > 0 then print (showHex 2 i ++ bytes ": " ++ showInt (shortAt r.2 0) ++ [10])
    dumpRegisters host registers

/-- `-D` -/
def dumpAll (host : Host τ) : Main τ Unit := do
  openOrReturn host
  startOrReturn host
  dumpRegisters host ((List.range 239).map (16 + ·))
  endAndClose host
  throw 0

/-- `-R` -/
def readRegister (host : Host τ) (fmt : Fmt) (reg : Int) : Main τ Unit := do
  openOrReturn host
  startOrReturn host
  let r ← readReply host (UInt8.ofInt reg) 128
  if r.1 > 0 then
    (pdisp fmt (bytes "Register " ++ showHex 2 (reg % 4294967296).toNat) .dump r.2 r.1.toNat : Program τ Unit)
  endAndClose host

/-- One parameter read, and shown if its reply has at least `least` bytes. -/
def readParm (host : Host τ) (fmt : Fmt) (least : Int) (pp : JbdParams) : Program τ Unit := do
  let r ← readReply host pp.reg 128
  if r.1 ≥ least then pdisp fmt pp.label pp.dt r.2 r.1.toNat

/-- The loop over the members of a JSON file; only their names matter. -/
def readMembers (host : Host τ) (fmt : Fmt) : List (Bytes × Json) → Main τ Unit
  | [] => return ()
  | (name,_)::members => do
    match ← (findParm name : Program τ (Option JbdParams)) with
    | none => failWith (bytes "error: parm in json file not found: " ++ name ++ [10])
    | some pp => do
      readParm host fmt 0 pp
      readMembers host fmt members

def lineLabel (line : Bytes) : Bytes :=
  ((Json.cstr line).dropWhile isspace).takeWhile (fun c => !isspace c)

def readLines (host : Host τ) (fmt : Fmt) : List Bytes → Program τ Unit
  | [] => return ()
  | line::lines => do
    match ← findParm (lineLabel line) with
    | none => readLines host fmt lines
    | some pp => do
      readParm host fmt 0 pp
      readLines host fmt lines

/-- The loop over the table; it ends at the first read that fails. -/
def readAll (host : Host τ) (fmt : Fmt) : List JbdParams → Program τ Unit
  | [] => return ()
  | pp::rest => do
    let r ← readReply host pp.reg 128
    if r.1 < 0 then return ()
    if r.1 ≠ 0 then pdisp fmt pp.label pp.dt r.2 r.1.toNat
    readAll host fmt rest

def readOperands (host : Host τ) (fmt : Fmt) : List Bytes → Main τ Unit
  | [] => return ()
  | name::operands => do
    match ← (findParm name : Program τ (Option JbdParams)) with
    | none => failWith (bytes "error: parameter " ++ name ++ bytes " not found.\n")
    | some pp => do
      readParm host fmt 1 pp
      readOperands host fmt operands

/-- The pieces that fgets reads into `line[128]`, without their terminator. -/
def fgetsLines : Nat → Bytes → List Bytes
  | 0, _ => []
  | fuel + 1, s =>
    if s = [] then [] else
    let count := min 127 ((s.takeWhile (· ≠ 10)).length + 1)
    s.take count::fgetsLines fuel (s.drop count)

def isJson (filename : Bytes) : Bool := lastDot filename == some (bytes ".json")

def setRootValue (root : RootValue) : Program τ Unit := Traced.modify (fun w => {w with rootValue := root})

/-- `json_parse_file` -/
def fileValue (env : Env) (filename : Bytes) : Option Json :=
  match env.files filename with
  | .ok content => Json.parseString content
  | .error _ => none

/-- The file becomes `root_value`, whatever it is, and has to be an object. -/
def parseFile (env : Env) (filename : Bytes) : Main τ (List (Bytes × Json)) := do
  (setRootValue (match fileValue env filename with
    | some v => .parsed v
    | none => .null) : Program τ Unit)
  match fileValue env filename with
  | some (.object members) => return members
  | _ => failWith (bytes "error: not a valid json file\n")

/-- `fopen(filename,"r")`: the lines that fgets will read. -/
def openLines (env : Env) (filename : Bytes) : Main τ (List Bytes) := do
  match env.files filename with
  | .ok content => return fgetsLines (content.length + 1) content
  | .error reason => failWith (bytes "fopen(r) " ++ filename ++ bytes ": " ++ reason ++ [10])

/-- The READ action behind `-R`. -/
def readParms (host : Host τ) (env : Env) (s : Settings) (operands : List Bytes) : Main τ Unit :=
  match s.filename with
  | some filename =>
    if isJson filename then do
      let members ← parseFile env filename
      openOrReturn host
      startOrReturn host
      readMembers host s.fmt members
      endAndClose host
    else do
      let lines ← openLines env filename
      openOrReturn host
      startOrReturn host
      readLines host s.fmt lines
      endAndClose host
  | none => do
    openOrReturn host
    startOrReturn host
    if s.all then readAll host s.fmt params
    else readOperands host s.fmt operands
    endAndClose host

def readAction (host : Host τ) (env : Env) (s : Settings) (operands : List Bytes) : Main τ Unit := do
  if s.transport = some (bytes "can") then failWith (bytes "error: reading parameters not possible using CAN bus\n")
  if s.reg ≠ 0 then readRegister host s.fmt s.reg
  readParms host env s operands

/-- The names of an array joined with commas in `temp[128]`. -/
def joinNames : List Json → Bytes → Bytes
  | [], temp => temp
  | .string s::items, temp =>
    let ap := Json.cstr s
    if temp.length + ap.length + 2 > 128 then temp
    else joinNames items (temp ++ (if temp = [] then [] else [44]) ++ ap)
  | _::items, temp => joinNames items temp

/-- The text handed to write_parm for a JSON value, or the type it cannot use. -/
def jsonText : Json → Except Int Bytes
  | .string s => .ok (Json.cstr s)
  | .number n => .ok (showInt (toInt32 n))
  | .boolean b => .ok (showInt (if b then 1 else 0))
  | .array items => .ok (joinNames items [])
  | .null => .error 1
  | .object _ => .error 4

/-- `json_object_get_value(object,name)` and its text. -/
def memberText (object : List (Bytes × Json)) (name : Bytes) : Except Int Bytes :=
  match Json.getValue object name with
  | some value => jsonText value
  | none => .error (-1)

def badType (label : Bytes) (type : Int) : Main τ Unit :=
  (print (bytes "error: bad type in json file for " ++ label ++ bytes ": " ++ showInt type ++ [10]) : Program τ Unit)

/-- The loop over the members of `object`; a write that fails ends it. -/
def writeMembers (host : Host τ) (object : List (Bytes × Json)) : List (Bytes × Json) → Main τ Unit
  | [] => return ()
  | (name,_)::members => do
    match ← (findParm name : Program τ (Option JbdParams)) with
    | none => failWith (bytes "error: parm in json file not found: " ++ name ++ [10])
    | some pp => match memberText object pp.label with
      | .error type => do
        badType pp.label type
        writeMembers host object members
      | .ok value => do
        if (← writeParm host pp value) ≠ 0 then return ()
        writeMembers host object members

/-- `while(*p && keep(*p)) p++;` inside a line of 128 bytes. -/
def skipLine (keep : UInt8 → Bool) (line : Mem UInt8) (p : Nat) : Nat :=
  p + ((Mem.slice line p (128 - p)).takeWhile (fun c => c ≠ 0 && keep c)).length

/-- The loop over the lines of a text file. The value is looked for behind the
terminator of the label, which may be the end of the line: then it is what earlier
lines left there. -/
def writeLines (host : Host τ) : List Bytes → Mem UInt8 → Program τ Unit
  | [], _ => return ()
  | text::lines, line => do
    let line := Mem.overlay line 0 (text ++ [0])
    let label := skipLine isspace line 0
    let p := skipLine (fun c => !isspace c) line label
    let line := Mem.overlay line p [0]
    match ← findParm (Mem.slice line label (p - label)) with
    | none => writeLines host lines line
    | some pp => do
      let valp := skipLine isspace line (p + 1)
      let p := skipLine (fun c => !isspace c) line valp
      let line := Mem.overlay line p [0]
      if (← writeParm host pp (Mem.slice line valp (p - valp))) ≠ 0 then return ()
      writeLines host lines line

def writeOperands (host : Host τ) : List Bytes → Program τ Unit
  | [] => return ()
  | name::operands => do
    match ← findParm name with
    | none => print (bytes "error: parameter " ++ name ++ bytes " not found.\n")
    | some pp => match operands with
      | [] => print (bytes "error: no value for parameter " ++ name ++ [10])
      | value::operands => do
        if (← writeParm host pp value) ≠ 0 then return ()
        writeOperands host operands

def writeAction (host : Host τ) (env : Env) (s : Settings) (operands : List Bytes) : Main τ Unit := do
  if s.transport = some (bytes "can") then failWith (bytes "error: writing parameters not possible using CAN bus\n")
  match s.filename with
  | some filename =>
    if isJson filename then
      let members ← parseFile env filename
      openOrReturn host
      startOrReturn host
      writeMembers host members members
      endAndClose host
    else
      let lines ← openLines env filename
      openOrReturn host
      startOrReturn host
      writeLines host lines host.lineBuf
    -- The JSON path ends and closes a second time.
    endAndClose host
  | none =>
    openOrReturn host
    startOrReturn host
    writeOperands host operands
    endAndClose host

/-- `root_value` as it is serialized, `(null)` when there is none. -/
def rootText (pretty : Bool) (w : World τ) : Bytes :=
  match w.rootValue with
  | .null => bytes "(null)"
  | .document => Json.serialize pretty 0 (.object (w.rootObject.getD []))
  | .parsed v => Json.serialize pretty 0 v

/-- `json_value_init_object()` and its object. -/
def startDocument : Program τ Unit :=
  Traced.modify (fun w => {w with rootObject := some [],rootValue := .document})

def openOutput (env : Env) (s : Settings) : Main τ Unit := do
  match s.outfile with
  | some outfile => if env.creates outfile then pure () else throw 1
  | none => pure ()
  if s.output.outfmt = .json then (startDocument : Program τ Unit)

def printDocument (s : Settings) : Program τ Unit := do
  if s.outfmt = .json then
    let w ← Traced.get
    Traced.emit (.printed .outfp (rootText s.pretty w))

def runAction (host : Host τ) (env : Env) (s : Settings) (operands : List Bytes) (info : JbdInfo) :
    Main τ Unit :=
  match s.action with
  | .info => do
    openOrReturn host
    showInfo host s.fmt info
    packClose host
  | .read => readAction host env s operands
  | .write => writeAction host env s operands

def mainBody (host : Host τ) (env : Env) (s : Settings) (operands : List Bytes) : Main τ Unit := do
  if !env.loads then throw 1
  if !env.locks (lockfile s.target) !s.dontWait then throw 1
  let info ← if s.charge ≥ 0 ∨ s.discharge ≥ 0 then setFets host s .zero else pure .zero
  if s.reset then resetBms host
  openOutput env s
  if s.dump then dumpAll host
  runAction host env s.output operands info
  (printDocument s.output : Program τ Unit)

/-- The exit code of main. -/
def main (host : Host τ) (env : Env) (args : List Bytes) : Program τ Int := do
  match readOptions args with
  | .error e =>
    if e.text ≠ [] then print e.text
    if e.usage then Traced.emit .usage
    return e.code
  | .ok (s,operands) =>
    match ← (mainBody host env s operands).run with
    | .error code => return code
    | .ok _ => return 0

end Jbdtool
