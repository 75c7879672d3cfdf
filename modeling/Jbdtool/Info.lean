import Jbdtool.Display

/-! Reading a battery status over a serial transport or the CAN bus, and showing
it. Floats are exact values rounded as the host rounds them. Every index into an
array of the status, the pack or a local buffer is an event. Debug output is off. -/
namespace Jbdtool
open CString Numbers
variable {τ : Type}

structure JbdInfo where
  name : Bytes
  voltage : ℚ
  current : ℚ
  capacity : ℚ
  fullcap : ℚ
  cycles : Nat
  pctcap : Nat
  balancebits : UInt64
  protectbits : UInt16
  fetstate : UInt16
  mfgdate : Bytes
  version : ℚ
  strings : Nat
  cellvolt : Mem ℚ
  cellTotal : ℚ
  cellMin : ℚ
  cellMax : ℚ
  cellDiff : ℚ
  cellAvg : Option ℚ
  probes : Nat
  temps : Mem ℚ
  model : Mem UInt8

/-- After `memset(&info,0,sizeof(info))`. -/
def JbdInfo.zero : JbdInfo where
  name := []
  voltage := 0
  current := 0
  capacity := 0
  fullcap := 0
  cycles := 0
  pctcap := 0
  balancebits := 0
  protectbits := 0
  fetstate := 0
  mfgdate := []
  version := 0
  strings := 0
  cellvolt := fun _ => 0
  cellTotal := 0
  cellMin := 0
  cellMax := 0
  cellDiff := 0
  cellAvg := some 0
  probes := 0
  temps := fun _ => 0
  model := fun _ => 0

namespace JbdInfo

def setTemps (info : JbdInfo) (temps : Mem ℚ) : JbdInfo := {info with temps := temps}
def setCells (info : JbdInfo) (cellvolt : Mem ℚ) : JbdInfo := {info with cellvolt := cellvolt}
def setModel (info : JbdInfo) (model : Mem UInt8) : JbdInfo := {info with model := model}

section
variable (info : JbdInfo) (array : Mem ℚ) (model : Mem UInt8)

@[simp] theorem setTemps_strings : (info.setTemps array).strings = info.strings := rfl
@[simp] theorem setTemps_probes : (info.setTemps array).probes = info.probes := rfl
@[simp] theorem setTemps_fetstate : (info.setTemps array).fetstate = info.fetstate := rfl
@[simp] theorem setTemps_cellvolt : (info.setTemps array).cellvolt = info.cellvolt := rfl
@[simp] theorem setTemps_model : (info.setTemps array).model = info.model := rfl
@[simp] theorem setCells_strings : (info.setCells array).strings = info.strings := rfl
@[simp] theorem setCells_probes : (info.setCells array).probes = info.probes := rfl
@[simp] theorem setCells_fetstate : (info.setCells array).fetstate = info.fetstate := rfl
@[simp] theorem setCells_model : (info.setCells array).model = info.model := rfl
@[simp] theorem setModel_strings : (info.setModel model).strings = info.strings := rfl
@[simp] theorem setModel_probes : (info.setModel model).probes = info.probes := rfl
@[simp] theorem setModel_fetstate : (info.setModel model).fetstate = info.fetstate := rfl
@[simp] theorem setModel_model : (info.setModel model).model = model := rfl
end

end JbdInfo

/-- Past its end a reply reads as zero here. -/
def byteAt (data : Bytes) (i : Nat) : UInt8 := data.getD i 0

def ushortAt (data : Bytes) (i : Nat) : Nat := getushort (byteAt data i) (byteAt data (i + 1))

def shortAt (data : Bytes) (i : Nat) : Int := getshort (byteAt data i) (byteAt data (i + 1))

/-- `(float)v / 100.0` and the like: the quotient is a double. -/
def scaled (host : Host τ) (v : Int) (unit : ℚ) : ℚ := host.single (host.double (v / unit))

/-- `CTEMP((float)v)` -/
def ctemp (host : Host τ) (v : Int) : ℚ := host.single (host.single (v - 2731) / 10)

/-- `(float)v / 1000` -/
def cellVolt (host : Host τ) (v : Int) : ℚ := host.single (v / 1000)

/-- `%04d%02d%02d` of the packed manufacture date. -/
def mfgDate (v : Int) : Bytes :=
  let date := (UInt16.ofInt v).toNat
  showPadded 4 (2000 + date / 512) ++ showPadded 2 (date / 32 % 16) ++ showPadded 2 (date % 32)

def jbdCmdHwinfo : UInt8 := 0x03
def jbdCmdCellinfo : UInt8 := 0x04
def jbdCmdHwver : UInt8 := 0x05

def jbdMosCharge : UInt16 := 0x01
def jbdMosDischarge : UInt16 := 0x02

/-- A READ into a fresh local of `datasz` bytes; jbd_rw clears it before use. -/
def readReply (host : Host τ) (reg : UInt8) (datasz : Nat) : Program τ (Int × Bytes) :=
  jbdRw host jbdCmdRead reg (List.replicate datasz 0)

/-- `for(i=0; i < count; i++) array[i] = f(word i of data)` -/
def decodeWords (region : Region) (datasz offset : Nat) (data : Bytes) (f : Bytes → Nat → ℚ) :
    Nat → Nat → Mem ℚ → Program τ (Mem ℚ)
  | 0, _, array => return array
  | count + 1, i, array => do
    emitTouch (.buffer datasz) (offset + 2 * i) 2
    emitTouch region i 1
    decodeWords region datasz offset data f count (i + 1)
      (Mem.overlay array i [f data (offset + 2 * i)])

/-- What a HWINFO reply sets, its temperatures apart. -/
def decodeHwinfo (host : Host τ) (data : Bytes) (info : JbdInfo) : JbdInfo :=
  {info with
    voltage := scaled host (ushortAt data 0) 100
    current := scaled host (shortAt data 2) 100
    capacity := scaled host (ushortAt data 4) 100
    fullcap := scaled host (ushortAt data 6) 100
    cycles := ushortAt data 8
    pctcap := (byteAt data 19).toNat
    -- Both halves are sign-extended to the 64 bits of an unsigned long.
    balancebits := UInt64.ofInt (shortAt data 12) ||| UInt64.ofInt (shortAt data 14 * 65536)
    protectbits := UInt16.ofInt (shortAt data 16)
    fetstate := (byteAt data 20).toUInt16
    mfgdate := mfgDate (shortAt data 10)
    version := scaled host (byteAt data 18).toNat 10
    strings := (byteAt data 21).toNat
    probes := (byteAt data 22).toNat}

def jbdStdGetInfo (host : Host τ) (info : JbdInfo) : Program τ (Int × JbdInfo) := do
  let r ← readReply host jbdCmdHwinfo 256
  if r.1 < 0 then return (1,info)
  let data := r.2
  let info := decodeHwinfo host data info
  let temps ← decodeWords .infoTemps 256 23 data (fun data i => ctemp host (shortAt data i)) info.probes 0
    info.temps
  let info := info.setTemps temps
  let r ← readReply host jbdCmdCellinfo 256
  if r.1 < 0 then return (1,info)
  let cells ← decodeWords .infoCells 256 0 r.2 (fun data i => cellVolt host (shortAt data i)) info.strings 0
    info.cellvolt
  let info := info.setCells cells
  let r ← jbdRw host jbdCmdRead jbdCmdHwver (Mem.slice info.model 0 32)
  let info := info.setModel (Mem.overlay info.model 0 r.2)
  if r.1 < 0 then return (1,info)
  emitTouch .model r.1.toNat 1
  return (0,info.setModel (Mem.overlay info.model r.1.toNat [0]))

def jbdCanCrc (data : Bytes) : UInt16 :=
  (data.take 6).foldl (fun crc c =>
    (List.range 8).foldl (fun crc _ => if crc &&& 1 ≠ 0 then (crc >>> 1) ^^^ 0xa001 else crc >>> 1)
      (crc ^^^ c.toUInt16)) 0xFFFF

def canWrite (host : Host τ) (id : Nat) : Program τ Int := do
  let w ← Traced.get
  Traced.modify (fun w => {w with line := (host.canWrite w.line id).2})
  Traced.emit (.canWrote id)
  return (host.canWrite w.line id).1

def canRead (host : Host τ) (id : Nat) : Program τ (ReadResult 8) := do
  let w ← Traced.get
  Traced.modify (fun w => {w with line := (host.canRead w.line id).2})
  Traced.emit (.canReceived id (host.canRead w.line id).1)
  return (host.canRead w.line id).1

@[simp] theorem canWrite_bind {α : Type} (host : Host τ) (id : Nat) (k : Int → Program τ α) (w : World τ) :
    (canWrite host id >>= k) w = (k (host.canWrite w.line id).1
      {w with line := (host.canWrite w.line id).2}).after [.canWrote id] := rfl

@[simp] theorem canRead_bind {α : Type} (host : Host τ) (id : Nat) (k : ReadResult 8 → Program τ α)
    (w : World τ) :
    (canRead host id >>= k) w = (k (host.canRead w.line id).1
      {w with line := (host.canRead w.line id).2}).after [.canReceived id (host.canRead w.line id).1] := rfl

/-- The CRC field is zero or right. -/
def canIntact (data : Bytes) : Bool :=
  UInt16.ofInt (shortAt data 6) == 0 || UInt16.ofInt (shortAt data 6) == jbdCanCrc data

/-- The rounds of jbd_can_get; before the round with `n + 1` left, the source's
`retries` is `n`, and after the last one it is -1. -/
def jbdCanGetLoop (host : Host τ) (id datalen : Nat) (chk : Bool) : Nat → Bytes → Program τ (Int × Bytes)
  | 0, data => return (1,data)
  | n + 1, data => do
    if (← canWrite host id) < 0 then return (1,data)
    let data := List.replicate datalen 0
    match ← canRead host id with
    | .error => return (1,data)
    | .bytes content _ =>
      let data := copyInto content data
      if !chk || canIntact data then
        if n = 0 then
          Traced.emit (.printed .stdout (bytes "ERROR: CRC failed retries for ID " ++ showHex 3 id ++ bytes "!\n"))
        return (0,data)
      else jbdCanGetLoop host id datalen chk n data

open Traced in
theorem canGetLoop_emits {p : Event → Prop} {host : Host τ} {id : Nat} (wrote : p (.canWrote id))
    (received : ∀ r, p (.canReceived id r)) (printed : ∀ text, p (.printed .stdout text)) (datalen : Nat) (chk : Bool)
    (rounds : Nat) (data : Bytes) : Emits p (jbdCanGetLoop host id datalen chk rounds data) := by
  have sent : Emits p (canWrite host id) :=
    emits_bind emits_get fun _ => emits_bind (emits_modify _) fun _ => emits_bind (emits_emit wrote) fun _ => emits_pure _
  have got : Emits p (canRead host id) :=
    emits_bind emits_get fun _ => emits_bind (emits_modify _) fun _ => emits_bind (emits_emit (received _)) fun _ => emits_pure _
  induction rounds generalizing data with
  | zero => exact emits_pure _
  | succ rounds ih =>
    refine emits_bind sent fun _ => emits_ite (fun _ => emits_pure _) fun _ => emits_bind got fun r => ?_
    cases r with
    | error => exact emits_pure _
    | bytes content fits =>
      refine emits_ite (fun _ => emits_ite (fun _ => ?_) fun _ => emits_pure _) fun _ => ih _
      exact emits_bind (emits_emit (printed _)) fun _ => emits_pure _

/-- `jbd_can_get` into an eight-byte local, which it clears before it reads. -/
def jbdCanGet (host : Host τ) (id : Nat) (chk : Bool) : Program τ (Int × Bytes) :=
  jbdCanGetLoop host id 8 chk 4 (List.replicate 8 0)

/-- Three words a frame, from frame after frame, until `limit` of them are stored;
false when a frame could not be read. -/
def decodeFrames (host : Host τ) (region : Region) (limit : Nat) (f : Bytes → Nat → ℚ) :
    List Nat → Nat → Mem ℚ → Program τ (Bool × Mem ℚ)
  | [], _, array => return (true,array)
  | id::ids, i, array => do
    let r ← jbdCanGet host id true
    if r.1 ≠ 0 then return (false,array)
    emitTouch region i 1
    let array := Mem.overlay array i [f r.2 0]
    if i + 1 ≥ limit then return (true,array)
    emitTouch region (i + 1) 1
    let array := Mem.overlay array (i + 1) [f r.2 2]
    if i + 2 ≥ limit then return (true,array)
    emitTouch region (i + 2) 1
    let array := Mem.overlay array (i + 2) [f r.2 4]
    if i + 3 ≥ limit then return (true,array)
    decodeFrames host region limit f ids (i + 3) array

def canTempIds : List Nat := [0x105,0x106]

/-- The ids from 0x107 up to 0x110. -/
def canCellIds : List Nat := (List.range 10).map (0x107 + ·)

/-- The four `memcpy(&info->model[..],data,8)`; a frame shorter than eight bytes
leaves the zeros of the cleared local. -/
def canModel (host : Host τ) : List (Nat × Nat) → Mem UInt8 → Program τ (Bool × Mem UInt8)
  | [], model => return (true,model)
  | (id,base)::frames, model => do
    let r ← jbdCanGet host id false
    if r.1 ≠ 0 then return (false,model)
    emitTouch .model base 8
    canModel host frames (Mem.overlay model base r.2)

def canModelFrames : List (Nat × Nat) := [(0x111,0),(0x112,8),(0x113,16),(0x114,24)]

/-- jbd_can_get_info from its temperatures on. -/
def canGetArrays (host : Host τ) (info : JbdInfo) : Program τ (Int × JbdInfo) := do
  let temps ← decodeFrames host .infoTemps info.probes (fun data i => ctemp host (shortAt data i))
    canTempIds 0 info.temps
  let info := info.setTemps temps.2
  if !temps.1 then return (1,info)
  let cells ← decodeFrames host .infoCells info.strings (fun data i => cellVolt host (ushortAt data i))
    canCellIds 0 info.cellvolt
  let info := info.setCells cells.2
  if !cells.1 then return (1,info)
  let model ← canModel host canModelFrames info.model
  let info := info.setModel model.2
  if !model.1 then return (1,info)
  return (0,info)

def jbdCanGetInfo (host : Host τ) (info : JbdInfo) : Program τ (Int × JbdInfo) := do
  let r ← jbdCanGet host 0x100 true
  if r.1 ≠ 0 then return (1,info)
  let info := {info with
    voltage := scaled host (ushortAt r.2 0) 100
    current := scaled host (shortAt r.2 2) 100
    capacity := scaled host (ushortAt r.2 4) 100}
  let r ← jbdCanGet host 0x101 true
  if r.1 ≠ 0 then return (1,info)
  let info := {info with
    fullcap := scaled host (ushortAt r.2 0) 100
    cycles := ushortAt r.2 2
    pctcap := ushortAt r.2 4}
  let r ← jbdCanGet host 0x102 true
  if r.1 ≠ 0 then return (1,info)
  let info := {info with
    balancebits := UInt64.ofInt (shortAt r.2 0) ||| UInt64.ofInt (shortAt r.2 2 * 65536)
    protectbits := UInt16.ofInt (shortAt r.2 4)}
  let r ← jbdCanGet host 0x103 true
  if r.1 ≠ 0 then return (1,info)
  let info := {info with
    fetstate := UInt16.ofInt (shortAt r.2 0)
    mfgdate := mfgDate (shortAt r.2 2)
    version := scaled host (ushortAt r.2 4) 10}
  let r ← jbdCanGet host 0x104 true
  if r.1 ≠ 0 then return (1,info)
  canGetArrays host {info with
    strings := (byteAt r.2 0).toNat
    probes := (byteAt r.2 1).toNat}

structure CellStats where
  least : ℚ
  greatest : ℚ
  total : ℚ

def CellStats.add (host : Host τ) (stats : CellStats) (v : ℚ) : CellStats where
  least := if v < stats.least then v else stats.least
  greatest := if v > stats.greatest then v else stats.greatest
  total := host.single (stats.total + v)

def scanCells (host : Host τ) (cellvolt : Mem ℚ) : Nat → Nat → CellStats → Program τ CellStats
  | 0, _, stats => return stats
  | count + 1, i, stats => do
    emitTouch .infoCells i 1
    scanCells host cellvolt count (i + 1) (stats.add host (cellvolt i))

/-- The mean is not a number when there are no cells. jbd_get_protect stores
nothing, so the protect struct is left out. -/
def JbdInfo.setStats (host : Host τ) (info : JbdInfo) (stats : CellStats) : JbdInfo :=
  {info with
    cellMin := stats.least
    cellMax := stats.greatest
    cellTotal := stats.total
    cellDiff := host.single (stats.greatest - stats.least)
    cellAvg := if info.strings = 0 then none else some (host.single (stats.total / info.strings))}

def jbdGetInfo (host : Host τ) (info : JbdInfo) : Program τ (Int × JbdInfo) := do
  let r ← if host.can then jbdCanGetInfo host info else jbdStdGetInfo host info
  if r.1 ≠ 0 then return r
  let stats ← scanCells host r.2.cellvolt r.2.strings 0 ⟨host.single (42 / 10),0,0⟩
  return (0,r.2.setStats host stats)

/-- One line for each element, as `-F` prints them. -/
def displayFlat (fmt : Fmt) (region : Region) (key : Bytes) (digits : Nat) (array : Mem ℚ) :
    Nat → Nat → Program τ Unit
  | 0, _ => return ()
  | count + 1, i => do
    emitTouch region i 1
    dfloat fmt (key ++ showPadded 2 i) digits (array i)
    displayFlat fmt region key digits array count (i + 1)

/-- The elements printed one after the other into a text buffer. -/
def joinElements (region : Region) (sep : UInt8) (digits : Nat) (array : Mem ℚ) :
    Nat → Nat → Bytes → Program τ Bytes
  | 0, _, text => return text
  | count + 1, i, text => do
    emitTouch region i 1
    joinElements region sep digits array count (i + 1)
      (text ++ (if i = 0 then [] else [sep]) ++ showFixed digits (array i))

/-- The list under one label, and what `temp` holds afterwards. With nothing to
print, the text form shows what `temp` held before. -/
def displayList (fmt : Fmt) (region : Region) (label : Bytes) (digits : Nat) (array : Mem ℚ) (count : Nat)
    (temp : Bytes) : Program τ Bytes := do
  if fmt.outfmt = .json then
    let text ← joinElements region 44 digits array count 0 (bytes "[ ")
    let temp := text ++ bytes " ]"
    setRoot label (Json.parseString temp)
    return temp
  else
    let text ← joinElements region fmt.sepch digits array count 0 []
    let temp := if count = 0 then temp else text
    dstr fmt label temp
    return temp

/-- The loop over the balance bits: `fuel` shifts are left before the mask is 0. -/
def balanceBits (bits : UInt64) (strings : Nat) : Nat → Nat → Bytes → Program τ Bytes
  | 0, _, text => return text
  | fuel + 1, i, text => do
    emitTouch .balance i 1
    let text := text ++ [if bits &&& (1 <<< UInt64.ofNat i) ≠ 0 then 49 else 48]
    if i + 1 ≥ strings then return text
    balanceBits bits strings fuel (i + 1) text

/-- The C string in the model array; without a NUL the reader runs past its end. -/
def displayModel (fmt : Fmt) (model : Mem UInt8) : Program τ Unit := do
  let text := Json.cstr (Mem.slice model 0 32)
  emitTouch .model 0 (text.length + 1)
  dstr fmt (bytes "DeviceName") text

def fetText (fmt : Fmt) (fetstate : UInt16) : Bytes :=
  let charge := fetstate &&& jbdMosCharge ≠ 0
  (if charge then bytes "Charge" else []) ++
    (if fetstate &&& jbdMosDischarge ≠ 0 then (if charge then fmt.sepstr else []) ++ bytes "Discharge" else [])

def displayName (fmt : Fmt) (name : Bytes) : Program τ Unit :=
  if name ≠ [] then dstr fmt (bytes "Name") name else return ()

def displayLists (host : Host τ) (fmt : Fmt) (info : JbdInfo) : Program τ Unit :=
  if fmt.flat then do
    displayFlat fmt .infoTemps (bytes "temp_") 1 info.temps info.probes 0
    displayFlat fmt .infoCells (bytes "cell_") 3 info.cellvolt info.strings 0
  else do
    let temp ← displayList fmt .infoTemps (bytes "Temps") 1 info.temps info.probes host.infoText
    let _ ← displayList fmt .infoCells (bytes "Cells") 3 info.cellvolt info.strings temp

def displayBalance (fmt : Fmt) (info : JbdInfo) : Program τ Unit := do
  let bits ← balanceBits info.balancebits info.strings 64 0 []
  emitTouch .balance bits.length 1
  dstr fmt (bytes "Balance") bits

def displayAvg (fmt : Fmt) : Option ℚ → Program τ Unit
  | some avg => dfloat fmt (bytes "CellAvg") 3 avg
  | none => output fmt (bytes "CellAvg") none (bytes "-nan")

def displayFet (fmt : Fmt) (fetstate : UInt16) : Program τ Unit :=
  if fmt.dontInterpret then duint fmt (bytes "FET") fetstate.toNat
  else dstr fmt (bytes "FET") (fetText fmt fetstate)

def displayInfo (host : Host τ) (fmt : Fmt) (info : JbdInfo) : Program τ Unit := do
  displayName fmt info.name
  dfloat fmt (bytes "Voltage") 3 info.voltage
  dfloat fmt (bytes "Current") 3 info.current
  dfloat fmt (bytes "DesignCapacity") 3 info.fullcap
  dfloat fmt (bytes "RemainingCapacity") 3 info.capacity
  duint fmt (bytes "PercentCapacity") info.pctcap
  duint fmt (bytes "CycleCount") info.cycles
  duint fmt (bytes "Probes") info.probes
  duint fmt (bytes "Strings") info.strings
  displayLists host fmt info
  displayBalance fmt info
  dfloat fmt (bytes "CellTotal") 3 info.cellTotal
  dfloat fmt (bytes "CellMin") 3 info.cellMin
  dfloat fmt (bytes "CellMax") 3 info.cellMax
  dfloat fmt (bytes "CellDiff") 3 info.cellDiff
  displayAvg fmt info.cellAvg
  displayModel fmt info.model
  dstr fmt (bytes "ManufactureDate") info.mfgdate
  dfloat fmt (bytes "Version") 1 info.version
  displayFet fmt info.fetstate

/-- The INFO action on an open transport. -/
def showInfo (host : Host τ) (fmt : Fmt) (info : JbdInfo) : Program τ Unit := do
  let r ← jbdGetInfo host info
  if r.1 = 0 then displayInfo host fmt r.2

structure Pack where
  voltage : ℚ
  current : ℚ
  capacity : ℚ
  balancebits : UInt32
  state : UInt16
  cells : Nat
  ntemps : Nat
  temps : Mem ℚ
  cellvolt : Mem ℚ

def Pack.setTemps (pp : Pack) (temps : Mem ℚ) : Pack := {pp with temps := temps}
def Pack.setCells (pp : Pack) (cellvolt : Mem ℚ) : Pack := {pp with cellvolt := cellvolt}

@[simp] theorem Pack.setTemps_cells (pp : Pack) (temps : Mem ℚ) : (pp.setTemps temps).cells = pp.cells := rfl
@[simp] theorem Pack.setTemps_cellvolt (pp : Pack) (temps : Mem ℚ) :
    (pp.setTemps temps).cellvolt = pp.cellvolt := rfl

def mybmmPackStateCharging : UInt16 := 0x02
def mybmmPackStateDischarging : UInt16 := 0x04
def mybmmPackStateBalancing : UInt16 := 0x08

def mybmmSetState (state v : UInt16) : UInt16 := state ||| v
def mybmmClearState (state v : UInt16) : UInt16 := state &&& ~~~v

/-- What a HWINFO reply sets in the pack, its temperatures apart. -/
def decodePack (host : Host τ) (balancing : Bool) (data : Bytes) (pp : Pack) : Pack :=
  let fetbits := (byteAt data 20).toUInt16
  let state := if fetbits &&& jbdMosCharge ≠ 0 then mybmmSetState pp.state mybmmPackStateCharging
    else mybmmClearState pp.state mybmmPackStateCharging
  -- Both branches of the source set the bit.
  let state := if fetbits &&& jbdMosDischarge ≠ 0 then mybmmSetState state mybmmPackStateDischarging
    else mybmmSetState state mybmmPackStateDischarging
  let state := if balancing then mybmmSetState state mybmmPackStateBalancing
    else mybmmClearState state mybmmPackStateBalancing
  {pp with
    voltage := scaled host (ushortAt data 0) 100
    current := scaled host (shortAt data 2) 100
    capacity := scaled host (ushortAt data 6) 100
    balancebits := UInt32.ofInt (shortAt data 12) ||| UInt32.ofInt (shortAt data 14 * 65536)
    state := state
    cells := (byteAt data 21).toNat
    ntemps := (byteAt data 22).toNat}

def jbdGetPack (host : Host τ) (balancing : Bool) (pp : Pack) : Program τ (Int × Pack) := do
  let r ← readReply host jbdCmdHwinfo 128
  if r.1 < 0 then return (1,pp)
  let data := r.2
  let pp := decodePack host balancing data pp
  let temps ← decodeWords .packTemps 128 23 data (fun data i => ctemp host (shortAt data i)) pp.ntemps 0
    pp.temps
  let pp := pp.setTemps temps
  let r ← readReply host jbdCmdCellinfo 128
  if r.1 < 0 then return (1,pp)
  let cells ← decodeWords .packCells 128 0 r.2 (fun data i => cellVolt host (ushortAt data i)) pp.cells 0
    pp.cellvolt
  return (0,pp.setCells cells)

def jbdCanGetPack (host : Host τ) (balancing : Bool) (pp : Pack) : Program τ (Int × Pack) := do
  let r ← jbdCanGet host 0x102 true
  if r.1 ≠ 0 then return (1,pp)
  let pp := {pp with
    balancebits := UInt32.ofInt (shortAt r.2 0) ||| UInt32.ofInt (shortAt r.2 2 * 65536)}
  let r ← jbdCanGet host 0x103 true
  if r.1 ≠ 0 then return (1,pp)
  let fetbits := UInt16.ofInt (shortAt r.2 0)
  let state := if fetbits &&& jbdMosCharge ≠ 0 then mybmmSetState pp.state mybmmPackStateCharging
    else mybmmClearState pp.state mybmmPackStateCharging
  let state := if fetbits &&& jbdMosDischarge ≠ 0 then mybmmSetState state mybmmPackStateDischarging
    else mybmmClearState state mybmmPackStateDischarging
  let state := if balancing then mybmmSetState state mybmmPackStateBalancing
    else mybmmClearState state mybmmPackStateBalancing
  let pp := {pp with state := state}
  let r ← jbdCanGet host 0x104 true
  if r.1 ≠ 0 then return (1,pp)
  let pp := {pp with
    cells := (byteAt r.2 0).toNat
    ntemps := (byteAt r.2 1).toNat}
  let temps ← decodeFrames host .packTemps pp.ntemps (fun data i => ctemp host (shortAt data i)) canTempIds 0
    pp.temps
  let pp := pp.setTemps temps.2
  if !temps.1 then return (1,pp)
  let cells ← decodeFrames host .packCells pp.cells (fun data i => cellVolt host (ushortAt data i)) canCellIds 0
    pp.cellvolt
  let pp := pp.setCells cells.2
  if !cells.1 then return (1,pp)
  return (0,pp)

def jbdRead (host : Host τ) (balancing : Bool) (pp : Pack) : Program τ (Int × Pack) :=
  if host.can then jbdCanGetPack host balancing pp else jbdGetPack host balancing pp

end Jbdtool
