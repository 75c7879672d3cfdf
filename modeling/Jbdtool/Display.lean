import Jbdtool.Params
import Jbdtool.Json.Parse
import Jbdtool.Exchange

/-! The output functions of main.c, up to pdisp. In JSON mode they set members of
the object `root_object` points to, otherwise they print a line. -/
namespace Jbdtool
open CString Numbers
variable {τ : Type}

inductive OutFmt where
  | text
  | comma
  | json
deriving DecidableEq, Repr

/-- The globals that select the form of the output. -/
structure Fmt where
  outfmt : OutFmt
  sepch : UInt8
  sepstr : Bytes
  dontInterpret : Bool
  flat : Bool

/-- `json_object_set_value(root_object,label,value)`; none of the labels has a
dot, so the dotset calls come to the same. -/
def setRoot (label : Bytes) (value : Option Json) : Program τ Unit :=
  Traced.modify (fun w => {w with rootObject := w.rootObject.map (fun o => Json.setValue o label value)})

def outputLine (fmt : Fmt) (label text : Bytes) : Bytes :=
  if fmt.outfmt = .comma then label ++ [44] ++ text ++ [10] else padRight 25 label ++ [32] ++ text ++ [10]

def output (fmt : Fmt) (label : Bytes) (value : Option Json) (text : Bytes) : Program τ Unit :=
  if fmt.outfmt = .json then setRoot label value
  else Traced.emit (.printed .outfp (outputLine fmt label text))

def dint (fmt : Fmt) (label : Bytes) (val : Int) : Program τ Unit :=
  output fmt label (some (.number val)) (showInt val)

def duint (fmt : Fmt) (label : Bytes) (val : Int) : Program τ Unit :=
  output fmt label (some (.number val)) (showUnsigned val)

def dbool (fmt : Fmt) (label : Bytes) (val : Bool) : Program τ Unit :=
  output fmt label (some (.boolean val)) (match fmt.dontInterpret,val with
    | true, true => bytes "1"
    | true, false => bytes "0"
    | false, true => bytes "true"
    | false, false => bytes "false")

def dfloat (fmt : Fmt) (label : Bytes) (digits : Nat) (val : ℚ) : Program τ Unit :=
  output fmt label (some (.number val)) (showFixed digits val)

def dstr (fmt : Fmt) (label val : Bytes) : Program τ Unit := output fmt label (Json.initString val) val

/-- `_addstr` -/
def addstr (fmt : Fmt) (size : Nat) (str newstr : Bytes) : Bytes :=
  let len := str.length
  let quoted := fmt.outfmt = .json
  let need := (if len ≠ 0 then fmt.sepstr.length else 0) + newstr.length + (if quoted then 2 else 0) + 1
  if len + need > size then str else
  str ++ (if len ≠ 0 then fmt.sepstr else []) ++
    (if quoted then [34] ++ newstr ++ [34] else newstr)

/-- The text between `[ ` and ` ]` parsed as JSON. -/
def bracketed (str : Bytes) : Option Json := Json.parseString (bytes "[ " ++ str ++ bytes " ]")

/-- `_dump`; the text forms go to stdout even when there is an output file. -/
def dump (fmt : Fmt) (label : Bytes) (val : Int) : Program τ Unit :=
  let unsigned := (val % 65536).toNat
  let str := addstr fmt 64 (addstr fmt 64 (addstr fmt 64 [] (showInt val)) (showNat unsigned)) (showHex 4 unsigned)
  if fmt.outfmt = .json then setRoot label (bracketed str)
  else Traced.emit (.printed .stdout (outputLine fmt label str))

def trim (s : Bytes) : Bytes :=
  let s := s.dropWhile (fun c => isspace c || (0 < c && c < 32))
  (s.reverse.dropWhile isspace).reverse

/-- The labels of the bits set in `val`, as collected for FUNC and NTC. -/
def bitList (fmt : Fmt) (bits : List JbdBit) (val : UInt16) : Bytes :=
  bits.foldl (fun str bp => if val &&& bp.mask ≠ 0 then addstr fmt 192 str bp.label else str) []

def pdispBits (fmt : Fmt) (label : Bytes) (bits : List JbdBit) (short : Int) : Program τ Unit :=
  if fmt.dontInterpret then dint fmt label short else
  let str := bitList fmt bits (UInt16.ofInt short)
  if fmt.outfmt = .json then setRoot label (bracketed str) else dstr fmt label str

/-- A packed field: its number with `-n`, and what the table says it stands for
without. -/
def pdispField (fmt : Fmt) (label : Bytes) (signed : Bool) (vals : List Int) (i : UInt8) : Program τ Unit :=
  let val : Int := if fmt.dontInterpret then i.toNat else vals.getD i.toNat 0
  if signed then dint fmt label val else duint fmt label val

def pdisp (fmt : Fmt) (label : Bytes) (dt : ParmDt) (data : Bytes) (len : Nat) : Program τ Unit :=
  let d0 := data.getD 0 0
  let d1 := data.getD 1 0
  match dt with
  | .uint => duint fmt label (getushort d0 d1)
  | .int | .temp | .date | .pct => dint fmt label (getshort d0 d1)
  | .b0 => dint fmt label d0.toNat
  | .b1 => dint fmt label d1.toNat
  | .func => pdispBits fmt label funcBits (getshort d0 d1)
  | .ntc => pdispBits fmt label ntcBits (getshort d0 d1)
  | .float => dfloat fmt label 6 (getshort d0 d1)
  | .str => do
    emitTouch (.buffer 128) len 1
    dstr fmt label (trim (Json.cstr (data.take len)))
  | .dump => dump fmt label (getshort d0 d1)
  | .double => dbool fmt label (d0 &&& 0x80 ≠ 0)
  | .dsgoc2 => pdispField fmt label true [8,11,14,17,19,22,25,28,31,33,36,39,42,44,47,50] (d1 &&& 0x0f)
  | .dsgoc2delay =>
    -- The number with -n goes through dint, the delay through duint.
    pdispField fmt label fmt.dontInterpret [8,20,40,80,160,320,640,1280] ((d1 >>> 4) &&& 0x07)
  | .scval => pdispField fmt label false [22,33,44,56,67,78,89,100] (d0 &&& 0x07)
  | .scdelay => pdispField fmt label false [70,100,200,400] ((d0 >>> 3) &&& 0x03)
  | .hcovpdelay => pdispField fmt label false [1,2,4,8] ((d0 >>> 4) &&& 0x03)
  | .hcuvpdelay => pdispField fmt label false [1,4,8,16] ((d0 >>> 6) &&& 0x03)
  | .unk => pure ()

end Jbdtool
