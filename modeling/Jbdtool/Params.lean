import Jbdtool.Host

/-! The parameter table and the bit tables of main.c, with parse_bits. -/
namespace Jbdtool
open CString

inductive ParmDt where
  | unk
  | int
  | uint
  | float
  | str
  | temp
  | date
  | pct
  | func
  | ntc
  | b0
  | b1
  | double
  | scval
  | scdelay
  | dsgoc2
  | dsgoc2delay
  | hcovpdelay
  | hcuvpdelay
  | dump
deriving DecidableEq, Repr

structure JbdBit where
  mask : UInt16
  label : Bytes

def funcBits : List JbdBit := [
  ⟨0x01,bytes "Switch"⟩,
  ⟨0x02,bytes "SCRL"⟩,
  ⟨0x04,bytes "BALANCE_EN"⟩,
  ⟨0x08,bytes "CHG_BALANCE"⟩,
  ⟨0x10,bytes "LED_EN"⟩,
  ⟨0x20,bytes "LED_NUM"⟩,
  ⟨0x40,bytes "RTC"⟩,
  ⟨0x80,bytes "EDV"⟩]

def ntcBits : List JbdBit := [
  ⟨0x01,bytes "NTC1"⟩,
  ⟨0x02,bytes "NTC2"⟩,
  ⟨0x04,bytes "NTC3"⟩,
  ⟨0x08,bytes "NTC4"⟩,
  ⟨0x10,bytes "NTC5"⟩,
  ⟨0x20,bytes "NTC6"⟩,
  ⟨0x40,bytes "NTC7"⟩,
  ⟨0x80,bytes "NTC8"⟩]

structure JbdParams where
  reg : UInt8
  label : Bytes
  dt : ParmDt
deriving DecidableEq

def params : List JbdParams := [
  ⟨0x10,bytes "DesignCapacity",.uint⟩,
  ⟨0x11,bytes "CycleCapacity",.uint⟩,
  ⟨0x12,bytes "FullChargeVol",.uint⟩,
  ⟨0x13,bytes "ChargeEndVol",.uint⟩,
  ⟨0x14,bytes "DischargingRate",.pct⟩,
  ⟨0x15,bytes "ManufactureDate",.date⟩,
  ⟨0x16,bytes "SerialNumber",.uint⟩,
  ⟨0x17,bytes "CycleCount",.uint⟩,
  ⟨0x18,bytes "ChgOverTemp",.temp⟩,
  ⟨0x19,bytes "ChgOTRelease",.temp⟩,
  ⟨0x1A,bytes "ChgLowTemp",.temp⟩,
  ⟨0x1B,bytes "ChgUTRelease",.temp⟩,
  ⟨0x1C,bytes "DisOverTemp",.temp⟩,
  ⟨0x1D,bytes "DsgOTRelease",.temp⟩,
  ⟨0x1E,bytes "DisLowTemp",.temp⟩,
  ⟨0x1F,bytes "DsgUTRelease",.temp⟩,
  ⟨0x20,bytes "PackOverVoltage",.uint⟩,
  ⟨0x21,bytes "PackOVRelease",.uint⟩,
  ⟨0x22,bytes "PackUnderVoltage",.uint⟩,
  ⟨0x23,bytes "PackUVRelease",.uint⟩,
  ⟨0x24,bytes "CellOverVoltage",.uint⟩,
  ⟨0x25,bytes "CellOVRelease",.uint⟩,
  ⟨0x26,bytes "CellUnderVoltage",.uint⟩,
  ⟨0x27,bytes "CellUVRelease",.uint⟩,
  ⟨0x28,bytes "OverChargeCurrent",.int⟩,
  ⟨0x29,bytes "OverDisCurrent",.int⟩,
  ⟨0x2A,bytes "BalanceStartVoltage",.uint⟩,
  ⟨0x2B,bytes "BalanceWindow",.int⟩,
  ⟨0x2C,bytes "SenseResistor",.uint⟩,
  ⟨0x2D,bytes "BatteryConfig",.func⟩,
  ⟨0x2E,bytes "NtcConfig",.ntc⟩,
  ⟨0x2F,bytes "PackNum",.uint⟩,
  ⟨0x30,bytes "fet_ctrl_time_set",.uint⟩,
  ⟨0x31,bytes "led_disp_time_set",.uint⟩,
  ⟨0x32,bytes "VoltageCap80",.uint⟩,
  ⟨0x33,bytes "VoltageCap60",.uint⟩,
  ⟨0x34,bytes "VoltageCap40",.uint⟩,
  ⟨0x35,bytes "VoltageCap20",.uint⟩,
  ⟨0x36,bytes "HardCellOverVoltage",.uint⟩,
  ⟨0x37,bytes "HardCellUnderVoltage",.uint⟩,
  ⟨0x38,bytes "DoubleOCSC",.double⟩,
  ⟨0x38,bytes "SCValue",.scval⟩,
  ⟨0x38,bytes "SCDelay",.scdelay⟩,
  ⟨0x38,bytes "DSGOC2",.dsgoc2⟩,
  ⟨0x38,bytes "DSGOC2Delay",.dsgoc2delay⟩,
  ⟨0x39,bytes "HCOVPDelay",.hcovpdelay⟩,
  ⟨0x39,bytes "HCUVPDelay",.hcuvpdelay⟩,
  ⟨0x39,bytes "SCRelease",.b1⟩,
  ⟨0x3A,bytes "ChgUTDelay",.b0⟩,
  ⟨0x3A,bytes "ChgOTDelay",.b1⟩,
  ⟨0x3B,bytes "DsgUTDelay",.b0⟩,
  ⟨0x3B,bytes "DsgOTDelay",.b1⟩,
  ⟨0x3C,bytes "PackUVDelay",.b0⟩,
  ⟨0x3C,bytes "PackOVDelay",.b1⟩,
  ⟨0x3D,bytes "CellUVDelay",.b0⟩,
  ⟨0x3D,bytes "CellOVDelay",.b1⟩,
  ⟨0x3E,bytes "ChgOCDelay",.b0⟩,
  ⟨0x3E,bytes "ChgOCRDelay",.b1⟩,
  ⟨0x3F,bytes "DsgOCDelay",.b0⟩,
  ⟨0x3F,bytes "DsgOCRDelay",.b1⟩,
  ⟨0xA0,bytes "ManufacturerName",.str⟩,
  ⟨0xA1,bytes "DeviceName",.str⟩,
  ⟨0xA2,bytes "BarCode",.str⟩,
  ⟨0x40,bytes "GPS_VOL",.int⟩,
  ⟨0x41,bytes "GPS_TIME",.int⟩,
  ⟨0x42,bytes "VoltageCap90",.uint⟩,
  ⟨0x43,bytes "VoltageCap70",.uint⟩,
  ⟨0x44,bytes "VoltageCap50",.uint⟩,
  ⟨0x45,bytes "VoltageCap30",.uint⟩,
  ⟨0x46,bytes "VoltageCap10",.uint⟩,
  ⟨0x47,bytes "VoltageCap100",.uint⟩,
  ⟨0xE1,bytes "Mosfet",.int⟩]

/-- `_getp` -/
def getp (label : Bytes) : Option JbdParams := params.find? (fun pp => pp.label == label)

-- the labels are evaluated here once; what is said of their characters elsewhere follows from it
theorem params_text : ∀ pp ∈ params, pp.label ≠ [] ∧ pp.label.length ≤ 126 ∧ ∀ c ∈ pp.label, c ≠ 0 ∧ isspace c = false := by
  decide +kernel

/-- The characters that end a bit label. -/
def isSeparator (c : UInt8) : Bool := isspace c || c == 44 || c == 124 || c == 43

/-- The `while(*p)` over the labels of a list; every turn with a label left
consumes at least one character. -/
def parseLabels (bits : List JbdBit) : Nat → Bytes → UInt16 → Except Bytes UInt16
  | 0, _, mask => .ok mask
  | fuel + 1, p, mask =>
    let p := p.dropWhile isSeparator
    if p = [] then .ok mask else
    let label := (p.takeWhile (fun c => !isSeparator c)).take 31
    match bits.find? (fun bp => caseEqual bp.label label) with
    | none => .error (bytes "error: unknown bit name: " ++ label ++ bytes "\nvalid names are:" ++
        bits.flatMap (fun bp => 32::bp.label) ++ bytes "\n")
    | some bp => parseLabels bits fuel (p.dropWhile (fun c => !isSeparator c)) (mask ||| bp.mask)

/-- The mask stored through `maskp`, or the message printed before returning -1. -/
def parseBits (value : Bytes) (bits : List JbdBit) : Except Bytes UInt16 :=
  let p := value.dropWhile isspace
  if p = [] then .error (bytes "error: empty value: specify a number or bit names (0 clears all bits)\n") else
  let num := strtol 0 p
  if num.2 ≠ p ∧ num.2.dropWhile isspace = [] then
    if num.1 < 0 ∨ num.1 > 0xFFFF then .error (bytes "error: value out of range: " ++ value ++ bytes "\n")
    else .ok (UInt16.ofInt num.1)
  else parseLabels bits (p.length + 1) p 0

end Jbdtool
