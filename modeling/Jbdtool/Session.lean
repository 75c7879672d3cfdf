import Jbdtool.Exchange

/-! The short exchanges of jbd_info.c: the EEPROM bracket, the MOSFET write and
the reset. Their two-byte payloads are the smallest buffers handed to jbd_rw. -/
namespace Jbdtool
open CString
variable {τ : Type}

def jbdRegEeprom : UInt8 := 0x00
def jbdRegConfig : UInt8 := 0x01
def jbdRegFreset : UInt8 := 0x0A
def jbdRegMosfet : UInt8 := 0xE1
def jbdRegReset : UInt8 := 0xE3

def jbdEepromStart (host : Host τ) : Program τ Int := do
  Traced.emit (.enter .jbdEepromStart)
  let r ← jbdRw host jbdCmdWrite jbdRegEeprom [0x56,0x78]
  Traced.emit (.leave .jbdEepromStart r.1)
  return r.1

def jbdEepromEnd (host : Host τ) : Program τ Int := do
  Traced.emit (.enter .jbdEepromEnd)
  let r ← jbdRw host jbdCmdWrite jbdRegConfig [0x00,0x00]
  Traced.emit (.leave .jbdEepromEnd r.1)
  return r.1

def jbdSetMosfet (host : Host τ) (val : Int) : Program τ Int := do
  Traced.emit (.enter .jbdSetMosfet)
  let r ← do
    if (← jbdEepromStart host) < 0 then pure 1 else
    let r ← jbdRw host jbdCmdWrite jbdRegMosfet (shortPayload val)
    if (← jbdEepromEnd host) < 0 then pure 1 else
    pure (if r.1 < 0 then 1 else 0)
  Traced.emit (.leave .jbdSetMosfet r)
  return r

def jbdReset (host : Host τ) : Program τ Int := do
  let r ← jbdRw host jbdCmdWrite jbdRegReset (shortPayload 0x4321)
  if r.1 = 0 then
    let r ← jbdRw host jbdCmdWrite jbdRegFreset (shortPayload 0x1881)
    return (if r.1 < 0 then 1 else 0)
  else return (if r.1 < 0 then 1 else 0)

/-- All that jbd_rw stores through its caller's pointer stays in the caller's
array exactly when the reply it accepts is no longer than that array. -/
theorem jbdRw_inBounds (script : Nat → ReadResult 256) (rwBuf parmData : Nat → Mem UInt8)
    (action reg : UInt8) (data : Bytes) (w : World Nat) :
    (∀ e ∈ (jbdRw (scripted script rwBuf parmData) action reg data w).events, e.InBounds) ↔
      ∀ i < 5, ∀ reply, FirstAccepted script reg w.line i reply → reply.length ≤ data.length := by
  rw [jbdRw_run]
  simp only [rwEvents_inBounds,exchange_first]
  constructor
  · rintro ⟨-,short⟩ i five reply first
    exact short reply ⟨i,five,first⟩
  · intro short
    refine ⟨exchange_inBounds _ _ _ _ _ _,?_⟩
    rintro reply ⟨i,five,first⟩
    exact short i five reply first

def longAnswer (_ : Nat) : ReadResult 256 := .bytes (frame jbdRegEeprom 0 [1,2,3]) (by decide)

theorem jbdEepromStart_overrun :
    ¬ ∀ e ∈ (jbdEepromStart (scripted longAnswer (fun _ _ => 0) (fun _ _ => 0)) (World.start 0)).events,
      e.InBounds := by
  decide

theorem acknowledgement_fits : (frame jbdRegEeprom 0 []).length ≤ 256 := by decide

end Jbdtool
