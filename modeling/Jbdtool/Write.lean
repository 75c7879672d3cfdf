import Jbdtool.Params
import Jbdtool.Exchange

/-! write_parm: what one `-w` setting puts on the wire. -/
namespace Jbdtool
open Numbers CString
variable {τ : Type}

/-- `_putshort(payload,atof(value))` -/
def floatPayload (value : Bytes) : Bytes :=
  let tmp := toInt32 (roundSingle (roundDouble (strtod value).1))
  [UInt8.ofInt (tmp >>> (8 : Nat)),UInt8.ofInt tmp]

/-- The last line of write_parm, with `len` bytes of its buffer. -/
def sendParm (host : Host τ) (reg : UInt8) (data : Mem UInt8) (len : Nat) : Program τ Int := do
  let r ← jbdRw host jbdCmdWrite reg (Mem.slice data 0 len)
  return r.1

def writeBits (host : Host τ) (pp : JbdParams) (data : Mem UInt8) (value : Bytes) (bits : List JbdBit) :
    Program τ Int := do
  match parseBits value bits with
  | .error message => do
    Traced.emit (.printed .stdout message)
    return -1
  | .ok mask => sendParm host pp.reg (Mem.overlay data 0 (shortPayload mask.toNat)) 2

/-- Read-modify-write of the byte at `index`. -/
def writeByte (host : Host τ) (pp : JbdParams) (data : Mem UInt8) (value : Bytes) (index : Nat) :
    Program τ Int := do
  let r ← jbdRw host jbdCmdRead pp.reg (Mem.slice data 0 128)
  if r.1 < 1 then return -1
  sendParm host pp.reg
    (Mem.overlay (Mem.overlay data 0 r.2) index [UInt8.ofInt (atoi value)]) 2

/-- write_parm with `data` the bytes its buffer happens to hold on entry. -/
def writeParmFrom (host : Host τ) (data : Mem UInt8) (pp : JbdParams) (value : Bytes) : Program τ Int :=
  match pp.dt with
  | .uint | .int | .temp | .date | .pct =>
    sendParm host pp.reg (Mem.overlay data 0 (shortPayload (atoi value))) 2
  | .func => writeBits host pp data value funcBits
  | .ntc => writeBits host pp data value ntcBits
  | .b0 => writeByte host pp data value 0
  | .b1 => writeByte host pp data value 1
  | .float => sendParm host pp.reg (Mem.overlay data 0 (floatPayload value)) 2
  | .str => do
    emitTouch (.buffer 128) 0 value.length
    sendParm host pp.reg (Mem.overlay data 0 value) value.length
  -- No case of the switch: the two bytes sent are the ones already there.
  | .unk | .double | .scval | .scdelay | .dsgoc2 | .dsgoc2delay | .hcovpdelay | .hcuvpdelay | .dump =>
    sendParm host pp.reg data 2

def writeParm (host : Host τ) (pp : JbdParams) (value : Bytes) : Program τ Int := do
  let w ← Traced.get
  Traced.modify (fun w => {w with parmCalls := w.parmCalls + 1})
  writeParmFrom host (host.parmData w.parmCalls) pp value

/-- The frames handed to the transport, in order. -/
def transmitted (events : List Event) : List (Bytes × Int) :=
  events.filterMap fun
    | .wrote packet len => some (packet,len)
    | _ => none

private theorem sendParm_overlay (host : Host τ) (reg : UInt8) (data : Mem UInt8) (payload : Bytes) (len : Nat)
    (whole : len = payload.length) :
    sendParm host reg (Mem.overlay data 0 payload) len =
      (do let r ← jbdRw host jbdCmdWrite reg payload; return r.1) := by
  rw [whole,sendParm,Mem.slice_overlay]

theorem jbdRw_read_congr (host : Host τ) (reg : UInt8) (first second : Bytes)
    (same : first.length = second.length) :
    jbdRw host jbdCmdRead reg first = jbdRw host jbdCmdRead reg second := by
  funext w
  simp only [jbdRw_run,request_read,same]

private theorem modified_slice (first second : Mem UInt8) (reply : Bytes) (index : Nat) (b : UInt8)
    (whole : reply.length = 128) :
    Mem.slice (Mem.overlay (Mem.overlay first 0 reply) index [b]) 0 2 =
      Mem.slice (Mem.overlay (Mem.overlay second 0 reply) index [b]) 0 2 := by
  apply Mem.slice_congr
  intro i bound
  have below (mem : Mem UInt8) : Mem.overlay mem 0 reply (0 + i) = reply[i] :=
    Mem.overlay_inside mem 0 reply i (by omega)
  by_cases hit : 0 + i = index
  · rw [hit]
    exact (Mem.overlay_inside _ index [b] 0 (by simp)).trans (Mem.overlay_inside _ index [b] 0 (by simp)).symm
  · have away : 0 + i < index ∨ index + [b].length ≤ 0 + i := by
      simp only [List.length_singleton]
      omega
    rw [Mem.overlay_outside (Mem.overlay first 0 reply) index [b] _ away,
      Mem.overlay_outside (Mem.overlay second 0 reply) index [b] _ away,below,below]

private theorem writeByte_congr (host : Host τ) (pp : JbdParams) (first second : Mem UInt8) (value : Bytes)
    (index : Nat) :
    writeByte host pp first value index = writeByte host pp second value index := by
  funext w
  unfold writeByte
  rw [jbdRw_read_congr host pp.reg (Mem.slice first 0 128) (Mem.slice second 0 128) (by simp)]
  simp only [jbdRw_bind,Mem.slice_length,Traced.ite_run,sendParm]
  rw [modified_slice first second _ index _ (settle_length 128 _)]

/-- The types of the table whose payload no case of the switch fills. -/
def unfilled : List ParmDt :=
  [.unk,.double,.scval,.scdelay,.dsgoc2,.dsgoc2delay,.hcovpdelay,.hcuvpdelay,.dump]

private theorem writeParmFrom_congr (host : Host τ) (first second : Mem UInt8) (pp : JbdParams) (value : Bytes)
    (filled : pp.dt ∉ unfilled) :
    writeParmFrom host first pp value = writeParmFrom host second pp value := by
  have short (v : Int) : sendParm host pp.reg (Mem.overlay first 0 (shortPayload v)) 2 =
      sendParm host pp.reg (Mem.overlay second 0 (shortPayload v)) 2 := by
    rw [sendParm_overlay host pp.reg first (shortPayload v) 2 rfl,
      sendParm_overlay host pp.reg second (shortPayload v) 2 rfl]
  have bits (table : List JbdBit) : writeBits host pp first value table = writeBits host pp second value table := by
    unfold writeBits
    cases parseBits value table with
    | error message => rfl
    | ok mask => exact short mask.toNat
  unfold writeParmFrom
  cases kind : pp.dt
  case uint | int | temp | date | pct => exact short _
  case func | ntc => exact bits _
  case b0 => exact writeByte_congr host pp first second value 0
  case b1 => exact writeByte_congr host pp first second value 1
  case float => simp only [sendParm_overlay _ _ _ (floatPayload value) 2 rfl]
  case str => simp only [sendParm_overlay _ _ _ value value.length rfl]
  all_goals simp [kind,unfilled] at filled

theorem transmitted_rwEvents (action reg : UInt8) (datasz : Nat) (o : Outcome τ Event (Option Bytes)) :
    transmitted (rwEvents action reg datasz o) = transmitted o.events := by
  have cleared (events : List Event) : transmitted (withClearing datasz events) = transmitted events := by
    induction events with
    | nil => rfl
    | cons e events ih =>
      simp only [withClearing,transmitted,List.flatMap_cons,List.filterMap_append] at ih ⊢
      rw [ih]
      cases e <;> rfl
  have copied : transmitted (copyTouch datasz o.value) = [] := by
    cases o.value <;> rfl
  simp only [transmitted] at cleared copied
  simp [rwEvents,transmitted,cleared,copied]

private theorem transmitted_first (host : Host τ) (reg : UInt8) (data : Bytes) (w : World τ) (fits : data.length ≤ 249) :
    (transmitted (jbdRw host jbdCmdWrite reg data w).events).head? =
      some (frame jbdCmdWrite reg data,((data.length + 7 : Nat) : Int)) := by
  have payload : requestData jbdCmdWrite.toNat data = data := by simp [requestData,jbdCmdWrite,jbdCmdRead]
  have sent := request_frame jbdCmdWrite reg data (by rw [payload]; omega)
  rw [payload] at sent
  simp only [jbdRw_run,transmitted_rwEvents,sent]
  rfl

theorem sendParm_events (host : Host τ) (reg : UInt8) (data : Mem UInt8) (len : Nat) (w : World τ) :
    (sendParm host reg data len w).events = (jbdRw host jbdCmdWrite reg (Mem.slice data 0 len) w).events := by
  rw [sendParm,Traced.bind_run]
  exact List.append_nil _

private theorem unfilled_differs (host : Host τ) (pp : JbdParams) (value : Bytes) (w : World τ)
    (stale : pp.dt ∈ unfilled) :
    transmitted (writeParmFrom host (fun _ => 0) pp value w).events ≠
      transmitted (writeParmFrom host (fun _ => 1) pp value w).events := by
  have verbatim (data : Mem UInt8) : writeParmFrom host data pp value = sendParm host pp.reg data 2 := by
    unfold writeParmFrom
    cases kind : pp.dt
    case unk | double | scval | scdelay | dsgoc2 | dsgoc2delay | hcovpdelay | hcuvpdelay | dump => rfl
    all_goals simp [kind,unfilled] at stale
  have sent (data : Mem UInt8) : (transmitted (sendParm host pp.reg data 2 w).events).head? =
      some (frame jbdCmdWrite pp.reg (Mem.slice data 0 2),9) := by
    rw [sendParm_events]
    exact transmitted_first host pp.reg (Mem.slice data 0 2) w (by simp)
  intro same
  rw [verbatim,verbatim] at same
  have frames := congrArg List.head? same
  rw [sent,sent] at frames
  simp [frame,Mem.slice,List.range_succ] at frames

/-- The frames of a parameter write are a function of the request exactly for
the types that the switch of write_parm handles. -/
theorem writeParm_determined (host : Host τ) (pp : JbdParams) (value : Bytes) (w : World τ) :
    (∀ first second, transmitted (writeParmFrom host first pp value w).events =
      transmitted (writeParmFrom host second pp value w).events) ↔ pp.dt ∉ unfilled := by
  constructor
  · intro determined stale
    exact unfilled_differs host pp value w stale (determined _ _)
  · intro filled first second
    rw [writeParmFrom_congr host first second pp value filled]

/-- Writing DoubleOCSC over a transport that never answers. -/
theorem writeParm_stale :
    transmitted (writeParmFrom (scripted (fun _ => .error) (fun _ _ => 0) (fun _ _ => 0)) (fun _ => 0)
        ⟨0x38,bytes "DoubleOCSC",.double⟩ (bytes "1") (World.start 0)).events ≠
      transmitted (writeParmFrom (scripted (fun _ => .error) (fun _ _ => 0) (fun _ _ => 0)) (fun _ => 1)
        ⟨0x38,bytes "DoubleOCSC",.double⟩ (bytes "1") (World.start 0)).events :=
  unfilled_differs _ _ _ _ (by decide)

end Jbdtool
