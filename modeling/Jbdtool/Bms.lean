import Jbdtool.Calls
import Jbdtool.Eeprom
import Jbdtool.Base.Observe

/-! A BMS that is a map from registers to bytes, and main run against it. A READ
returns the content of a register, a WRITE replaces it. -/
namespace Jbdtool
open CString Numbers Observe

structure Bms where
  regs : UInt8 → Bytes
  answer : Bytes

/-- What a request makes of the registers, and the payload of the reply. -/
def Bms.request (regs : UInt8 → Bytes) : Bytes → (UInt8 → Bytes) × Bytes
  | _::action::reg::len::payload =>
    if action = jbdCmdWrite then (Function.update regs reg (payload.take len.toNat),frame reg 0 [])
    else (regs,frame reg 0 (regs reg))
  | _ => (regs,[])

/-- A transport to the BMS; `rwBuf` and `parmData` are the stale bytes of jbd_rw and
write_parm. -/
def bms (rwBuf parmData : Nat → Mem UInt8) : Host Bms where
  can := false
  opens s := (0,s)
  closes s := (0,s)
  write s packet len := (len,⟨(Bms.request s.regs packet).1,(Bms.request s.regs packet).2⟩)
  read s := (if fits : s.answer.length ≤ 256 then .bytes s.answer fits else .error,s)
  canWrite s _ := (0,s)
  canRead s _ := (.error,s)
  single := roundSingle
  double := roundDouble
  infoText := []
  lineBuf := fun _ => 0
  rwBuf := rwBuf
  parmData := parmData

/-- The part of a world that the runs against the BMS depend on. -/
structure View where
  regs : UInt8 → Bytes
  parmCalls : Nat
  rootObject : Option (List (Bytes × Json))
  rootValue : RootValue

def World.view (w : World Bms) : View := ⟨w.line.regs,w.parmCalls,w.rootObject,w.rootValue⟩

def Event.shown : Event → List Event
  | .rwCall action reg => if action = jbdCmdWrite ∧ isParm reg then [.rwCall action reg] else []
  | .printed .outfp text => [.printed .outfp text]
  | _ => []

/-- The registers after jbd_eeprom_start, and after jbd_eeprom_end. -/
def opened (regs : UInt8 → Bytes) : UInt8 → Bytes := Function.update regs jbdRegEeprom [0x56,0x78]
def closed (regs : UInt8 → Bytes) : UInt8 → Bytes := Function.update regs jbdRegConfig [0x00,0x00]

def observer : Observer (World Bms) Event View Event := ⟨World.view,Event.shown,Event.InBounds⟩

abbrev OnBms {α : Type} (start : View) (m : Program Bms α) (a : α) (final : View) (shown : List Event)
    (bounded : Prop) : Prop :=
  Does observer start m a final shown bounded

section
variable {rwBuf parmData : Nat → Mem UInt8} {v : View}

/-- One round is enough: the BMS answers what it was asked. -/
private theorem exchange_bms (s : Bms) (packet reply : Bytes) (len : Int) (reg : UInt8) (regs : UInt8 → Bytes)
    (asked : Bms.request s.regs packet = (regs,frame reg 0 reply)) (short : reply.length ≤ 249) :
    exchange (bms rwBuf parmData) packet len reg 5 s = ⟨some reply,⟨regs,frame reg 0 reply⟩,
      [.wrote packet len,.received ((bms rwBuf parmData).read ⟨regs,frame reg 0 reply⟩).1]⟩ := by
  have fits : (frame reg 0 reply).length ≤ 256 := by
    rw [frame_length]
    omega
  have payload : payloadOf reg (frame reg 0 reply) = some reply :=
    (payloadOf_iff reg _ reply fits).mpr ⟨0,rfl⟩
  simp [exchange,bms,asked,fits,payload,Outcome.after]

private theorem does_rw (action reg : UInt8) (data reply : Bytes) (regs : UInt8 → Bytes)
    (asked : Bms.request v.regs (request action reg data).1 = (regs,frame reg 0 reply))
    (short : reply.length ≤ 249) :
    OnBms v (jbdRw (bms rwBuf parmData) action reg data) (settle data.length (some reply)) {v with regs := regs}
      (Event.shown (.rwCall action reg)) (reply.length ≤ data.length) := by
  rintro w rfl
  rw [jbdRw_run]
  simp only [exchange_bms w.line _ reply _ reg regs asked short]
  refine ⟨trivial,rfl,?_,?_⟩
  · simp [rwEvents,withClearing,copyTouch,observer,Event.shown]
  · refine (rwEvents_inBounds action reg data.length _).trans ?_
    simp

private theorem request_bms (regs : UInt8 → Bytes) (action reg : UInt8) (payload : Bytes) (short : payload.length ≤ 249) :
    Bms.request regs (frame action reg payload) =
      if action = jbdCmdWrite then (Function.update regs reg payload,frame reg 0 [])
      else (regs,frame reg 0 (regs reg)) := by
  have count : (UInt8.ofNat payload.length).toNat = payload.length := by
    rw [UInt8.toNat_ofNat']
    omega
  simp [Bms.request,frame,count]

theorem does_read (reg : UInt8) (data : Bytes) (short : (v.regs reg).length ≤ 249) :
    OnBms v (jbdRw (bms rwBuf parmData) jbdCmdRead reg data) (settle data.length (some (v.regs reg))) v []
      ((v.regs reg).length ≤ data.length) := by
  refine does_rw jbdCmdRead reg data (v.regs reg) v.regs ?_ short
  rw [request_read,request_bms _ _ _ _ (by simp)]
  rfl

theorem does_write (reg : UInt8) (data : Bytes) (short : data.length ≤ 249) :
    OnBms v (jbdRw (bms rwBuf parmData) jbdCmdWrite reg data) (settle data.length (some []))
      {v with regs := Function.update v.regs reg data}
      (if isParm reg then [.rwCall jbdCmdWrite reg] else []) True := by
  have payload : requestData jbdCmdWrite.toNat data = data := by simp [requestData,jbdCmdWrite,jbdCmdRead]
  have asked : Bms.request v.regs (request jbdCmdWrite reg data).1 =
      (Function.update v.regs reg data,frame reg 0 []) := by
    rw [request_frame _ _ _ (by rw [payload]; omega),payload]
    exact (request_bms _ _ _ _ short).trans (if_pos rfl)
  exact does_congr (does_rw jbdCmdWrite reg data [] _ asked (by simp)) (by simp [Event.shown]) (by simp)

theorem does_event (e : Event) (unseen : e.shown = []) (inside : e.InBounds) :
    OnBms v (Traced.emit e) () v [] True :=
  does_note unseen inside

private theorem does_open : OnBms v (packOpen (bms rwBuf parmData)) 0 v [] True :=
  does_get fun _ _ => does_silent (does_modify fun _ same => same)
    (does_silent (does_event _ rfl (by simp)) (does_pure 0))

private theorem does_close : OnBms v (packClose (bms rwBuf parmData)) () v [] True :=
  does_silent (does_modify fun _ same => same) (does_event _ rfl (by simp))

theorem does_find (label : Bytes) : OnBms v (findParm label) (getp label) v [] True :=
  does_silent (does_event _ rfl (by simp)) (does_pure _)

private theorem does_start : OnBms v (jbdEepromStart (bms rwBuf parmData)) 0
    {v with regs := opened v.regs} [] True := by
  refine does_silent (does_event _ rfl (by simp)) (does_silent (does_write _ _ (by simp)) ?_)
  exact does_silent (does_event _ rfl (by simp)) (does_pure 0)

private theorem does_end : OnBms v (jbdEepromEnd (bms rwBuf parmData)) 0
    {v with regs := closed v.regs} [] True := by
  refine does_silent (does_event _ rfl (by simp)) (does_silent (does_write _ _ (by simp)) ?_)
  exact does_silent (does_event _ rfl (by simp)) (does_pure 0)

theorem does_next {α β : Type} {m : Main Bms α} {next : α → Main Bms β} {a : α} {r : Except Int β}
    {mid final : View} {shown : List Event} {bounded : Prop} (first : OnBms v m.run (.ok a) mid [] True)
    (rest : OnBms mid (next a).run r final shown bounded) : OnBms v (m >>= next).run r final shown bounded :=
  does_silent first rest

theorem does_last {α β : Type} {m : Main Bms α} {next : α → Main Bms β} {a : α} {r : Except Int β}
    {mid final : View} {shown : List Event} {bounded : Prop} (first : OnBms v m.run (.ok a) mid shown bounded)
    (rest : OnBms mid (next a).run r final [] True) : OnBms v (m >>= next).run r final shown bounded :=
  does_then first rest

theorem does_lift {α : Type} {m : Program Bms α} {a : α} {final : View} {shown : List Event} {bounded : Prop}
    (known : OnBms v m a final shown bounded) : OnBms v (liftM m : Main Bms α).run (.ok a) final shown bounded :=
  does_then known (does_pure _)

theorem does_yes {α : Type} {c : Prop} [Decidable c] {m n : Main Bms α} {r : Except Int α} {final : View}
    {shown : List Event} {bounded : Prop} (holds : c) (known : OnBms v m.run r final shown bounded) :
    OnBms v (if c then m else n).run r final shown bounded := by
  rwa [if_pos holds]

theorem does_no {α : Type} {c : Prop} [Decidable c] {m n : Main Bms α} {r : Except Int α} {final : View}
    {shown : List Event} {bounded : Prop} (fails : ¬ c) (known : OnBms v n.run r final shown bounded) :
    OnBms v (if c then m else n).run r final shown bounded := by
  rwa [if_neg fails]

theorem does_openOrReturn : OnBms v (openOrReturn (bms rwBuf parmData)).run (.ok ()) v [] True :=
  does_next (does_lift does_open) (does_pure _)

theorem does_startOrReturn : OnBms v (startOrReturn (bms rwBuf parmData)).run (.ok ())
    {v with regs := opened v.regs} [] True :=
  does_next (does_lift does_start) (does_pure _)

theorem does_endAndClose : OnBms v (endAndClose (bms rwBuf parmData)) ()
    {v with regs := closed v.regs} [] True :=
  does_silent does_end does_close

end

end Jbdtool
