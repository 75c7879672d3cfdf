import Jbdtool.Base.CString
import Jbdtool.Frame
import Mathlib.Data.List.Infix

/-! The bluetooth transport: the callback for notifications and the reader share a buffer
under a lock. A critical section is one event; between two of them the lock is free. -/
namespace Jbdtool.Bt
open CString

/-- `data` up to `len`. What bt_open sets up and bt_close takes down is left out. -/
structure Session where
  charReadPath : Bytes
  data : Bytes
  cbcnt : Nat
  connected : Bool

/-- A signal of the bus, with the value among its changed properties if there is one. -/
structure Signal where
  signalName : Bytes
  objectPath : Bytes
  interface : Bytes
  value : Option Bytes

def dataSize : Nat := 4096

/-- What of a signal goes to the buffer. -/
def notified (charReadPath : Bytes) (signal : Signal) : Option Bytes :=
  if signal.signalName ≠ bytes "PropertiesChanged" then none
  else if ¬ charReadPath <:+: signal.objectPath then none
  else if signal.interface ≠ bytes "org.bluez.GattCharacteristic1" then none
  else signal.value

def onPropertiesChanged (s : Session) (signal : Signal) : Session :=
  match notified s.charReadPath signal with
  | none => s
  | some data =>
    if s.data.length + data.length ≤ dataSize then {s with data := s.data ++ data, cbcnt := s.cbcnt + 1} else s

/-- The value written goes to the bus, which takes it or not. -/
def btWrite (s : Session) (buflen : Int) (taken : Bool) : Int × Session :=
  if ¬ s.connected then (-1,s) else (if taken then buflen else -1,{s with data := [],cbcnt := 0})

inductive Reader where
  | waiting (retries : Nat)
  | returned (len : Int) (buf : Bytes)
deriving DecidableEq

def btRead (s : Session) : Reader := if ¬ s.connected then .returned (-1) [] else .waiting 10

/-- One round of the loop of bt_read, up to its sleep. -/
def poll (s : Session) (buflen retries : Nat) : Session × Reader :=
  if s.data ≠ [] then ({s with data := []},.returned (s.data.take buflen).length (s.data.take buflen))
  else if retries - 1 = 0 then (s,.returned 0 [])
  else (s,.waiting (retries - 1))

structure System where
  session : Session
  reader : Reader

inductive Event where
  | signal (signal : Signal)
  | poll

def step (buflen : Nat) (sys : System) : Event → System
  | .signal signal => {sys with session := onPropertiesChanged sys.session signal}
  | .poll => match sys.reader with
    | .waiting retries =>
      let round := poll sys.session buflen retries
      ⟨round.1,round.2⟩
    | .returned _ _ => sys

def run (buflen : Nat) (sys : System) (events : List Event) : System := events.foldl (step buflen) sys

def arrived (charReadPath : Bytes) (events : List Event) : Bytes :=
  events.flatMap fun
    | .signal signal => (notified charReadPath signal).getD []
    | .poll => []

def polls (events : List Event) : Nat := events.countP fun
  | .signal _ => false
  | .poll => true

/-- No poll of the call is between the first and the last byte of the frame. -/
def Together (charReadPath frame : Bytes) (retries : Nat) (events : List Event) : Prop :=
  ∀ before after, events = before ++ .poll::after → polls before < retries →
    arrived charReadPath before = [] ∨ arrived charReadPath before = frame

def Reassembled (frame : Bytes) (sys : System) : Prop :=
  ∀ len buf, sys.reader = .returned len buf → 0 < len → buf = frame

section
variable {buflen : Nat} {s : Session} {frame : Bytes} {events : List Event}

private theorem run_returned (len : Int) (buf : Bytes) :
    (run buflen ⟨s,.returned len buf⟩ events).reader = .returned len buf := by
  induction events generalizing s with
  | nil => rfl
  | cons event events ih =>
    cases event with
    | signal signal => exact ih
    | poll => exact ih

private theorem arrived_append (charReadPath : Bytes) (before after : List Event) :
    arrived charReadPath (before ++ after) = arrived charReadPath before ++ arrived charReadPath after :=
  List.flatMap_append

private theorem splits_cons (event : Event) (good : List Event → Prop) :
    (∀ before after, event::events = before ++ .poll::after → good before) ↔
      (event = .poll → good []) ∧ ∀ before after, events = before ++ .poll::after → good (event::before) := by
  constructor
  · intro all
    refine ⟨fun same => all [] events (by rw [same]; rfl),fun before after split => ?_⟩
    exact all (event::before) after (by rw [split]; rfl)
  · rintro ⟨first,rest⟩ before after split
    cases before with
    | nil => exact first (List.cons.inj split).1
    | cons other before =>
      obtain ⟨rfl,later⟩ := List.cons.inj split
      exact rest before after later

private theorem onPropertiesChanged_data (signal : Signal)
    (fits : (s.data ++ (notified s.charReadPath signal).getD []).length ≤ dataSize) :
    (onPropertiesChanged s signal).charReadPath = s.charReadPath ∧
      (onPropertiesChanged s signal).data = s.data ++ (notified s.charReadPath signal).getD [] := by
  unfold onPropertiesChanged
  cases found : notified s.charReadPath signal with
  | none => exact ⟨rfl,(List.append_nil _).symm⟩
  | some data =>
    rw [found,List.length_append] at fits
    have room : s.data.length + data.length ≤ dataSize := fits
    dsimp only
    rw [if_pos room]
    exact ⟨rfl,rfl⟩

/-- A read under way: what has arrived for it and what will. -/
private theorem waiting_reassembled (retries : Nat) (more : 0 < retries) (room : frame.length ≤ buflen)
    (fits : frame.length ≤ dataSize) (part : s.data ++ arrived s.charReadPath events <+: frame) :
    Reassembled frame (run buflen ⟨s,.waiting retries⟩ events) ↔
      ∀ before after, events = before ++ .poll::after → polls before < retries →
        s.data ++ arrived s.charReadPath before = [] ∨ s.data ++ arrived s.charReadPath before = frame := by
  induction events generalizing s retries with
  | nil => exact iff_of_true nofun fun before after split => by cases before <;> cases split
  | cons event events ih =>
    rw [splits_cons]
    cases event with
    | signal signal =>
      have whole (events : List Event) : s.data ++ arrived s.charReadPath (.signal signal::events) =
          s.data ++ (notified s.charReadPath signal).getD [] ++ arrived s.charReadPath events :=
        (List.append_assoc _ _ _).symm
      rw [whole] at part
      have small := ((List.prefix_append _ _).trans part).length_le.trans fits
      obtain ⟨path,data⟩ := onPropertiesChanged_data signal small
      have next : (onPropertiesChanged s signal).data ++ arrived (onPropertiesChanged s signal).charReadPath events <+:
          frame := by rwa [path,data]
      have later := ih retries more next
      simp only [path,data] at later
      simp only [whole]
      exact later.trans ⟨fun all => ⟨nofun,all⟩,And.right⟩
    | poll =>
      have round : run buflen ⟨s,.waiting retries⟩ (.poll::events) =
          run buflen ⟨(poll s buflen retries).1,(poll s buflen retries).2⟩ events := rfl
      have counted (before : List Event) : polls (.poll::before) = polls before + 1 := List.countP_cons_of_pos rfl
      have same (before : List Event) : arrived s.charReadPath (.poll::before) = arrived s.charReadPath before := rfl
      rw [same] at part
      rw [round]
      simp only [counted,same]
      by_cases none : s.data = []
      · by_cases last : retries - 1 = 0
        · have result : poll s buflen retries = (s,.returned 0 []) := by
            rw [poll,if_neg (not_not.mpr none),if_pos last]
          rw [result]
          refine iff_of_true (fun len buf returned positive => ?_) ⟨fun _ _ => .inl ?_,fun before _ _ fewer => ?_⟩
          · rw [run_returned] at returned
            cases returned
            exact absurd positive (lt_irrefl 0)
          · rw [none]
            rfl
          · omega
        · have result : poll s buflen retries = (s,.waiting (retries - 1)) := by
            rw [poll,if_neg (not_not.mpr none),if_neg last]
          rw [result,ih (retries - 1) (by omega) part]
          have fewer (before : List Event) : polls before + 1 < retries ↔ polls before < retries - 1 := by omega
          simp only [fewer]
          refine ⟨fun all => ⟨fun _ _ => .inl ?_,all⟩,And.right⟩
          rw [none]
          rfl
      · have front : s.data <+: frame := (List.prefix_append _ _).trans part
        have taken : s.data.take buflen = s.data := List.take_of_length_le (front.length_le.trans room)
        have result : poll s buflen retries = ({s with data := []},.returned s.data.length s.data) := by
          rw [poll,if_pos none,taken]
        rw [result]
        constructor
        · intro reassembled
          have whole : s.data = frame := by
            refine reassembled s.data.length s.data (run_returned _ _) ?_
            exact Int.natCast_pos.mpr (List.length_pos_iff.mpr none)
          have nothing : arrived s.charReadPath events = [] := by
            have length := part.length_le
            rw [List.length_append,whole] at length
            exact List.eq_nil_of_length_eq_zero (by omega)
          refine ⟨fun _ _ => .inr ((List.append_nil _).trans whole),fun before after split _ => .inr ?_⟩
          rw [split,arrived_append] at nothing
          rw [(List.append_eq_nil_iff.mp nothing).1,List.append_nil,whole]
        · rintro ⟨first,-⟩ len buf returned -
          rw [run_returned] at returned
          cases returned
          have now := first trivial more
          rw [show arrived s.charReadPath [] = [] from rfl,List.append_nil] at now
          exact now.resolve_left none

/-- For every frame, way to notify it and schedule of one bt_read after the write, what is
returned is the whole frame exactly when no poll comes between its parts. -/
theorem btRead_reassembled (small : frame.length ≤ 256) (room : 256 ≤ buflen) (s : Session) (connected : s.connected = true)
    (len : Int) (events : List Event) (delivered : arrived s.charReadPath events <+: frame) :
    Reassembled frame (run buflen ⟨(btWrite s len true).2,btRead (btWrite s len true).2⟩ events) ↔
      Together s.charReadPath frame 10 events := by
  have written : (btWrite s len true).2 = {s with data := [],cbcnt := 0} := by
    simp [btWrite,connected]
  have reader : btRead (btWrite s len true).2 = .waiting 10 := by
    rw [written]
    simp [btRead,connected]
  rw [reader,written]
  exact waiting_reassembled 10 (by decide) (small.trans room) (small.trans (by decide)) delivered

end

def connection : Session := ⟨bytes "/org/bluez/char0010",[],0,true⟩

def notification (part : Bytes) : Event :=
  .signal ⟨bytes "PropertiesChanged",connection.charReadPath,bytes "org.bluez.GattCharacteristic1",some part⟩

theorem btRead_together : Reassembled (Jbdtool.frame 10 0 [3,232])
    (run 256 ⟨(btWrite connection 7 true).2,btRead (btWrite connection 7 true).2⟩
      [.poll,notification [0xDD,10,0,2],notification [3,232,0xFF,0x13,0x77],.poll]) := by
  refine (btRead_reassembled (by decide) (by decide) connection rfl 7 _ (by decide +kernel)).mpr ?_
  unfold Together
  rw [splits_cons,splits_cons,splits_cons,splits_cons]
  refine ⟨fun _ _ => .inl rfl,(by intro same; cases same),(by intro same; cases same),fun _ _ => .inr (by decide +kernel),?_⟩
  intro before after split
  cases before <;> cases split

theorem btRead_between : ¬ Reassembled (Jbdtool.frame 10 0 [3,232])
    (run 256 ⟨(btWrite connection 7 true).2,btRead (btWrite connection 7 true).2⟩
      [notification [0xDD,10,0,2],.poll,notification [3,232,0xFF,0x13,0x77]]) := by
  intro reassembled
  have part := reassembled 4 [0xDD,10,0,2] (by decide +kernel) (by decide)
  revert part
  decide +kernel

end Jbdtool.Bt
