import Jbdtool.Frame
import Jbdtool.Json.Value

/-! What surrounds the program: the transport it loads, the content of its
uninitialised locals, and the trace of what it does to both. -/
namespace Jbdtool
open CString

/-- The result of reading into a buffer of `limit` bytes. -/
inductive ReadResult (limit : Nat) where
  | error
  | bytes (content : Bytes) (fits : content.length ≤ limit)
deriving DecidableEq

/-- A loaded transport with state `τ`, the rounding of floats and doubles, and what
happens to lie in the locals `buf` of the n-th jbd_rw, `data` of the n-th write_parm,
`temp` of display_info and `line` of main. -/
structure Host (τ : Type) where
  can : Bool
  opens : τ → Int × τ
  closes : τ → Int × τ
  write : τ → Bytes → Int → Int × τ
  read : τ → ReadResult 256 × τ
  canWrite : τ → Nat → Int × τ
  canRead : τ → Nat → ReadResult 8 × τ
  single : ℚ → ℚ
  double : ℚ → ℚ
  rwBuf : Nat → Mem UInt8
  parmData : Nat → Mem UInt8
  infoText : Bytes
  lineBuf : Mem UInt8

inductive Region where
  | data (datasz : Nat)
  | buffer (size : Nat)
  | infoTemps
  | infoCells
  | packTemps
  | packCells
  | model
  | balance
deriving DecidableEq, Repr

def Region.size : Region → Nat
  | .data n => n
  | .buffer n => n
  | .infoTemps => 6
  | .packTemps => 8
  | .infoCells => 32
  | .packCells => 32
  | .model => 32
  | .balance => 40

inductive Stream where
  | stdout
  | outfp
deriving DecidableEq, Repr

inductive Fn where
  | jbdEepromStart
  | jbdEepromEnd
  | jbdSetMosfet
deriving DecidableEq, Repr

inductive Event where
  | opened (result : Int)
  | closed
  | wrote (packet : Bytes) (len : Int)
  | received (result : ReadResult 256)
  | canWrote (id : Nat)
  | canReceived (id : Nat) (result : ReadResult 8)
  | rwCall (action reg : UInt8)
  | rwReturn (action reg : UInt8) (result : Int)
  | enter (fn : Fn)
  | leave (fn : Fn) (result : Int)
  | touch (region : Region) (first count : Nat)
  | getp (label : Bytes) (found : Bool)
  | printed (stream : Stream) (text : Bytes)
  | usage
deriving DecidableEq

def Event.InBounds : Event → Prop
  | .touch region first count => first + count ≤ region.size
  | _ => True

instance : DecidablePred Event.InBounds := fun e => by
  cases e <;> unfold Event.InBounds <;> infer_instance

@[simp] theorem Event.inBounds_touch (region : Region) (first count : Nat) :
    (Event.touch region first count).InBounds ↔ first + count ≤ region.size := Iff.rfl

@[simp] theorem Event.inBounds_other (e : Event) (other : ∀ region first count, e ≠ .touch region first count) :
    e.InBounds := by
  cases e <;> first | trivial | exact (other _ _ _ rfl).elim

/-- `root_value`: the value around `root_object`, or one parsed from a file. -/
inductive RootValue where
  | null
  | document
  | parsed (value : Json)

structure World (τ : Type) where
  line : τ
  rwCalls : Nat
  parmCalls : Nat
  rootObject : Option (List (Bytes × Json))
  rootValue : RootValue

def World.start {τ : Type} (line : τ) : World τ := ⟨line,0,0,none,.null⟩

abbrev Program (τ α : Type) := Traced (World τ) Event α

end Jbdtool
