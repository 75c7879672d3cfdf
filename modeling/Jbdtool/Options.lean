import Jbdtool.Display
import Mathlib.Data.List.Infix

/-! The command line: getopt and the switch of main over its options. -/
namespace Jbdtool
open CString

inductive Action where
  | info
  | read
  | write
deriving DecidableEq, Repr

/-- The locals and globals of main that its options set. -/
structure Settings where
  charge : Int
  discharge : Int
  action : Action
  pretty : Bool
  outfmt : OutFmt
  sepch : UInt8
  sepstr : Bytes
  all : Bool
  dump : Bool
  flat : Bool
  reset : Bool
  dontWait : Bool
  dontInterpret : Bool
  reg : Int
  transport : Option Bytes
  target : Bytes
  opts : Option Bytes
  filename : Option Bytes
  outfile : Option Bytes

def Settings.initial : Settings where
  charge := -1
  discharge := -1
  action := .info
  pretty := false
  outfmt := .text
  sepch := 44
  sepstr := [44]
  all := false
  dump := false
  flat := false
  reset := false
  dontWait := false
  dontInterpret := false
  reg := 0
  transport := none
  target := []
  opts := none
  filename := none
  outfile := none

/-- A return from main while it reads its options: what is printed, whether the usage
text follows, and the exit code. -/
structure Exit where
  text : Bytes
  usage : Bool
  code : Int

/-- Whether an option of `+acDg:G:d:nNt:e:f:R:jJo:rwlhFX` takes an argument. -/
def takesArgument (c : Char) : Option Bool :=
  if c ∈ ['g','G','d','t','e','f','R','o'] then some true
  else if c ∈ ['a','c','D','n','N','j','J','r','w','l','h','F','X'] then some false
  else none

/-- The options bundled in one argument, and the last one if it takes the next
argument; `?` is an unknown option. -/
def bundled : Bytes → List (Char × Bytes) × Option Char
  | [] => ([],none)
  | c::rest =>
    let option := Char.ofNat c.toNat
    match takesArgument option with
    | none => (('?',[])::(bundled rest).1,(bundled rest).2)
    | some false => ((option,[])::(bundled rest).1,(bundled rest).2)
    | some true => if rest = [] then ([],some option) else ([(option,rest)],none)

/-- `getopt` until it returns -1: the options in order, and the operands. -/
def getopt : List Bytes → List (Char × Bytes) × List Bytes
  | [] => ([],[])
  | (45::c::bundle)::args =>
    if c = 45 ∧ bundle = [] then ([],args) else
    match bundled (c::bundle),args with
    | (found,none), args => (found ++ (getopt args).1,(getopt args).2)
    | (found,some _), [] => (found ++ [('?',[])],[])
    | (found,some option), value::args => (found ++ (option,value)::(getopt args).1,(getopt args).2)
  | args => ([],args)

/-- `-g` and `-G` -/
def fetState (what optarg : Bytes) : Except Exit Int :=
  if caseEqual optarg (bytes "on") then .ok 1
  else if caseEqual optarg (bytes "off") then .ok 0
  else .error ⟨bytes "error: invalid " ++ what ++ bytes " state: " ++ optarg ++ [10],true,1⟩

/-- `strstr(s,"0x") || strncmp(s,"x",1)==0` -/
def namesHex (s : Bytes) : Bool := decide (bytes "0x" <:+: s) || s.head? == some 120

def setOption (s : Settings) (option : Char) (optarg : Bytes) : Except Exit Settings :=
  match option with
  | 'D' => .ok {s with dump := true}
  | 'a' => .ok {s with all := true}
  | 'c' => .ok {s with outfmt := .comma,sepch := 32,sepstr := [32]}
  | 'd' => .ok s
  | 'g' => do return {s with charge := ← fetState (bytes "charge") optarg}
  | 'G' => do return {s with discharge := ← fetState (bytes "discharge") optarg}
  | 'f' => .ok {s with filename := some optarg}
  | 'j' => .ok {s with outfmt := .json,pretty := false}
  | 'J' => .ok {s with outfmt := .json,pretty := true}
  | 'o' => .ok {s with outfile := some optarg}
  | 'n' => .ok {s with dontInterpret := true}
  | 'N' => .ok {s with dontWait := true}
  | 't' =>
    if optarg.contains 58 then
      .ok {s with
        transport := some (optarg.takeWhile (· ≠ 58))
        target := (optarg.dropWhile (· ≠ 58)).drop 1}
    else .error ⟨bytes "error: format is transport:target\n",true,1⟩
  | 'e' => .ok {s with opts := some optarg}
  | 'R' => .ok {s with
      action := .read
      reg := ((strtol (if namesHex optarg then 16 else 10) optarg).1).bmod 4294967296}
  | 'r' => .ok {s with action := .read}
  | 'w' => .ok {s with action := .write}
  | 'l' => .error ⟨params.flatMap (fun pp => pp.label ++ [10]),false,0⟩
  | 'F' => .ok {s with flat := true}
  | 'X' => .ok {s with reset := true}
  | _ => .error ⟨[],true,0⟩

def setOptions : List (Char × Bytes) → Settings → Except Exit Settings
  | [], s => .ok s
  | (option,optarg)::options, s => do setOptions options (← setOption s option optarg)

/-- The settings and the operands of a command line, up to the tests that main makes
before it loads anything. -/
def readOptions (args : List Bytes) : Except Exit (Settings × List Bytes) := do
  let operands := (getopt args).2
  let s ← setOptions (getopt args).1 .initial
  if s.transport = none then throw ⟨[],true,1⟩
  if s.action ≠ .info ∧ s.filename = none ∧ operands = [] ∧ ¬ s.all ∧ s.reg = 0 ∧ ¬ s.dump then
    throw ⟨bytes "error: a filename or parameter name or all (a) must be specified.\n",true,1⟩
  return (s,operands)

/-- The part of a name from its last dot on. -/
def lastDot (name : Bytes) : Option Bytes :=
  if name.contains 46 then some (46::(name.reverse.takeWhile (· ≠ 46)).reverse) else none

/-- The options in force once `-o` has been looked at. -/
def Settings.output (s : Settings) : Settings :=
  match s.outfile.bind lastDot with
  | some suffix =>
    if suffix = bytes ".json" ∨ suffix = bytes ".JSON" then {s with outfmt := .json,pretty := true} else s
  | none => s

def Settings.fmt (s : Settings) : Fmt where
  outfmt := s.outfmt
  sepch := s.sepch
  sepstr := s.sepstr
  dontInterpret := s.dontInterpret
  flat := s.flat

end Jbdtool
