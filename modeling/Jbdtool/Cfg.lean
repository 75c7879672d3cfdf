import Jbdtool.Display
import Mathlib.Data.List.DropRight

/-! Config files: cfg_read and cfg_write on what a file holds. The lists of sections and
items are sequences, and a pointer to a section is its place. The other fields of
`CFG_INFO` and what fails with the file system or malloc are left out. -/
namespace Jbdtool.Cfg
open CString

def keywordSize : Nat := 64
def sectionNameSize : Nat := 64

structure Item where
  keyword : Bytes
  desc : Option Bytes
  value : Bytes
deriving DecidableEq

structure Section where
  name : Bytes
  items : List Item
deriving DecidableEq

structure Info where
  sections : List Section
deriving DecidableEq

/-- The loop of `_readline`, from the line it has: the line, and what is left of the file
unless its end was seen. The character that does not fit any more is lost. -/
def readFrom (size : Nat) : Bytes → Bytes → Bytes × Option Bytes
  | [], line => (line,none)
  | ch::rest, line =>
    if 128 ≤ ch then readFrom size rest line
    else if ch = 10 then (line,some rest)
    else if line ≠ [] then
      if line.length < size - 1 then readFrom size rest (line ++ [ch]) else (line,some rest)
    else if isspace ch then readFrom size rest line
    else readFrom size rest [ch]

def readline (size : Nat) : Option Bytes → Option (Bytes × Option Bytes)
  | none => none
  | some rest =>
    let read := readFrom size rest []
    some ((read.1.rdropWhile isspace).takeWhile (· ≠ 0),read.2)

/-- A name that does not fit is written behind the end of an array, and has no result. -/
def createSection (sections : List Section) (name : Bytes) : Option (List Section) :=
  if name.length < sectionNameSize then some (sections ++ [⟨name.map toupper,[]⟩]) else none

def getSection (sections : List Section) (name : Bytes) : Option (Option Nat) :=
  if name.length < sectionNameSize then some (sections.findIdx? (fun s => s.name = name.map toupper)) else none

def isHeader (line : Bytes) : Bool := line.head? = some 91 && line.contains 93

def isComment (line : Bytes) : Bool := line.head? = some 59 || line.head? = some 35

def headerName (line : Bytes) : Bytes :=
  (((line.drop 1).takeWhile (· ≠ 93)).take (sectionNameSize - 1)).map toupper

/-- The keyword from place `x` on, and where the loop stops: at an '=', at the end of the
line, or behind the last character that fits. -/
def takeKeyword : Nat → Bytes → Bytes × Bytes
  | _, [] => ([],[])
  | x, c::ptr =>
    if c = 61 then ([],c::ptr)
    else if x + 1 > keywordSize - 2 then ([toupper c],ptr)
    else
      let rest := takeKeyword (x + 1) ptr
      (toupper c::rest.1,rest.2)

/-- The value starts one behind; at the end of the line that is behind its terminator. -/
def newItem (line desc : Bytes) : Option Item :=
  let read := takeKeyword 0 line
  match read.2 with
  | [] => none
  | _::value => some ⟨trim read.1,if desc = [] then none else some desc,value⟩

/-- The previous item of the keyword is deleted, the new one added. -/
def Section.put (item : Item) (s : Section) : Section :=
  {s with items := s.items.eraseP (fun i => i.keyword = item.keyword) ++ [item]}

structure Reader where
  sections : List Section
  current : Option Nat
  desc : Bytes
deriving DecidableEq

/-- The body of the loop of cfg_read. -/
def processLine (r : Reader) (line : Bytes) : Option Reader :=
  if line = [] then some {r with current := none}
  else if isHeader line then do
    let name := headerName line
    match ← getSection r.sections name with
    | some i => some ⟨r.sections,some i,[]⟩
    | none => do
      let sections ← createSection r.sections name
      some ⟨sections,some r.sections.length,[]⟩
  else match r.current with
    | none => some r
    | some i =>
      if isComment line then some {r with desc := line.take 1023}
      else do
        let item ← newItem line r.desc
        some ⟨r.sections.modify i (Section.put item),r.current,[]⟩

def readAll : Nat → Option Bytes → Reader → Option Reader
  | 0, _, _ => none
  | n + 1, fp, r => match readline 1022 fp with
    | none => some r
    | some (line,fp) => do
      let r ← processLine r line
      readAll n fp r

/-- Each line read takes a character at least, or sees the end of the file. -/
def cfgRead (file : Bytes) : Option Info := do
  let r ← readAll (file.length + 2) (some file) ⟨[],none,[]⟩
  some ⟨r.sections⟩

def writeDesc : Option Bytes → Bytes
  | none => []
  | some desc => (if desc.head? ≠ some 59 then [59] else []) ++ desc ++ [10]

def writeItem (item : Item) : Bytes := writeDesc item.desc ++ item.keyword ++ [61] ++ item.value ++ [10]

def writeSection (s : Section) : Bytes := [91] ++ s.name ++ [93,10] ++ s.items.flatMap writeItem ++ [10]

def cfgWrite (info : Info) : Bytes := info.sections.flatMap writeSection

end Jbdtool.Cfg
