import Jbdtool.Cfg
import Jbdtool.Base.Cursor
import Jbdtool.Base.Keyed

/-! The store behind cfg_get_item and cfg_set_item: a list of sections and their lists of
items, each with the cursor that a search moves. A pointer into a list is a place in it.
Writing outside an array, or through a null pointer, is a fault. The strings that calls are
given are their callers' own. -/
namespace Jbdtool.CfgStore
open CString

/-- The arrays that names and values are written to. -/
inductive Buffer where
  | secname
  | newsecName
  | getItemname
  | setItemname
  | ival (size : Nat)
  | temp
  | boolean
  | dest (dlen : Nat)
deriving DecidableEq

def Buffer.size : Buffer → Nat
  | secname | newsecName => Cfg.sectionNameSize
  | getItemname => Cfg.keywordSize
  | setItemname => Cfg.keywordSize - 1
  | ival size => size
  | temp => 1024
  | boolean => 16
  | dest dlen => dlen

inductive Fault where
  | bounds (buffer : Buffer) (index : Nat)
  | null
deriving DecidableEq

abbrev C := Except Fault

abbrev Text (size : Nat) := {text : Bytes // text.length < size}

/-- `buf[x++] = c`, behind what the array holds already. -/
def put (b : Buffer) (text : Bytes) (c : UInt8) : C Bytes :=
  if text.length < b.size then .ok (text ++ [c]) else .error (.bounds b text.length)

def terminate (b : Buffer) (text : Bytes) : C (Text b.size) :=
  if fits : text.length < b.size then .ok ⟨text,fits⟩ else .error (.bounds b text.length)

/-- `for(x=0; s[x] != 0; x++) buf[x] = f(s[x]); buf[x] = 0;` -/
def copyInto (b : Buffer) (f : UInt8 → UInt8) : Bytes → Bytes → C (Text b.size)
  | [], text => terminate b text
  | c::s, text => do copyInto b f s (← put b text (f c))

structure Item where
  keyword : Text Cfg.keywordSize
  desc : Option Bytes
  value : Option Bytes

structure Section where
  name : Text Cfg.sectionNameSize
  items : Option (Cursored Item)

/-- The lists are null where list_create has failed. -/
structure Store where
  sections : Option (Cursored Section)

/-- Which of the mallocs of a call work: those of list_create and list_add for a new
section, of the texts of an item, and of list_add for a new item. -/
structure Mallocs where
  sectionItems : Bool
  sectionNode : Bool
  sectionCopy : Bool
  value : Bool
  desc : Bool
  itemNode : Bool
  itemCopy : Bool

section
variable {α : Type}

/-- `list_reset(l); while((a = list_get_next(l)) != 0) if (..) return a;` -/
def search (l : Option (Cursored α)) (p : α → Bool) : Option Nat × Option (Cursored α) :=
  match l with
  | none => (none,none)
  | some z => ((z.search p).1,some (z.search p).2)

def listAdd (node copy : Bool) (l : Option (Cursored α)) (a : α) : Option Nat × Option (Cursored α) :=
  match l with
  | none => (none,none)
  | some z => if node && copy then (some z.all.length,some (z.add a)) else (none,some z)

end

namespace Store

def sec (store : Store) (i : Nat) : Option Section := store.sections.bind (fun z => z.all[i]?)

def item (store : Store) (i j : Nat) : Option Item :=
  (store.sec i).bind fun sec => sec.items.bind (fun z => z.all[j]?)

def change (store : Store) (i : Nat) (f : Section → Section) : Store := ⟨store.sections.map (fun z => z.modify i f)⟩

def changeItem (store : Store) (i j : Nat) (f : Item → Item) : Store :=
  store.change i (fun sec => {sec with items := sec.items.map (fun z => z.modify j f)})

end Store

def cfgCreate (sections : Bool) : Store := ⟨if sections then some .empty else none⟩

def cfgGetSection (store : Store) (name : Bytes) : C (Option Nat × Store) := do
  let secname ← copyInto .secname toupper name []
  let found := search store.sections (fun sec => sec.name.1 = secname.1)
  return (found.1,⟨found.2⟩)

/-- `for(ptr=name; *ptr != 0 && x < sizeof(newsec.name); ptr++)` -/
def newsecName : Bytes → Bytes → C (Text Buffer.newsecName.size)
  | [], text => terminate .newsecName text
  | c::ptr, text =>
    if text.length < Cfg.sectionNameSize then do newsecName ptr (← put .newsecName text (toupper c))
    else terminate .newsecName text

/-- Where list_add fails the list of items is destroyed. -/
def cfgCreateSection (m : Mallocs) (store : Store) (name : Bytes) : C (Option Nat × Store) := do
  let name ← newsecName name []
  let items := if m.sectionItems then some .empty else none
  let added := listAdd m.sectionNode m.sectionCopy store.sections ⟨name,items⟩
  return (added.1,⟨added.2⟩)

/-- How cfg_set_item begins. -/
def getOrCreate (m : Mallocs) (store : Store) (sname : Bytes) : C (Option Nat × Store) := do
  let found ← cfgGetSection store sname
  if found.1 = none then cfgCreateSection m found.2 sname else return found

/-- `_cfg_get_item` -/
def findItem (store : Store) (i : Nat) (name : Bytes) : Option Nat × Store :=
  let found := search ((store.sec i).bind Section.items) (fun item => item.keyword.1 = name)
  (found.1,store.change i (fun sec => {sec with items := found.2}))

def cfgGetItem (store : Store) (sname keyword : Bytes) : C (Option Bytes × Store) := do
  let found ← cfgGetSection store sname
  match found.1 with
  | none => return (none,found.2)
  | some i => do
    let itemname ← copyInto .getItemname toupper keyword []
    let item := findItem found.2 i itemname.1
    return (item.1.bind (fun j => (found.2.item i j).bind Item.value),item.2)

/-- `strlen(ival)+1` bytes for a copy of the value. -/
def strlenOf (ival : Option Bytes) : C Bytes :=
  match ival with
  | none => .error .null
  | some ival => .ok ival

/-- A copy of the description, if there is one; what malloc returns is not looked at. -/
def copyDesc (m : Mallocs) (desc : Option Bytes) : C Unit :=
  if desc.isSome && !m.desc then .error .null else .ok ()

def replaceItem (m : Mallocs) (store : Store) (i j : Nat) (desc ival : Option Bytes) : C (Int × Store) := do
  let ival ← strlenOf ival
  if !m.value then return (1,store.changeItem i j (fun item => {item with value := none}))
  let store := store.changeItem i j (fun item => {item with value := some ival})
  copyDesc m desc
  return (0,store.changeItem i j (fun item => {item with desc := if desc.isSome then desc else item.desc}))

/-- What list_add returns is not looked at. -/
def addItem (m : Mallocs) (store : Store) (i : Nat) (itemname : Text (Cfg.keywordSize - 1)) (desc ival : Option Bytes) :
    C (Int × Store) := do
  let ival ← strlenOf ival
  if !m.value then return (1,store)
  copyDesc m desc
  let newitem : Item := ⟨⟨itemname.1,Nat.lt_succ_of_lt itemname.2⟩,desc,some ival⟩
  return (0,store.change i (fun sec => {sec with items := (listAdd m.itemNode m.itemCopy sec.items newitem).2}))

def cfgSetItem (m : Mallocs) (store : Store) (sname iname : Bytes) (desc ival : Option Bytes) : C (Int × Store) := do
  let placed ← getOrCreate m store sname
  match placed.1 with
  | none => return (1,placed.2)
  | some i => do
    let itemname ← copyInto .setItemname toupper iname []
    let item := findItem placed.2 i itemname.1
    match item.1 with
    | some j => replaceItem m item.2 i j desc ival
    | none => addItem m item.2 i itemname desc ival

end Jbdtool.CfgStore
