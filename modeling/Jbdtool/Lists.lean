import Jbdtool.Base.Chain
import Jbdtool.Base.Cursor
import Mathlib.Data.Finmap

/-! The list module in a memory of blocks. Reading, writing or freeing what is no block of
its kind is undefined behaviour, and has no result. What items hold is left out. -/
namespace Jbdtool.Lists
open Chain
variable {α β : Type}

structure Item where
  item : Ptr
  size : Nat
deriving DecidableEq

abbrev ListItem := Cell Item

/-- `struct _list`; its type is never used. -/
structure Head where
  first : Ptr
  last : Ptr
  next : Ptr
deriving DecidableEq

inductive Block where
  | list (head : Head)
  | item (cell : ListItem)
  | data
deriving DecidableEq

structure Memory where
  blocks : Finmap (fun _ : Ptr => Block)
  mallocs : Nat

/-- malloc, which does not fail: any address without a block, call by call. -/
structure Malloc where
  pick : Nat → Finset Ptr → Ptr
  fresh : ∀ n live, pick n live ≠ 0 ∧ pick n live ∉ live

namespace Memory

def empty : Memory := ⟨∅,0⟩

def store (m : Memory) (p : Ptr) (b : Block) : Memory := {m with blocks := m.blocks.insert p b}

def item (m : Memory) (p : Ptr) : Option ListItem :=
  match m.blocks.lookup p with
  | some (.item cell) => some cell
  | _ => none

def list (m : Memory) (p : Ptr) : Option Head :=
  match m.blocks.lookup p with
  | some (.list head) => some head
  | _ => none

end Memory

abbrev C (α : Type) := StateT Memory Option α

def malloc (heap : Malloc) (b : Block) : C Ptr := fun m =>
  let p := heap.pick m.mallocs m.blocks.keys
  some (p,{m.store p b with mallocs := m.mallocs + 1})

def free (p : Ptr) : C Unit := fun m =>
  if p = 0 then some ((),m)
  else if p ∈ m.blocks then some ((),{m with blocks := m.blocks.erase p})
  else none

def getItem (p : Ptr) : C ListItem := fun m => (m.item p).map (fun cell => (cell,m))

def setItem (p : Ptr) (cell : ListItem) : C Unit := fun m => (m.item p).map (fun _ => ((),m.store p (.item cell)))

def getList (lp : Ptr) : C Head := fun m => (m.list lp).map (fun head => (head,m))

def setList (lp : Ptr) (head : Head) : C Unit := fun m => (m.list lp).map (fun _ => ((),m.store lp (.list head)))

/-- More rounds than a chain can have cells. -/
def rounds : C Nat := fun m => some (m.blocks.keys.card + 1,m)

def stuck : C α := fun _ => none

def newitem (heap : Malloc) (item : Ptr) (size : Nat) : C Ptr := do
  let new ← malloc heap (.item ⟨⟨0,0⟩,0,0⟩)
  let stored ← if size ≠ 0 then malloc heap .data else pure item
  setItem new ⟨⟨stored,size⟩,0,0⟩
  return new

/-- The new item put at the end. -/
def append (lp new : Ptr) : C Unit := do
  let list ← getList lp
  if list.first = 0 then setList lp ⟨new,new,new⟩ else
  let ip := list.last
  let last ← getItem ip
  setItem ip {last with next := new}
  let added ← getItem new
  setItem new {added with prev := ip}
  setList lp {list with last := new}

def listAdd (heap : Malloc) (lp item : Ptr) (size : Nat) : C Ptr := do
  if lp = 0 then return 0
  let new ← newitem heap item size
  append lp new
  let added ← getItem new
  return added.value.item

def countFrom : Nat → Ptr → Nat → C Nat
  | 0, _, _ => stuck
  | n + 1, ip, count =>
    if ip = 0 then return count else do
    let node ← getItem ip
    countFrom n node.next (count + 1)

def listCount (lp : Ptr) : C Int := do
  if lp = 0 then return -1
  let list ← getList lp
  let count ← countFrom (← rounds) list.first 0
  return count

def listCreate (heap : Malloc) : C Ptr := malloc heap (.list ⟨0,0,0⟩)

def seek (item : Ptr) : Nat → Ptr → C Ptr
  | 0, _ => stuck
  | n + 1, ip =>
    if ip = 0 then return 0 else do
    let node ← getItem ip
    if item = node.value.item then return ip
    seek item n node.next

def findNode (lp item : Ptr) : C Ptr := do
  let list ← getList lp
  seek item (← rounds) list.first

def setNext (p next : Ptr) : C Unit :=
  if p ≠ 0 then do
    let node ← getItem p
    setItem p {node with next := next}
  else return ()

def setPrev (p prev : Ptr) : C Unit :=
  if p ≠ 0 then do
    let node ← getItem p
    setItem p {node with prev := prev}
  else return ()

/-- The links around a node fixed up. -/
def unlink (lp ip : Ptr) : C Unit := do
  let node ← getItem ip
  setNext node.prev node.next
  setPrev node.next node.prev
  let list ← getList lp
  setList lp
    { first := if ip = list.first then node.next else list.first
      last := if ip = list.last then node.prev else list.last
      next := if ip = list.next then node.next else list.next }

def listDelete (lp item : Ptr) : C Int := do
  if lp = 0 then return -1
  let ip ← findNode lp item
  if ip = 0 then return 1
  unlink lp ip
  free item
  free ip
  return 0

def copyFrom (heap : Malloc) (lp : Ptr) : Nat → Ptr → C Unit
  | 0, _ => stuck
  | n + 1, ip =>
    if ip = 0 then return () else do
    let node ← getItem ip
    let _ ← listAdd heap lp node.value.item node.value.size
    let node ← getItem ip
    copyFrom heap lp n node.next

def listDup (heap : Malloc) (lp : Ptr) : C Ptr := do
  if lp = 0 then return 0
  let new ← listCreate heap
  let list ← getList lp
  copyFrom heap new (← rounds) list.first
  return new

def listGetNext (lp : Ptr) : C Ptr := do
  if lp = 0 then return 0
  let list ← getList lp
  if list.next = 0 then return 0
  let node ← getItem list.next
  setList lp {list with next := node.next}
  return node.value.item

def listIsNext (lp : Ptr) : C Int := do
  if lp = 0 then return -1
  let list ← getList lp
  return if list.next ≠ 0 then 1 else 0

def listReset (lp : Ptr) : C Int := do
  if lp = 0 then return -1
  let list ← getList lp
  setList lp {list with next := list.first}
  return 0

/-- The calls. Callers get blocks of their own, which they may hand over. -/
inductive Op where
  | malloc
  | create
  | add (lp item : Ptr) (size : Nat)
  | delete (lp item : Ptr)
  | reset (lp : Ptr)
  | getNext (lp : Ptr)
  | count (lp : Ptr)
  | isNext (lp : Ptr)
  | dup (lp : Ptr)
deriving DecidableEq

/-- A pointer is returned as the number it is. -/
def exec (heap : Malloc) : Op → C Int
  | .malloc => do return ← malloc heap .data
  | .create => do return ← listCreate heap
  | .add lp item size => do return ← listAdd heap lp item size
  | .delete lp item => listDelete lp item
  | .reset lp => listReset lp
  | .getNext lp => do return ← listGetNext lp
  | .count lp => listCount lp
  | .isNext lp => listIsNext lp
  | .dup lp => do return ← listDup heap lp

end Jbdtool.Lists
