import Jbdtool.ListSort
import Jbdtool.Base.Runs

/-! What a list allocates and releases, written down as it happens, in any calls of list_add,
list_sort, list_delete and list_destroy. Here malloc can fail, and free is written down
whatever it is called with. -/
namespace Jbdtool.ListOwner
open Chain Jbdtool.Lists Runs
variable {α β : Type}

/-- The head that list_create allocates, the nodes and copies that _newitem allocates,
pointers stored with size zero, and all that is released. -/
inductive Event where
  | created (p : Ptr)
  | allocated (p : Ptr)
  | borrowed (p : Ptr)
  | released (p : Ptr)
deriving DecidableEq

/-- The log has the newest event first. -/
structure Heap where
  memory : Memory
  log : List Event

/-- The blocks that are the list's. -/
def owned : List Event → Finset Ptr
  | [] => ∅
  | .created p::log | .allocated p::log => insert p (owned log)
  | .borrowed _::log => owned log
  | .released p::log => (owned log).erase p

/-- Every block released had been allocated by the list and not been released since, and none
was a pointer stored with size zero. -/
def Fine : List Event → Prop
  | [] => True
  | .released p::log => (p ∈ owned log ∧ .borrowed p ∉ log) ∧ Fine log
  | .created _::log | .allocated _::log | .borrowed _::log => Fine log

instance decidableFine : (log : List Event) → Decidable (Fine log)
  | [] => isTrue trivial
  | .released p::log =>
    have := decidableFine log
    inferInstanceAs (Decidable ((p ∈ owned log ∧ .borrowed p ∉ log) ∧ Fine log))
  | .created _::log | .allocated _::log | .borrowed _::log => decidableFine log

/-- malloc: an address without a block, or NULL, call by call. -/
structure Allocator where
  pick : Nat → Finset Ptr → Ptr
  fresh : ∀ n live, pick n live = 0 ∨ pick n live ∉ live

abbrev Own (α : Type) := StateT Heap Option α

/-- What neither allocates nor releases. -/
def lift (x : C α) : Own α := fun h => (x h.memory).map (fun r => (r.1,{h with memory := r.2}))

def record (e : Event) : Own Unit := fun h => some ((),{h with log := e::h.log})

def malloc (heap : Allocator) (b : Block) (event : Ptr → Event) : Own Ptr := fun h =>
  let p := heap.pick h.memory.mallocs h.memory.blocks.keys
  let mallocs := h.memory.mallocs + 1
  if p = 0 then some (0,{h with memory := {h.memory with mallocs := mallocs}})
  else some (p,⟨{h.memory.store p b with mallocs := mallocs},event p::h.log⟩)

def free (p : Ptr) : Own Unit := fun h =>
  if p = 0 then some ((),h)
  else some ((),⟨{h.memory with blocks := h.memory.blocks.erase p},.released p::h.log⟩)

def newitem (heap : Allocator) (item : Ptr) (size : Nat) : Own Ptr := do
  let new ← malloc heap (.item ⟨⟨0,0⟩,0,0⟩) .allocated
  if new = 0 then return 0 else
  if size ≠ 0 then do
    let copy ← malloc heap .data .allocated
    if copy = 0 then do
      free new
      return 0
    else do
      lift (setItem new ⟨⟨copy,size⟩,0,0⟩)
      return new
  else do
    record (.borrowed item)
    lift (setItem new ⟨⟨item,size⟩,0,0⟩)
    return new

def listAdd (heap : Allocator) (lp item : Ptr) (size : Nat) : Own Ptr :=
  if lp = 0 then return 0 else do
  let new ← newitem heap item size
  if new = 0 then return 0 else do
  lift (append lp new)
  let added ← lift (getItem new)
  return added.value.item

def listCreate (heap : Allocator) : Own Ptr := malloc heap (.list ⟨0,0,0⟩) .created

def listDelete (lp item : Ptr) : Own Int :=
  if lp = 0 then return -1 else do
  let ip ← lift (findNode lp item)
  if ip = 0 then return 1 else do
  lift (unlink lp ip)
  free item
  free ip
  return 0

/-- `if (ip->size) free(ip->item);` -/
def freeCopy (value : Item) : Own Unit := if value.size ≠ 0 then free value.item else return ()

def destroyFrom : Nat → Ptr → Own Unit
  | 0, _ => lift stuck
  | n + 1, ip =>
    if ip = 0 then return () else do
    let node ← lift (getItem ip)
    freeCopy node.value
    let node ← lift (getItem ip)
    free ip
    destroyFrom n node.next

def listDestroy (lp : Ptr) : Own Int :=
  if lp = 0 then return -1 else do
  let list ← lift (getList lp)
  destroyFrom (← lift rounds) list.first
  free lp
  return 0

inductive Op where
  | add (item : Ptr) (size : Nat)
  | sort (compare : Item → Item → Int) (order : Int) (fuel : Nat)
  | delete (item : Ptr)
  | destroy

def exec (heap : Allocator) (lp : Ptr) : Op → Own Int
  | .add item size => do return ← listAdd heap lp item size
  | .sort compare order fuel => lift (listSort compare order fuel lp)
  | .delete item => listDelete lp item
  | .destroy => listDestroy lp

/-- A call is made of a list that has not been destroyed, and a pointer to be stored is NULL
or points to something that is there. -/
def proper (lp : Ptr) (h : Heap) : Op → Bool
  | .add item size => (lp = 0 || (h.memory.list lp).isSome) && (size ≠ 0 || item = 0 || item ∈ h.memory.blocks)
  | .sort _ _ _ | .delete _ | .destroy => lp = 0 || (h.memory.list lp).isSome

def step (heap : Allocator) (lp : Ptr) (h : Heap) (op : Op) : Option Heap :=
  if proper lp h op then (exec heap lp op h).map Prod.snd else none

/-- The entries of a list, node by node. -/
def Holding (m : Memory) (lp : Ptr) (es : List (Ptr × Item)) : Prop :=
  lp ≠ 0 ∧ ∃ head, m.list lp = some head ∧ Seg m.item 0 head.first es head.last 0

/-- The private copy that an entry has, if any, and what is released with the entry. -/
def copies (value : Item) : List Ptr := if value.size ≠ 0 then [value.item] else []

def blocks (e : Ptr × Item) : List Ptr := copies e.2 ++ [e.1]

/-- list_delete finds the item at a node that has its own copy of it (or the item is NULL),
and no block of the list that it or list_destroy releases has been stored with size zero. -/
def Guard (lp : Ptr) (h : Heap) : Op → Prop
  | .add _ _ | .sort _ _ _ => True
  | .delete item => ∀ es e, Holding h.memory lp es → es.find? (fun e => item = e.2.item) = some e →
      (e.2.size = 0 → item = 0) ∧ ∀ p ∈ blocks e, .borrowed p ∉ h.log
  | .destroy => ∀ es, Holding h.memory lp es → ∀ p ∈ es.flatMap blocks ++ [lp], .borrowed p ∉ h.log

def Gives (x : Own α) (h : Heap) (a : α) (h' : Heap) : Prop := x h = some (a,h')

section
variable {h h' h'' : Heap}

theorem gives_pure (a : α) : Gives (pure a : Own α) h a h := rfl

private theorem bind_gives {x : Own α} {next : α → Own β} {a : α} (first : Gives x h a h') : (x >>= next) h = next a h' := by
  change (x h).bind (fun r => next r.1 r.2) = next a h'
  rw [first]
  rfl

theorem gives_bind {x : Own α} {next : α → Own β} {a : α} {b : β} (first : Gives x h a h') (rest : Gives (next a) h' b h'') :
    Gives (x >>= next) h b h'' :=
  (bind_gives first).trans rest

theorem gives_lift {x : C α} {a : α} {m' : Memory} (yields : Yields x h.memory a m') :
    Gives (lift x) h a {h with memory := m'} := by
  unfold Gives lift
  rw [yields]
  rfl

theorem gives_pos {c : Prop} [Decidable c] {x y : Own α} {a : α} (holds : c) (known : Gives x h a h') :
    Gives (if c then x else y) h a h' := by
  rwa [if_pos holds]

private theorem gives_neg {c : Prop} [Decidable c] {x y : Own α} {a : α} (fails : ¬ c) (known : Gives y h a h') :
    Gives (if c then x else y) h a h' := by
  rwa [if_neg fails]

end

def releases (ps : List Ptr) (log : List Event) : List Event := ps.foldl (fun log p => .released p::log) log

section
variable {log : List Event} {ps qs : List Ptr}

@[simp] theorem releases_cons (p : Ptr) : releases (p::ps) log = releases ps (.released p::log) := rfl

private theorem releases_append : releases (ps ++ qs) log = releases qs (releases ps log) := List.foldl_append

private theorem borrowed_releases (p : Ptr) : .borrowed p ∈ releases ps log ↔ .borrowed p ∈ log := by
  induction ps generalizing log with
  | nil => exact Iff.rfl
  | cons q ps ih => rw [releases_cons,ih,List.mem_cons,or_iff_right Event.noConfusion]

private theorem owned_releases {p : Ptr} (own : p ∈ owned log) (kept : p ∉ ps) : p ∈ owned (releases ps log) := by
  induction ps generalizing log with
  | nil => exact own
  | cons q ps ih =>
    obtain ⟨other,kept⟩ : p ≠ q ∧ p ∉ ps := by simpa using kept
    exact ih (Finset.mem_erase.mpr ⟨other,own⟩) kept

theorem fine_releases (distinct : ps.Nodup) (own : ∀ p ∈ ps, p ∈ owned log) :
    Fine (releases ps log) ↔ Fine log ∧ ∀ p ∈ ps, .borrowed p ∉ log := by
  induction ps generalizing log with
  | nil => simp [releases]
  | cons p ps ih =>
    obtain ⟨alone,distinct⟩ := List.nodup_cons.mp distinct
    obtain ⟨here,others⟩ := List.forall_mem_cons.mp own
    have left : ∀ q ∈ ps, q ∈ owned (.released p::log) := fun q inside =>
      Finset.mem_erase.mpr ⟨fun same => alone (same ▸ inside),others q inside⟩
    rw [releases_cons,ih distinct left,List.forall_mem_cons,Fine]
    simp only [List.mem_cons,reduceCtorEq,false_or,here,true_and]
    tauto

end

def Spared (m m' : Memory) (ps : List Ptr) : Prop := ∀ q, q ∉ ps → m'.blocks.lookup q = m.blocks.lookup q

section
variable {m m' m'' : Memory} {ps qs : List Ptr} {q : Ptr}

private theorem spared_refl (m : Memory) : Spared m m [] := fun _ _ => rfl

private theorem spared_append (first : Spared m m' ps) (second : Spared m' m'' qs) : Spared m m'' (ps ++ qs) := by
  intro q outside
  obtain ⟨notFirst,notSecond⟩ : q ∉ ps ∧ q ∉ qs := by simpa using outside
  exact (second q notSecond).trans (first q notFirst)

private theorem spared_item (spared : Spared m m' ps) (outside : q ∉ ps) :
    m'.item q = m.item q := item_lookup (spared q outside)

private theorem spared_list (spared : Spared m m' ps) (outside : q ∉ ps) : m'.list q = m.list q := by
  unfold Memory.list
  rw [spared q outside]

private theorem spared_mem (spared : Spared m m' ps) (outside : q ∉ ps) : q ∈ m'.blocks ↔ q ∈ m.blocks := by
  rw [← Finmap.lookup_isSome,← Finmap.lookup_isSome,spared q outside]

/-- These blocks are released in this order, and nothing else is done. -/
def Releases (x : Own Unit) (h : Heap) (ps : List Ptr) (h' : Heap) : Prop :=
  Gives x h () h' ∧ h'.log = releases ps h.log ∧ Spared h.memory h'.memory ps

private theorem free_releases (p : Ptr) (h : Heap) : ∃ h', Releases (free p) h (if p = 0 then [] else [p]) h' := by
  by_cases null : p = 0
  · rw [if_pos null]
    exact ⟨h,if_pos null,rfl,spared_refl _⟩
  · rw [if_neg null]
    refine ⟨_,if_neg null,rfl,fun q outside => ?_⟩
    exact Finmap.lookup_erase_ne fun same => outside (List.mem_singleton.mpr same)

private theorem freeCopy_releases (value : Item) (there : value.size ≠ 0 → value.item ≠ 0) (h : Heap) :
    ∃ h', Releases (freeCopy value) h (copies value) h' := by
  unfold freeCopy copies
  split_ifs with copied
  · obtain ⟨h',freed⟩ := free_releases value.item h
    rw [if_neg (there copied)] at freed
    exact ⟨h',freed⟩
  · exact ⟨h,rfl,rfl,spared_refl _⟩

end

/-- The loop of list_destroy releases what every node has, and the nodes. -/
private theorem destroyFrom_releases {before ip last : Ptr} {es : List (Ptr × Item)} {h : Heap}
    (seg : Seg h.memory.item before ip es last 0)
    (distinct : (es.flatMap blocks).Nodup) (there : ∀ p ∈ es.flatMap blocks, p ≠ 0) (n : Nat) (enough : es.length < n) :
    ∃ h', Releases (destroyFrom n ip) h (es.flatMap blocks) h' := by
  induction es generalizing before ip h n with
  | nil =>
    obtain ⟨n,rfl⟩ := Nat.exists_eq_add_of_lt enough
    obtain ⟨-,rfl⟩ := seg
    exact ⟨h,gives_pos rfl (gives_pure _),rfl,spared_refl _⟩
  | cons e es ih =>
    obtain ⟨n,rfl⟩ : ∃ k, n = k + 1 := ⟨n - 1,by simp at enough; omega⟩
    obtain ⟨rfl,some,next,cell,rest⟩ := seg
    rw [List.flatMap_cons] at distinct there
    obtain ⟨single,distinct',apart⟩ := List.nodup_append.mp distinct
    obtain ⟨here,there'⟩ := List.forall_mem_append.mp there
    have alone : e.1 ∉ copies e.2 := fun member =>
      (List.nodup_append.mp single).2.2 e.1 member e.1 (List.mem_singleton_self _) rfl
    obtain ⟨h1,gives1,log1,spared1⟩ := freeCopy_releases e.2 (fun copied => here _ (by simp [blocks,copies,copied])) h
    obtain ⟨h2,gives2,log2,spared2⟩ := free_releases e.1 h1
    rw [if_neg some] at log2 spared2
    have spared := spared_append spared1 spared2
    have cell1 : h1.memory.item e.1 = Option.some ⟨e.2,before,next⟩ := (spared_item spared1 alone).trans cell
    have rest' : Seg h2.memory.item e.1 next es last 0 := seg_frame (fun d inside => spared_item spared fun member =>
      apart d.1 member d.1 (List.mem_flatMap.mpr ⟨d,inside,by simp [blocks]⟩) rfl) rest
    obtain ⟨h3,gives3,log3,spared3⟩ := ih rest' distinct' there' n (by simpa using enough)
    refine ⟨h3,?_,?_,spared_append spared spared3⟩
    · refine gives_neg some (gives_bind (gives_lift (yields_getItem cell)) (gives_bind gives1 ?_))
      exact gives_bind (gives_lift (yields_getItem cell1)) (gives_bind gives2 gives3)
    · rw [log3,log2,log1,List.flatMap_cons,releases_append,blocks,releases_append]

def Keeps (x : C α) : Prop := ∀ m a m', Yields x m a m' → ∀ p ∈ m.blocks, p ∈ m'.blocks

section
variable {x y : C α}

private theorem keeps_pure (a : α) : Keeps (pure a : C α) := by
  intro m b m' yields p inside
  obtain ⟨-,rfl⟩ := Prod.mk.inj (Option.some.inj yields)
  exact inside

private theorem keeps_bind {next : α → C β} (first : Keeps x) (rest : ∀ a, Keeps (next a)) : Keeps (x >>= next) := by
  intro m b m' yields p inside
  obtain ⟨⟨a,m1⟩,front,back⟩ := Option.bind_eq_some_iff.mp yields
  exact rest a m1 b m' back p (first m a m1 front p inside)

private theorem keeps_ite {c : Prop} [Decidable c] (yes : Keeps x) (no : Keeps y) : Keeps (if c then x else y) := by
  split_ifs
  · exact yes
  · exact no

private theorem keeps_store (m : Memory) (p q : Ptr) (b : Block) (inside : p ∈ m.blocks) : p ∈ (m.store q b).blocks :=
  Finmap.mem_insert.mpr (.inr inside)

private theorem keeps_map {γ : Type} {look : Memory → Option γ} {value : γ → α} {next : Memory → Memory}
    (kept : ∀ m, ∀ p ∈ m.blocks, p ∈ (next m).blocks) : Keeps (fun m => (look m).map (fun c => (value c,next m)) : C α) := by
  intro m a m' yields p inside
  obtain ⟨_,-,same⟩ := Option.map_eq_some_iff.mp yields
  obtain ⟨-,rfl⟩ := Prod.mk.inj same
  exact kept m p inside

private theorem keeps_getItem (p : Ptr) : Keeps (getItem p) := keeps_map fun _ _ => id

private theorem keeps_getList (lp : Ptr) : Keeps (getList lp) := keeps_map fun _ _ => id

private theorem keeps_setItem (p : Ptr) (cell : ListItem) : Keeps (setItem p cell) := keeps_map fun m q => keeps_store m q p _

private theorem keeps_setList (lp : Ptr) (head : Head) : Keeps (setList lp head) := keeps_map fun m q => keeps_store m q lp _

private theorem keeps_append (lp new : Ptr) : Keeps (append lp new) := by
  refine keeps_bind (keeps_getList lp) fun list => keeps_ite (keeps_setList lp _) ?_
  refine keeps_bind (keeps_getItem _) fun last => keeps_bind (keeps_setItem _ _) fun _ => ?_
  exact keeps_bind (keeps_getItem _) fun added => keeps_bind (keeps_setItem _ _) fun _ => keeps_setList lp _

private theorem keeps_unlink (lp ip : Ptr) : Keeps (unlink lp ip) := by
  have relinks (p : Ptr) (link : ListItem → ListItem) : Keeps (if p ≠ 0 then (do
      let node ← getItem p
      setItem p (link node)) else return () : C Unit) :=
    keeps_ite (keeps_bind (keeps_getItem p) fun _ => keeps_setItem p _) (keeps_pure ())
  refine keeps_bind (keeps_getItem ip) fun node => keeps_bind (relinks _ _) fun _ => keeps_bind (relinks _ _) fun _ => ?_
  exact keeps_bind (keeps_getList lp) fun list => keeps_setList lp _

end

section
variable {heap : Allocator} {h : Heap}

theorem malloc_gives (b : Block) (event : Ptr → Event) :
    Gives (malloc heap b event) h 0 {h with memory := {h.memory with mallocs := h.memory.mallocs + 1}} ∨
    ∃ p, Gives (malloc heap b event) h p ⟨{h.memory.store p b with mallocs := h.memory.mallocs + 1},event p::h.log⟩ ∧
      p ≠ 0 ∧ p ∉ h.memory.blocks := by
  by_cases null : heap.pick h.memory.mallocs h.memory.blocks.keys = 0
  · exact .inl (if_pos null)
  · refine .inr ⟨_,if_neg null,null,fun inside => ?_⟩
    exact (heap.fresh _ _).resolve_left null (Finmap.mem_keys.mpr inside)

/-- Every block released had been the list's and had not been stored with size zero, and what
has been stored with size zero is there. -/
structure Sound (h : Heap) : Prop where
  fine : Fine h.log
  held : ∀ p, .borrowed p ∈ h.log → p ≠ 0 → p ∈ h.memory.blocks

/-- No block goes, and none is given up. -/
structure Onward (h h' : Heap) : Prop where
  live : ∀ p ∈ h.memory.blocks, p ∈ h'.memory.blocks
  owned : ∀ p ∈ h.memory.blocks, p ∈ owned h.log → p ∈ owned h'.log
  borrowed : ∀ p, .borrowed p ∈ h.log → .borrowed p ∈ h'.log

/-- A new item with the blocks that are its own, or the pointer stored in it. -/
structure Taken (h h' : Heap) (new : Ptr) (value : Item) : Prop where
  made : Made h.memory h'.memory new value
  distinct : (blocks (new,value)).Nodup
  fresh : ∀ p ∈ blocks (new,value), p ≠ 0 ∧ p ∉ h.memory.blocks ∧ p ∈ h'.memory.blocks ∧ p ∈ owned h'.log
  lent : value.size = 0 → .borrowed value.item ∈ h'.log

def started (h : Heap) (new : Ptr) : Heap :=
  ⟨{h.memory.store new (.item ⟨⟨0,0⟩,0,0⟩) with mallocs := h.memory.mallocs + 1},.allocated new::h.log⟩

section
variable {new : Ptr}

private theorem started_item (q : Ptr) :
    (started h new).memory.item q = if q = new then some ⟨⟨0,0⟩,0,0⟩ else h.memory.item q :=
  h.memory.item_store_item new q _

private theorem started_other (q : Ptr) (other : q ≠ new) : (started h new).memory.item q = h.memory.item q :=
  (started_item q).trans (if_neg other)

private theorem started_new : (started h new).memory.item new = some ⟨⟨0,0⟩,0,0⟩ := (started_item new).trans (if_pos rfl)

private theorem started_list (unused : new ∉ h.memory.blocks) (q : Ptr) : (started h new).memory.list q = h.memory.list q :=
  h.memory.list_store_item new q _ (h.memory.list_outside new unused)

private theorem newitem_lent (sound : Sound h) (there : new ≠ 0) (unused : new ∉ h.memory.blocks) (item : Ptr)
    (plain : item ≠ 0 → item ∈ h.memory.blocks) : ∃ h', Gives (do
      record (.borrowed item)
      lift (setItem new ⟨⟨item,0⟩,0,0⟩)
      return new : Own Ptr) (started h new) new h' ∧ Sound h' ∧ Onward h h' ∧ Taken h h' new ⟨item,0⟩ := by
  obtain ⟨fine,held⟩ := sound
  have live (p : Ptr) (inside : p ∈ h.memory.blocks) : p ∈ ((started h new).memory.store new (.item ⟨⟨item,0⟩,0,0⟩)).blocks :=
    keeps_store _ p new _ (keeps_store h.memory p new _ inside)
  refine ⟨⟨(started h new).memory.store new (.item ⟨⟨item,0⟩,0,0⟩),.borrowed item::(started h new).log⟩,?_,?_,?_,?_⟩
  · exact gives_bind rfl (gives_bind (gives_lift (yields_setItem _ started_new)) rfl)
  · refine ⟨fine,fun p lent some => live p ?_⟩
    rcases List.mem_cons.mp lent with same | lent
    · obtain rfl := Event.borrowed.inj same
      exact plain some
    · exact held p ((List.mem_cons.mp lent).resolve_left Event.noConfusion) some
  · refine ⟨live,fun p _ own => Finset.mem_insert_of_mem own,fun p lent => ?_⟩
    exact List.mem_cons_of_mem _ (List.mem_cons_of_mem _ lent)
  · refine ⟨made_filled there unused ⟨item,0⟩ started_other (started_list unused),List.nodup_singleton new,fun p own => ?_,
      fun _ => List.mem_cons_self⟩
    obtain rfl : p = new := List.mem_singleton.mp own
    exact ⟨there,unused,Finmap.mem_insert.mpr (.inl rfl),Finset.mem_insert_self _ _⟩

private theorem newitem_failed (sound : Sound h) (there : new ≠ 0) (unused : new ∉ h.memory.blocks) (mallocs : Nat) :
    ∃ h', Gives (do
      free new
      return 0 : Own Ptr) ⟨{(started h new).memory with mallocs := mallocs},(started h new).log⟩ 0 h' ∧
      Sound h' ∧ Onward h h' ∧ Spared h.memory h'.memory [] := by
  obtain ⟨fine,held⟩ := sound
  set gone : Heap := ⟨{blocks := (started h new).memory.blocks.erase new,mallocs := mallocs},
    .released new::(started h new).log⟩ with gone_def
  have spared : Spared h.memory gone.memory [] := by
    intro q _
    by_cases same : q = new
    · subst same
      exact (Finmap.lookup_erase q _).trans (Finmap.lookup_eq_none.mpr unused).symm
    · exact (Finmap.lookup_erase_ne same).trans (Finmap.lookup_insert_of_ne _ same)
  have live (p : Ptr) : p ∈ gone.memory.blocks ↔ p ∈ h.memory.blocks := spared_mem spared List.not_mem_nil
  have borrowed (p : Ptr) : .borrowed p ∈ gone.log ↔ .borrowed p ∈ h.log := by simp [gone_def,started]
  refine ⟨gone,gives_bind (if_neg there) rfl,⟨⟨⟨Finset.mem_insert_self _ _,fun lent => unused ?_⟩,fine⟩,fun p lent some => ?_⟩,
    ⟨fun p => (live p).mpr,fun p inside own => ?_,fun p => (borrowed p).mpr⟩,spared⟩
  · exact held new ((List.mem_cons.mp lent).resolve_left Event.noConfusion) there
  · exact (live p).mpr (held p ((borrowed p).mp lent) some)
  · exact Finset.mem_erase.mpr ⟨fun same => unused (same ▸ inside),Finset.mem_insert_of_mem own⟩

private theorem newitem_copied (sound : Sound h) (there : new ≠ 0) (unused : new ∉ h.memory.blocks) (size mallocs : Nat)
    (copied : size ≠ 0) (copy : Ptr) (there' : copy ≠ 0) (unused' : copy ∉ (started h new).memory.blocks) : ∃ h', Gives (do
      lift (setItem new ⟨⟨copy,size⟩,0,0⟩)
      return new : Own Ptr)
        ⟨{(started h new).memory.store copy .data with mallocs := mallocs},.allocated copy::(started h new).log⟩ new h' ∧
      Sound h' ∧ Onward h h' ∧ Taken h h' new ⟨copy,size⟩ := by
  obtain ⟨fine,held⟩ := sound
  have same (q : Ptr) := (started h new).memory.store_data copy q unused'
  set m2 : Memory := {(started h new).memory.store copy .data with mallocs := mallocs} with m2_def
  have live (p : Ptr) (inside : p ∈ h.memory.blocks) : p ∈ (m2.store new (.item ⟨⟨copy,size⟩,0,0⟩)).blocks :=
    keeps_store m2 p new _ (keeps_store _ p copy _ (keeps_store h.memory p new _ inside))
  have borrowed (p : Ptr) : .borrowed p ∈ .allocated copy::(started h new).log ↔ .borrowed p ∈ h.log := by
    simp [started]
  refine ⟨⟨m2.store new (.item ⟨⟨copy,size⟩,0,0⟩),.allocated copy::(started h new).log⟩,?_,?_,?_,?_⟩
  · exact gives_bind (gives_lift (yields_setItem _ ((same new).1.trans started_new))) rfl
  · exact ⟨fine,fun p lent some => live p (held p ((borrowed p).mp lent) some)⟩
  · exact ⟨live,fun p _ own => Finset.mem_insert_of_mem (Finset.mem_insert_of_mem own),fun p => (borrowed p).mpr⟩
  · have unusedCopy : copy ∉ h.memory.blocks := fun inside => unused' (keeps_store h.memory copy new _ inside)
    have apart : copy ≠ new := fun equal => unused' (equal ▸ Finmap.mem_insert.mpr (.inl rfl))
    have own : blocks (new,⟨copy,size⟩) = [copy,new] := by simp [blocks,copies,copied]
    refine ⟨made_filled there unused ⟨copy,size⟩ (fun q other => (same q).1.trans (started_other q other))
      fun q => (same q).2.trans (started_list unused q),?_,?_,fun zero => (copied zero).elim⟩
    · rw [own]
      simpa using apart
    · rw [own]
      refine List.forall_mem_cons.mpr ⟨⟨there',unusedCopy,?_,Finset.mem_insert_self _ _⟩,List.forall_mem_singleton.mpr ?_⟩
      · exact keeps_store m2 copy new _ (Finmap.mem_insert.mpr (.inl rfl))
      · exact ⟨there,unused,Finmap.mem_insert.mpr (.inl rfl),Finset.mem_insert_of_mem (Finset.mem_insert_self _ _)⟩

end

private theorem newitem_gives (sound : Sound h) (item : Ptr) (size : Nat)
    (plain : size = 0 → item ≠ 0 → item ∈ h.memory.blocks) :
    ∃ new h', Gives (newitem heap item size) h new h' ∧ Sound h' ∧ Onward h h' ∧
      (new = 0 ∧ Spared h.memory h'.memory [] ∨ ∃ stored, Taken h h' new ⟨stored,size⟩) := by
  rcases @malloc_gives heap h (.item ⟨⟨0,0⟩,0,0⟩) .allocated with failed | ⟨new,got,there,unused⟩
  · refine ⟨0,_,gives_bind failed (gives_pos rfl (gives_pure _)),⟨sound.fine,sound.held⟩,?_,.inl ⟨rfl,fun _ _ => rfl⟩⟩
    exact ⟨fun _ => id,fun _ _ => id,fun _ => id⟩
  by_cases copied : size = 0
  · subst copied
    obtain ⟨h',lent,sound',onward,taken⟩ := newitem_lent sound there unused item (plain rfl)
    exact ⟨new,h',gives_bind got (gives_neg there (gives_neg (not_not.mpr rfl) lent)),sound',onward,.inr ⟨item,taken⟩⟩
  rcases @malloc_gives heap (started h new) .data .allocated with failed | ⟨copy,got',there',unused'⟩
  -- Without its copy the node is given back.
  · obtain ⟨h',freed,sound',onward,spared⟩ := newitem_failed sound there unused ((started h new).memory.mallocs + 1)
    refine ⟨0,h',gives_bind got (gives_neg there (gives_pos copied ?_)),sound',onward,.inl ⟨rfl,spared⟩⟩
    exact gives_bind failed (gives_pos rfl freed)
  · obtain ⟨h',stored,sound',onward,taken⟩ := newitem_copied sound there unused size _ copied copy there' unused'
    refine ⟨new,h',gives_bind got (gives_neg there (gives_pos copied ?_)),sound',onward,.inr ⟨copy,taken⟩⟩
    exact gives_bind got' (gives_neg there' stored)

end

/-- Its blocks are there and no two are the same, and its pointers without a copy have been
stored with size zero. -/
structure Owns (lp : Ptr) (h : Heap) (es : List (Ptr × Item)) : Prop where
  holding : Holding h.memory lp es
  distinct : (es.flatMap blocks ++ [lp]).Nodup
  live : ∀ p ∈ es.flatMap blocks ++ [lp], p ≠ 0 ∧ p ∈ h.memory.blocks ∧ p ∈ owned h.log
  lent : ∀ e ∈ es, e.2.size = 0 → .borrowed e.2.item ∈ h.log

section
variable {heap : Allocator} {h h' : Heap} {lp : Ptr} {es fs : List (Ptr × Item)}

private theorem node_blocks {e : Ptr × Item} (inside : e ∈ es) : e.1 ∈ es.flatMap blocks :=
  List.mem_flatMap.mpr ⟨e,inside,List.mem_append_right _ (List.mem_singleton_self _)⟩

theorem holding_unique {m : Memory} (holding : Holding m lp es) (holding' : Holding m lp fs) : es = fs := by
  obtain ⟨-,head,known,seg⟩ := holding
  obtain ⟨-,head',known',seg'⟩ := holding'
  obtain rfl := Option.some.inj (known.symm.trans known')
  exact seg_unique seg seg'

theorem blocks_middle (front back : List (Ptr × Item)) (e : Ptr × Item) (lp : Ptr) :
    ((front ++ e::back).flatMap blocks ++ [lp]).Perm (blocks e ++ ((front ++ back).flatMap blocks ++ [lp])) := by
  rw [List.flatMap_append,List.flatMap_cons,List.flatMap_append]
  simp only [List.append_assoc]
  exact List.perm_append_comm_assoc _ _ _

private theorem owns_spared (owns : Owns lp h es) (onward : Onward h h') (spared : Spared h.memory h'.memory []) :
    Owns lp h' es := by
  obtain ⟨⟨given,head,known,seg⟩,distinct,live,lent⟩ := owns
  refine ⟨⟨given,head,(spared_list spared List.not_mem_nil).trans known,?_⟩,distinct,fun p own => ?_,fun e inside plain => ?_⟩
  · exact seg_frame (fun e _ => spared_item spared List.not_mem_nil) seg
  · obtain ⟨some,inside,has⟩ := live p own
    exact ⟨some,onward.live p inside,onward.owned p inside has⟩
  · exact onward.borrowed _ (lent e inside plain)

theorem listAdd_owns (sound : Sound h) (owns : Owns lp h es) (item : Ptr) (size : Nat)
    (plain : size = 0 → item ≠ 0 → item ∈ h.memory.blocks) :
    ∃ a h' fs, Gives (listAdd heap lp item size) h a h' ∧ Sound h' ∧ Owns lp h' fs := by
  obtain ⟨new,h1,made,sound1,onward,failed | ⟨stored,taken⟩⟩ := @newitem_gives heap h sound item size plain
  · obtain ⟨rfl,spared⟩ := failed
    exact ⟨0,h1,es,gives_neg owns.holding.1 (gives_bind made (gives_pos rfl (gives_pure _))),sound1,owns_spared owns onward spared⟩
  obtain ⟨⟨given,head,known,seg⟩,distinct,live,lent⟩ := owns
  obtain ⟨m2,linked,added⟩ := append_yields taken.made known fun some => seg_known seg head.last (seg_tail seg some)
  obtain ⟨first,last,known',seg'⟩ := added_seg seg added
  have still := keeps_append lp new h1.memory () m2 linked
  have whole : ((es ++ [(new,(⟨stored,size⟩ : Item))]).flatMap blocks ++ [lp]).Perm
      (blocks (new,⟨stored,size⟩) ++ (es.flatMap blocks ++ [lp])) := by
    have middle := blocks_middle es [] (new,⟨stored,size⟩) lp
    rwa [List.append_nil] at middle
  refine ⟨stored,⟨m2,h1.log⟩,es ++ [(new,⟨stored,size⟩)],?_,?_,⟨⟨given,_,known',seg'⟩,?_,?_,?_⟩⟩
  · refine gives_neg given (gives_bind made (gives_neg taken.made.there (gives_bind (gives_lift linked) ?_)))
    exact gives_bind (gives_lift (yields_getItem added.cell)) rfl
  · exact ⟨sound1.fine,fun p lent some => still p (sound1.held p lent some)⟩
  · refine whole.nodup_iff.mpr (List.nodup_append.mpr ⟨taken.distinct,distinct,fun p fresh q own same => ?_⟩)
    exact (taken.fresh p fresh).2.1 (same ▸ (live q own).2.1)
  · intro p own
    rcases List.mem_append.mp (whole.mem_iff.mp own) with fresh | old
    · obtain ⟨some,-,inside,has⟩ := taken.fresh p fresh
      exact ⟨some,still p inside,has⟩
    · obtain ⟨some,inside,has⟩ := live p old
      exact ⟨some,still p (onward.live p inside),onward.owned p inside has⟩
  · intro e inside zero
    rcases List.mem_append.mp inside with old | only
    · exact onward.borrowed _ (lent e old zero)
    · obtain rfl := List.mem_singleton.mp only
      exact taken.lent zero

/-- Items exchanged between nodes are the same blocks in another order. -/
private theorem blocks_perm (nodes : fs.map Prod.fst = es.map Prod.fst) (values : (fs.map Prod.snd).Perm (es.map Prod.snd)) :
    (fs.flatMap blocks).Perm (es.flatMap blocks) := by
  have split (gs : List (Ptr × Item)) : ((gs.map Prod.snd).flatMap copies ++ gs.map Prod.fst).Perm (gs.flatMap blocks) := by
    have apart := List.flatMap_append_perm gs (fun e => copies e.2) (fun e => [e.1])
    rwa [List.flatMap_map,List.map_eq_flatMap]
  refine (split fs).symm.trans (List.Perm.trans ?_ (split es))
  rw [nodes]
  exact (values.flatMap_right copies).append_right _

theorem sort_owns {compare : Item → Item → Int} {order a : Int} {fuel : Nat} {m' : Memory} (owns : Owns lp h es)
    (ended : Yields (listSort compare order fuel lp) h.memory a m') : ∃ fs, Owns lp ⟨m',h.log⟩ fs ∧
      ∀ p ∈ h.memory.blocks, p ∈ m'.blocks := by
  obtain ⟨⟨given,head,known,seg⟩,distinct,live,lent⟩ := owns
  unfold Yields listSort at ended
  rw [if_neg given,bind_yields (yields_getList known)] at ended
  obtain ⟨⟨_,m1⟩,sorted,done⟩ := Option.bind_eq_some_iff.mp ended
  obtain ⟨-,rfl⟩ := Prod.mk.inj (Option.some.inj done)
  obtain ⟨fs,seg',nodes,values,revalued⟩ := sortFrom_kept seg sorted
  have still (p : Ptr) (inside : p ∈ h.memory.blocks) : p ∈ m1.blocks := by
    by_cases node : p ∈ es.map Prod.fst
    · obtain ⟨cell,known⟩ := seg_known seg p node
      obtain ⟨value,known'⟩ := revalued.links p cell known
      exact m1.item_inside p _ known'
    · rwa [← Finmap.lookup_isSome,revalued.others p node,Finmap.lookup_isSome]
  have whole := (blocks_perm nodes values).append_right [lp]
  refine ⟨fs,⟨⟨given,head,revalued_list revalued known (seg_known seg),seg'⟩,whole.nodup_iff.mpr distinct,
    fun p own => ?_,fun e inside zero => ?_⟩,still⟩
  · obtain ⟨some,inside,has⟩ := live p (whole.mem_iff.mp own)
    exact ⟨some,still p inside,has⟩
  · obtain ⟨d,listed,same⟩ := List.mem_map.mp (values.mem_iff.mp (List.mem_map_of_mem inside))
    rw [← same] at zero ⊢
    exact lent d listed zero

/-- What is released when an item is found: the item, whatever its size, and its node. -/
def freed (item : Ptr) (e : Ptr × Item) : List Ptr := (if item = 0 then [] else [item]) ++ [e.1]

theorem listDelete_missing (owns : Owns lp h es) (item : Ptr) (missing : es.find? (fun e => item = e.2.item) = none) :
    Gives (listDelete lp item) h 1 h := by
  obtain ⟨⟨given,head,known,seg⟩,-,-,-⟩ := owns
  have found := findNode_yields lp item known seg
  rw [missing] at found
  exact gives_neg given (gives_bind (gives_lift found) (gives_pos rfl (gives_pure _)))

theorem listDelete_found (owns : Owns lp h es) (item : Ptr) (e : Ptr × Item)
    (first : es.find? (fun e => item = e.2.item) = some e) : ∃ front back head prev next m1 h', es = front ++ e::back ∧
      h.memory.list lp = some head ∧ h.memory.item e.1 = some ⟨e.2,prev,next⟩ ∧ Unlinked h.memory m1 lp head e.1 prev next ∧
      (∀ p ∈ h.memory.blocks, p ∈ m1.blocks) ∧ Gives (listDelete lp item) h 0 h' ∧ h'.log = releases (freed item e) h.log ∧
      Spared m1 h'.memory (freed item e) := by
  obtain ⟨⟨given,head,known,seg⟩,-,-,-⟩ := owns
  have found := findNode_yields lp item known seg
  rw [first] at found
  obtain ⟨front,back,rfl⟩ := List.append_of_mem (List.mem_of_find?_eq_some first)
  obtain ⟨some,prev,next,cell⟩ := seg_cell seg e (List.mem_append_right _ List.mem_cons_self)
  obtain ⟨before,behind⟩ := seg_neighbours e seg prev next cell
  obtain ⟨m1,unlinked,done⟩ := unlink_yields lp e.1 head e.2 prev next known cell before behind
  obtain ⟨h2,freed2,log2,spared2⟩ := free_releases item ⟨m1,h.log⟩
  obtain ⟨h3,freed3,log3,spared3⟩ := free_releases e.1 h2
  rw [if_neg some] at log3 spared3
  refine ⟨front,back,head,prev,next,m1,h3,rfl,known,cell,done,keeps_unlink lp e.1 _ () m1 unlinked,?_,?_,spared_append spared2 spared3⟩
  · refine gives_neg given (gives_bind (gives_lift found) (gives_neg some (gives_bind (gives_lift unlinked) ?_)))
    exact gives_bind freed2 (gives_bind freed3 rfl)
  · rw [log3,log2,freed,releases_append]

/-- Blocks of the list that have not been stored with size zero are released. -/
theorem sound_releases {m1 : Memory} {ps : List Ptr} (sound : Sound h) (still : ∀ p ∈ h.memory.blocks, p ∈ m1.blocks)
    (spared : Spared m1 h'.memory ps) (log : h'.log = releases ps h.log) (distinct : ps.Nodup)
    (own : ∀ p ∈ ps, p ∈ owned h.log) (unlent : ∀ p ∈ ps, .borrowed p ∉ h.log) : Sound h' := by
  refine ⟨?_,fun p lent some => ?_⟩
  · rw [log]
    exact (fine_releases distinct own).mpr ⟨sound.fine,unlent⟩
  · have lent : .borrowed p ∈ h.log := (borrowed_releases p).mp (log ▸ lent)
    exact (spared_mem spared fun inside => unlent p inside lent).mpr (still p (sound.held p lent some))

theorem owns_unlinked {front back : List (Ptr × Item)} {e : Ptr × Item} {head : Head} {prev next : Ptr} {m1 : Memory}
    (owns : Owns lp h (front ++ e::back)) (known : h.memory.list lp = some head)
    (cell : h.memory.item e.1 = some ⟨e.2,prev,next⟩) (unlinked : Unlinked h.memory m1 lp head e.1 prev next)
    (still : ∀ p ∈ h.memory.blocks, p ∈ m1.blocks) (log : h'.log = releases (blocks e) h.log)
    (spared : Spared m1 h'.memory (blocks e)) : Owns lp h' (front ++ back) := by
  obtain ⟨⟨given,head',known',seg⟩,distinct,live,lent⟩ := owns
  obtain rfl := Option.some.inj (known.symm.trans known')
  have whole := blocks_middle front back e lp
  obtain ⟨-,distinct',apart⟩ := List.nodup_append.mp (whole.nodup_iff.mp distinct)
  have outside (p : Ptr) (own : p ∈ (front ++ back).flatMap blocks ++ [lp]) : p ∉ blocks e := fun inside => apart p inside p own rfl
  have node (d : Ptr × Item) (member : d ∈ front ++ back) : h'.memory.item d.1 = m1.item d.1 :=
    spared_item spared (outside d.1 (List.mem_append_left _ (node_blocks member)))
  obtain ⟨left,right⟩ := seg_beside e seg prev next cell
  refine ⟨⟨given,_,(spared_list spared (outside lp (by simp))).trans unlinked.header,?_⟩,distinct',fun p own => ?_,
    fun d member zero => ?_⟩
  · refine seg_remove e seg (seg_nodup seg) prev next cell (fun some => ?_) (fun some => ?_) fun d member _ first second => ?_
    · obtain ⟨d,member,rfl⟩ := left some
      rw [node d (List.mem_append_left _ member),unlinked.before some]
    · obtain ⟨d,member,rfl⟩ := right some
      rw [node d (List.mem_append_right _ member),unlinked.behind some]
    · rw [node d member,unlinked.items d.1 (fun _ => first) fun _ => second]
  · obtain ⟨some,inside,has⟩ := live p (whole.mem_iff.mpr (List.mem_append_right _ own))
    refine ⟨some,(spared_mem spared (outside p own)).mpr (still p inside),?_⟩
    rw [log]
    exact owned_releases has (outside p own)
  · rw [log,borrowed_releases]
    exact lent d (((List.sublist_cons_self e back).append_left front).subset member) zero

theorem listDestroy_gives (owns : Owns lp h es) : ∃ h', Gives (listDestroy lp) h 0 h' ∧
    h'.log = releases (es.flatMap blocks ++ [lp]) h.log ∧ Spared h.memory h'.memory (es.flatMap blocks ++ [lp]) ∧
      lp ∉ h'.memory.blocks := by
  obtain ⟨⟨given,head,known,seg⟩,distinct,live,-⟩ := owns
  have enough := seg_rounds seg (seg_nodup seg)
  obtain ⟨h1,gone,log,spared⟩ := destroyFrom_releases seg (List.nodup_append.mp distinct).1
    (fun p own => (live p (List.mem_append_left _ own)).1) _ enough
  have listed : Gives (lift (getList lp)) h head h := gives_lift (yields_getList known)
  have count : Gives (lift rounds) h (h.memory.blocks.keys.card + 1) h := gives_lift yields_rounds
  refine ⟨⟨{h1.memory with blocks := h1.memory.blocks.erase lp},.released lp::h1.log⟩,?_,?_,?_,?_⟩
  · refine gives_neg given (gives_bind listed (gives_bind count (gives_bind gone ?_)))
    exact gives_bind (if_neg given) rfl
  · rw [log,releases_append]
    rfl
  · refine spared_append spared fun q outside => Finmap.lookup_erase_ne fun same => ?_
    exact outside (List.mem_singleton.mpr same)
  · exact Finmap.notMem_erase_self

end

end Jbdtool.ListOwner
