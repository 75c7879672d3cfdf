import Jbdtool.ListRefine
import Jbdtool.Base.ExchangeSort

/-! Sorting a list: what its nodes hold is exchanged, the nodes stay where they are. -/
namespace Jbdtool.Lists
open Chain ExchangeSort

/-- The first node from `ip2` on whose item comes before the one of `ip1`, or 0. -/
def seekSwap (compare : Item → Item → Int) (comp : Int) (ip1 : Ptr) : Nat → Ptr → C Ptr
  | 0, _ => stuck
  | n + 1, ip2 =>
    if ip2 = 0 then return 0 else do
    let node1 ← getItem ip1
    let node2 ← getItem ip2
    if compare node1.value node2.value = comp then return ip2
    seekSwap compare comp ip1 n node2.next

def swapItems (ip1 ip2 : Ptr) : C Unit := do
  let save ← getItem ip1
  let node2 ← getItem ip2
  setItem ip1 {save with value := node2.value}
  let node2 ← getItem ip2
  setItem ip2 {node2 with value := save.value}

/-- The outer loop; after a swap it looks at the same node again. -/
def sortFrom (compare : Item → Item → Int) (comp : Int) : Nat → Ptr → C Unit
  | 0, _ => stuck
  | n + 1, ip1 =>
    if ip1 = 0 then return () else do
    let node ← getItem ip1
    let ip2 ← seekSwap compare comp ip1 (← rounds) node.next
    if ip2 ≠ 0 then do
      swapItems ip1 ip2
      sortFrom compare comp n ip1
    else do
      let node ← getItem ip1
      sortFrom compare comp n node.next

/-- `fuel` bounds the rounds of the outer loop. -/
def listSort (compare : Item → Item → Int) (order : Int) (fuel : Nat) (lp : Ptr) : C Int := do
  if lp = 0 then return -1
  let list ← getList lp
  sortFrom compare (if order = 0 then 1 else -1) fuel list.first
  return 0

/-- Nodes may hold other items; their links and all other blocks are as before. -/
structure Revalued (m m' : Memory) (nodes : List Ptr) : Prop where
  links : ∀ p cell, m.item p = some cell → ∃ value, m'.item p = some {cell with value := value}
  others : ∀ p, p ∉ nodes → m'.blocks.lookup p = m.blocks.lookup p

private theorem revalued_refl (m : Memory) (nodes : List Ptr) : Revalued m m nodes :=
  ⟨fun _ cell known => ⟨cell.value,known⟩,fun _ _ => rfl⟩

private theorem revalued_trans {m m' m'' : Memory} {nodes : List Ptr} (first : Revalued m m' nodes)
    (second : Revalued m' m'' nodes) :
    Revalued m m'' nodes := by
  refine ⟨fun p cell known => ?_,fun p outside => (second.others p outside).trans (first.others p outside)⟩
  obtain ⟨value,known'⟩ := first.links p cell known
  obtain ⟨value',known'⟩ := second.links p _ known'
  exact ⟨value',known'⟩

private theorem revalued_mono {m m' : Memory} {nodes more : List Ptr} (revalued : Revalued m m' nodes) (part : nodes ⊆ more) :
    Revalued m m' more :=
  ⟨revalued.links,fun p outside => revalued.others p fun inside => outside (part inside)⟩

theorem item_lookup {m m' : Memory} {p : Ptr} (same : m'.blocks.lookup p = m.blocks.lookup p) : m'.item p = m.item p := by
  unfold Memory.item
  rw [same]

theorem revalued_list {m m' : Memory} {nodes : List Ptr} (revalued : Revalued m m' nodes) {lp : Ptr} {head : Head}
    (known : m.list lp = some head) (inside : ∀ p ∈ nodes, ∃ cell, m.item p = some cell) : m'.list lp = some head := by
  have outside : lp ∉ nodes := fun member => by
    obtain ⟨cell,item⟩ := inside lp member
    rw [m.list_item lp cell item] at known
    cases known
  unfold Memory.list at known ⊢
  rw [revalued.others lp outside]
  exact known

section
variable {compare : Item → Item → Int} {comp : Int} {m : Memory}

private theorem seekSwap_yields {ip1 : Ptr} {cell1 : ListItem} (known : m.item ip1 = some cell1) {before ip2 last : Ptr}
    {es : List (Ptr × Item)} (seg : Seg m.item before ip2 es last 0) (n : Nat) (enough : es.length < n) :
    Yields (seekSwap compare comp ip1 n ip2) m
      (((es.find? (fun e => compare cell1.value e.2 = comp)).map Prod.fst).getD 0) m := by
  induction es generalizing before ip2 n with
  | nil =>
    obtain ⟨n,rfl⟩ := Nat.exists_eq_add_of_lt enough
    obtain ⟨-,rfl⟩ := seg
    exact yields_pos rfl (yields_pure _)
  | cons e es ih =>
    obtain ⟨n,rfl⟩ : ∃ k, n = k + 1 := ⟨n - 1,by simp at enough; omega⟩
    obtain ⟨rfl,there,next,cell,rest⟩ := seg
    have later := ih rest n (by simpa using enough)
    refine yields_neg there (yields_bind (yields_getItem known) (yields_bind (yields_getItem cell) ?_))
    by_cases early : compare cell1.value e.2 = comp
    · rw [List.find?_cons_of_pos (by simpa using early)]
      exact yields_pos early (yields_pure _)
    · rw [List.find?_cons_of_neg (by simpa using early)]
      exact yields_neg early later

private theorem swapItems_yields {ip1 ip2 : Ptr} {cell1 cell2 : ListItem} (apart : ip2 ≠ ip1) (known1 : m.item ip1 = some cell1)
    (known2 : m.item ip2 = some cell2) : ∃ m', Yields (swapItems ip1 ip2) m () m' ∧
      m'.item ip1 = some {cell1 with value := cell2.value} ∧ m'.item ip2 = some {cell2 with value := cell1.value} ∧
      ∀ p, p ≠ ip1 → p ≠ ip2 → m'.blocks.lookup p = m.blocks.lookup p := by
  set m1 := m.store ip1 (.item {cell1 with value := cell2.value}) with m1_def
  have items1 (p : Ptr) : m1.item p = if p = ip1 then some {cell1 with value := cell2.value} else m.item p :=
    m.item_store_item _ p _
  have known2' : m1.item ip2 = some cell2 := by rw [items1,if_neg apart,known2]
  set m2 := m1.store ip2 (.item {cell2 with value := cell1.value}) with m2_def
  have items2 (p : Ptr) : m2.item p = if p = ip2 then some {cell2 with value := cell1.value} else m1.item p :=
    m1.item_store_item _ p _
  refine ⟨m2,?_,?_,?_,fun p other1 other2 => ?_⟩
  · refine yields_bind (yields_getItem known1) (yields_bind (yields_getItem known2) ?_)
    refine yields_bind (yields_setItem _ known1) (yields_bind (yields_getItem known2') ?_)
    exact yields_setItem _ known2'
  · rw [items2,if_neg apart.symm,items1,if_pos rfl]
  · rw [items2,if_pos rfl]
  · exact (Finmap.lookup_insert_of_ne _ other2).trans (Finmap.lookup_insert_of_ne _ other1)

private theorem nodes_cons {es : List (Ptr × Item)} {x : Item} {list : List Item} (items : es.map Prod.snd = x::list) :
    ∃ p tail, es = (p,x)::tail ∧ tail.map Prod.snd = list := by
  obtain ⟨⟨p,_⟩,tail,rfl,rfl,rest⟩ := List.map_eq_cons_iff.mp items
  exact ⟨p,tail,rfl,rest⟩

/-- A round that exchanges the items of the first node and of a later one. -/
private theorem sortFrom_exchange {before ip1 last p q : Ptr} {x y : Item} {ahead behind : List (Ptr × Item)}
    (seg : Seg m.item before ip1 ((p,x)::(ahead ++ (q,y)::behind)) last 0) (kept : ∀ e ∈ ahead, ¬ compare x e.2 = comp)
    (early : compare x y = comp) : ∃ m1, Seg m1.item before ip1 ((p,y)::(ahead ++ (q,x)::behind)) last 0 ∧
      Revalued m m1 (((p,x)::(ahead ++ (q,y)::behind)).map Prod.fst) ∧
      ∀ fuel, sortFrom compare comp (fuel + 1) ip1 m = sortFrom compare comp fuel ip1 m1 := by
  have distinct := seg_nodup seg
  have short := seg_rounds seg distinct
  have apart : q ≠ p := fun same => by simp [same] at distinct
  have ⟨start,there,next,cell,tail⟩ := seg
  obtain ⟨there',prev',next',cell'⟩ := seg_cell tail (q,y) (by simp)
  have found : (ahead ++ (q,y)::behind).find? (fun e => compare x e.2 = comp) = some (q,y) := by
    rw [List.find?_append,List.find?_eq_none.mpr,Option.none_or,List.find?_cons_of_pos (by simpa using early)]
    exact fun e inside => by simpa using kept e inside
  have sought := @seekSwap_yields compare comp m _ _ cell _ _ _ _ tail (m.blocks.keys.card + 1)
    (by simp at short ⊢; omega)
  rw [found] at sought
  obtain ⟨m1,swapped,cell1,cell1',others⟩ := swapItems_yields apart cell cell'
  refine ⟨m1,?_,?_,fun fuel => ?_⟩
  · exact seg_exchange seg (by rw [cell1,cell]; rfl) (by rw [cell1',cell']; rfl)
      fun a first second => item_lookup (others a first second)
  · refine ⟨fun a c known => ?_,fun a outside => others a (fun same => ?_) fun same => ?_⟩
    · by_cases first : a = p
      · subst first
        obtain rfl := Option.some.inj (cell.symm.trans known)
        exact ⟨_,cell1⟩
      by_cases second : a = q
      · subst second
        obtain rfl := Option.some.inj (cell'.symm.trans known)
        exact ⟨_,cell1'⟩
      · exact ⟨c.value,(item_lookup (others a first second)).trans known⟩
    · exact outside (by simp [same])
    · exact outside (by simp [same])
  · obtain rfl : ip1 = p := start
    rw [sortFrom,if_neg there,bind_yields (yields_getItem cell),bind_yields yields_rounds,bind_yields sought]
    have some : ((Option.map Prod.fst (Option.some (q,y))).getD 0) ≠ 0 := there'
    rw [if_pos some]
    exact bind_yields swapped

/-- A round that leaves the first node behind. -/
private theorem sortFrom_leave {before ip1 last p : Ptr} {x : Item} {tail : List (Ptr × Item)}
    (seg : Seg m.item before ip1 ((p,x)::tail) last 0) (least : ∀ e ∈ tail, ¬ compare x e.2 = comp) :
    ∃ next, Seg m.item p next tail last 0 ∧ ∀ fuel, sortFrom compare comp (fuel + 1) ip1 m = sortFrom compare comp fuel next m := by
  have short := seg_rounds seg (seg_nodup seg)
  obtain ⟨rfl,there,next,cell,tailSeg⟩ := seg
  have found : tail.find? (fun e => compare x e.2 = comp) = none :=
    List.find?_eq_none.mpr fun e inside => by simpa using least e inside
  have sought := @seekSwap_yields compare comp m _ _ cell _ _ _ _ tailSeg (m.blocks.keys.card + 1)
    (by simp at short ⊢; omega)
  rw [found] at sought
  refine ⟨next,tailSeg,fun fuel => ?_⟩
  rw [sortFrom,if_neg there,bind_yields (yields_getItem cell),bind_yields yields_rounds,bind_yields sought]
  have none : ¬ ((Option.map Prod.fst (Option.none : Option (Ptr × Item))).getD 0) ≠ 0 := not_not.mpr rfl
  rw [if_neg none]
  exact bind_yields (yields_getItem cell)

/-- Whatever the comparison, what a sort that comes to an end leaves. -/
theorem sortFrom_kept {m' : Memory} {fuel : Nat} {before ip1 last : Ptr} {es : List (Ptr × Item)}
    (seg : Seg m.item before ip1 es last 0) (ended : Yields (sortFrom compare comp fuel ip1) m () m') :
    ∃ fs, Seg m'.item before ip1 fs last 0 ∧ fs.map Prod.fst = es.map Prod.fst ∧
      (fs.map Prod.snd).Perm (es.map Prod.snd) ∧ Revalued m m' (es.map Prod.fst) := by
  induction fuel generalizing m before ip1 es with
  | zero => cases ended
  | succ fuel ih =>
    cases es with
    | nil =>
      obtain ⟨rfl,rfl⟩ := seg
      obtain ⟨-,rfl⟩ := Prod.mk.inj (Option.some.inj ended)
      exact ⟨[],⟨rfl,rfl⟩,rfl,.nil,revalued_refl m _⟩
    | cons e tail =>
      obtain ⟨p,x⟩ := e
      cases found : tail.find? (fun e => compare x e.2 = comp) with
      | none =>
        have least : ∀ e ∈ tail, ¬ compare x e.2 = comp := fun e inside => by
          simpa using List.find?_eq_none.mp found e inside
        obtain ⟨next,tailSeg,run⟩ := sortFrom_leave seg least
        obtain ⟨fs,seg',nodes,values,revalued⟩ := ih tailSeg ((run fuel).symm.trans ended)
        have alone := (List.nodup_cons.mp (seg_nodup seg)).1
        obtain ⟨rfl,there,_,cell,rest⟩ := seg
        obtain rfl : next = _ := (seg_first tailSeg).trans (seg_first rest).symm
        have kept : m'.item ip1 = m.item ip1 := item_lookup (revalued.others ip1 alone)
        refine ⟨(ip1,x)::fs,⟨rfl,there,_,kept.trans cell,seg'⟩,congrArg (ip1::·) nodes,values.cons x,?_⟩
        exact revalued_mono revalued fun a inside => List.mem_cons_of_mem _ inside
      | some d =>
        obtain ⟨early,ahead,behind,rfl,kept⟩ := List.find?_eq_some_iff_append.mp found
        obtain ⟨q,y⟩ := d
        have kept' : ∀ e ∈ ahead, ¬ compare x e.2 = comp := fun e inside => by simpa using kept e inside
        obtain ⟨m1,seg1,one,run⟩ := sortFrom_exchange seg kept' (by simpa using early)
        obtain ⟨fs,seg',nodes,values,revalued⟩ := ih seg1 ((run fuel).symm.trans ended)
        have same : ((p,y)::(ahead ++ (q,x)::behind)).map Prod.fst = ((p,x)::(ahead ++ (q,y)::behind)).map Prod.fst := by simp
        rw [same] at nodes revalued
        refine ⟨fs,seg',nodes,values.trans ?_,revalued_trans one revalued⟩
        simpa using exchanged x y (ahead.map Prod.snd) (behind.map Prod.snd)

/-- In as many rounds as the sort of the items takes the loop leaves the items sorted. -/
private theorem sortFrom_yields {values out : List Item} {n : Nat} (sorts : Sorts (fun x y => compare x y = comp) values out n)
    {before ip1 last : Ptr} {es : List (Ptr × Item)} (seg : Seg m.item before ip1 es last 0) (items : es.map Prod.snd = values)
    (fuel : Nat) (enough : n < fuel) : ∃ fs m', Yields (sortFrom compare comp fuel ip1) m () m' ∧
      Seg m'.item before ip1 fs last 0 ∧ fs.map Prod.fst = es.map Prod.fst ∧ fs.map Prod.snd = out ∧
      Revalued m m' (es.map Prod.fst) := by
  induction sorts generalizing m before ip1 es fuel with
  | done =>
    obtain ⟨fuel,rfl⟩ := Nat.exists_eq_add_of_lt enough
    obtain rfl := List.map_eq_nil_iff.mp items
    obtain ⟨rfl,rfl⟩ := seg
    exact ⟨[],m,yields_pos rfl (yields_pure ()),⟨rfl,rfl⟩,rfl,rfl,revalued_refl m _⟩
  | @exchange x y front back out n kept early rest ih =>
    obtain ⟨fuel,rfl⟩ : ∃ k, fuel = k + 1 := ⟨fuel - 1,by omega⟩
    obtain ⟨p,tail,rfl,split⟩ := nodes_cons items
    obtain ⟨ahead,later,rfl,rfl,latter⟩ := List.map_eq_append_iff.mp split
    obtain ⟨q,behind,rfl,rfl⟩ := nodes_cons latter
    obtain ⟨m1,seg1,one,run⟩ := sortFrom_exchange seg (fun e inside => kept e.2 (List.mem_map_of_mem inside)) early
    obtain ⟨fs,m',loop,seg',nodes,sorted,revalued⟩ := ih seg1 (by simp) fuel (by omega)
    have same : ((p,y)::(ahead ++ (q,x)::behind)).map Prod.fst = ((p,x)::(ahead ++ (q,y)::behind)).map Prod.fst := by simp
    rw [same] at nodes revalued
    exact ⟨fs,m',(run fuel).trans loop,seg',nodes,sorted,revalued_trans one revalued⟩
  | @leave x list out n least rest ih =>
    obtain ⟨fuel,rfl⟩ : ∃ k, fuel = k + 1 := ⟨fuel - 1,by omega⟩
    obtain ⟨p,tail,rfl,rfl⟩ := nodes_cons items
    obtain ⟨next,tailSeg,run⟩ := sortFrom_leave seg fun e inside => least e.2 (List.mem_map_of_mem inside)
    obtain ⟨fs,m',loop,seg',nodes,rfl,revalued⟩ := ih tailSeg rfl fuel (by omega)
    have alone := (List.nodup_cons.mp (seg_nodup seg)).1
    obtain ⟨rfl,there,_,cell,rest⟩ := seg
    obtain rfl : next = _ := (seg_first tailSeg).trans (seg_first rest).symm
    have kept : m'.item ip1 = m.item ip1 := item_lookup (revalued.others ip1 alone)
    refine ⟨(ip1,x)::fs,m',(run fuel).trans loop,⟨rfl,there,_,kept.trans cell,seg'⟩,?_,rfl,?_⟩
    · rw [List.map_cons,List.map_cons,nodes]
    · exact revalued_mono revalued fun a inside => List.mem_cons_of_mem _ inside

end

/-- A comparison of three values: its sign tells which comes first, and those that come
together form classes. -/
structure StrictWeakOrdering (compare : Item → Item → Int) : Prop where
  range : ∀ a b, compare a b = -1 ∨ compare a b = 0 ∨ compare a b = 1
  swap : ∀ a b, compare b a = -compare a b
  trans : ∀ a b c, compare a b = -1 → compare b c = -1 → compare a c = -1
  equal : ∀ a b c, compare a b = 0 → compare b c = 0 → compare a c = 0

def InOrder (compare : Item → Item → Int) (order : Int) (a b : Item) : Prop :=
  if order = 0 then compare a b ≤ 0 else 0 ≤ compare a b

section
variable {compare : Item → Item → Int} (ordering : StrictWeakOrdering compare) (order : Int)
include ordering

private theorem gives_irrefl (a : Item) : compare a a ≠ if order = 0 then 1 else -1 := by
  have self := ordering.swap a a
  split_ifs <;> omega

private theorem gives_trans (a b c : Item) (first : compare a b = if order = 0 then 1 else -1)
    (second : compare b c = if order = 0 then 1 else -1) : compare a c = if order = 0 then 1 else -1 := by
  split_ifs at first second ⊢
  · have back := ordering.trans c b a (by rw [ordering.swap b c,second]) (by rw [ordering.swap a b,first])
    rw [ordering.swap c a,back]
    rfl
  · exact ordering.trans a b c first second

private theorem inOrder_of_not_gives {a b : Item} (kept : ¬ compare a b = if order = 0 then 1 else -1) :
    InOrder compare order a b := by
  have range := ordering.range a b
  unfold InOrder
  split_ifs at kept ⊢ <;> omega

/-- Within the square of the length many rounds the list is sorted: its items are in order
and as many as before, and its nodes, their links and the cursor are unchanged. -/
theorem listSort_sorts (m : Memory) (lp : Ptr) (head : Head) (es : List (Ptr × Item)) (given : lp ≠ 0)
    (known : m.list lp = some head) (seg : Seg m.item 0 head.first es head.last 0) (fuel : Nat)
    (enough : es.length * es.length < fuel) : ∃ fs m', Yields (listSort compare order fuel lp) m 0 m' ∧
      Seg m'.item 0 head.first fs head.last 0 ∧ (fs.map Prod.snd).Perm (es.map Prod.snd) ∧
      (fs.map Prod.snd).Pairwise (InOrder compare order) ∧ fs.map Prod.fst = es.map Prod.fst ∧ m'.list lp = some head ∧
      Revalued m m' (es.map Prod.fst) := by
  obtain ⟨out,n,bound,sorts⟩ := sorts_total (gives_irrefl ordering order) (gives_trans ordering order) (es.map Prod.snd)
  rw [List.length_map] at bound
  obtain ⟨fs,m',loop,seg',nodes,rfl,revalued⟩ := sortFrom_yields sorts seg rfl fuel (by omega)
  refine ⟨fs,m',?_,seg',sorts_perm sorts,?_,nodes,revalued_list revalued known (seg_known seg),revalued⟩
  · exact yields_neg given (yields_bind (yields_getList known) (yields_bind loop (yields_pure 0)))
  · exact (sorts_pairwise sorts).imp (inOrder_of_not_gives ordering order)

end

def bySize (a b : Item) : Int := if a.size < b.size then -1 else if b.size < a.size then 1 else 0

private theorem bySize_ordering : StrictWeakOrdering bySize := by
  constructor <;> intros <;> simp only [bySize] at * <;> split_ifs at * <;> omega

def threeNodes : Memory :=
  (((Memory.empty.store 1 (.list ⟨2,4,3⟩)).store 2 (.item ⟨⟨10,3⟩,0,3⟩)).store 3 (.item ⟨⟨11,1⟩,2,4⟩)).store 4
    (.item ⟨⟨12,2⟩,3,0⟩)

theorem listSort_sorts_three : ∃ fs m', Yields (listSort bySize 0 10 1) threeNodes 0 m' ∧ Seg m'.item 0 2 fs 4 0 ∧
    fs.map Prod.fst = [2,3,4] ∧ (fs.map Prod.snd).Pairwise (fun a b => a.size ≤ b.size) := by
  have seg : Seg threeNodes.item 0 2 [(2,⟨10,3⟩),(3,⟨11,1⟩),(4,⟨12,2⟩)] 4 0 :=
    ⟨rfl,by decide,3,by decide,rfl,by decide,4,by decide,rfl,by decide,0,by decide,rfl,rfl⟩
  obtain ⟨fs,m',ran,seg',-,sorted,nodes,-⟩ :=
    listSort_sorts bySize_ordering 0 threeNodes 1 ⟨2,4,3⟩ _ (by decide) (by decide) seg 10 (by decide)
  refine ⟨fs,m',ran,seg',nodes,sorted.imp fun {a b} before => ?_⟩
  unfold InOrder bySize at before
  split_ifs at before <;> omega

end Jbdtool.Lists
