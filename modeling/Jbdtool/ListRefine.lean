import Jbdtool.Lists

/-! What each function of the list module does to a memory, and to the sequence with a
cursor that a list in it stands for. -/
namespace Jbdtool.Lists
open Chain
variable {α β : Type}

def Yields (x : C α) (m : Memory) (a : α) (m' : Memory) : Prop := x m = some (a,m')

section
variable {m m' m'' : Memory}

theorem yields_pure (a : α) : Yields (pure a : C α) m a m := rfl

theorem bind_yields {x : C α} {next : α → C β} {a : α} (first : Yields x m a m') : (x >>= next) m = next a m' := by
  change (x m).bind (fun r => next r.1 r.2) = next a m'
  rw [first]
  rfl

theorem yields_bind {x : C α} {next : α → C β} {a : α} {b : β} (first : Yields x m a m')
    (rest : Yields (next a) m' b m'') : Yields (x >>= next) m b m'' :=
  (bind_yields first).trans rest

theorem yields_pos {c : Prop} [Decidable c] {x y : C α} {a : α} (holds : c) (known : Yields x m a m') :
    Yields (if c then x else y) m a m' := by
  rwa [if_pos holds]

theorem yields_neg {c : Prop} [Decidable c] {x y : C α} {a : α} (fails : ¬ c) (known : Yields y m a m') :
    Yields (if c then x else y) m a m' := by
  rwa [if_neg fails]

theorem yields_getItem {p : Ptr} {cell : ListItem} (known : m.item p = some cell) : Yields (getItem p) m cell m := by
  unfold Yields getItem
  rw [known]
  rfl

theorem yields_setItem {p : Ptr} {cell : ListItem} (new : ListItem) (known : m.item p = some cell) :
    Yields (setItem p new) m () (m.store p (.item new)) := by
  unfold Yields setItem
  rw [known]
  rfl

theorem yields_getList {lp : Ptr} {head : Head} (known : m.list lp = some head) : Yields (getList lp) m head m := by
  unfold Yields getList
  rw [known]
  rfl

theorem yields_setList {lp : Ptr} {head : Head} (new : Head) (known : m.list lp = some head) :
    Yields (setList lp new) m () (m.store lp (.list new)) := by
  unfold Yields setList
  rw [known]
  rfl

theorem yields_rounds : Yields rounds m (m.blocks.keys.card + 1) m := rfl

end

namespace Memory
variable (m : Memory) (p q : Ptr)

theorem item_store_item (cell : ListItem) : (m.store p (.item cell)).item q = if q = p then some cell else m.item q := by
  unfold store item
  split_ifs with same
  · rw [same,Finmap.lookup_insert]
  · rw [Finmap.lookup_insert_of_ne _ same]

theorem list_store_list (head : Head) : (m.store p (.list head)).list q = if q = p then some head else m.list q := by
  unfold store list
  split_ifs with same
  · rw [same,Finmap.lookup_insert]
  · rw [Finmap.lookup_insert_of_ne _ same]

theorem list_item (cell : ListItem) (known : m.item p = some cell) : m.list p = none := by
  unfold item at known
  unfold list
  split at known
  · rename_i found
    rw [found]
  · cases known

theorem item_list (head : Head) (known : m.list p = some head) : m.item p = none := by
  cases found : m.item p with
  | none => rfl
  | some cell =>
    rw [m.list_item p cell found] at known
    cases known

theorem item_outside (outside : p ∉ m.blocks) : m.item p = none := by
  unfold item
  rw [Finmap.lookup_eq_none.mpr outside]

theorem list_outside (outside : p ∉ m.blocks) : m.list p = none := by
  unfold list
  rw [Finmap.lookup_eq_none.mpr outside]

theorem item_inside (cell : ListItem) (known : m.item p = some cell) : p ∈ m.blocks := by
  by_contra outside
  rw [m.item_outside p outside] at known
  cases known

/-- Blocks of other kinds stored over an item or nothing leave the lists as they are. -/
theorem list_store_item (cell : ListItem) (known : m.list p = none) : (m.store p (.item cell)).list q = m.list q := by
  unfold store list
  by_cases same : q = p
  · rw [same,Finmap.lookup_insert]
    exact known.symm
  · rw [Finmap.lookup_insert_of_ne _ same]

theorem item_store_list (head : Head) (known : m.item p = none) : (m.store p (.list head)).item q = m.item q := by
  unfold store item
  by_cases same : q = p
  · rw [same,Finmap.lookup_insert]
    exact known.symm
  · rw [Finmap.lookup_insert_of_ne _ same]

theorem store_data (outside : p ∉ m.blocks) : (m.store p .data).item q = m.item q ∧ (m.store p .data).list q = m.list q := by
  by_cases same : q = p
  · subst same
    rw [m.item_outside q outside,m.list_outside q outside]
    unfold store item list
    rw [Finmap.lookup_insert]
    exact ⟨rfl,rfl⟩
  · unfold store item list
    rw [Finmap.lookup_insert_of_ne _ same]
    exact ⟨rfl,rfl⟩

end Memory

section
variable {m : Memory} {heap : Malloc}

structure Made (m m' : Memory) (new : Ptr) (value : Item) : Prop where
  there : new ≠ 0
  fresh : new ∉ m.blocks
  cell : m'.item new = some ⟨value,0,0⟩
  items : ∀ q, q ≠ new → m'.item q = m.item q
  lists : ∀ q, m'.list q = m.list q

theorem malloc_yields (b : Block) : ∃ p, Yields (malloc heap b) m p {m.store p b with mallocs := m.mallocs + 1} ∧ p ≠ 0 ∧
    p ∉ m.blocks := by
  obtain ⟨there,fresh⟩ := heap.fresh m.mallocs m.blocks.keys
  exact ⟨_,rfl,there,fun inside => fresh (Finmap.mem_keys.mpr inside)⟩

theorem made_filled {m2 : Memory} {new : Ptr} (there : new ≠ 0) (fresh : new ∉ m.blocks) (value : Item)
    (items : ∀ q, q ≠ new → m2.item q = m.item q) (lists : ∀ q, m2.list q = m.list q) :
    Made m (m2.store new (.item ⟨value,0,0⟩)) new value := by
  have listless : m2.list new = none := (lists new).trans (m.list_outside new fresh)
  refine ⟨there,fresh,by rw [m2.item_store_item,if_pos rfl],fun q other => ?_,fun q => ?_⟩
  · rw [m2.item_store_item,if_neg other,items q other]
  · rw [m2.list_store_item new q _ listless,lists]

theorem newitem_yields (item : Ptr) (size : Nat) : ∃ new stored m', Yields (newitem heap item size) m new m' ∧
    (size = 0 → stored = item) ∧ (size ≠ 0 → stored ≠ 0) ∧ Made m m' new ⟨stored,size⟩ := by
  obtain ⟨new,made,there,fresh⟩ := @malloc_yields m heap (.item ⟨⟨0,0⟩,0,0⟩)
  have absent : m.list new = none := m.list_outside new fresh
  set m1 : Memory := {m.store new (.item ⟨⟨0,0⟩,0,0⟩) with mallocs := m.mallocs + 1} with m1_def
  have items (q : Ptr) : m1.item q = if q = new then some ⟨⟨0,0⟩,0,0⟩ else m.item q := m.item_store_item new q _
  have others (q : Ptr) (other : q ≠ new) : m1.item q = m.item q := (items q).trans (if_neg other)
  have lists (q : Ptr) : m1.list q = m.list q := m.list_store_item new q _ absent
  by_cases copied : size = 0
  · refine ⟨new,item,_,?_,fun _ => rfl,fun other => (other copied).elim,made_filled there fresh ⟨item,size⟩ others lists⟩
    refine yields_bind made ?_
    rw [if_neg (not_not.mpr copied)]
    exact yields_bind (yields_pure item) (yields_bind (yields_setItem _ ((items new).trans (if_pos rfl))) (yields_pure new))
  · obtain ⟨stored,held,some,unused⟩ := @malloc_yields m1 heap .data
    have same (q : Ptr) := m1.store_data stored q unused
    refine ⟨new,stored,_,?_,fun zero => (copied zero).elim,fun _ => some,
      @made_filled m {m1.store stored .data with mallocs := m1.mallocs + 1} new there fresh ⟨stored,size⟩
        (fun q other => (same q).1.trans (others q other)) fun q => (same q).2.trans (lists q)⟩
    refine yields_bind made ?_
    rw [if_pos copied]
    have cell := ((same new).1.trans (items new)).trans (if_pos rfl)
    exact yields_bind held (yields_bind (yields_setItem _ cell) (yields_pure new))

structure Added (m m' : Memory) (lp : Ptr) (head : Head) (new : Ptr) (value : Item) : Prop where
  there : new ≠ 0
  fresh : new ∉ m.blocks
  header : m'.list lp = some (if head.first = 0 then ⟨new,new,new⟩ else {head with last := new})
  cell : m'.item new = some ⟨value,if head.first = 0 then 0 else head.last,0⟩
  tail : head.first ≠ 0 → m'.item head.last = (m.item head.last).map (fun c => {c with next := new})
  items : ∀ q, q ≠ new → (head.first ≠ 0 → q ≠ head.last) → m'.item q = m.item q
  lists : ∀ q, q ≠ lp → m'.list q = m.list q

theorem append_yields {m1 : Memory} {lp new : Ptr} {head : Head} {value : Item} (made : Made m m1 new value)
    (known : m.list lp = some head) (tail : head.first ≠ 0 → ∃ cell, m.item head.last = some cell) :
    ∃ m', Yields (append lp new) m1 () m' ∧ Added m m' lp head new value := by
  have known1 : m1.list lp = some head := (made.lists lp).trans known
  by_cases none : head.first = 0
  · set m2 := m1.store lp (.list ⟨new,new,new⟩) with m2_def
    have items (q : Ptr) : m2.item q = m1.item q := m1.item_store_list lp q _ (m1.item_list lp head known1)
    refine ⟨m2,yields_bind (yields_getList known1) (yields_pos none (yields_setList _ known1)),?_⟩
    refine ⟨made.there,made.fresh,?_,?_,fun some => (some none).elim,fun q other _ => ?_,fun q other => ?_⟩
    · rw [if_pos none,m2_def,m1.list_store_list,if_pos rfl]
    · rw [if_pos none,items,made.cell]
    · rw [items,made.items q other]
    · rw [m2_def,m1.list_store_list,if_neg other,made.lists]
  · obtain ⟨last,lastKnown⟩ := tail none
    have behind : head.last ≠ new := fun same => made.fresh (m.item_inside new last (same ▸ lastKnown))
    have lastKnown1 : m1.item head.last = some last := (made.items _ behind).trans lastKnown
    set m2 := m1.store head.last (.item {last with next := new}) with m2_def
    have items2 (q : Ptr) : m2.item q = if q = head.last then some {last with next := new} else m1.item q :=
      m1.item_store_item _ q _
    have lists2 (q : Ptr) : m2.list q = m1.list q := m1.list_store_item _ q _ (m1.list_item _ last lastKnown1)
    have cell2 : m2.item new = some ⟨value,0,0⟩ := by rw [items2,if_neg behind.symm,made.cell]
    set m3 := m2.store new (.item ⟨value,head.last,0⟩) with m3_def
    have items3 (q : Ptr) : m3.item q = if q = new then some ⟨value,head.last,0⟩ else m2.item q :=
      m2.item_store_item _ q _
    have lists3 (q : Ptr) : m3.list q = m1.list q :=
      (m2.list_store_item _ q _ (m2.list_item _ _ cell2)).trans (lists2 q)
    have known3 : m3.list lp = some head := (lists3 lp).trans known1
    set m4 := m3.store lp (.list {head with last := new}) with m4_def
    have items4 (q : Ptr) : m4.item q = m3.item q := m3.item_store_list lp q _ (m3.item_list lp head known3)
    refine ⟨m4,?_,made.there,made.fresh,?_,?_,fun _ => ?_,fun q other notLast => ?_,fun q other => ?_⟩
    · refine yields_bind (yields_getList known1) (yields_neg none (yields_bind (yields_getItem lastKnown1) ?_))
      refine yields_bind (yields_setItem _ lastKnown1) (yields_bind (yields_getItem cell2) ?_)
      exact yields_bind (yields_setItem _ cell2) (yields_setList _ known3)
    · rw [if_neg none,m4_def,m3.list_store_list,if_pos rfl]
    · rw [if_neg none,items4,items3,if_pos rfl]
    · rw [items4,items3,if_neg behind,items2,if_pos rfl,lastKnown]
      rfl
    · rw [items4,items3,if_neg other,items2,if_neg (notLast none),made.items q other]
    · rw [m4_def,m3.list_store_list,if_neg other,lists3,made.lists]

theorem added_seg {m' : Memory} {lp new : Ptr} {head : Head} {value : Item} {es : List (Ptr × Item)}
    (seg : Seg m.item 0 head.first es head.last 0) (added : Added m m' lp head new value) : ∃ first last,
    m'.list lp = some ⟨first,last,if head.first = 0 then new else head.next⟩ ∧
      Seg m'.item 0 first (es ++ [(new,value)]) last 0 := by
  by_cases none : head.first = 0
  · have nothing : es = [] := by
      cases es with
      | nil => rfl
      | cons e es => exact absurd (seg.1.symm.trans none) seg.2.1
    subst nothing
    refine ⟨new,new,by rw [added.header,if_pos none,if_pos none],(seg_one _).mpr ⟨rfl,rfl,added.there,?_⟩⟩
    rw [added.cell,if_pos none]
  · have some : es ≠ [] := fun nothing => by
      subst nothing
      exact none seg.2.symm
    refine ⟨head.first,new,by rw [added.header,if_neg none,if_neg none],?_⟩
    refine seg_push seg some (seg_nodup seg) (new,value) added.there (added.tail none) ?_ fun d inside other => ?_
    · rw [added.cell,if_neg none]
    · refine added.items d.1 (fun same => added.fresh ?_) fun _ => other
      obtain ⟨-,_,_,cell⟩ := seg_cell seg d inside
      exact same ▸ m.item_inside d.1 _ cell

theorem listAdd_yields (lp item : Ptr) (size : Nat) (head : Head) (given : lp ≠ 0) (known : m.list lp = some head)
    (tail : head.first ≠ 0 → ∃ cell, m.item head.last = some cell) : ∃ new stored m',
    Yields (listAdd heap lp item size) m stored m' ∧ (size = 0 → stored = item) ∧ (size ≠ 0 → stored ≠ 0) ∧
      Added m m' lp head new ⟨stored,size⟩ := by
  obtain ⟨new,stored,m1,made,plain,copied,done⟩ := @newitem_yields m heap item size
  obtain ⟨m',linked,added⟩ := append_yields done known tail
  refine ⟨new,stored,m',?_,plain,copied,added⟩
  exact yields_neg given (yields_bind made (yields_bind linked (yields_bind (yields_getItem added.cell) (yields_pure _))))

/-- A chain has fewer cells than there are rounds. -/
theorem seg_rounds {before first last after : Ptr} {es : List (Ptr × Item)} (seg : Seg m.item before first es last after)
    (distinct : (es.map Prod.fst).Nodup) : es.length < m.blocks.keys.card + 1 := by
  have inside : (es.map Prod.fst).toFinset ⊆ m.blocks.keys := by
    intro p member
    obtain ⟨e,listed,rfl⟩ := List.mem_map.mp (List.mem_toFinset.mp member)
    obtain ⟨-,prev,next,cell⟩ := seg_cell seg e listed
    exact Finmap.mem_keys.mpr (m.item_inside e.1 _ cell)
  have count := Finset.card_le_card inside
  rw [List.toFinset_card_of_nodup distinct,List.length_map] at count
  omega

theorem countFrom_yields {before ip last : Ptr} {es : List (Ptr × Item)} (seg : Seg m.item before ip es last 0) (n : Nat)
    (enough : es.length < n) (count : Nat) : Yields (countFrom n ip count) m (count + es.length) m := by
  induction es generalizing before ip n count with
  | nil =>
    obtain ⟨n,rfl⟩ := Nat.exists_eq_add_of_lt enough
    obtain ⟨-,rfl⟩ := seg
    exact yields_pos rfl (yields_pure count)
  | cons e es ih =>
    obtain ⟨n,rfl⟩ : ∃ k, n = k + 1 := ⟨n - 1,by simp at enough; omega⟩
    obtain ⟨rfl,there,next,cell,rest⟩ := seg
    have later := ih rest n (by simpa using enough) (count + 1)
    rw [List.length_cons,Nat.add_comm es.length,← Nat.add_assoc]
    exact yields_neg there (yields_bind (yields_getItem cell) later)

private theorem seek_yields (item : Ptr) {before ip last : Ptr} {es : List (Ptr × Item)} (seg : Seg m.item before ip es last 0)
    (n : Nat) (enough : es.length < n) :
    Yields (seek item n ip) m (((es.find? (fun e => item = e.2.item)).map Prod.fst).getD 0) m := by
  induction es generalizing before ip n with
  | nil =>
    obtain ⟨n,rfl⟩ := Nat.exists_eq_add_of_lt enough
    obtain ⟨-,rfl⟩ := seg
    exact yields_pos rfl (yields_pure _)
  | cons e es ih =>
    obtain ⟨n,rfl⟩ : ∃ k, n = k + 1 := ⟨n - 1,by simp at enough; omega⟩
    obtain ⟨rfl,there,next,cell,rest⟩ := seg
    have later := ih rest n (by simpa using enough)
    refine yields_neg there (yields_bind (yields_getItem cell) ?_)
    by_cases same : item = e.2.item
    · rw [List.find?_cons_of_pos (by simpa using same)]
      exact yields_pos same (yields_pure _)
    · rw [List.find?_cons_of_neg (by simpa using same)]
      exact yields_neg same later

theorem findNode_yields (lp item : Ptr) {head : Head} {es : List (Ptr × Item)} (known : m.list lp = some head)
    (seg : Seg m.item 0 head.first es head.last 0) :
    Yields (findNode lp item) m (((es.find? (fun e => item = e.2.item)).map Prod.fst).getD 0) m :=
  yields_bind (yields_getList known) (yields_bind yields_rounds (seek_yields item seg _ (seg_rounds seg (seg_nodup seg))))

/-- Data blocks are not touched by what is stored elsewhere. -/
private theorem data_store {p q : Ptr} (b : Block) (data : m.blocks.lookup q = some .data)
    (other : (m.item p).isSome ∨ (m.list p).isSome) : (m.store p b).blocks.lookup q = some .data := by
  have apart : q ≠ p := by
    rintro rfl
    unfold Memory.item Memory.list at other
    rw [data] at other
    simp at other
  exact (Finmap.lookup_insert_of_ne _ apart).trans data

/-- A node with one link set anew, if it is one, and all else as it was. -/
structure Relinked (m m' : Memory) (p : Ptr) (link : ListItem → ListItem) : Prop where
  node : p ≠ 0 → m'.item p = (m.item p).map link
  items : ∀ q, (p ≠ 0 → q ≠ p) → m'.item q = m.item q
  lists : ∀ q, m'.list q = m.list q
  data : ∀ q, m.blocks.lookup q = some .data → m'.blocks.lookup q = some .data

private theorem relink_yields (p : Ptr) (link : ListItem → ListItem) (known : p ≠ 0 → ∃ cell, m.item p = some cell) :
    ∃ m', Yields (if p ≠ 0 then (do
      let node ← getItem p
      setItem p (link node)) else return () : C Unit) m () m' ∧ Relinked m m' p link := by
  by_cases there : p ≠ 0
  · obtain ⟨cell,found⟩ := known there
    refine ⟨m.store p (.item (link cell)),yields_pos there (yields_bind (yields_getItem found) (yields_setItem _ found)),
      fun _ => ?_,fun q other => ?_,fun q => m.list_store_item p q _ (m.list_item p cell found),fun q data => ?_⟩
    · rw [m.item_store_item,if_pos rfl,found]
      rfl
    · rw [m.item_store_item,if_neg (other there)]
    · exact data_store _ data (.inl (by simp [found]))
  · exact ⟨m,yields_neg there (yields_pure ()),fun absurd => (there absurd).elim,fun _ _ => rfl,fun _ => rfl,fun _ => id⟩

/-- A node taken out of a list; what it holds itself is as it was. -/
structure Unlinked (m m' : Memory) (lp : Ptr) (head : Head) (ip prev next : Ptr) : Prop where
  header : m'.list lp = some ⟨if ip = head.first then next else head.first,if ip = head.last then prev else head.last,
    if ip = head.next then next else head.next⟩
  before : prev ≠ 0 → m'.item prev = (m.item prev).map (fun c => {c with next := next})
  behind : next ≠ 0 → m'.item next = (m.item next).map (fun c => {c with prev := prev})
  items : ∀ q, (prev ≠ 0 → q ≠ prev) → (next ≠ 0 → q ≠ next) → m'.item q = m.item q
  lists : ∀ q, q ≠ lp → m'.list q = m.list q
  data : ∀ q, m.blocks.lookup q = some .data → m'.blocks.lookup q = some .data

theorem unlink_yields (lp ip : Ptr) (head : Head) (value : Item) (prev next : Ptr) (listed : m.list lp = some head)
    (node : m.item ip = some ⟨value,prev,next⟩) (before : prev ≠ 0 → prev ≠ ip ∧ ∃ cell, m.item prev = some cell)
    (behind : next ≠ 0 → next ≠ ip ∧ next ≠ prev ∧ ∃ cell, m.item next = some cell) : ∃ m',
    Yields (unlink lp ip) m () m' ∧ Unlinked m m' lp head ip prev next := by
  obtain ⟨m1,set1,done1⟩ := @relink_yields m prev (fun c => {c with next := next}) fun some => (before some).2
  have nextKnown : next ≠ 0 → ∃ cell, m1.item next = some cell := fun some => by
    obtain ⟨-,apart,cell,found⟩ := behind some
    exact ⟨cell,(done1.items next fun _ => apart).trans found⟩
  obtain ⟨m2,set2,done2⟩ := @relink_yields m1 next (fun c => {c with prev := prev}) nextKnown
  have listed2 : m2.list lp = some head := ((done2.lists lp).trans (done1.lists lp)).trans listed
  set m3 := m2.store lp (.list ⟨if ip = head.first then next else head.first,if ip = head.last then prev else head.last,
    if ip = head.next then next else head.next⟩) with m3_def
  have items3 (q : Ptr) : m3.item q = m2.item q := m2.item_store_list lp q _ (m2.item_list lp head listed2)
  refine ⟨m3,?_,?_,fun some => ?_,fun some => ?_,fun q first second => ?_,fun q other => ?_,fun q data => ?_⟩
  · refine yields_bind (yields_getItem node) (yields_bind set1 (yields_bind set2 ?_))
    exact yields_bind (yields_getList listed2) (yields_setList _ listed2)
  · rw [m3_def,m2.list_store_list,if_pos rfl]
  · have notNext (some : next ≠ 0) : prev ≠ next := (behind some).2.1.symm
    rw [items3,done2.items prev notNext,done1.node some]
  · rw [items3,done2.node some,done1.items next fun _ => (behind some).2.1]
  · rw [items3,done2.items q second,done1.items q first]
  · rw [m3_def,m2.list_store_list,if_neg other,done2.lists,done1.lists]
  · exact data_store _ (done2.data q (done1.data q data)) (.inr (by simp [listed2]))

structure Removed (m m' : Memory) (lp : Ptr) (head : Head) (ip prev next : Ptr) : Prop where
  header : m'.list lp = some ⟨if ip = head.first then next else head.first,if ip = head.last then prev else head.last,
    if ip = head.next then next else head.next⟩
  before : prev ≠ 0 → m'.item prev = (m.item prev).map (fun c => {c with next := next})
  behind : next ≠ 0 → m'.item next = (m.item next).map (fun c => {c with prev := prev})
  items : ∀ q, q ≠ ip → (prev ≠ 0 → q ≠ prev) → (next ≠ 0 → q ≠ next) → m'.item q = m.item q
  lists : ∀ q, q ≠ lp → m'.list q = m.list q

private theorem item_erase (p q : Ptr) : ({m with blocks := m.blocks.erase p} : Memory).item q =
    if q = p then none else m.item q := by
  unfold Memory.item
  split_ifs with same
  · rw [same,Finmap.lookup_erase]
  · rw [Finmap.lookup_erase_ne same]

private theorem list_erase (p q : Ptr) (none : m.list p = none) :
    ({m with blocks := m.blocks.erase p} : Memory).list q = m.list q := by
  by_cases same : q = p
  · subst same
    rw [none]
    unfold Memory.list
    rw [Finmap.lookup_erase]
  · unfold Memory.list
    rw [Finmap.lookup_erase_ne same]

/-- The caller's block goes, and freeing NULL does nothing. -/
private theorem freeData_yields (item : Ptr) (freed : item = 0 ∨ m.blocks.lookup item = some .data) : ∃ m',
    Yields (free item) m () m' ∧ (∀ q, m'.item q = m.item q) ∧ ∀ q, m'.list q = m.list q := by
  by_cases null : item = 0
  · exact ⟨m,if_pos null,fun _ => rfl,fun _ => rfl⟩
  · have data := freed.resolve_left null
    have kinds : m.item item = none ∧ m.list item = none := by
      unfold Memory.item Memory.list
      rw [data]
      exact ⟨rfl,rfl⟩
    refine ⟨{m with blocks := m.blocks.erase item},?_,fun q => ?_,fun q => list_erase item q kinds.2⟩
    · unfold Yields free
      rw [if_neg null,if_pos (Finmap.mem_of_lookup_eq_some data)]
    · rw [item_erase]
      split_ifs with same
      · rw [same,kinds.1]
      · rfl

private theorem freeNode_yields (ip : Ptr) (there : ip ≠ 0) (cell : ListItem) (known : m.item ip = some cell) : ∃ m',
    Yields (free ip) m () m' ∧ (∀ q, q ≠ ip → m'.item q = m.item q) ∧ ∀ q, m'.list q = m.list q := by
  refine ⟨{m with blocks := m.blocks.erase ip},?_,fun q other => ?_,fun q => list_erase ip q (m.list_item ip cell known)⟩
  · unfold Yields free
    rw [if_neg there,if_pos (m.item_inside ip cell known)]
  · rw [item_erase,if_neg other]

theorem removed_yields (lp item ip : Ptr) (head : Head) (value : Item) (prev next : Ptr) (listed : m.list lp = some head)
    (node : m.item ip = some ⟨value,prev,next⟩) (there : ip ≠ 0)
    (freed : item = 0 ∨ m.blocks.lookup item = some .data)
    (before : prev ≠ 0 → prev ≠ ip ∧ ∃ cell, m.item prev = some cell)
    (behind : next ≠ 0 → next ≠ ip ∧ next ≠ prev ∧ ∃ cell, m.item next = some cell) : ∃ m',
    Yields (do
      unlink lp ip
      free item
      free ip : C Unit) m () m' ∧ Removed m m' lp head ip prev next := by
  obtain ⟨m1,unlinked,done⟩ := unlink_yields lp ip head value prev next listed node before behind
  obtain ⟨m2,free2,items2,lists2⟩ := freeData_yields item (freed.imp_right (done.data item))
  have node2 : m2.item ip = some ⟨value,prev,next⟩ := by
    rw [items2,done.items ip (fun some => (before some).1.symm) (fun some => (behind some).1.symm),node]
  obtain ⟨m3,free3,items3,lists3⟩ := freeNode_yields ip there _ node2
  have items (q : Ptr) (other : q ≠ ip) : m3.item q = m1.item q := by rw [items3 q other,items2]
  refine ⟨m3,yields_bind unlinked (yields_bind free2 free3),?_,fun some => ?_,fun some => ?_,
    fun q first second third => ?_,fun q other => ?_⟩
  · rw [lists3,lists2,done.header]
  · rw [items prev (before some).1,done.before some]
  · rw [items next (behind some).1,done.behind some]
  · rw [items q first,done.items q second third]
  · rw [lists3,lists2,done.lists q other]

end

end Jbdtool.Lists
