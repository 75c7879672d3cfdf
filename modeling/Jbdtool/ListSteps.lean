import Jbdtool.ListRefine

/-! What each call does to the sequences that the lists stand for. -/
namespace Jbdtool.Lists
open Chain
variable {α β : Type}

/-- An item in a list, named by when it was added. -/
structure Entry where
  id : Nat
  node : Ptr
  item : Ptr
  size : Nat
deriving DecidableEq

def Entry.cell (e : Entry) : Ptr × Item := (e.node,⟨e.item,e.size⟩)

/-- The lists there are, and how many items have been added to any. -/
structure Model where
  serial : Nat
  lists : Ptr → Option (Cursored Entry)

namespace Model

def empty : Model := ⟨0,fun _ => none⟩

def set (S : Model) (lp : Ptr) (z : Cursored Entry) : Model := {S with lists := Function.update S.lists lp (some z)}

def entries (S : Model) (lp : Ptr) : List Entry := ((S.lists lp).map Cursored.all).getD []

@[simp] theorem set_same (S : Model) (lp : Ptr) (z : Cursored Entry) : (S.set lp z).lists lp = some z :=
  Function.update_self _ _ _

theorem set_other (S : Model) (lp lp' : Ptr) (z : Cursored Entry) (other : lp' ≠ lp) :
    (S.set lp z).lists lp' = S.lists lp' :=
  Function.update_of_ne other _ _

theorem entries_some (S : Model) (lp : Ptr) (z : Cursored Entry) (known : S.lists lp = some z) : S.entries lp = z.all := by
  unfold entries
  rw [known]
  rfl

end Model

def cursor (z : Cursored Entry) : Ptr := (z.ahead.head?.map Entry.node).getD 0

/-- The links of every list are consistent, its items are the sequence, and its cursor is
null or one of its nodes; no node is in two lists. -/
structure Represents (m : Memory) (S : Model) : Prop where
  there : ∀ lp, (S.lists lp).isSome → lp ≠ 0
  lists : ∀ lp, (S.lists lp).isSome ↔ (m.list lp).isSome
  chain : ∀ lp z, S.lists lp = some z → ∃ first last, m.list lp = some ⟨first,last,cursor z⟩ ∧
    Seg m.item 0 first (z.all.map Entry.cell) last 0
  distinct : ∀ lp z, S.lists lp = some z → (z.all.map Entry.node).Nodup
  apart : ∀ lp lp' z z', S.lists lp = some z → S.lists lp' = some z' → lp ≠ lp' →
    ∀ e ∈ z.all, ∀ e' ∈ z'.all, e.node ≠ e'.node

structure Call where
  op : Op
  result : Int
  node : Option Entry

def Copied (e copy : Entry) : Prop :=
  copy.size = e.size ∧ (e.size = 0 → copy.item = e.item) ∧ (e.size ≠ 0 → copy.item ≠ 0)

/-- What a call makes of the sequences, its result, and the entry that a list_get_next
returns the item of. Copies are entries of their own, with the same pointers where the
list was given pointers only. -/
def Step (S : Model) (c : Call) (S' : Model) : Prop :=
  match c.op with
  | .malloc => c.node = none ∧ S' = S
  | .create => ∃ lp : Ptr, lp ≠ 0 ∧ S.lists lp = none ∧ c.result = lp ∧ c.node = none ∧ S' = S.set lp .empty
  | .add lp item size => ∃ z node stored, S.lists lp = some z ∧ (size = 0 → stored = item) ∧ (size ≠ 0 → stored ≠ 0) ∧
      c.result = stored ∧ c.node = none ∧
      S' = {S.set lp (z.add ⟨S.serial,node,stored,size⟩) with serial := S.serial + 1}
  | .delete lp item => ∃ z, S.lists lp = some z ∧ c.node = none ∧
      c.result = (if z.all.any (fun e => item = e.item) then 0 else 1) ∧ S' = S.set lp (z.delete (fun e => item = e.item))
  | .reset lp => ∃ z, S.lists lp = some z ∧ c.result = 0 ∧ c.node = none ∧ S' = S.set lp z.reset
  | .getNext lp => ∃ z, S.lists lp = some z ∧ c.node = z.ahead.head? ∧
      c.result = ((z.ahead.head?.map Entry.item).getD 0 : Ptr) ∧ S' = S.set lp z.next
  | .count lp => ∃ z, S.lists lp = some z ∧ c.result = z.all.length ∧ c.node = none ∧ S' = S
  | .isNext lp => ∃ z, S.lists lp = some z ∧ c.result = (if z.ahead = [] then 0 else 1) ∧ c.node = none ∧ S' = S
  | .dup lp => ∃ z copies, ∃ lp' : Ptr, S.lists lp = some z ∧ lp' ≠ 0 ∧ S.lists lp' = none ∧ c.result = lp' ∧
      c.node = none ∧ copies.map Entry.id = List.range' S.serial z.all.length ∧ List.Forall₂ Copied z.all copies ∧
      S' = {S.set lp' ⟨[],copies⟩ with serial := S.serial + z.all.length}

section
variable {m m' : Memory} {S : Model} {heap : Malloc}

/-- One list has changed, on nodes of its own or new ones. -/
private theorem represents_set (rep : Represents m S) (lp : Ptr) (there : lp ≠ 0) (z' : Cursored Entry) (serial : Nat)
    (header : ∃ first last, m'.list lp = some ⟨first,last,cursor z'⟩ ∧ Seg m'.item 0 first (z'.all.map Entry.cell) last 0)
    (distinct : (z'.all.map Entry.node).Nodup)
    (nodes : ∀ e ∈ z'.all, e.node ∈ (S.entries lp).map Entry.node ∨ m.item e.node = none)
    (items : ∀ q, (m.item q).isSome → q ∉ (S.entries lp).map Entry.node → m'.item q = m.item q)
    (lists : ∀ q, q ≠ lp → m'.list q = m.list q) : Represents m' {S.set lp z' with serial := serial} := by
  have others (lp' : Ptr) (z : Cursored Entry) (known : S.lists lp' = some z) (other : lp' ≠ lp) (e : Entry)
      (inside : e ∈ z.all) : e.node ∉ (S.entries lp).map Entry.node ∧ (m.item e.node).isSome := by
    obtain ⟨first,last,-,seg⟩ := rep.chain lp' z known
    obtain ⟨-,prev,next,cell⟩ := seg_cell seg e.cell (List.mem_map_of_mem inside)
    refine ⟨fun member => ?_,by rw [show m.item e.node = _ from cell]; rfl⟩
    obtain ⟨d,listed,same⟩ := List.mem_map.mp member
    cases here : S.lists lp with
    | none => simp [Model.entries,here] at listed
    | some z0 =>
      rw [S.entries_some lp z0 here] at listed
      exact rep.apart lp lp' z0 z here known other.symm d listed e inside same
  have split (lp' : Ptr) (z : Cursored Entry) (known : ({S.set lp z' with serial := serial} : Model).lists lp' = some z) :
      (lp' = lp ∧ z = z') ∨ (lp' ≠ lp ∧ S.lists lp' = some z) := by
    by_cases same : lp' = lp
    · subst same
      exact .inl ⟨rfl,(Option.some.inj ((S.set_same lp' z').symm.trans known)).symm⟩
    · exact .inr ⟨same,(S.set_other lp lp' z' same).symm.trans known⟩
  refine ⟨fun lp' some => ?_,fun lp' => ?_,fun lp' z known => ?_,fun lp' z known => ?_,fun lp1 lp2 z1 z2 known1 known2 other e1 in1 e2 in2 => ?_⟩
  · by_cases same : lp' = lp
    · rwa [same]
    · exact rep.there lp' ((congrArg Option.isSome (S.set_other lp lp' z' same)).symm.trans some)
  · by_cases same : lp' = lp
    · obtain ⟨first,last,listed,-⟩ := header
      rw [same,listed]
      simp
    · rw [lists lp' same,← rep.lists lp']
      exact iff_of_eq (congrArg (fun o : Option (Cursored Entry) => o.isSome = true) (S.set_other lp lp' z' same))
  · rcases split lp' z known with ⟨rfl,rfl⟩ | ⟨other,known⟩
    · exact header
    · obtain ⟨first,last,listed,seg⟩ := rep.chain lp' z known
      refine ⟨first,last,(lists lp' other).trans listed,seg_frame (fun c member => ?_) seg⟩
      obtain ⟨e,inside,rfl⟩ := List.mem_map.mp member
      obtain ⟨absent,there⟩ := others lp' z known other e inside
      exact items e.node there absent
  · rcases split lp' z known with ⟨rfl,rfl⟩ | ⟨other,known⟩
    · exact distinct
    · exact rep.distinct lp' z known
  · have fresh (e e' : Entry) (lp' : Ptr) (z : Cursored Entry) (inside : e ∈ z'.all) (known : S.lists lp' = some z)
        (other : lp' ≠ lp) (inside' : e' ∈ z.all) : e.node ≠ e'.node := by
      obtain ⟨absent,there⟩ := others lp' z known other e' inside'
      intro same
      rcases nodes e inside with old | new
      · exact absent (same ▸ old)
      · rw [← same,new] at there
        cases there
    rcases split lp1 z1 known1 with ⟨rfl,rfl⟩ | ⟨other1,old1⟩
    · rcases split lp2 z2 known2 with ⟨rfl,-⟩ | ⟨other2,old2⟩
      · exact (other rfl).elim
      · exact fresh e1 e2 lp2 z2 in1 old2 other2 in2
    · rcases split lp2 z2 known2 with ⟨rfl,rfl⟩ | ⟨other2,old2⟩
      · exact (fresh e2 e1 lp1 z1 in2 old1 other1 in1).symm
      · exact rep.apart lp1 lp2 z1 z2 old1 old2 other e1 in1 e2 in2

theorem represents_empty : Represents .empty .empty where
  there := nofun
  lists _ := iff_of_false nofun nofun
  chain := nofun
  distinct := nofun
  apart := nofun

private theorem represents_same (rep : Represents m S) (items : ∀ q, m'.item q = m.item q) (lists : ∀ q, m'.list q = m.list q) :
    Represents m' S where
  there := rep.there
  lists lp := by rw [lists,rep.lists]
  chain lp z known := by
    obtain ⟨first,last,listed,seg⟩ := rep.chain lp z known
    exact ⟨first,last,(lists lp).trans listed,seg_frame (fun e _ => items e.1) seg⟩
  distinct := rep.distinct
  apart := rep.apart

private theorem cells_nodes (entries : List Entry) : (entries.map Entry.cell).map Prod.fst = entries.map Entry.node := by
  rw [List.map_map]
  rfl

private theorem cursor_add (z : Cursored Entry) (e : Entry) : cursor (z.add e) = if z.all = [] then e.node else cursor z := by
  unfold Cursored.add cursor
  cases ahead : z.ahead with
  | cons d rest =>
    have some : z.all ≠ [] := by simp [Cursored.all,ahead]
    rw [if_neg fun atEnd => List.cons_ne_nil d rest atEnd.1,if_neg some]
    rfl
  | nil =>
    by_cases passed : z.passed = []
    · rw [if_neg fun atEnd => atEnd.2 passed,if_pos (by simp [Cursored.all,ahead,passed])]
      rfl
    · rw [if_pos ⟨rfl,passed⟩,if_neg (by simp [Cursored.all,passed])]

theorem add_step (rep : Represents m S) (lp item : Ptr) (size : Nat) (z : Cursored Entry) (known : S.lists lp = some z) :
    ∃ new stored m', Yields (listAdd heap lp item size) m stored m' ∧ (size = 0 → stored = item) ∧
      (size ≠ 0 → stored ≠ 0) ∧
      Represents m' {S.set lp (z.add ⟨S.serial,new,stored,size⟩) with serial := S.serial + 1} := by
  have there : lp ≠ 0 := rep.there lp (by simp [known])
  obtain ⟨first,last,listed,seg⟩ := rep.chain lp z known
  have distinct := rep.distinct lp z known
  obtain ⟨new,stored,m',yields,plain,copied,added⟩ := @listAdd_yields m heap lp item size ⟨first,last,cursor z⟩ there
    listed fun some => seg_known seg last (seg_tail seg some)
  have absent : m.item new = none := m.item_outside new added.fresh
  have unused : new ∉ z.all.map Entry.node := fun member => by
    obtain ⟨cell,held⟩ := seg_known seg new (cells_nodes z.all ▸ member)
    rw [absent] at held
    cases held
  have entries := S.entries_some lp z known
  refine ⟨new,stored,m',yields,plain,copied,represents_set rep lp there _ _ ?_ ?_ ?_ ?_ added.lists⟩
  · have start : first = 0 ↔ z.all = [] := by
      rw [seg_first seg]
      cases all : z.all with
      | nil => simp
      | cons e es => simpa using (seg_cell seg e.cell (by simp [all])).1
    obtain ⟨first',last',listed',seg'⟩ := added_seg seg added
    rw [Cursored.all_add,List.map_append,cursor_add]
    simp only [start] at listed'
    exact ⟨first',last',listed',seg'⟩
  · rw [Cursored.all_add,List.map_append]
    refine List.nodup_append.mpr ⟨distinct,List.nodup_singleton _,fun a inside b only same => ?_⟩
    have last : a = new := same.trans (List.mem_singleton.mp only)
    exact unused (last ▸ inside)
  · intro e inside
    rw [Cursored.all_add] at inside
    rcases List.mem_append.mp inside with old | only
    · exact .inl (entries ▸ List.mem_map_of_mem old)
    · exact .inr (List.mem_singleton.mp only ▸ absent)
  · intro q some outside
    refine added.items q (fun same => ?_) fun nonempty same => ?_
    · rw [same,absent] at some
      cases some
    · rw [entries,← cells_nodes] at outside
      exact outside (same ▸ seg_tail seg nonempty)

theorem found_node (rep : Represents m S) (lp item : Ptr) (z : Cursored Entry) (known : S.lists lp = some z) :
    Yields (findNode lp item) m (((z.all.find? (fun e => item = e.item)).map Entry.node).getD 0) m := by
  obtain ⟨first,last,listed,seg⟩ := rep.chain lp z known
  have same : ((z.all.map Entry.cell).find? (fun e => item = e.2.item)).map Prod.fst =
      (z.all.find? (fun e => item = e.item)).map Entry.node := by
    rw [List.find?_map,Option.map_map]
    rfl
  have found := findNode_yields lp item listed seg
  rwa [same] at found

private theorem cursor_delete (z : Cursored Entry) (p : Entry → Bool) (e : Entry) (es fs : List Entry)
    (distinct : (z.all.map Entry.node).Nodup) (first : z.all.find? p = some e) (whole : z.all = es ++ e::fs)
    (there : e.node ≠ 0) : cursor (z.delete p) =
      if e.node = cursor z then (fs.head?.map Entry.node).getD 0 else cursor z := by
  have single : z.all.Nodup := List.Nodup.of_map _ distinct
  rw [Cursored.delete_found z single p e first]
  unfold cursor
  cases ahead : z.ahead with
  | nil => simp [there]
  | cons d rest =>
    have split : z.all = z.passed ++ d::rest := by simp [Cursored.all,ahead]
    have inside : d ∈ z.all := by simp [split]
    by_cases same : e = d
    · subst same
      rw [whole] at split single
      obtain ⟨-,right,apart⟩ := List.nodup_append.mp single
      have before : e ∉ es := fun member => apart e member e List.mem_cons_self rfl
      have behind := (List.nodup_cons.mp right).1
      obtain ⟨-,-,rfl⟩ := (List.append_cons_inj_of_notMem before behind).mp split
      have rest : fs.filter (· ≠ e) = fs := List.filter_eq_self.mpr fun b member => by
        simpa using fun same : b = e => behind (same ▸ member)
      rw [List.filter_cons_of_neg (by simp),rest]
      simp
    · have other : e.node ≠ d.node := fun equal =>
        same (List.inj_on_of_nodup_map distinct (List.mem_of_find?_eq_some first) inside equal)
      have kept : (d::rest).filter (· ≠ e) = d::rest.filter (· ≠ e) :=
        List.filter_cons_of_pos (by simpa using fun equal : d = e => same equal.symm)
      rw [kept]
      simp [other]

theorem delete_step (rep : Represents m S) (lp item : Ptr) (z : Cursored Entry) (known : S.lists lp = some z)
    (freed : (∃ e ∈ z.all, item = e.item) → item = 0 ∨ m.blocks.lookup item = some .data) : ∃ m',
    Yields (listDelete lp item) m (if z.all.any (fun e => item = e.item) then 0 else 1) m' ∧
      Represents m' (S.set lp (z.delete (fun e => item = e.item))) := by
  have there : lp ≠ 0 := rep.there lp (by simp [known])
  have found := found_node rep lp item z known
  have distinct := rep.distinct lp z known
  cases first : z.all.find? (fun e => item = e.item) with
  | none =>
    have missing : ¬ z.all.any (fun e => item = e.item) = true := by
      simpa using List.find?_eq_none.mp first
    refine ⟨m,?_,?_⟩
    · rw [first] at found
      rw [if_neg missing]
      exact yields_neg there (yields_bind found (yields_pos rfl (yields_pure _)))
    · rw [Cursored.delete_missing z _ first]
      have same : S.set lp z = S := by
        unfold Model.set
        rw [← known,Function.update_eq_self]
      rwa [same]
  | some e =>
    obtain ⟨holds,es,fs,whole,none⟩ := List.find?_eq_some_iff_append.mp first
    have inside : e ∈ z.all := List.mem_of_find?_eq_some first
    have same : item = e.item := by simpa using holds
    obtain ⟨start,last,listed,seg⟩ := rep.chain lp z known
    have nodes : ((es.map Entry.cell ++ e.cell::fs.map Entry.cell).map Prod.fst).Nodup := by
      rw [← List.map_cons,← List.map_append,← whole,cells_nodes]
      exact distinct
    rw [whole,List.map_append,List.map_cons] at seg
    have neighbours := seg_neighbours e.cell seg
    obtain ⟨prev,_,front,rfl,some,next,cell,back⟩ := seg_append.mp seg
    obtain ⟨before,behind⟩ := neighbours prev next cell
    obtain ⟨m',yields,removed⟩ := removed_yields lp item e.node _ _ prev next listed cell some
      (freed ⟨e,inside,same⟩) before behind
    have present : z.all.any (fun e => item = e.item) = true := List.any_eq_true.mpr ⟨e,inside,holds⟩
    have left' : (z.delete (fun e => item = e.item)).all = es ++ fs := by
      have erased : (e::fs).eraseP (fun e => decide (item = e.item)) = fs := List.eraseP_cons_of_pos holds
      rw [Cursored.all_delete,whole,List.eraseP_append_right _ fun b member => by simpa using none b member,erased]
    have part : (es ++ fs).Sublist (es ++ e::fs) := (List.sublist_cons_self e fs).append_left es
    have entries := S.entries_some lp z known
    have header : m'.list lp = Option.some ⟨if e.node = start then next else start,if e.node = last then prev else last,
        cursor (z.delete (fun e => item = e.item))⟩ := by
      rw [cursor_delete z _ e es fs distinct first whole some]
      have behind : next = (fs.head?.map Entry.node).getD 0 := by
        have start := seg_first back
        rw [start]
        cases fs <;> rfl
      rw [← behind]
      exact removed.header
    refine ⟨m',?_,represents_set rep lp there _ S.serial ⟨_,_,header,?_⟩ ?_ ?_ ?_ removed.lists⟩
    · rw [if_pos present]
      rw [first] at found
      have whole : Yields (_ >>= fun _ => pure (0 : Int)) m 0 m' := yields_bind yields (yields_pure 0)
      simp only [bind_assoc] at whole
      exact yields_neg there (yields_bind found (yields_neg some whole))
    · rw [left',List.map_append]
      exact seg_remove e.cell seg nodes prev next cell removed.before removed.behind fun d _ first second third =>
        removed.items d.1 first (fun _ => second) fun _ => third
    · rw [left']
      rw [whole] at distinct
      exact distinct.sublist (part.map Entry.node)
    · intro d member
      rw [left'] at member
      refine .inl (entries ▸ List.mem_map_of_mem ?_)
      rw [whole]
      exact part.subset member
    · intro q _ outside
      rw [entries,← cells_nodes,whole,List.map_append,List.map_cons] at outside
      refine removed.items q (fun same => outside ?_) (fun some same => outside ?_) fun some same => outside ?_
      · rw [same]
        simp [Entry.cell]
      · obtain ⟨d,member,equal⟩ := seg_lastCell front some
        rw [same,← equal]
        exact List.mem_map_of_mem (List.mem_append_left _ member)
      · obtain ⟨d,member,equal⟩ := seg_firstCell back some
        rw [same,← equal]
        exact List.mem_map_of_mem (List.mem_append_right _ (List.mem_cons_of_mem _ member))

private theorem cursor_step (rep : Represents m S) (lp : Ptr) (z z' : Cursored Entry) (known : S.lists lp = some z)
    (same : z'.all = z.all) (head : Head) (listed : m.list lp = some head) :
    Represents (m.store lp (.list {head with next := cursor z'})) (S.set lp z') := by
  obtain ⟨first,last,found,seg⟩ := rep.chain lp z known
  obtain rfl : head = ⟨first,last,cursor z⟩ := Option.some.inj (listed.symm.trans found)
  have items (q : Ptr) : (m.store lp (.list ⟨first,last,cursor z'⟩)).item q = m.item q :=
    m.item_store_list lp q _ (m.item_list lp _ listed)
  refine represents_set rep lp (rep.there lp (by simp [known])) z' S.serial ⟨first,last,?_,?_⟩ ?_ ?_
    (fun q _ _ => items q) fun q other => ?_
  · rw [m.list_store_list,if_pos rfl]
  · rw [same]
    exact seg_frame (fun e _ => items e.1) seg
  · rw [same]
    exact rep.distinct lp z known
  · intro e inside
    rw [same] at inside
    rw [S.entries_some lp z known]
    exact .inl (List.mem_map_of_mem inside)
  · rw [m.list_store_list,if_neg other]

private theorem first_node {before first last after : Ptr} {es : List Entry}
    (seg : Seg m.item before first (es.map Entry.cell) last after) :
    first = (es.head?.map Entry.node).getD after := by
  have start := seg_first seg
  rw [start]
  cases es <;> rfl

theorem reset_step (rep : Represents m S) (lp : Ptr) (z : Cursored Entry) (known : S.lists lp = some z) :
    ∃ m', Yields (listReset lp) m 0 m' ∧ Represents m' (S.set lp z.reset) := by
  obtain ⟨first,last,listed,seg⟩ := rep.chain lp z known
  have start : first = cursor z.reset := first_node seg
  refine ⟨_,?_,cursor_step rep lp z z.reset known z.all_reset _ listed⟩
  rw [← start]
  exact yields_neg (rep.there lp (by simp [known])) (yields_bind (yields_getList listed)
    (yields_bind (yields_setList _ listed) (yields_pure 0)))

theorem getNext_step (rep : Represents m S) (lp : Ptr) (z : Cursored Entry) (known : S.lists lp = some z) :
    ∃ m', Yields (listGetNext lp) m ((z.ahead.head?.map Entry.item).getD 0) m' ∧ Represents m' (S.set lp z.next) := by
  have there : lp ≠ 0 := rep.there lp (by simp [known])
  obtain ⟨first,last,listed,seg⟩ := rep.chain lp z known
  have moved := cursor_step rep lp z z.next known z.all_next _ listed
  cases ahead : z.ahead with
  | nil =>
    have stays : z.next = z := by simp [Cursored.next,ahead]
    have atEnd : cursor z = 0 := by simp [cursor,ahead]
    refine ⟨m,?_,?_⟩
    · exact yields_neg there (yields_bind (yields_getList listed) (yields_pos atEnd (yields_pure 0)))
    · have same : S.set lp z = S := by
        unfold Model.set
        rw [← known,Function.update_eq_self]
      rwa [stays,same]
  | cons e rest =>
    have split : z.all.map Entry.cell = z.passed.map Entry.cell ++ e.cell::rest.map Entry.cell := by
      simp [Cursored.all,ahead]
    rw [split] at seg
    obtain ⟨prev,_,-,rfl,some,next,cell,back⟩ := seg_append.mp seg
    have on : cursor z = e.node := by simp [cursor,ahead]
    have behind : next = cursor z.next := by
      rw [first_node back]
      simp [cursor,Cursored.next,ahead]
    refine ⟨_,?_,moved⟩
    rw [on] at listed
    rw [on,← behind]
    exact yields_neg there (yields_bind (yields_getList listed) (yields_neg some (yields_bind (yields_getItem cell)
      (yields_bind (yields_setList _ listed) (yields_pure _)))))

theorem count_step (rep : Represents m S) (lp : Ptr) (z : Cursored Entry) (known : S.lists lp = some z) :
    Yields (listCount lp) m z.all.length m := by
  obtain ⟨first,last,listed,seg⟩ := rep.chain lp z known
  have enough := seg_rounds seg (cells_nodes z.all ▸ rep.distinct lp z known)
  have count := countFrom_yields seg _ enough 0
  rw [List.length_map,Nat.zero_add] at count
  exact yields_neg (rep.there lp (by simp [known])) (yields_bind (yields_getList listed)
    (yields_bind yields_rounds (yields_bind count (yields_pure _))))

theorem isNext_step (rep : Represents m S) (lp : Ptr) (z : Cursored Entry) (known : S.lists lp = some z) :
    Yields (listIsNext lp) m (if z.ahead = [] then 0 else 1) m := by
  obtain ⟨first,last,listed,seg⟩ := rep.chain lp z known
  have same : (if cursor z ≠ 0 then 1 else 0 : Int) = if z.ahead = [] then 0 else 1 := by
    cases ahead : z.ahead with
    | nil => simp [cursor,ahead]
    | cons e rest =>
      have inside : e ∈ z.all := by simp [Cursored.all,ahead]
      have some := (seg_cell seg e.cell (List.mem_map_of_mem inside)).1
      have on : cursor z = e.cell.1 := by simp [cursor,ahead,Entry.cell]
      rw [on,if_pos some,if_neg (List.cons_ne_nil e rest)]
  rw [← same]
  exact yields_neg (rep.there lp (by simp [known])) (yields_bind (yields_getList listed) (yields_pure _))

theorem create_step (rep : Represents m S) : ∃ lp m', Yields (listCreate heap) m lp m' ∧ lp ≠ 0 ∧ S.lists lp = none ∧
    Represents m' (S.set lp .empty) := by
  obtain ⟨lp,made,there,fresh⟩ := @malloc_yields m heap (.list ⟨0,0,0⟩)
  have none : S.lists lp = none := by
    have absent := (rep.lists lp).not.mpr (by simp [m.list_outside lp fresh])
    simpa using absent
  refine ⟨lp,_,made,there,none,represents_set rep lp there .empty S.serial ⟨0,0,?_,rfl,rfl⟩ List.nodup_nil nofun
    (fun q _ _ => ?_) fun q other => ?_⟩
  · exact (m.list_store_list lp lp _).trans (if_pos rfl)
  · exact m.item_store_list lp q _ (m.item_outside lp fresh)
  · exact (m.list_store_list lp q _).trans (if_neg other)

theorem malloc_step (rep : Represents m S) : ∃ p m', Yields (malloc heap .data) m p m' ∧ Represents m' S := by
  obtain ⟨p,made,-,fresh⟩ := @malloc_yields m heap .data
  exact ⟨p,_,made,represents_same rep (fun q => (m.store_data p q fresh).1) fun q => (m.store_data p q fresh).2⟩

end

section
variable {heap : Malloc} {lp new : Ptr} {z : Cursored Entry}

/-- From any node of one list on, the entries are added to the other. -/
private theorem copyFrom_step (apart : lp ≠ new) (es : List Entry) (m : Memory) (S : Model) (done copies : List Entry) (n : Nat)
    (rep : Represents m S) (known : S.lists lp = some z) (whole : z.all = done ++ es)
    (target : S.lists new = some ⟨[],copies⟩) (enough : es.length < n) : ∃ more m',
    Yields (copyFrom heap new n ((es.head?.map Entry.node).getD 0)) m () m' ∧
      more.map Entry.id = List.range' S.serial es.length ∧ List.Forall₂ Copied es more ∧
      Represents m' {S.set new ⟨[],copies ++ more⟩ with serial := S.serial + es.length} := by
  induction es generalizing m S done copies n with
  | nil =>
    obtain ⟨n,rfl⟩ := Nat.exists_eq_add_of_lt enough
    have same : S.set new ⟨[],copies ++ []⟩ = S := by
      unfold Model.set
      rw [List.append_nil,← target,Function.update_eq_self]
    exact ⟨[],m,yields_pos rfl (yields_pure ()),rfl,.nil,by rw [same]; exact rep⟩
  | cons e es ih =>
    obtain ⟨n,rfl⟩ : ∃ k, n = k + 1 := ⟨n - 1,by simp at enough; omega⟩
    have node {m : Memory} {S : Model} (rep : Represents m S) (known : S.lists lp = some z) : e.node ≠ 0 ∧
        ∃ prev, m.item e.node = some ⟨⟨e.item,e.size⟩,prev,(es.head?.map Entry.node).getD 0⟩ := by
      obtain ⟨first,last,-,seg⟩ := rep.chain lp z known
      rw [whole,List.map_append,List.map_cons] at seg
      obtain ⟨prev,_,-,rfl,some,next,cell,back⟩ := seg_append.mp seg
      exact ⟨some,prev,(first_node back) ▸ cell⟩
    obtain ⟨some,prev,cell⟩ := node rep known
    obtain ⟨copy,stored,m1,added,plain,copied,rep1⟩ := @add_step m S heap rep new e.item e.size _ target
    set entry : Entry := ⟨S.serial,copy,stored,e.size⟩ with entry_def
    set S1 : Model := {S.set new (Cursored.add ⟨[],copies⟩ entry) with serial := S.serial + 1} with S1_def
    have still : S1.lists lp = Option.some z := (S.set_other new lp _ apart).trans known
    have moved : Cursored.add ⟨[],copies⟩ entry = ⟨[],copies ++ [entry]⟩ := if_neg fun atEnd => atEnd.2 rfl
    obtain ⟨-,prev',cell'⟩ := node rep1 still
    obtain ⟨more,m',rest,ids,all,rep'⟩ := ih m1 S1 (done ++ [e]) (copies ++ [entry]) n rep1 still
      (by simp [whole]) ((S.set_same new _).trans (congrArg _ moved)) (by simpa using enough)
    refine ⟨entry::more,m',?_,?_,.cons ⟨rfl,plain,copied⟩ all,?_⟩
    · exact yields_neg some (yields_bind (yields_getItem cell) (yields_bind added (yields_bind (yields_getItem cell') rest)))
    · rw [List.map_cons,ids,List.length_cons,List.range'_succ]
    · have final : ({S.set new ⟨[],copies ++ entry::more⟩ with serial := S.serial + (e::es).length} : Model) =
          {S1.set new ⟨[],copies ++ [entry] ++ more⟩ with serial := S1.serial + es.length} := by
        simp only [S1_def,Model.set,Function.update_idem,List.length_cons,List.append_assoc,List.singleton_append]
        rw [Nat.add_assoc,Nat.add_comm 1]
      rw [final]
      exact rep'

theorem dup_step {m : Memory} {S : Model} (rep : Represents m S) (known : S.lists lp = some z) : ∃ copies new m',
    Yields (listDup heap lp) m new m' ∧ new ≠ 0 ∧ S.lists new = none ∧
      copies.map Entry.id = List.range' S.serial z.all.length ∧ List.Forall₂ Copied z.all copies ∧
      Represents m' {S.set new ⟨[],copies⟩ with serial := S.serial + z.all.length} := by
  obtain ⟨new,m1,made,there,absent,rep1⟩ := @create_step m S heap rep
  have apart : lp ≠ new := by
    rintro rfl
    rw [known] at absent
    cases absent
  have still : (S.set new .empty).lists lp = some z := (S.set_other new lp _ apart).trans known
  obtain ⟨first,last,listed,seg⟩ := rep1.chain lp z still
  have enough := seg_rounds seg (cells_nodes z.all ▸ rep1.distinct lp z still)
  rw [List.length_map] at enough
  obtain ⟨copies,m',copied,ids,all,rep'⟩ := @copyFrom_step heap lp new z apart z.all m1 _ [] [] _ rep1 still rfl
    (S.set_same new .empty) enough
  rw [← first_node seg] at copied
  refine ⟨copies,new,m',?_,there,absent,ids,all,?_⟩
  · exact yields_neg (rep.there lp (by simp [known])) (yields_bind made (yields_bind (yields_getList listed)
      (yields_bind yields_rounds (yields_bind copied (yields_pure new)))))
  · have final : ({S.set new ⟨[],copies⟩ with serial := S.serial + z.all.length} : Model) =
        {(S.set new .empty).set new ⟨[],[] ++ copies⟩ with serial := (S.set new .empty).serial + z.all.length} := by
      unfold Model.set
      rw [List.nil_append,Function.update_idem]
    rw [final]
    exact rep'

end

end Jbdtool.Lists
