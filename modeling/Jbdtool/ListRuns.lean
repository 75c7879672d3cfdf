import Jbdtool.ListSteps
import Mathlib.Order.Lattice.Nat

/-! Sequences of calls on lists: they run as on sequences with a cursor, and what their
traversals return. -/
namespace Jbdtool.Lists
open Chain

/-- The calls made of an empty memory or a later one, each with what it does to the
sequences; after each the memory's lists stand for them. -/
inductive Run (heap : Malloc) : Memory → Model → List Call → Memory → Model → Prop
  | done (m : Memory) (S : Model) : Run heap m S [] m S
  | call {m m1 m' : Memory} {S S1 S' : Model} {c : Call} {calls : List Call}
      (yields : Yields (exec heap c.op) m c.result m1) (step : Step S c S1) (rep : Represents m1 S1)
      (rest : Run heap m1 S1 calls m' S') : Run heap m S (c::calls) m' S'

/-- What the list_get_next calls on a list have returned. -/
def returned (lp : Ptr) (calls : List Call) : List Entry :=
  calls.flatMap fun c => if c.op = .getNext lp then c.node.toList else []

/-- From a reset to a null, all that have been in the list throughout, once and in order. -/
def Complete (lp : Ptr) (S : Model) (during : List Call) (S' : Model) : Prop :=
  (S.entries lp).Nodup ∧
    (returned lp during).filter (fun e => e ∈ S.entries lp ∧ e ∈ S'.entries lp) = (S.entries lp).filter (· ∈ S'.entries lp)

/-- The calls run as on sequences with a cursor. What a call returns was in the list at any
time before or has been added since, and traversals are complete, where `on` holds of them. -/
def Refines (on : Ptr → Model → List Call → Prop) (heap : Malloc) (ops : List Op) : Prop :=
  ∃ calls m' S', calls.map Call.op = ops ∧ Run heap .empty .empty calls m' S' ∧
    ∀ before during after m S m1 S1, calls = before ++ during ++ after → Run heap .empty .empty before m S →
      Run heap m S during m1 S1 → ∀ lp,
        (∀ e ∈ returned lp during, e ∈ S.entries lp ∨ S.serial ≤ e.id) ∧
        ((∃ c, before.getLast? = some c ∧ c.op = .reset lp) → (∀ c ∈ during, c.op ≠ .reset lp) →
          (∃ c, during.getLast? = some c ∧ c.op = .getNext lp ∧ c.result = 0) → on lp S during →
            Complete lp S during S1)

/-- Traversals without NULL items. -/
def noNulls (lp : Ptr) (S : Model) (during : List Call) : Prop :=
  (∀ e ∈ S.entries lp, e.item ≠ 0) ∧ ∀ c ∈ during, c.op ≠ .add lp 0 0

/-- A list made by list_create is given, and an item that a list_delete finds can be freed. -/
def proper (m : Memory) : Op → Bool
  | .malloc | .create => true
  | .delete lp item => (m.list lp).isSome && ((findNode lp item m).map Prod.fst = some 0 || item = 0 ||
      m.blocks.lookup item = some .data)
  | .add lp _ _ | .reset lp | .getNext lp | .count lp | .isNext lp | .dup lp => (m.list lp).isSome

def properRun (heap : Malloc) : Memory → List Op → Bool
  | _, [] => true
  | m, op::ops => proper m op && match exec heap op m with
    | some (_,m') => properRun heap m' ops
    | none => true

section
variable {heap : Malloc} {m m' : Memory} {S S' : Model}

private theorem exec_step (rep : Represents m S) (op : Op) (ok : proper m op = true) : ∃ result node m' S',
    Yields (exec heap op) m result m' ∧ Step S ⟨op,result,node⟩ S' ∧ Represents m' S' := by
  have given (lp : Ptr) (some : (m.list lp).isSome) : ∃ z, S.lists lp = Option.some z :=
    Option.isSome_iff_exists.mp ((rep.lists lp).mpr some)
  cases op with
  | malloc =>
    obtain ⟨p,m',yields,rep'⟩ := @malloc_step m S heap rep
    exact ⟨p,none,m',S,yields_bind yields (yields_pure _),⟨rfl,rfl⟩,rep'⟩
  | create =>
    obtain ⟨lp,m',yields,there,new,rep'⟩ := @create_step m S heap rep
    exact ⟨lp,none,m',_,yields_bind yields (yields_pure _),⟨lp,there,new,rfl,rfl,rfl⟩,rep'⟩
  | add lp item size =>
    obtain ⟨z,known⟩ := given lp ok
    obtain ⟨node,stored,m',yields,plain,copied,rep'⟩ := @add_step m S heap rep lp item size z known
    exact ⟨stored,none,m',_,yields_bind yields (yields_pure _),⟨z,node,stored,known,plain,copied,rfl,rfl,rfl⟩,rep'⟩
  | delete lp item =>
    obtain ⟨some,can⟩ := Bool.and_eq_true_iff.mp ok
    obtain ⟨z,known⟩ := given lp some
    have freed : (∃ e ∈ z.all, item = e.item) → item = 0 ∨ m.blocks.lookup item = Option.some .data := by
      rintro ⟨e,inside,same⟩
      have found := found_node rep lp item z known
      cases first : z.all.find? (fun e => item = e.item) with
      | none => exact (List.find?_eq_none.mp first e inside (by simpa using same)).elim
      | some d =>
        obtain ⟨start,last,-,seg⟩ := rep.chain lp z known
        have there := (seg_cell seg d.cell (List.mem_map_of_mem (List.mem_of_find?_eq_some first))).1
        have here : findNode lp item m = Option.some (d.node,m) := by
          rw [first] at found
          exact found
        have other : d.node ≠ 0 := there
        simpa [here,other] using can
    obtain ⟨m',yields,rep'⟩ := delete_step rep lp item z known freed
    exact ⟨_,none,m',_,yields,⟨z,known,rfl,rfl,rfl⟩,rep'⟩
  | reset lp =>
    obtain ⟨z,known⟩ := given lp ok
    obtain ⟨m',yields,rep'⟩ := reset_step rep lp z known
    exact ⟨0,none,m',_,yields,⟨z,known,rfl,rfl,rfl⟩,rep'⟩
  | getNext lp =>
    obtain ⟨z,known⟩ := given lp ok
    obtain ⟨m',yields,rep'⟩ := getNext_step rep lp z known
    exact ⟨_,z.ahead.head?,m',_,yields_bind yields (yields_pure _),⟨z,known,rfl,rfl,rfl⟩,rep'⟩
  | count lp =>
    obtain ⟨z,known⟩ := given lp ok
    exact ⟨_,none,m,S,count_step rep lp z known,⟨z,known,rfl,rfl,rfl⟩,rep⟩
  | isNext lp =>
    obtain ⟨z,known⟩ := given lp ok
    exact ⟨_,none,m,S,isNext_step rep lp z known,⟨z,known,rfl,rfl,rfl⟩,rep⟩
  | dup lp =>
    obtain ⟨z,known⟩ := given lp ok
    obtain ⟨copies,new,m',yields,there,absent,ids,all,rep'⟩ := @dup_step heap lp z m S rep known
    exact ⟨new,none,m',_,yields_bind yields (yields_pure _),⟨z,copies,new,known,there,absent,rfl,rfl,ids,all,rfl⟩,rep'⟩

private theorem run_total (rep : Represents m S) (ops : List Op) (ok : properRun heap m ops = true) : ∃ calls m' S',
    calls.map Call.op = ops ∧ Run heap m S calls m' S' := by
  induction ops generalizing m S with
  | nil => exact ⟨[],m,S,rfl,.done m S⟩
  | cons op ops ih =>
    obtain ⟨here,later⟩ := Bool.and_eq_true_iff.mp ok
    obtain ⟨result,node,m1,S1,yields,step,rep1⟩ := @exec_step heap m S rep op here
    rw [show exec heap op m = some (result,m1) from yields] at later
    obtain ⟨calls,m',S',rfl,rest⟩ := ih rep1 later
    exact ⟨⟨op,result,node⟩::calls,m',S',rfl,.call yields step rep1 rest⟩

private theorem run_append {before during : List Call} (run : Run heap m S (before ++ during) m' S') : ∃ m1 S1,
    Run heap m S before m1 S1 ∧ Run heap m1 S1 during m' S' := by
  induction before generalizing m S with
  | nil => exact ⟨m,S,.done m S,run⟩
  | cons c before ih =>
    cases run with
    | call yields step rep rest =>
      obtain ⟨m1,S1,first,second⟩ := ih rest
      exact ⟨m1,S1,.call yields step rep first,second⟩

end

section
variable {heap : Malloc} {m m' : Memory} {S S' : Model} {c : Call} {calls : List Call}

/-- One list at most is changed, by entries that go and entries that are new. -/
private theorem step_cases (step : Step S c S') : S' = S ∨ ∃ lp z, ∃ more : List Entry,
    S' = {S.set lp z with serial := S.serial + more.length} ∧ z.all.Sublist (S.entries lp ++ more) ∧
      more.map Entry.id = List.range' S.serial more.length := by
  obtain ⟨op,result,node⟩ := c
  have kept (lp : Ptr) (z z' : Cursored Entry) (known : S.lists lp = some z) (sublist : z'.all.Sublist z.all) :
      ∃ lp' z, ∃ more : List Entry, S.set lp z' = {S.set lp' z with serial := S.serial + more.length} ∧
        z.all.Sublist (S.entries lp' ++ more) ∧ more.map Entry.id = List.range' S.serial more.length := by
    refine ⟨lp,z',[],rfl,?_,rfl⟩
    rwa [S.entries_some lp z known,List.append_nil]
  cases op with
  | malloc => exact .inl step.2
  | create =>
    obtain ⟨lp,-,-,-,-,rfl⟩ := step
    exact .inr ⟨lp,.empty,[],rfl,List.nil_sublist _,rfl⟩
  | add lp item size =>
    obtain ⟨z,node,stored,known,-,-,-,-,rfl⟩ := step
    refine .inr ⟨lp,_,[⟨S.serial,node,stored,size⟩],rfl,?_,rfl⟩
    rw [Cursored.all_add,S.entries_some lp z known]
  | delete lp item =>
    obtain ⟨z,known,-,-,rfl⟩ := step
    exact .inr (kept lp z _ known (Cursored.all_delete z _ ▸ List.eraseP_sublist))
  | reset lp =>
    obtain ⟨z,known,-,-,rfl⟩ := step
    exact .inr (kept lp z _ known (List.Sublist.refl _))
  | getNext lp =>
    obtain ⟨z,known,-,-,rfl⟩ := step
    exact .inr (kept lp z _ known (z.all_next ▸ List.Sublist.refl _))
  | count lp =>
    obtain ⟨-,-,-,-,same⟩ := step
    exact .inl same
  | isNext lp =>
    obtain ⟨-,-,-,-,same⟩ := step
    exact .inl same
  | dup lp =>
    obtain ⟨z,copies,lp',-,-,-,-,-,ids,all,rfl⟩ := step
    have length := all.length_eq
    exact .inr ⟨lp',⟨[],copies⟩,copies,by rw [length],List.sublist_append_right _ _,length ▸ ids⟩

def Numbered (S : Model) : Prop :=
  ∀ lp, ((S.entries lp).map Entry.id).Nodup ∧ ∀ e ∈ S.entries lp, e.id < S.serial

private theorem numbered_empty : Numbered .empty := fun _ => ⟨List.nodup_nil,nofun⟩

private theorem entries_set (lp lp' : Ptr) (z : Cursored Entry) (serial : Nat) :
    ({S.set lp z with serial := serial} : Model).entries lp' = if lp' = lp then z.all else S.entries lp' := by
  split_ifs with same
  · subst same
    exact Model.entries_some _ lp' z (S.set_same lp' z)
  · unfold Model.entries
    rw [show ({S.set lp z with serial := serial} : Model).lists lp' = S.lists lp' from S.set_other lp lp' z same]

private theorem step_numbered (step : Step S c S') (numbered : Numbered S) : Numbered S' := by
  rcases step_cases step with rfl | ⟨lp,z,more,rfl,sublist,ids⟩
  · exact numbered
  have newer (e : Entry) (inside : e ∈ more) : S.serial ≤ e.id ∧ e.id < S.serial + more.length := by
    have numbers : e.id ∈ List.range' S.serial more.length := ids ▸ List.mem_map_of_mem inside
    simpa using numbers
  intro lp'
  rw [entries_set]
  split_ifs with same
  · subst same
    obtain ⟨distinct,older⟩ := numbered lp'
    constructor
    · refine List.Nodup.sublist (sublist.map Entry.id) ?_
      rw [List.map_append]
      refine List.nodup_append.mpr ⟨distinct,ids ▸ List.nodup_range',fun a inside b new same => ?_⟩
      obtain ⟨e,old,rfl⟩ := List.mem_map.mp inside
      obtain ⟨d,added,rfl⟩ := List.mem_map.mp new
      exact absurd (older e old) (by have := (newer d added).1; omega)
    · intro e inside
      rcases List.mem_append.mp (sublist.subset inside) with old | new
      · exact Nat.lt_add_right _ (older e old)
      · exact (newer e new).2
  · exact ⟨(numbered lp').1,fun e inside => Nat.lt_add_right _ ((numbered lp').2 e inside)⟩

/-- Later the entries of a list are among those it had, and new ones. -/
structure Later (S S' : Model) : Prop where
  serial : S.serial ≤ S'.serial
  entries : ∀ lp, ∀ e ∈ S'.entries lp, e ∈ S.entries lp ∨ S.serial ≤ e.id

private theorem later_refl : Later S S := ⟨le_rfl,fun _ _ => .inl⟩

private theorem step_later (step : Step S c S') : Later S S' := by
  rcases step_cases step with rfl | ⟨lp,z,more,rfl,sublist,ids⟩
  · exact later_refl
  refine ⟨Nat.le_add_right _ _,fun lp' e inside => ?_⟩
  rw [entries_set] at inside
  split_ifs at inside with same
  · subst same
    rcases List.mem_append.mp (sublist.subset inside) with old | new
    · exact .inl old
    · have numbers : e.id ∈ List.range' S.serial more.length := ids ▸ List.mem_map_of_mem new
      exact .inr (List.mem_range'_1.mp numbers).1
  · exact .inl inside

private theorem step_returned (step : Step S c S') (lp : Ptr) (e : Entry) (inside : e ∈ returned lp [c]) :
    e ∈ S.entries lp := by
  obtain ⟨op,result,node⟩ := c
  have single : e ∈ (if op = .getNext lp then node.toList else []) := by simpa [returned] using inside
  split_ifs at single with call
  · subst call
    obtain ⟨z,known,head,-,-⟩ := step
    have first : z.ahead.head? = some e := head.symm.trans (Option.mem_toList.mp single)
    rw [S.entries_some lp z known]
    exact List.mem_append_right _ (List.mem_of_head? first)
  · cases single

private theorem returned_append (lp : Ptr) (calls more : List Call) :
    returned lp (calls ++ more) = returned lp calls ++ returned lp more :=
  List.flatMap_append

private theorem run_numbered (run : Run heap m S calls m' S') (numbered : Numbered S) : Numbered S' := by
  induction run with
  | done => exact numbered
  | call _ step _ _ ih => exact ih (step_numbered step numbered)

/-- What is returned in a run was in the list when the run began, or has been added since. -/
private theorem run_returned (run : Run heap m S calls m' S') (lp : Ptr) :
    ∀ e ∈ returned lp calls, e ∈ S.entries lp ∨ S.serial ≤ e.id := by
  induction run with
  | done => exact nofun
  | call _ step _ _ ih =>
    rename_i c calls _ _
    intro e inside
    rw [← List.singleton_append,returned_append] at inside
    rcases List.mem_append.mp inside with now | later
    · exact .inl (step_returned step lp e now)
    · rcases ih e later with old | new
      · exact (step_later step).entries lp e old
      · exact .inr ((step_later step).serial.trans new)

end

structure Underway (lp : Ptr) (initial returned : List Entry) (S : Model) (z : Cursored Entry) : Prop where
  known : S.lists lp = some z
  traversed : Cursored.Traversed initial returned z
  old : ∀ e ∈ initial, e.id < S.serial
  items : ∀ e ∈ z.all, e.item ≠ 0

section
variable {heap : Malloc} {m m' : Memory} {S S' : Model} {c : Call} {calls : List Call}
variable {lp : Ptr} {initial before : List Entry} {z : Cursored Entry}

private theorem returned_other (other : c.op ≠ .getNext lp) : returned lp [c] = [] := by
  simp [returned,other]

private theorem step_underway (step : Step S c S') (numbered : Numbered S) (under : Underway lp initial before S z)
    (noReset : c.op ≠ .reset lp) (noNull : c.op ≠ .add lp 0 0) :
    ∃ z', Underway lp initial (before ++ returned lp [c]) S' z' := by
  obtain ⟨known,traversed,old,items⟩ := under
  have later := (step_later step).serial
  have older (e : Entry) (inside : e ∈ initial) : e.id < S'.serial := (old e inside).trans_le later
  have elsewhere (same : S'.lists lp = S.lists lp) (other : c.op ≠ .getNext lp) :
      ∃ z', Underway lp initial (before ++ returned lp [c]) S' z' := by
    rw [returned_other other,List.append_nil]
    exact ⟨z,same.trans known,traversed,older,items⟩
  have here {lp' : Ptr} {z' : Cursored Entry} (found : S.lists lp' = some z') (same : lp' = lp) : z' = z :=
    Option.some.inj ((same ▸ found).symm.trans known)
  obtain ⟨op,result,node⟩ := c
  cases op with
  | malloc =>
    obtain ⟨-,rfl⟩ := step
    exact elsewhere rfl (by simp)
  | create =>
    obtain ⟨new,-,absent,-,-,rfl⟩ := step
    refine elsewhere (S.set_other new lp _ ?_) (by simp)
    rintro rfl
    rw [known] at absent
    cases absent
  | add lp' item size =>
    obtain ⟨z',added,stored,found,plain,copied,-,-,rfl⟩ := step
    by_cases same : lp' = lp
    · obtain rfl := here found same
      subst same
      have nothing : returned lp' [⟨.add lp' item size,result,node⟩] = [] := returned_other (by simp)
      rw [nothing,List.append_nil]
      have entries := S.entries_some lp' z' known
      have fresh : (⟨S.serial,added,stored,size⟩ : Entry) ∉ z'.all := fun inside =>
        absurd ((numbered lp').2 _ (entries ▸ inside)) (lt_irrefl _)
      have after : (⟨S.serial,added,stored,size⟩ : Entry) ∉ initial := fun inside => absurd (old _ inside) (lt_irrefl _)
      refine ⟨_,S.set_same lp' _,Cursored.traversed_add traversed _ fresh after,older,fun e inside => ?_⟩
      rw [Cursored.all_add] at inside
      rcases List.mem_append.mp inside with earlier | only
      · exact items e earlier
      · obtain rfl := List.mem_singleton.mp only
        by_cases pointer : size = 0
        · intro null
          have zero : stored = 0 := null
          exact noNull (by rw [pointer,← plain pointer,zero])
        · exact copied pointer
    · exact elsewhere (S.set_other lp' lp _ (Ne.symm same)) (by simp)
  | delete lp' item =>
    obtain ⟨z',found,-,-,rfl⟩ := step
    by_cases same : lp' = lp
    · obtain rfl := here found same
      subst same
      have nothing : returned lp' [⟨.delete lp' item,result,node⟩] = [] := returned_other (by simp)
      rw [nothing,List.append_nil]
      refine ⟨_,S.set_same lp' _,Cursored.traversed_delete traversed _,older,fun e inside => ?_⟩
      rw [Cursored.all_delete] at inside
      exact items e (List.mem_of_mem_eraseP inside)
    · exact elsewhere (S.set_other lp' lp _ (Ne.symm same)) (by simp)
  | reset lp' =>
    obtain ⟨z',found,-,-,rfl⟩ := step
    exact elsewhere (S.set_other lp' lp _ fun same => noReset (same ▸ rfl)) (by simp)
  | getNext lp' =>
    obtain ⟨z',found,head,-,rfl⟩ := step
    by_cases same : lp' = lp
    · obtain rfl := here found same
      subst same
      have now : returned lp' [⟨.getNext lp',result,node⟩] = z'.ahead.head?.toList := by
        simp [returned,show node = _ from head]
      rw [now]
      have kept : ∀ e ∈ z'.next.all, e.item ≠ 0 := by rwa [Cursored.all_next]
      cases ahead : z'.ahead with
      | nil =>
        have stays : z'.next = z' := by simp [Cursored.next,ahead]
        rw [List.head?_nil,Option.toList_none,List.append_nil]
        exact ⟨_,S.set_same lp' _,stays.symm ▸ traversed,older,kept⟩
      | cons e rest => exact ⟨_,S.set_same lp' _,Cursored.traversed_next traversed e rest ahead,older,kept⟩
    · refine elsewhere (S.set_other lp' lp _ (Ne.symm same)) fun call => same ?_
      cases call
      rfl
  | count lp' =>
    obtain ⟨-,-,-,-,rfl⟩ := step
    exact elsewhere rfl (by simp)
  | isNext lp' =>
    obtain ⟨-,-,-,-,rfl⟩ := step
    exact elsewhere rfl (by simp)
  | dup lp' =>
    obtain ⟨z',copies,new,-,-,absent,-,-,-,-,rfl⟩ := step
    refine elsewhere (S.set_other new lp _ ?_) (by simp)
    rintro rfl
    rw [known] at absent
    cases absent

private theorem run_underway (run : Run heap m S calls m' S') (numbered : Numbered S) (under : Underway lp initial before S z)
    (noReset : ∀ c ∈ calls, c.op ≠ .reset lp) (noNull : ∀ c ∈ calls, c.op ≠ .add lp 0 0) :
    ∃ z', Underway lp initial (before ++ returned lp calls) S' z' := by
  induction run generalizing before z with
  | done => exact ⟨z,by simpa [returned] using under⟩
  | call _ step _ _ ih =>
    rename_i c calls _ _
    obtain ⟨noReset,noResets⟩ := List.forall_mem_cons.mp noReset
    obtain ⟨noNull,noNulls⟩ := List.forall_mem_cons.mp noNull
    obtain ⟨z1,under1⟩ := step_underway step numbered under noReset noNull
    obtain ⟨z',under'⟩ := ih (step_numbered step numbered) under1 noResets noNulls
    rw [List.append_assoc,← returned_append] at under'
    exact ⟨z',under'⟩

private theorem run_complete (run : Run heap m S calls m' S') (numbered : Numbered S) (fresh : S.lists lp = some z)
    (atStart : z.passed = []) (noReset : ∀ c ∈ calls, c.op ≠ .reset lp)
    (last : ∃ c, calls.getLast? = some c ∧ c.op = .getNext lp ∧ c.result = 0) (noNulls : noNulls lp S calls) :
    Complete lp S calls S' := by
  obtain ⟨c,final,next,null⟩ := last
  obtain ⟨earlier,rfl⟩ := List.getLast?_eq_some_iff.mp final
  obtain ⟨m1,S1,before,last⟩ := run_append run
  obtain ⟨items,adds⟩ := noNulls
  have entries := S.entries_some lp z fresh
  have distinct : z.all.Nodup := List.Nodup.of_map _ (entries ▸ (numbered lp).1)
  have start : z.reset = z := by
    obtain ⟨passed,ahead⟩ := z
    obtain rfl : passed = [] := atStart
    rfl
  have begun : Underway lp z.all [] S z :=
    ⟨fresh,start ▸ Cursored.traversed_reset distinct,fun e inside => (numbered lp).2 e (entries ▸ inside),entries ▸ items⟩
  obtain ⟨z1,under⟩ := run_underway before numbered begun (fun c inside => noReset c (List.mem_append_left _ inside))
    fun c inside => adds c (List.mem_append_left _ inside)
  cases last with
  | call _ step _ rest =>
    cases rest
    obtain ⟨op,result,node⟩ := c
    obtain rfl : op = .getNext lp := next
    obtain ⟨z2,known,head,value,rfl⟩ := step
    obtain rfl : z2 = z1 := Option.some.inj (known.symm.trans under.known)
    have atEnd : z2.ahead = [] := by
      cases ahead : z2.ahead with
      | nil => rfl
      | cons e rest =>
        have some := under.items e (by simp [Cursored.all,ahead])
        have zero : ((e.item : Nat) : Int) = 0 := by
          have same : result = (e.item : Nat) := by simpa [ahead] using value
          rw [← same]
          exact null
        exact (some (Int.ofNat_eq_zero.mp zero)).elim
    have all := Cursored.traversed_end under.traversed atEnd
    have nothing : returned lp [(⟨.getNext lp,result,node⟩ : Call)] = [] := by
      simp [returned,show node = _ from head,atEnd]
    have kept : (S1.set lp z2.next).entries lp = z2.all :=
      (Model.entries_some _ lp _ (S1.set_same lp _)).trans z2.all_next
    refine ⟨entries ▸ distinct,?_⟩
    rw [returned_append,nothing,List.append_nil,entries,kept]
    exact all

/-- For every sequence of calls: the lists stay consistent and stand for sequences with a
cursor, nothing deleted is returned, and traversals without NULL items are complete. -/
theorem properRun_refines (heap : Malloc) (ops : List Op) (ok : properRun heap .empty ops = true) :
    Refines noNulls heap ops := by
  obtain ⟨calls,m',S',rfl,run⟩ := run_total represents_empty ops ok
  refine ⟨calls,m',S',rfl,run,fun before during after m S m1 S1 _ first second lp => ⟨run_returned second lp,?_⟩⟩
  rintro ⟨c,final,reset⟩ noReset last plain
  obtain ⟨earlier,rfl⟩ := List.getLast?_eq_some_iff.mp final
  have numbered := run_numbered first numbered_empty
  obtain ⟨m0,S0,-,one⟩ := run_append first
  cases one with
  | call _ step _ rest =>
    cases rest
    obtain ⟨op,result,node⟩ := c
    obtain rfl : op = .reset lp := reset
    obtain ⟨z,known,-,-,rfl⟩ := step
    exact run_complete second numbered (S0.set_same lp _) rfl noReset last plain

end

def firstFit : Malloc where
  pick _ live := live.sup id + 1
  fresh _ _ := ⟨Nat.succ_ne_zero _,fun inside => absurd (Finset.le_sup (f := id) inside) (Nat.not_succ_le_self _)⟩

/-- A list emptied under its cursor and filled again. -/
theorem properRun_refilled : Refines noNulls firstFit
    [.create,.malloc,.add 1 2 0,.malloc,.add 1 4 0,.reset 1,.getNext 1,.delete 1 4,.delete 1 2,.getNext 1,.malloc,
      .add 1 2 0,.add 1 2 8,.dup 1,.getNext 1,.count 1,.isNext 1,.getNext 1,.getNext 1] :=
  properRun_refines firstFit _ (by decide +kernel)

private theorem run_foldlM {heap : Malloc} {m m' : Memory} {S S' : Model} {calls : List Call} (run : Run heap m S calls m' S') :
    (calls.map Call.op).foldlM (fun m op => (exec heap op m).map Prod.snd) m = some m' := by
  induction run with
  | done => rfl
  | call yields _ _ _ ih =>
    rw [List.map_cons,List.foldlM_cons,show exec heap _ _ = some _ from yields]
    exact ih

section
variable {S S' : Model} {lp item : Ptr} {result : Int} {node : Option Entry} {z : Cursored Entry}

private theorem addPointer_lists (step : Step S ⟨.add lp item 0,result,node⟩ S') (known : S.lists lp = some z) : ∃ node,
    S'.lists lp = some (z.add ⟨S.serial,node,item,0⟩) ∧ S'.serial = S.serial + 1 := by
  obtain ⟨z',node,stored,found,plain,-,-,-,rfl⟩ := step
  obtain rfl := Option.some.inj (known.symm.trans found)
  obtain rfl := plain rfl
  exact ⟨node,S.set_same lp _,rfl⟩

private theorem reset_lists (step : Step S ⟨.reset lp,result,node⟩ S') (known : S.lists lp = some z) :
    S'.lists lp = some z.reset := by
  obtain ⟨z',found,-,-,rfl⟩ := step
  obtain rfl := Option.some.inj (known.symm.trans found)
  exact S.set_same lp _

private theorem created_lists (step : Step .empty ⟨.create,result,node⟩ S) (lp : Ptr) (known : S.lists lp = some z) :
    z = .empty := by
  obtain ⟨new,-,-,-,-,rfl⟩ := step
  by_cases same : lp = new
  · subst same
    exact (Option.some.inj ((Model.set_same _ lp _).symm.trans known)).symm
  · have absent := (Model.set_other .empty new lp .empty same).symm.trans known
    cases absent

end

/-- Of a list of two items, the first NULL: a traversal ends before the second. -/
private theorem null_incomplete : ¬ Refines (fun _ _ _ => True) firstFit [.create,.add 1 0 0,.add 1 7 0,.reset 1,.getNext 1] := by
  rintro ⟨calls,m',S',ops,run,all⟩
  match calls, ops with
  | [⟨.create,r0,n0⟩,⟨.add 1 0 0,r1,n1⟩,⟨.add 1 7 0,r2,n2⟩,⟨.reset 1,r3,n3⟩,⟨.getNext 1,r4,n4⟩], rfl =>
    obtain ⟨m1,S1,first,second⟩ := @run_append _ _ _ _ _
      [⟨.create,r0,n0⟩,⟨.add 1 0 0,r1,n1⟩,⟨.add 1 7 0,r2,n2⟩,⟨.reset 1,r3,n3⟩] [⟨.getNext 1,r4,n4⟩] run
    have complete := (all _ _ [] _ _ _ _ rfl first second 1).2 ⟨_,rfl,rfl⟩ (by simp)
    obtain ⟨serial,node0,node1,known⟩ : ∃ serial node0 node1,
        S1.lists 1 = some ⟨[],[⟨serial,node0,0,0⟩,⟨serial + 1,node1,7,0⟩]⟩ := by
      cases first with | call _ create _ first =>
      cases first with | call _ add0 _ first =>
      cases first with | call _ add1 _ first =>
      cases first with | call _ reset _ first =>
      cases first
      obtain ⟨z,-,-,known,-⟩ := id add0
      obtain rfl := created_lists create 1 known
      obtain ⟨node0,known0,serial⟩ := addPointer_lists add0 known
      obtain ⟨node1,known1,-⟩ := addPointer_lists add1 known0
      rw [serial] at known1
      exact ⟨_,node0,node1,reset_lists reset known1⟩
    cases second with | call _ step _ rest =>
    cases rest
    obtain ⟨z,found,head,value,rfl⟩ := step
    obtain rfl := Option.some.inj (known.symm.trans found)
    obtain ⟨-,whole⟩ := complete ⟨_,rfl,rfl,value⟩ trivial
    have entries : S1.entries 1 = [⟨serial,node0,0,0⟩,⟨serial + 1,node1,7,0⟩] := S1.entries_some 1 _ known
    have kept : (S1.set 1 (Cursored.next ⟨[],[⟨serial,node0,0,0⟩,⟨serial + 1,node1,7,0⟩]⟩)).entries 1 = [⟨serial,node0,0,0⟩,⟨serial + 1,node1,7,0⟩] :=
      Model.entries_some _ 1 _ (S1.set_same 1 _)
    have once : returned 1 [(⟨.getNext 1,r4,n4⟩ : Call)] = [⟨serial,node0,0,0⟩] := by
      simp [returned,show n4 = _ from head]
    rw [entries,kept,once] at whole
    simp at whole

/-- An item that is no block of the heap cannot be freed. -/
private theorem static_undefined (on : Ptr → Model → List Call → Prop) :
    ¬ Refines on firstFit [.create,.add 1 7 0,.delete 1 7] := by
  rintro ⟨calls,m',S',ops,run,-⟩
  have result := run_foldlM run
  rw [ops] at result
  have none : ([Op.create,.add 1 7 0,.delete 1 7].foldlM (fun m op => (exec firstFit op m).map Prod.snd)
    Memory.empty).isNone = true := by decide +kernel
  rw [result] at none
  cases none

theorem anyItems_refuted :
    ¬ Refines (fun _ _ _ => True) firstFit [.create,.add 1 0 0,.add 1 7 0,.reset 1,.getNext 1] ∧
    ¬ Refines (fun _ _ _ => True) firstFit [.create,.add 1 7 0,.delete 1 7] :=
  ⟨null_incomplete,static_undefined _⟩

end Jbdtool.Lists
