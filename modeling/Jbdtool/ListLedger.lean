import Jbdtool.ListOwner
import Mathlib.Order.Lattice.Nat

/-! What is released in any run of calls of a list. -/
namespace Jbdtool.ListOwner
open Chain Jbdtool.Lists Runs
variable {α β : Type}

/-- With a malloc that does not fail, a call does to the memory what it does where nothing is written down. -/
def Follows (x : Own α) (y : C α) : Prop := ∀ h a m', Yields y h.memory a m' → ∃ log, Gives x h a ⟨m',log⟩

def allocator (heap : Malloc) : Allocator := ⟨heap.pick,fun n live => .inr (heap.fresh n live).2⟩

section
variable {x x' : Own α} {y y' : C α} (heap : Malloc)

private theorem follows_lift (y : C α) : Follows (lift y) y := fun h _ _ yields => ⟨h.log,gives_lift yields⟩

private theorem follows_pure (a : α) : Follows (pure a) (pure a) := follows_lift (pure a)

private theorem follows_bind {next : α → Own β} {next' : α → C β} (first : Follows x y)
    (rest : ∀ m a m', Yields y m a m' → Follows (next a) (next' a)) : Follows (x >>= next) (y >>= next') := by
  intro h b m' yields
  obtain ⟨⟨a,m1⟩,front,back⟩ := Option.bind_eq_some_iff.mp yields
  obtain ⟨log,gives⟩ := first h a m1 front
  obtain ⟨log',gives'⟩ := rest h.memory a m1 front ⟨m1,log⟩ b m' back
  exact ⟨log',gives_bind gives gives'⟩

private theorem follows_ite {c : Prop} [Decidable c] (yes : Follows x y) (no : Follows x' y') :
    Follows (if c then x else x') (if c then y else y') := by
  split_ifs
  · exact yes
  · exact no

private theorem follows_neg {c : Prop} [Decidable c] (fails : ¬ c) (no : Follows x' y) : Follows (if c then x else x') y := by
  rwa [if_neg fails]

private theorem follows_free (p : Ptr) : Follows (free p) (Lists.free p) := by
  intro h a m' yields
  unfold Yields Lists.free at yields
  unfold Gives free
  split_ifs at yields ⊢ <;> obtain ⟨-,rfl⟩ := Prod.mk.inj (Option.some.inj yields)
  · exact ⟨h.log,rfl⟩
  · exact ⟨_,rfl⟩

private theorem follows_malloc (b : Block) (event : Ptr → Event) :
    Follows (malloc (allocator heap) b event) (Lists.malloc heap b) := by
  intro h p m' yields
  obtain ⟨rfl,rfl⟩ := Prod.mk.inj (Option.some.inj yields)
  exact ⟨event _::h.log,if_neg (heap.fresh h.memory.mallocs h.memory.blocks.keys).1⟩

private theorem malloc_some {b : Block} {m m' : Memory} {p : Ptr} (yields : Yields (Lists.malloc heap b) m p m') : p ≠ 0 := by
  obtain ⟨rfl,-⟩ := Prod.mk.inj (Option.some.inj yields)
  exact (heap.fresh m.mallocs m.blocks.keys).1

private theorem newitem_follows (item : Ptr) (size : Nat) :
    Follows (newitem (allocator heap) item size) (Lists.newitem heap item size) := by
  refine follows_bind (follows_malloc heap _ _) fun m new m' got => follows_neg (malloc_some heap got) ?_
  have filled (stored : Ptr) : Follows (do
      lift (setItem new ⟨⟨stored,size⟩,0,0⟩)
      return new) (do
      setItem new ⟨⟨stored,size⟩,0,0⟩
      return new) := follows_bind (follows_lift _) fun _ _ _ _ => follows_pure new
  by_cases copied : size ≠ 0
  · rw [if_pos copied,if_pos copied]
    exact follows_bind (follows_malloc heap _ _) fun _ copy _ got => follows_neg (malloc_some heap got) (filled copy)
  · rw [if_neg copied,if_neg copied,pure_bind]
    intro h a m2 yields
    obtain ⟨log,gives⟩ := filled item ⟨h.memory,.borrowed item::h.log⟩ a m2 yields
    exact ⟨log,gives_bind rfl gives⟩

theorem listCreate_follows : Follows (listCreate (allocator heap)) (Lists.listCreate heap) := follows_malloc heap _ _

theorem listAdd_follows (lp item : Ptr) (size : Nat) :
    Follows (listAdd (allocator heap) lp item size) (Lists.listAdd heap lp item size) := by
  refine follows_ite (follows_pure 0) (follows_bind (newitem_follows heap item size) fun m new m' made => ?_)
  obtain ⟨new',_,_,made',-,-,done⟩ := @newitem_yields m heap item size
  obtain ⟨rfl,-⟩ := Prod.mk.inj (Option.some.inj (made'.symm.trans made))
  refine follows_neg done.there (follows_bind (follows_lift _) fun _ _ _ _ => ?_)
  exact follows_bind (follows_lift _) fun _ _ _ _ => follows_pure _

theorem listDelete_follows (lp item : Ptr) : Follows (listDelete lp item) (Lists.listDelete lp item) := by
  refine follows_ite (follows_pure (-1)) (follows_bind (follows_lift _) fun _ ip _ _ => follows_ite (follows_pure 1) ?_)
  refine follows_bind (follows_lift _) fun _ _ _ _ => follows_bind (follows_free item) fun _ _ _ _ => ?_
  exact follows_bind (follows_free ip) fun _ _ _ _ => follows_pure 0

end

/-- Nothing has been released wrongly, and a list that is there owns its blocks. -/
structure Inv (lp : Ptr) (h : Heap) : Prop where
  sound : Sound h
  list : lp ≠ 0 → (h.memory.list lp).isSome → ∃ es, Owns lp h es

section
variable {heap : Allocator} {h h' h'' : Heap} {lp : Ptr} {op : Op} {es : List (Ptr × Item)}

private theorem gives_unique {x : Own α} {a b : α} (first : Gives x h a h') (second : Gives x h b h'') : h' = h'' :=
  congrArg Prod.snd (Option.some.inj (first.symm.trans second))

private theorem step_iff : step heap lp h op = some h' ↔ proper lp h op = true ∧ ∃ a, Gives (exec heap lp op) h a h' := by
  unfold step Gives
  split_ifs with ok
  · rw [Option.map_eq_some_iff]
    constructor
    · rintro ⟨⟨a,_⟩,ran,rfl⟩
      exact ⟨ok,a,ran⟩
    · rintro ⟨-,a,ran⟩
      exact ⟨(a,h'),ran,rfl⟩
  · exact iff_of_false not_false fun holds => ok holds.1

/-- Where there is no list, a call does nothing. -/
private theorem exec_null (op : Op) : ∃ a, Gives (exec heap 0 op) h a h := by
  cases op with
  | add item size => exact ⟨0,gives_bind (gives_pos rfl (gives_pure 0)) (gives_pure _)⟩
  | sort compare order fuel => exact ⟨-1,gives_lift (yields_pos rfl (yields_pure _))⟩
  | delete item => exact ⟨-1,rfl⟩
  | destroy => exact ⟨-1,rfl⟩

private theorem inv_owns (inv : Inv lp h) (given : lp ≠ 0) (ok : proper lp h op = true) : ∃ es, Owns lp h es := by
  refine inv.list given ?_
  cases op with
  | add item size =>
    have there := (Bool.and_eq_true_iff.mp ok).1
    simpa [given] using there
  | _ => simpa [proper,given] using ok

private theorem inv_owned (sound : Sound h') (owns : Owns lp h' es) : Inv lp h' := ⟨sound,fun _ _ => ⟨es,owns⟩⟩

private theorem add_inv (inv : Inv lp h) (given : lp ≠ 0) (item : Ptr) (size : Nat) (ok : proper lp h (.add item size) = true) :
    ∃ a h', Gives (exec heap lp (.add item size)) h a h' ∧ Inv lp h' := by
  obtain ⟨es,owns⟩ := inv_owns inv given ok
  have plain : size = 0 → item ≠ 0 → item ∈ h.memory.blocks := fun zero some => by
    simpa [zero,some] using (Bool.and_eq_true_iff.mp ok).2
  obtain ⟨a,h',fs,added,sound,owns'⟩ := @listAdd_owns heap h lp es inv.sound owns item size plain
  exact ⟨a,h',gives_bind added (gives_pure _),inv_owned sound owns'⟩

private theorem sort_inv (inv : Inv lp h) (given : lp ≠ 0) (compare : Item → Item → Int) (order : Int) (fuel : Nat)
    (ok : proper lp h (.sort compare order fuel) = true) {a : Int}
    (ended : Gives (exec heap lp (.sort compare order fuel)) h a h') : Inv lp h' := by
  obtain ⟨es,owns⟩ := inv_owns inv given ok
  obtain ⟨⟨_,m'⟩,sorted,same⟩ := Option.map_eq_some_iff.mp ended
  obtain ⟨-,rfl⟩ := Prod.mk.inj same
  obtain ⟨fs,owns',still⟩ := sort_owns owns sorted
  exact inv_owned ⟨inv.sound.fine,fun p lent some => still p (inv.sound.held p lent some)⟩ owns'

/-- An item that the list has a copy of, or NULL: what is released is what the node has. -/
private theorem freed_blocks (owns : Owns lp h es) {item : Ptr} {e : Ptr × Item} (inside : e ∈ es) (same : item = e.2.item)
    (plain : e.2.size = 0 → item = 0) : freed item e = blocks e := by
  unfold freed blocks copies
  by_cases zero : e.2.size = 0
  · rw [if_pos (plain zero),if_neg (not_not.mpr zero)]
  · have own : item ∈ es.flatMap blocks := List.mem_flatMap.mpr ⟨e,inside,by simp [blocks,copies,zero,same]⟩
    rw [if_neg (owns.live item (List.mem_append_left _ own)).1,if_pos zero,same]

private theorem delete_inv (inv : Inv lp h) (given : lp ≠ 0) (item : Ptr) (ok : proper lp h (.delete item) = true) :
    ∃ a h', Gives (exec heap lp (.delete item)) h a h' ∧ (Guard lp h (.delete item) → Inv lp h') ∧
      (Fine h'.log → Guard lp h (.delete item)) := by
  obtain ⟨es,owns⟩ := inv_owns inv given ok
  cases first : es.find? (fun e => item = e.2.item) with
  | none =>
    refine ⟨1,h,listDelete_missing owns item first,fun _ => inv,fun _ fs e holding found => ?_⟩
    obtain rfl := holding_unique owns.holding holding
    rw [first] at found
    cases found
  | some e =>
    have inside := List.mem_of_find?_eq_some first
    have same : item = e.2.item := by simpa using List.find?_some first
    have guard : Guard lp h (.delete item) ↔ (e.2.size = 0 → item = 0) ∧ ∀ p ∈ blocks e, .borrowed p ∉ h.log := by
      constructor
      · exact fun guard => guard es e owns.holding first
      · rintro allowed fs d holding found
        obtain rfl := holding_unique owns.holding holding
        obtain rfl := Option.some.inj (first.symm.trans found)
        exact allowed
    rw [guard]
    obtain ⟨front,back,head,prev,next,m1,h',rfl,known,cell,unlinked,still,gives,log,spared⟩ := listDelete_found owns item e first
    refine ⟨0,h',gives,?_⟩
    by_cases plain : e.2.size = 0 → item = 0
    · rw [freed_blocks owns inside same plain] at log spared
      have whole := blocks_middle front back e lp
      have distinct := (List.nodup_append.mp (whole.nodup_iff.mp owns.distinct)).1
      have own (p : Ptr) (member : p ∈ blocks e) : p ∈ owned h.log :=
        (owns.live p (whole.mem_iff.mpr (List.mem_append_left _ member))).2.2
      refine ⟨fun allowed => ?_,fun fine => ⟨plain,?_⟩⟩
      · exact inv_owned (sound_releases inv.sound still spared log distinct own allowed.2)
          (owns_unlinked owns known cell unlinked still log spared)
      · rw [log] at fine
        exact ((fine_releases distinct own).mp fine).2
    -- A pointer stored with size zero is freed all the same: list_delete does not ask for the size.
    · refine ⟨fun allowed => (plain allowed.1).elim,fun fine => ?_⟩
      obtain ⟨zero,some⟩ := Classical.not_imp.mp plain
      have lent := owns.lent e inside zero
      rw [log,freed,if_neg some] at fine
      exact (fine.2.1.2 (same ▸ lent)).elim

private theorem destroy_inv (inv : Inv lp h) (given : lp ≠ 0) (ok : proper lp h .destroy = true) :
    ∃ a h', Gives (exec heap lp .destroy) h a h' ∧ (Guard lp h .destroy → Inv lp h') ∧ (Fine h'.log → Guard lp h .destroy) := by
  obtain ⟨es,owns⟩ := inv_owns inv given ok
  obtain ⟨h',gives,log,spared,gone⟩ := listDestroy_gives owns
  have own (p : Ptr) (member : p ∈ es.flatMap blocks ++ [lp]) := (owns.live p member).2.2
  refine ⟨0,h',gives,fun guard => ⟨?_,fun _ there => ?_⟩,fun fine fs holding => ?_⟩
  · exact sound_releases inv.sound (fun _ => id) spared log owns.distinct own (guard es owns.holding)
  · rw [h'.memory.list_outside lp gone] at there
    cases there
  · obtain rfl := holding_unique owns.holding holding
    rw [log] at fine
    exact ((fine_releases owns.distinct own).mp fine).2

/-- The calls that release wrongly are those that the guard does not allow. -/
private theorem step_inv (inv : Inv lp h) (stepped : step heap lp h op = some h') :
    (Guard lp h op → Inv lp h') ∧ (Fine h'.log → Guard lp h op) := by
  obtain ⟨ok,a,ran⟩ := step_iff.mp stepped
  by_cases given : lp = 0
  · subst given
    obtain ⟨b,still⟩ := @exec_null heap h op
    obtain rfl := gives_unique still ran
    refine ⟨fun _ => inv,fun _ => ?_⟩
    cases op with
    | delete item => exact fun es e holding => (holding.1 rfl).elim
    | destroy => exact fun es holding => (holding.1 rfl).elim
    | _ => trivial
  cases op with
  | add item size =>
    obtain ⟨b,h1,added,inv'⟩ := @add_inv heap h lp inv given item size ok
    obtain rfl := gives_unique added ran
    exact ⟨fun _ => inv',fun _ => trivial⟩
  | sort compare order fuel => exact ⟨fun _ => sort_inv inv given compare order fuel ok ran,fun _ => trivial⟩
  | delete item =>
    obtain ⟨b,h1,deleted,known⟩ := @delete_inv heap h lp inv given item ok
    obtain rfl := gives_unique deleted ran
    exact known
  | destroy =>
    obtain ⟨b,h1,destroyed,known⟩ := @destroy_inv heap h lp inv given ok
    obtain rfl := gives_unique destroyed ran
    exact known

/-- Every call comes to an end, a sort where it has the rounds that a comparison of one order
takes. -/
theorem step_enabled (inv : Inv lp h) (op : Op) (ok : proper lp h op = true) (sorts : ∀ compare order fuel,
    op = .sort compare order fuel → StrictWeakOrdering compare ∧ ∀ es, Holding h.memory lp es → es.length * es.length < fuel) :
    ∃ h', step heap lp h op = some h' := by
  have some {a : Int} {h' : Heap} (ran : Gives (exec heap lp op) h a h') : ∃ h', step heap lp h op = some h' :=
    ⟨h',step_iff.mpr ⟨ok,a,ran⟩⟩
  by_cases given : lp = 0
  · subst given
    obtain ⟨a,still⟩ := @exec_null heap h op
    exact some still
  cases op with
  | add item size =>
    obtain ⟨a,h',added,-⟩ := @add_inv heap h lp inv given item size ok
    exact some added
  | sort compare order fuel =>
    obtain ⟨es,⟨-,head,known,seg⟩,-⟩ := inv_owns inv given ok
    obtain ⟨ordering,enough⟩ := sorts compare order fuel rfl
    obtain ⟨fs,m',sorted,-⟩ := listSort_sorts ordering order h.memory lp head es given known seg fuel
      (enough es ⟨given,head,known,seg⟩)
    exact some (gives_lift sorted)
  | delete item =>
    obtain ⟨a,h',deleted,-⟩ := @delete_inv heap h lp inv given item ok
    exact some deleted
  | destroy =>
    obtain ⟨a,h',destroyed,-⟩ := @destroy_inv heap h lp inv given ok
    exact some destroyed

end

section
variable {heap : Allocator}

private theorem created_inv (m : Memory) (lp : Ptr) (start : Heap)
    (created : Gives (listCreate heap) ⟨m,[]⟩ lp start) : Inv lp start := by
  rcases @malloc_gives heap ⟨m,[]⟩ (.list ⟨0,0,0⟩) .created with failed | ⟨p,made,there,unused⟩
  · obtain ⟨rfl,rfl⟩ := Prod.mk.inj (Option.some.inj (failed.symm.trans created))
    exact ⟨⟨trivial,fun p lent => by cases lent⟩,fun some => (some rfl).elim⟩
  · obtain ⟨rfl,rfl⟩ := Prod.mk.inj (Option.some.inj (made.symm.trans created))
    have unlent (q : Ptr) : .borrowed q ∉ [Event.created p] := by simp
    refine @inv_owned _ p [] ⟨trivial,fun q lent => (unlent q lent).elim⟩ ⟨⟨there,⟨0,0,0⟩,?_,rfl,rfl⟩,?_,fun q own => ?_,?_⟩
    · exact (m.list_store_list p p _).trans (if_pos rfl)
    · exact List.nodup_singleton p
    · obtain rfl : q = p := List.mem_singleton.mp own
      exact ⟨there,Finmap.mem_insert.mpr (.inl rfl),Finset.mem_insert_self _ _⟩
    · exact List.forall_mem_nil _

/-- In the runs whose calls the guard allows, and in no others, every block released had been
allocated by the list and had not been released before, and no pointer stored with size zero
is released. -/
theorem listRun_fine_iff (heap : Allocator) (m : Memory) (lp : Ptr) (start t : Heap) (ops : List Op)
    (created : Gives (listCreate heap) ⟨m,[]⟩ lp start) (reached : run (step heap lp) start ops = some t) :
    After (step heap lp) (fun h => Fine h.log) start ops ↔ Meets (step heap lp) (Guard lp) start ops := by
  refine after_iff (Inv lp) (fun h => Fine h.log) (fun h h' op inv stepped => ?_) (fun h h' op inv allowed stepped => ?_)
    start t ops (created_inv m lp start created) reached
  · exact ⟨(step_inv inv stepped).2,fun allowed => ((step_inv inv stepped).1 allowed).sound.fine⟩
  · exact (step_inv inv stepped).1 allowed

end

def callers : Memory := (Memory.empty.store 10 .data).store 11 .data

/-- The fourth malloc fails. -/
def onceFull : Allocator where
  pick n live := if n = 3 then 0 else live.sup id + 1
  fresh n live := by
    by_cases full : n = 3
    · exact .inl (if_pos full)
    · rw [if_neg full]
      exact .inr fun inside => absurd (Finset.le_sup (f := id) inside) (Nat.not_succ_le_self _)

def createdList : Heap := ⟨{callers.store 12 (.list ⟨0,0,0⟩) with mallocs := 1},[.created 12]⟩

private theorem createdList_created : Gives (listCreate onceFull) ⟨callers,[]⟩ 12 createdList := by
  have pick : onceFull.pick callers.mallocs callers.blocks.keys = 12 := by decide +kernel
  unfold Gives listCreate malloc
  rw [pick]
  rfl

/-- A pointer and a copy, which sorting exchanges; the copy is deleted. -/
def mixedCalls : List Op := [.add 10 0,.add 11 8,.add 11 8,.sort bySize 1 10,.delete 15,.destroy]

theorem listRun_fine_mixed : ∃ t, run (step onceFull 12) createdList mixedCalls = some t ∧
    t.log = [.released 12,.released 14,.released 13,.released 15,.allocated 15,.allocated 14,.released 14,.allocated 14,
      .borrowed 10,.allocated 13,.created 12] ∧ Meets (step onceFull 12) (Guard 12) createdList mixedCalls := by
  have ran : (run (step onceFull 12) createdList mixedCalls).map Heap.log = some [.released 12,.released 14,.released 13,
    .released 15,.allocated 15,.allocated 14,.released 14,.allocated 14,.borrowed 10,.allocated 13,.created 12] := by
    decide +kernel
  obtain ⟨t,reached,log⟩ := Option.map_eq_some_iff.mp ran
  have fine : After (step onceFull 12) (fun h => Fine h.log) createdList mixedCalls := by decide +kernel
  exact ⟨t,reached,log,(listRun_fine_iff onceFull callers 12 createdList t mixedCalls createdList_created reached).mp fine⟩

/-- A pointer stored with size zero is deleted. -/
theorem listRun_fine_borrowed : Gives (listCreate onceFull) ⟨callers,[]⟩ 12 createdList ∧
    (run (step onceFull 12) createdList [.add 10 0,.delete 10]).isSome ∧
    ¬ After (step onceFull 12) (fun h => Fine h.log) createdList [.add 10 0,.delete 10] :=
  ⟨createdList_created,by decide +kernel,by decide +kernel⟩

end Jbdtool.ListOwner
