import Mathlib.Data.List.Nodup
import Mathlib.Tactic.SplitIfs

/-! Doubly linked cells in a memory. A segment is read off the memory from its first
cell on; the cells before and behind it are named by their addresses, 0 being none. -/
namespace Chain
variable {α : Type}

abbrev Ptr := Nat

structure Cell (α : Type) where
  value : α
  prev : Ptr
  next : Ptr
deriving DecidableEq

/-- The entries from `first` up to `last`, linked both ways, between `before` and `after`. -/
def Seg (look : Ptr → Option (Cell α)) : Ptr → Ptr → List (Ptr × α) → Ptr → Ptr → Prop
  | before, first, [], last, after => last = before ∧ after = first
  | before, first, e::es, last, after =>
    first = e.1 ∧ e.1 ≠ 0 ∧ ∃ next, look e.1 = some ⟨e.2,before,next⟩ ∧ Seg look e.1 next es last after

section
variable {look look' : Ptr → Option (Cell α)} {before first last after : Ptr} {es fs : List (Ptr × α)}

theorem seg_append : Seg look before first (es ++ fs) last after ↔
    ∃ mid next, Seg look before first es mid next ∧ Seg look mid next fs last after := by
  induction es generalizing before first with
  | nil =>
    constructor
    · exact fun seg => ⟨before,first,⟨rfl,rfl⟩,seg⟩
    · rintro ⟨_,_,⟨rfl,rfl⟩,seg⟩
      exact seg
  | cons e es ih =>
    simp only [List.cons_append,Seg,ih]
    constructor
    · rintro ⟨start,some,next,cell,mid,next',front,back⟩
      exact ⟨mid,next',⟨start,some,next,cell,front⟩,back⟩
    · rintro ⟨mid,next',⟨start,some,next,cell,front⟩,back⟩
      exact ⟨start,some,next,cell,mid,next',front,back⟩

theorem seg_one (e : Ptr × α) : Seg look before first [e] last after ↔
    first = e.1 ∧ last = e.1 ∧ e.1 ≠ 0 ∧ look e.1 = some ⟨e.2,before,after⟩ := by
  constructor
  · rintro ⟨start,some,next,cell,rfl,rfl⟩
    exact ⟨start,rfl,some,cell⟩
  · rintro ⟨start,rfl,some,cell⟩
    exact ⟨start,some,after,cell,rfl,rfl⟩

theorem seg_frame (same : ∀ e ∈ es, look' e.1 = look e.1) (seg : Seg look before first es last after) :
    Seg look' before first es last after := by
  induction es generalizing before first with
  | nil => exact seg
  | cons e es ih =>
    obtain ⟨here,others⟩ := List.forall_mem_cons.mp same
    obtain ⟨start,some,next,cell,rest⟩ := seg
    exact ⟨start,some,next,here.trans cell,ih others rest⟩

theorem seg_cell (seg : Seg look before first es last after) (e : Ptr × α) (inside : e ∈ es) :
    e.1 ≠ 0 ∧ ∃ prev next, look e.1 = some ⟨e.2,prev,next⟩ := by
  obtain ⟨front,back,rfl⟩ := List.append_of_mem inside
  obtain ⟨_,_,-,-,some,next,cell,-⟩ := seg_append.mp seg
  exact ⟨some,_,next,cell⟩

theorem seg_known (seg : Seg look before first es last after) (p : Ptr) (inside : p ∈ es.map Prod.fst) : ∃ c, look p = some c := by
  obtain ⟨e,member,rfl⟩ := List.mem_map.mp inside
  obtain ⟨-,_,_,cell⟩ := seg_cell seg e member
  exact ⟨_,cell⟩

/-- The first address, and where the segment has no cells the one behind it. -/
theorem seg_first (seg : Seg look before first es last after) : first = (es.head?.map Prod.fst).getD after := by
  cases es with
  | nil => exact seg.2.symm
  | cons e es => exact seg.1

private theorem seg_last (seg : Seg look before first es last after) : last = (es.getLast?.map Prod.fst).getD before := by
  rcases List.eq_nil_or_concat es with rfl | ⟨init,e,rfl⟩
  · exact seg.1
  · rw [List.concat_eq_append] at seg ⊢
    obtain ⟨_,_,-,tail⟩ := seg_append.mp seg
    simpa using ((seg_one e).mp tail).2.1

theorem seg_firstCell (seg : Seg look before first es last 0) (some : first ≠ 0) : ∃ e ∈ es, e.1 = first := by
  cases es with
  | nil => exact (some seg.2.symm).elim
  | cons e es => exact ⟨e,List.mem_cons_self,seg.1.symm⟩

theorem seg_lastCell (seg : Seg look 0 first es last after) (some : last ≠ 0) : ∃ e ∈ es, e.1 = last := by
  rcases List.eq_nil_or_concat es with rfl | ⟨init,e,rfl⟩
  · exact (some seg.1).elim
  · have final := seg_last seg
    rw [List.concat_eq_append] at final ⊢
    exact ⟨e,by simp,by simpa using final.symm⟩

theorem seg_tail (seg : Seg look 0 first es last 0) (some : first ≠ 0) : last ∈ es.map Prod.fst := by
  have there : last ≠ 0 := fun none => by
    obtain ⟨e,inside,-⟩ := seg_firstCell seg some
    have final := seg_last seg
    cases tail : es.getLast? with
    | none => exact List.ne_nil_of_mem inside (List.getLast?_eq_none_iff.mp tail)
    | some d =>
      rw [tail,none] at final
      exact (seg_cell seg d (List.mem_of_getLast? tail)).1 final.symm
  obtain ⟨e,inside,rfl⟩ := seg_lastCell seg there
  exact List.mem_map_of_mem inside

private theorem seg_setNext (seg : Seg look before first es last after) (some : es ≠ []) (distinct : (es.map Prod.fst).Nodup)
    (after' : Ptr) (set : look' last = (look last).map (fun c => {c with next := after'}))
    (same : ∀ e ∈ es, e.1 ≠ last → look' e.1 = look e.1) : Seg look' before first es last after' := by
  rcases List.eq_nil_or_concat es with rfl | ⟨init,e,rfl⟩
  · exact (some rfl).elim
  rw [List.concat_eq_append] at *
  obtain ⟨mid,next,front,tail⟩ := seg_append.mp seg
  obtain ⟨rfl,rfl,there,cell⟩ := (seg_one e).mp tail
  have fresh : ∀ d ∈ init, d.1 ≠ e.1 := by
    rw [List.map_append] at distinct
    intro d inside equal
    have apart := (List.nodup_append.mp distinct).2.2 d.1 (List.mem_map_of_mem inside) e.1 (by simp)
    exact apart equal
  refine seg_append.mpr ⟨mid,_,seg_frame (fun d inside => same d (by simp [inside]) (fresh d inside)) front,?_⟩
  refine (seg_one e).mpr ⟨rfl,rfl,there,?_⟩
  rw [set,cell]
  rfl

private theorem seg_setPrev (seg : Seg look before first es last after) (some : es ≠ []) (distinct : (es.map Prod.fst).Nodup)
    (before' : Ptr) (set : look' first = (look first).map (fun c => {c with prev := before'}))
    (same : ∀ e ∈ es, e.1 ≠ first → look' e.1 = look e.1) : Seg look' before' first es last after := by
  cases es with
  | nil => exact (some rfl).elim
  | cons e es =>
    obtain ⟨rfl,there,next,cell,rest⟩ := seg
    refine ⟨rfl,there,next,by rw [set,cell]; rfl,seg_frame (fun d inside => ?_) rest⟩
    refine same d (List.mem_cons_of_mem _ inside) fun equal => ?_
    exact (List.nodup_cons.mp distinct).1 (equal ▸ List.mem_map_of_mem inside)

theorem seg_push (seg : Seg look 0 first es last 0) (some : es ≠ []) (distinct : (es.map Prod.fst).Nodup)
    (e : Ptr × α) (there : e.1 ≠ 0) (set : look' last = (look last).map (fun c => {c with next := e.1}))
    (new : look' e.1 = Option.some ⟨e.2,last,0⟩) (same : ∀ d ∈ es, d.1 ≠ last → look' d.1 = look d.1) :
    Seg look' 0 first (es ++ [e]) e.1 0 :=
  seg_append.mpr ⟨last,e.1,seg_setNext seg some distinct e.1 set same,(seg_one e).mpr ⟨rfl,rfl,there,new⟩⟩

/-- A cell taken out: its neighbours are linked to each other, and it may have been the
first or the last. -/
theorem seg_remove (e : Ptr × α) (seg : Seg look 0 first (es ++ e::fs) last 0)
    (distinct : ((es ++ e::fs).map Prod.fst).Nodup) (prev next : Ptr) (cell : look e.1 = some ⟨e.2,prev,next⟩)
    (setNext : prev ≠ 0 → look' prev = (look prev).map (fun c => {c with next := next}))
    (setPrev : next ≠ 0 → look' next = (look next).map (fun c => {c with prev := prev}))
    (same : ∀ d ∈ es ++ fs, d.1 ≠ e.1 → d.1 ≠ prev → d.1 ≠ next → look' d.1 = look d.1) :
    Seg look' 0 (if e.1 = first then next else first) (es ++ fs) (if e.1 = last then prev else last) 0 := by
  obtain ⟨prev',at',front,rfl,there,next',cell',back⟩ := seg_append.mp seg
  obtain ⟨rfl,rfl⟩ : prev' = prev ∧ next' = next := by
    have both := Option.some.inj (cell'.symm.trans cell)
    exact ⟨congrArg Cell.prev both,congrArg Cell.next both⟩
  rw [List.map_append,List.map_cons] at distinct
  obtain ⟨left,right,apart⟩ := List.nodup_append.mp distinct
  obtain ⟨alone,right⟩ := List.nodup_cons.mp right
  have notLeft (d : Ptr × α) (inside : d ∈ es) : d.1 ≠ e.1 :=
    apart d.1 (List.mem_map_of_mem inside) e.1 List.mem_cons_self
  have notRight (d : Ptr × α) (inside : d ∈ fs) : d.1 ≠ e.1 := fun equal =>
    alone (equal ▸ List.mem_map_of_mem inside)
  have between (d d' : Ptr × α) (inside : d ∈ es) (inside' : d' ∈ fs) : d.1 ≠ d'.1 :=
    apart d.1 (List.mem_map_of_mem inside) d'.1 (List.mem_cons_of_mem _ (List.mem_map_of_mem inside'))
  -- Where there is a part on either side, it holds the neighbour on that side.
  have leftEnd : es ≠ [] → ∃ d ∈ es, d.1 = prev' := by
    intro some
    obtain ⟨init,d,rfl⟩ := (List.eq_nil_or_concat es).resolve_left some
    exact ⟨d,by simp,by simpa using (seg_last front).symm⟩
  have rightEnd : fs ≠ [] → ∃ d ∈ fs, d.1 = next' := by
    intro some
    obtain ⟨d,rest,rfl⟩ := List.exists_cons_of_ne_nil some
    exact ⟨d,List.mem_cons_self,by simpa using (seg_first back).symm⟩
  have front' : Seg look' 0 (if e.1 = first then next' else first) es prev' next' := by
    by_cases none : es = []
    · subst none
      obtain ⟨rfl,rfl⟩ := front
      rw [if_pos rfl]
      exact ⟨rfl,rfl⟩
    · obtain ⟨d,inside,rfl⟩ := leftEnd none
      have start : e.1 ≠ first := by
        obtain ⟨c,rest,rfl⟩ := List.exists_cons_of_ne_nil none
        rw [front.1]
        exact (notLeft c List.mem_cons_self).symm
      rw [if_neg start]
      refine seg_setNext front none left next' (setNext ((seg_cell front d inside).1)) fun c member other => ?_
      refine same c (List.mem_append_left _ member) (notLeft c member) other fun equal => ?_
      by_cases last' : fs = []
      · subst last'
        exact (seg_cell front c member).1 (equal.trans back.2.symm)
      · obtain ⟨d',inside',rfl⟩ := rightEnd last'
        exact between c d' member inside' equal
  have back' : Seg look' prev' next' fs (if e.1 = last then prev' else last) 0 := by
    by_cases none : fs = []
    · subst none
      obtain ⟨rfl,rfl⟩ := back
      rw [if_pos rfl]
      exact ⟨rfl,rfl⟩
    · obtain ⟨d,inside,rfl⟩ := rightEnd none
      have stop : e.1 ≠ last := by
        obtain ⟨init,c,rfl⟩ := (List.eq_nil_or_concat fs).resolve_left none
        have final : last = c.1 := by simpa using seg_last back
        rw [final]
        exact (notRight c (by simp)).symm
      rw [if_neg stop]
      refine seg_setPrev back none right prev' (setPrev ((seg_cell back d inside).1)) fun c member other => ?_
      refine same c (List.mem_append_right _ member) (notRight c member) (fun equal => ?_) other
      by_cases first' : es = []
      · subst first'
        exact (seg_cell back c member).1 (equal.trans front.1)
      · obtain ⟨d',inside',rfl⟩ := leftEnd first'
        exact between d' c inside' member equal.symm
  exact seg_append.mpr ⟨prev',next',front',back'⟩

/-- From one address to the null pointer there is one way. -/
theorem seg_unique {before' last' : Ptr} (seg : Seg look before first es last 0) (seg' : Seg look before' first fs last' 0) :
    es = fs := by
  induction es generalizing before before' first fs with
  | nil =>
    cases fs with
    | nil => rfl
    | cons f fs => exact (seg'.2.1 (seg'.1.symm.trans seg.2.symm)).elim
  | cons e es ih =>
    obtain ⟨rfl,some,next,cell,rest⟩ := seg
    cases fs with
    | nil => exact (some seg'.2.symm).elim
    | cons f fs =>
      obtain ⟨same,-,next',cell',rest'⟩ := seg'
      rw [← same,cell] at cell'
      obtain ⟨value,-,rfl⟩ := Cell.mk.inj (Option.some.inj cell')
      rw [Prod.ext same value,ih rest rest']

/-- A chain that ends has no address twice. -/
theorem seg_nodup (seg : Seg look before first es last 0) : (es.map Prod.fst).Nodup := by
  induction es generalizing before first with
  | nil => exact List.nodup_nil
  | cons e es ih =>
    obtain ⟨-,-,next,cell,rest⟩ := seg
    refine List.nodup_cons.mpr ⟨fun again => ?_,ih rest⟩
    obtain ⟨d,inside,same⟩ := List.mem_map.mp again
    obtain ⟨front,back,rfl⟩ := List.append_of_mem inside
    obtain ⟨_,_,-,-,-,next',cell',tail⟩ := seg_append.mp rest
    rw [same,cell] at cell'
    obtain rfl : next = next' := congrArg Cell.next (Option.some.inj cell')
    have count := congrArg List.length (seg_unique rest tail)
    rw [List.length_append,List.length_cons] at count
    omega

theorem seg_beside (e : Ptr × α) (seg : Seg look 0 first (es ++ e::fs) last 0) (prev next : Ptr)
    (cell : look e.1 = some ⟨e.2,prev,next⟩) :
    (prev ≠ 0 → ∃ d ∈ es, d.1 = prev) ∧ (next ≠ 0 → ∃ d ∈ fs, d.1 = next) := by
  obtain ⟨_,_,front,rfl,-,_,cell',back⟩ := seg_append.mp seg
  obtain ⟨-,rfl,rfl⟩ := Cell.mk.inj (Option.some.inj (cell'.symm.trans cell))
  exact ⟨seg_lastCell front,seg_firstCell back⟩

theorem seg_neighbours (e : Ptr × α) (seg : Seg look 0 first (es ++ e::fs) last 0) (prev next : Ptr)
    (cell : look e.1 = some ⟨e.2,prev,next⟩) :
    (prev ≠ 0 → prev ≠ e.1 ∧ ∃ c, look prev = some c) ∧
      (next ≠ 0 → next ≠ e.1 ∧ next ≠ prev ∧ ∃ c, look next = some c) := by
  have distinct := seg_nodup seg
  rw [List.map_append,List.map_cons] at distinct
  obtain ⟨-,right,apart⟩ := List.nodup_append.mp distinct
  obtain ⟨left,later⟩ := seg_beside e seg prev next cell
  have found (d : Ptr × α) (member : d ∈ es ++ e::fs) := seg_known seg d.1 (List.mem_map_of_mem member)
  constructor
  · intro some
    obtain ⟨d,member,rfl⟩ := left some
    exact ⟨apart d.1 (List.mem_map_of_mem member) e.1 List.mem_cons_self,found d (List.mem_append_left _ member)⟩
  · intro some
    obtain ⟨d,member,rfl⟩ := later some
    have behind := List.mem_map_of_mem (f := Prod.fst) member
    refine ⟨fun same => (List.nodup_cons.mp right).1 (same ▸ behind),fun same => ?_,
      found d (List.mem_append_right _ (List.mem_cons_of_mem _ member))⟩
    obtain ⟨c,member',equal⟩ := left (same ▸ some)
    exact apart c.1 (List.mem_map_of_mem member') d.1 (List.mem_cons_of_mem _ behind) (equal.trans same.symm)

theorem seg_exchange {p q : Ptr} {x y : α} (seg : Seg look before first ((p,x)::(es ++ (q,y)::fs)) last 0)
    (setFront : look' p = (look p).map (fun c => {c with value := y}))
    (setLater : look' q = (look q).map (fun c => {c with value := x}))
    (same : ∀ a, a ≠ p → a ≠ q → look' a = look a) :
    Seg look' before first ((p,y)::(es ++ (q,x)::fs)) last 0 := by
  have distinct := seg_nodup seg
  rw [List.map_cons,List.map_append,List.map_cons] at distinct
  obtain ⟨alone,distinct⟩ := List.nodup_cons.mp distinct
  obtain ⟨-,right,apart⟩ := List.nodup_append.mp distinct
  obtain ⟨later,-⟩ := List.nodup_cons.mp right
  obtain ⟨rfl,there,next,cell,rest⟩ := seg
  obtain ⟨mid,_,ahead,rfl,there',next',cell',behind⟩ := seg_append.mp rest
  refine ⟨rfl,there,next,?_,seg_append.mpr ⟨mid,_,?_,rfl,there',next',?_,?_⟩⟩
  · rw [setFront,cell]
    rfl
  · refine seg_frame (fun e inside => same e.1 (fun equal => ?_) fun equal => ?_) ahead
    · exact alone (List.mem_append_left _ (List.mem_map.mpr ⟨e,inside,equal⟩))
    · exact apart e.1 (List.mem_map_of_mem inside) _ List.mem_cons_self equal
  · rw [setLater,cell']
    rfl
  · refine seg_frame (fun e inside => same e.1 (fun equal => ?_) fun equal => ?_) behind
    · exact alone (List.mem_append_right _ (List.mem_cons_of_mem _ (List.mem_map.mpr ⟨e,inside,equal⟩)))
    · exact later (List.mem_map.mpr ⟨e,inside,equal⟩)

end

end Chain
