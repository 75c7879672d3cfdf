import Jbdtool.CfgTable

/-! What a reader of the store sees of cfg_set_item: a map whose keys are pairs of names,
without regard to case. -/
namespace Jbdtool.CfgStore
open CString

namespace Contents
variable {c c' : Contents} {m : Mallocs} {sname iname : Bytes}

private theorem items_setValue (c : Contents) (sname iname : Bytes) (value : Option Bytes) (s : Bytes) :
    (c.setValue sname iname value).items s =
      if s = sname then (c.items s).map (Option.map (Keyed.update iname (fun _ => value))) else c.items s := by
  cases c with
  | none => exact (ite_self _).symm
  | some sections => exact Keyed.get_update sname s _ sections

private theorem items_insert (c : Contents) (sname iname value : Bytes) (s : Bytes) :
    (c.insert sname iname value).items s =
      if s = sname then (c.items s).map (Option.map (· ++ [(iname,some value)])) else c.items s := by
  cases c with
  | none => exact (ite_self _).symm
  | some sections => exact Keyed.get_update sname s _ sections

theorem item_setValue (c : Contents) (sname iname : Bytes) (value : Option Bytes) (s i : Bytes) :
    (c.setValue sname iname value).item s i =
      if s = sname ∧ i = iname then (c.item s i).map (fun _ => value) else c.item s i := by
  unfold item
  rw [items_setValue]
  by_cases same : s = sname
  · rw [if_pos same]
    cases c.items s with
    | none => exact (ite_self _).symm
    | some items => cases items with
      | none => exact (ite_self _).symm
      | some items =>
        refine (Keyed.get_update iname i _ items).trans ?_
        by_cases same' : i = iname <;> simp [same,same']
  · rw [if_neg same,if_neg (fun both => same both.1)]

private theorem item_insert {items : Items} (there : c.items sname = some (some items)) (new : c.item sname iname = none)
    (value s i : Bytes) :
    (c.insert sname iname value).item s i = if s = sname ∧ i = iname then some (some value) else c.item s i := by
  have new' : Keyed.get iname items = none := by
    rw [item_of there] at new
    exact new
  by_cases same : s = sname
  · subst same
    have now : (c.insert s iname value).items s = some (some (items ++ [(iname,some value)])) := by
      rw [items_insert,if_pos rfl,there]
      rfl
    rw [item_of now,item_of there,Option.bind_some,Option.bind_some,Keyed.get_append i (some value) new']
    by_cases same' : i = iname <;> simp [same']
  · unfold item
    rw [items_insert,if_neg same,if_neg (fun both => same both.1)]

private theorem item_insert_null (there : c.items sname = some none) (iname value s i : Bytes) :
    (c.insert sname iname value).item s i = c.item s i := by
  unfold item
  rw [items_insert]
  split_ifs with same
  · rw [same,there]
    rfl
  · rfl

def listOf (m : Mallocs) (c : Contents) (sname : Bytes) : Option Items :=
  (c.items sname).getD (if m.sectionItems then some [] else none)

private theorem placed_items (placed : c.placed m sname = some c') (s : Bytes) :
    c'.items s = if s = sname then some (listOf m c sname) else c.items s := by
  unfold listOf
  cases there : c.items sname with
  | some items =>
    rw [Contents.placed,there,if_pos Option.isSome_some] at placed
    obtain rfl := Option.some.inj placed
    rw [Option.getD_some]
    split_ifs with same
    · rw [same,there]
    · rfl
  | none =>
    rw [placed_none m there] at placed
    by_cases works : (m.sectionNode && m.sectionCopy) = true
    · rw [if_pos works] at placed
      cases c with
      | none => cases placed
      | some sections =>
        obtain rfl := Option.some.inj placed
        exact Keyed.get_append s _ there
    · rw [if_neg works] at placed
      cases placed

theorem placed_item (placed : c.placed m sname = some c') (s i : Bytes) : c'.item s i = c.item s i := by
  unfold item
  rw [placed_items placed]
  split_ifs with same
  · unfold listOf
    rw [same]
    cases c.items sname with
    | some items => rfl
    | none => cases m.sectionItems <;> rfl
  · rfl

section
variable {desc : Option Bytes}

theorem set_unplaced (short : sname.length < Buffer.secname.size) (refused : c.placed m (sname.map toupper) = none)
    (iname : Bytes) (desc ival : Option Bytes) : c.set m sname iname desc ival = .ok (1,c) := by
  rw [set,if_pos short,refused]

theorem set_placed (short : sname.length < Buffer.secname.size) (placed : c.placed m (sname.map toupper) = some c')
    (iname : Bytes) (desc ival : Option Bytes) : c.set m sname iname desc ival =
      if iname.length < Buffer.setItemname.size then c'.setItem m (sname.map toupper) (iname.map toupper) desc ival
      else .error (.bounds .setItemname Buffer.setItemname.size) := by
  rw [set,if_pos short,placed]

private theorem setItem_replaces {value : Bytes} (there : (c.item sname iname).isSome) (works : m.value = true)
    (copied : copyDesc m desc = .ok ()) :
    c.setItem m sname iname desc (some value) = .ok (0,c.setValue sname iname (some value)) := by
  rw [setItem,strlenOf_bind,if_pos there,works,copied]
  rfl

theorem setItem_loses {value : Bytes} (there : (c.item sname iname).isSome) (fails : m.value = false) :
    c.setItem m sname iname desc (some value) = .ok (1,c.setValue sname iname none) := by
  rw [setItem,strlenOf_bind,if_pos there,fails]
  rfl

theorem setItem_adds {value : Bytes} (new : c.item sname iname = none) (works : m.value = true)
    (copied : copyDesc m desc = .ok ()) : c.setItem m sname iname desc (some value) =
      .ok (0,if m.itemNode && m.itemCopy then c.insert sname iname value else c) := by
  rw [setItem,strlenOf_bind,if_neg (by simp [new]),works,copied]
  rfl

theorem setItem_refuses {value : Bytes} (new : c.item sname iname = none) (fails : m.value = false) :
    c.setItem m sname iname desc (some value) = .ok (1,c) := by
  rw [setItem,strlenOf_bind,if_neg (by simp [new]),fails]
  rfl

end

/-- What a call needs so that it returns 0 and has set its value. -/
structure Stores (m : Mallocs) (c : Contents) (sname iname : Bytes) (desc : Option Bytes) : Prop where
  short : sname.length < Buffer.secname.size
  placed : (c.placed m (sname.map toupper)).isSome
  short' : iname.length < Buffer.setItemname.size
  value : m.value = true
  desc : desc = none ∨ m.desc = true
  item : (c.item (sname.map toupper) (iname.map toupper)).isSome ∨
    (listOf m c (sname.map toupper)).isSome ∧ m.itemNode = true ∧ m.itemCopy = true

theorem copyDesc_ok (m : Mallocs) (desc : Option Bytes) : copyDesc m desc = .ok () ↔ desc = none ∨ m.desc = true := by
  unfold copyDesc
  cases desc <;> cases m.desc <;> simp

theorem set_stores {desc : Option Bytes} (stores : Stores m c sname iname desc) (value : Bytes) :
    ∃ c', c.set m sname iname desc (some value) = .ok (0,c') ∧
      (∀ s i, c'.item s i =
        if s = sname.map toupper ∧ i = iname.map toupper then some (some value) else c.item s i) ∧
      ∀ s, (c'.items s).map Option.isSome =
        if s = sname.map toupper then some true else (c.items s).map Option.isSome := by
  obtain ⟨short,placed,short',works,described,listed⟩ := stores
  obtain ⟨c1,created⟩ := Option.isSome_iff_exists.mp placed
  have same := placed_item created
  have copied := (copyDesc_ok m desc).mpr described
  obtain ⟨items,here⟩ : ∃ items, c1.items (sname.map toupper) = some (some items) := by
    rcases listed with there | listed
    · rw [← same] at there
      obtain ⟨found,there⟩ := Option.isSome_iff_exists.mp there
      obtain ⟨l,listed,got⟩ := Option.bind_eq_some_iff.mp there
      obtain ⟨items,rfl,-⟩ := Option.bind_eq_some_iff.mp got
      exact ⟨items,listed⟩
    · obtain ⟨items,list⟩ := Option.isSome_iff_exists.mp listed.1
      exact ⟨items,by rw [placed_items created,if_pos rfl,list]⟩
  have lists (f : Items → Items) (s : Bytes) :
      (if s = sname.map toupper then (c1.items s).map (Option.map f) else c1.items s).map Option.isSome =
        if s = sname.map toupper then some true else (c.items s).map Option.isSome := by
    split_ifs with key
    · rw [key,here]
      rfl
    · rw [placed_items created,if_neg key]
  rw [set_placed short created,if_pos short']
  by_cases there : (c.item (sname.map toupper) (iname.map toupper)).isSome
  · refine ⟨_,setItem_replaces (same _ _ ▸ there) works copied,fun s i => ?_,fun s => ?_⟩
    · rw [item_setValue,same]
      split_ifs with key
      · obtain ⟨old,found⟩ := Option.isSome_iff_exists.mp there
        rw [key.1,key.2,found]
        rfl
      · rfl
    · rw [items_setValue]
      exact lists _ s
  · have new : c1.item (sname.map toupper) (iname.map toupper) = none := by
      rw [same]
      exact Option.not_isSome_iff_eq_none.mp there
    obtain ⟨-,node,copy⟩ := listed.resolve_left there
    refine ⟨_,setItem_adds new works copied,fun s i => ?_,fun s => ?_⟩
    · rw [node,copy,← same]
      exact item_insert here new value s i
    · rw [node,copy]
      refine (congrArg (Option.map Option.isSome) (items_insert _ _ _ _ s)).trans ?_
      exact lists _ s

theorem item_unadded (created : c.placed m sname = some c') (new : c'.item sname iname = none) (value : Bytes)
    (unready : ¬ ((listOf m c sname).isSome ∧ m.itemNode = true ∧ m.itemCopy = true)) :
    (if m.itemNode && m.itemCopy then c'.insert sname iname value else c').item sname iname = none := by
  split_ifs with added
  · have null : c'.items sname = some none := by
      rw [placed_items created,if_pos rfl]
      refine congrArg some (Option.not_isSome_iff_eq_none.mp fun list => unready ⟨list,?_⟩)
      exact Bool.and_eq_true_iff.mp added
    rw [item_insert_null null,new]
  · exact new

theorem set_zero {desc ival : Option Bytes} (set : c.set m sname iname desc ival = .ok (0,c')) :
    ∃ c1, sname.length < Buffer.secname.size ∧ c.placed m (sname.map toupper) = some c1 ∧
      iname.length < Buffer.setItemname.size ∧
      c1.setItem m (sname.map toupper) (iname.map toupper) desc ival = .ok (0,c') := by
  by_cases short : sname.length < Buffer.secname.size
  · cases created : c.placed m (sname.map toupper) with
    | none =>
      rw [set_unplaced short created] at set
      cases set
    | some c1 =>
      rw [set_placed short created] at set
      by_cases short' : iname.length < Buffer.setItemname.size
      · rw [if_pos short'] at set
        exact ⟨c1,short,rfl,short',set⟩
      · rw [if_neg short'] at set
        cases set
  · rw [Contents.set,if_neg short] at set
    cases set

theorem setItem_null (m : Mallocs) (c : Contents) (sname iname : Bytes) (desc : Option Bytes) :
    c.setItem m sname iname desc none = .error .null :=
  rfl

private theorem setItem_zero {desc : Option Bytes} {value : Bytes}
    (set : c.setItem m sname iname desc (some value) = .ok (0,c')) :
    m.value = true ∧ copyDesc m desc = .ok () := by
  cases works : m.value with
  | true =>
    refine ⟨rfl,?_⟩
    cases copied : copyDesc m desc with
    | ok u => rfl
    | error fault =>
      rw [setItem,strlenOf_bind,works,copied] at set
      split_ifs at set <;> cases set
  | false =>
    by_cases there : (c.item sname iname).isSome
    · rw [setItem_loses there works] at set
      cases set
    · rw [setItem_refuses (Option.not_isSome_iff_eq_none.mp there) works] at set
      cases set

theorem stores_of_set {desc : Option Bytes} {value : Bytes} (set : c.set m sname iname desc (some value) = .ok (0,c'))
    (there : c'.value (sname.map toupper) (iname.map toupper) ≠ none) : Stores m c sname iname desc := by
  obtain ⟨c1,short,created,short',set⟩ := set_zero set
  obtain ⟨works,copied⟩ := setItem_zero set
  have same := placed_item created
  refine ⟨short,Option.isSome_iff_exists.mpr ⟨c1,created⟩,short',works,(copyDesc_ok m desc).mp copied,?_⟩
  by_cases old : (c.item (sname.map toupper) (iname.map toupper)).isSome
  · exact .inl old
  · refine .inr (by_contra fun unready => there ?_)
    have new := (same _ _).trans (Option.not_isSome_iff_eq_none.mp old)
    rw [setItem_adds new works copied] at set
    obtain ⟨-,rfl⟩ := Prod.mk.inj (Except.ok.inj set)
    rw [Contents.value,item_unadded created new _ unready]
    rfl

end Contents

theorem Contents.get_value (c : Contents) (sname : Text Cfg.sectionNameSize) (keyword : Text Cfg.keywordSize) :
    (c.get sname.1 keyword.1).map Prod.fst = .ok (c.value (sname.1.map toupper) (keyword.1.map toupper)) := by
  have short : sname.1.length < Buffer.secname.size := sname.2
  have short' : keyword.1.length < Buffer.getItemname.size := keyword.2
  rw [Contents.get,if_pos short,if_pos short']
  unfold Contents.value Contents.item
  cases c.items (sname.1.map toupper) <;> rfl

theorem cfgGetItem_value (store : Store) (sname : Text Cfg.sectionNameSize) (keyword : Text Cfg.keywordSize) :
    (cfgGetItem store sname.1 keyword.1).map Prod.fst =
      .ok (store.contents.value (sname.1.map toupper) (keyword.1.map toupper)) :=
  (cfgGetItem_result store sname.1 keyword.1).trans (store.contents.get_value sname keyword)

def Mallocs.all : Mallocs := ⟨true,true,true,true,true,true,true⟩

structure Call where
  sname : Text 63
  iname : Text 63
  desc : Option Bytes
  ival : Bytes

def Call.make (m : Mallocs) (store : Store) (call : Call) : C (Int × Store) :=
  cfgSetItem m store call.sname.1 call.iname.1 call.desc (some call.ival)

def Call.sets (sname keyword : Bytes) (call : Call) : Bool := caseEqual call.sname.1 sname && caseEqual call.iname.1 keyword

def lastSet (calls : List Call) (sname keyword : Bytes) : Option Bytes :=
  (calls.reverse.find? (Call.sets sname keyword)).map Call.ival

/-- No list is missing, and the items are those last set. -/
structure Holds (store : Store) (calls : List Call) : Prop where
  sections : store.contents.isSome
  items : ∀ s, store.contents.items s ≠ some none
  item : ∀ s k : Bytes, store.contents.item (s.map toupper) (k.map toupper) = (lastSet calls s k).map some

private theorem Holds.get {store : Store} {calls : List Call} (holds : Holds store calls) (sname : Text Cfg.sectionNameSize)
    (keyword : Text Cfg.keywordSize) :
    (cfgGetItem store sname.1 keyword.1).map Prod.fst = .ok (lastSet calls sname.1 keyword.1) := by
  rw [cfgGetItem_value,Contents.value,holds.item]
  cases lastSet calls sname.1 keyword.1 <;> rfl

end Jbdtool.CfgStore
