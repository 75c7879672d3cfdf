import Jbdtool.CfgStore

/-! The store without its cursors: a table of tables, by names in upper case. What each
function does to it. -/
namespace Jbdtool.CfgStore
open CString

abbrev Items := List (Bytes × Option Bytes)

/-- Sections with their items; null lists and null values are none. -/
abbrev Contents := Option (List (Bytes × Option Items))

def Item.entry (item : Item) : Bytes × Option Bytes := (item.keyword.1,item.value)

def Section.entry (sec : Section) : Bytes × Option Items := (sec.name.1,sec.items.map (fun z => z.all.map Item.entry))

def Store.contents (store : Store) : Contents := store.sections.map (fun z => z.all.map Section.entry)

namespace Contents

def items (c : Contents) (sname : Bytes) : Option (Option Items) := c.bind (Keyed.get sname)

def item (c : Contents) (sname iname : Bytes) : Option (Option Bytes) := (c.items sname).bind (·.bind (Keyed.get iname))

def value (c : Contents) (sname iname : Bytes) : Option Bytes := (c.item sname iname).join

def setValue (c : Contents) (sname iname : Bytes) (value : Option Bytes) : Contents :=
  c.map (Keyed.update sname (Option.map (Keyed.update iname (fun _ => value))))

def insert (c : Contents) (sname iname value : Bytes) : Contents :=
  c.map (Keyed.update sname (Option.map (· ++ [(iname,some value)])))

/-- With the section there, unless it cannot be created. -/
def placed (m : Mallocs) (c : Contents) (sname : Bytes) : Option Contents :=
  if (c.items sname).isSome then some c
  else if m.sectionNode && m.sectionCopy then c.map fun sections =>
    some (sections ++ [(sname,if m.sectionItems then some [] else none)])
  else none

/-- An item set in a section that is there. -/
def setItem (m : Mallocs) (c : Contents) (sname iname : Bytes) (desc ival : Option Bytes) : C (Int × Contents) := do
  let ival ← strlenOf ival
  if (c.item sname iname).isSome then
    if !m.value then return (1,c.setValue sname iname none)
    copyDesc m desc
    return (0,c.setValue sname iname (some ival))
  else
    if !m.value then return (1,c)
    copyDesc m desc
    return (0,if m.itemNode && m.itemCopy then c.insert sname iname ival else c)

def get (c : Contents) (sname keyword : Bytes) : C (Option Bytes × Contents) :=
  if sname.length < Buffer.secname.size then
    if (c.items (sname.map toupper)).isSome then
      if keyword.length < Buffer.getItemname.size then .ok (c.value (sname.map toupper) (keyword.map toupper),c)
      else .error (.bounds .getItemname Buffer.getItemname.size)
    else .ok (none,c)
  else .error (.bounds .secname Buffer.secname.size)

def set (m : Mallocs) (c : Contents) (sname iname : Bytes) (desc ival : Option Bytes) : C (Int × Contents) :=
  if sname.length < Buffer.secname.size then
    match c.placed m (sname.map toupper) with
    | none => .ok (1,c)
    | some c =>
      if iname.length < Buffer.setItemname.size then c.setItem m (sname.map toupper) (iname.map toupper) desc ival
      else .error (.bounds .setItemname Buffer.setItemname.size)
  else .error (.bounds .secname Buffer.secname.size)

end Contents

private theorem copyInto_from (b : Buffer) (f : UInt8 → UInt8) (s text : Bytes) (room : text.length ≤ b.size) :
    (copyInto b f s text).map Subtype.val =
      if text.length + s.length < b.size then .ok (text ++ s.map f) else .error (.bounds b b.size) := by
  induction s generalizing text with
  | nil =>
    rw [copyInto,terminate]
    split_ifs with fits fits' fits'
    · rw [List.map_nil,List.append_nil]
      rfl
    · exact (fits' fits).elim
    · exact (fits fits').elim
    · have full : text.length = b.size := by omega
      rw [← full]
      rfl
  | cons c s ih =>
    rw [copyInto,put]
    by_cases fits : text.length < b.size
    · have later := ih (text ++ [f c]) (List.length_append ▸ fits)
      rw [if_pos fits,List.length_cons]
      refine later.trans ?_
      rw [List.length_append,List.length_singleton,List.append_assoc,Nat.add_assoc,Nat.add_comm 1]
      rfl
    · have full : text.length = b.size := by omega
      rw [if_neg fits,if_neg (by rw [List.length_cons]; omega),full]
      rfl

theorem copyInto_fits (b : Buffer) (f : UInt8 → UInt8) (s : Bytes) (fits : s.length < b.size) :
    copyInto b f s [] = .ok ⟨s.map f,by rwa [List.length_map]⟩ := by
  have copied := copyInto_from b f s [] (Nat.zero_le _)
  rw [List.length_nil,Nat.zero_add,if_pos fits] at copied
  cases made : copyInto b f s [] with
  | error fault => rw [made] at copied; cases copied
  | ok text =>
    rw [made] at copied
    exact congrArg _ (Subtype.ext (Except.ok.inj copied))

theorem copyInto_long (b : Buffer) (f : UInt8 → UInt8) (s : Bytes) (long : ¬ s.length < b.size) :
    copyInto b f s [] = .error (.bounds b b.size) := by
  have copied := copyInto_from b f s [] (Nat.zero_le _)
  rw [List.length_nil,Nat.zero_add,if_neg long] at copied
  cases made : copyInto b f s [] with
  | error fault =>
    rw [made] at copied
    exact congrArg _ (Except.error.inj copied)
  | ok text => rw [made] at copied; cases copied

private theorem newsecName_from (name text : Bytes) (room : text.length + name.length < Cfg.sectionNameSize) :
    (newsecName name text).map Subtype.val = .ok (text ++ name.map toupper) := by
  induction name generalizing text with
  | nil =>
    have fits : text.length < Buffer.newsecName.size := room
    rw [newsecName,terminate,dif_pos fits,List.map_nil,List.append_nil]
    rfl
  | cons c name ih =>
    rw [List.length_cons] at room
    have fits : text.length < Cfg.sectionNameSize := by omega
    have fits' : text.length < Buffer.newsecName.size := fits
    have later := ih (text ++ [toupper c]) (by rw [List.length_append,List.length_singleton]; omega)
    rw [newsecName,if_pos fits,put,if_pos fits']
    refine later.trans ?_
    rw [List.append_assoc]
    rfl

theorem newsecName_fits (name : Bytes) (fits : name.length < Cfg.sectionNameSize) :
    newsecName name [] = .ok ⟨name.map toupper,by rwa [List.length_map]⟩ := by
  have copied := newsecName_from name [] (by rwa [List.length_nil,Nat.zero_add])
  cases made : newsecName name [] with
  | error fault => rw [made] at copied; cases copied
  | ok text =>
    rw [made] at copied
    exact congrArg _ (Subtype.ext (Except.ok.inj copied))

section
variable {α β γ : Type}

private theorem map_modify (l : List α) (i : Nat) (f : α → α) (h : α → β) (g : β → β) (commutes : ∀ a, h (f a) = g (h a)) :
    (l.modify i f).map h = (l.map h).modify i g := by
  refine List.ext_getElem? fun j => ?_
  simp only [List.getElem?_map,List.getElem?_modify,Option.map_eq_map,Option.map_map]
  refine congrArg (fun f => l[j]?.map f) (funext fun a => ?_)
  by_cases same : i = j <;> simp [same,commutes]

private theorem modify_congr (l : List α) (i : Nat) (f g : α → α) (same : ∀ a, l[i]? = some a → f a = g a) :
    l.modify i f = l.modify i g := by
  refine List.ext_getElem? fun j => ?_
  rw [List.getElem?_modify,List.getElem?_modify]
  by_cases here : i = j
  · subst here
    cases found : l[i]? with
    | none => rfl
    | some a => simp [same a found]
  · simp [here]

private theorem search_place (l : Option (Cursored α)) (entry : α → Bytes × β) (name : Bytes) :
    (search l (fun a => (entry a).1 = name)).1 = (l.map (fun z => z.all.map entry)).bind (Keyed.place name) := by
  cases l with
  | none => rfl
  | some z =>
    refine (z.search_place _).trans ?_
    rw [Option.map_some,Option.bind_some,Keyed.place,List.findIdx?_map]
    rfl

private theorem search_all (l : Option (Cursored α)) (p : α → Bool) (f : List α → γ) :
    (search l p).2.map (fun z => f z.all) = l.map (fun z => f z.all) := by
  cases l with
  | none => rfl
  | some z => simp [search]

private theorem listAdd_all (node copy : Bool) (z : Cursored α) (a : α) : listAdd node copy (some z) a =
    if node && copy then (some z.all.length,some (z.add a)) else (none,some z) :=
  rfl

end

section
variable {store : Store} {sections : List (Bytes × Option Items)} {i : Nat}

private theorem sec_entry (store : Store) (i : Nat) :
    (store.sec i).map Section.entry = store.contents.bind (fun l => l[i]?) := by
  unfold Store.sec Store.contents
  cases store.sections with
  | none => rfl
  | some z => simp

private theorem item_entry (store : Store) (i j : Nat) : (store.item i j).map Item.entry =
    (store.contents.bind (fun l => l[i]?)).bind (fun e => e.2.bind (fun l => l[j]?)) := by
  rw [← sec_entry]
  unfold Store.item
  cases store.sec i with
  | none => rfl
  | some sec =>
    rw [Option.bind_some,Option.map_some,Option.bind_some,Section.entry]
    cases sec.items with
    | none => rfl
    | some z => simp

private theorem contents_change (store : Store) (i : Nat) (f : Section → Section)
    (g : Bytes × Option Items → Bytes × Option Items) (commutes : ∀ sec, (f sec).entry = g sec.entry) :
    (store.change i f).contents = store.contents.map (fun l => l.modify i g) := by
  unfold Store.change Store.contents
  cases store.sections with
  | none => rfl
  | some z => simp [map_modify z.all i f Section.entry g commutes]

theorem cfgGetSection_fits (store : Store) (name : Bytes) (fits : name.length < Buffer.secname.size) : ∃ store',
    cfgGetSection store name = .ok (store.contents.bind (Keyed.place (name.map toupper)),store') ∧
      store'.contents = store.contents := by
  unfold cfgGetSection
  rw [copyInto_fits _ _ _ fits]
  refine ⟨_,congrArg (fun place => Except.ok (place,_)) (search_place store.sections Section.entry _),?_⟩
  exact search_all store.sections _ (fun l => l.map Section.entry)

private theorem findItem_spec (known : store.contents = some sections) {sname : Bytes} {items : Option Items}
    (there : sections[i]? = some (sname,items)) (name : Bytes) :
    (findItem store i name).1 = items.bind (Keyed.place name) ∧ (findItem store i name).2.contents = store.contents := by
  have entry := sec_entry store i
  rw [known,Option.bind_some,there] at entry
  obtain ⟨sec,found,same⟩ := Option.map_eq_some_iff.mp entry
  have listed : sec.items.map (fun z => z.all.map Item.entry) = items := congrArg Prod.snd same
  constructor
  · unfold findItem
    rw [found,Option.bind_some,← listed]
    exact search_place sec.items Item.entry name
  · unfold findItem
    rw [found,Option.bind_some]
    refine (contents_change store i _ (fun e => (e.1,items)) fun other => ?_).trans ?_
    · have all := search_all sec.items (fun item => decide (item.keyword.1 = name)) (fun l => l.map Item.entry)
      rw [listed] at all
      exact congrArg (Prod.mk other.name.1) all
    · have still : sections.modify i (fun e => (e.1,items)) = sections := by
        refine (modify_congr sections i _ id fun e here => ?_).trans (List.modify_id i sections)
        rw [there] at here
        obtain rfl := Option.some.inj here
        rfl
      rw [known,Option.map_some,still]

/-- An item changed in its place is the one that counts in the section that counts. -/
private theorem contents_changeItem (known : store.contents = some sections) {sname iname : Bytes} {items : Items} {j : Nat}
    (placed : Keyed.place sname sections = some i) (there : Keyed.get sname sections = some (some items))
    (found : Keyed.place iname items = some j) (value : Option Bytes) (f : Item → Item)
    (set : ∀ item, (f item).entry = (item.entry.1,value)) :
    (store.changeItem i j f).contents = store.contents.setValue sname iname value := by
  obtain ⟨-,-,-,changed⟩ := Keyed.place_some found
  obtain ⟨entry,got,at',changed'⟩ := Keyed.place_some placed
  obtain rfl := Option.some.inj (got.symm.trans there)
  have each (sec : Section) : ({sec with items := sec.items.map (fun z => z.modify j f)} : Section).entry =
      (sec.entry.1,sec.entry.2.map (fun l => l.modify j (fun e => (e.1,value)))) := by
    unfold Section.entry
    cases sec.items with
    | none => rfl
    | some z => simp [map_modify z.all j f Item.entry (fun e => (e.1,value)) set]
  refine (contents_change store i _ (fun e => (e.1,e.2.map (fun l => l.modify j (fun e => (e.1,value))))) each).trans ?_
  rw [known,Contents.setValue,Option.map_some,Option.map_some,← changed']
  refine congrArg some (modify_congr sections i _ _ fun e here => ?_)
  obtain rfl := Option.some.inj (here.symm.trans at')
  exact congrArg (fun l => (sname,some l)) (changed (fun _ => value))

private theorem contents_describe (store : Store) (i j : Nat) (f : Item → Item) (same : ∀ item, (f item).entry = item.entry) :
    (store.changeItem i j f).contents = store.contents := by
  have each (sec : Section) : ({sec with items := sec.items.map (fun z => z.modify j f)} : Section).entry = id sec.entry := by
    unfold Section.entry
    cases sec.items with
    | none => rfl
    | some z => simp [map_modify z.all j f Item.entry id same]
  refine (contents_change store i _ id each).trans ?_
  simp

private theorem contents_add (known : store.contents = some sections) {sname : Bytes}
    (placed : Keyed.place sname sections = some i)
    (node copy : Bool) (item : Item) (value : Bytes) (set : item.value = some value) :
    (store.change i (fun sec => {sec with items := (listAdd node copy sec.items item).2})).contents =
      if node && copy then store.contents.insert sname item.keyword.1 value else store.contents := by
  obtain ⟨entry,-,-,changed⟩ := Keyed.place_some placed
  by_cases works : (node && copy) = true
  · have each (sec : Section) : ({sec with items := (listAdd node copy sec.items item).2} : Section).entry =
        (sec.entry.1,sec.entry.2.map (· ++ [(item.keyword.1,some value)])) := by
      unfold Section.entry
      cases sec.items with
      | none => rfl
      | some z => simp [listAdd_all,works,Item.entry,set]
    rw [if_pos works,known,Contents.insert,Option.map_some]
    refine (contents_change store i _ (fun e => (e.1,e.2.map (· ++ [(item.keyword.1,some value)]))) each).trans ?_
    rw [known,Option.map_some,changed]
  · have each (sec : Section) : ({sec with items := (listAdd node copy sec.items item).2} : Section).entry = id sec.entry := by
      unfold Section.entry
      cases sec.items with
      | none => rfl
      | some z => simp [listAdd_all,works]
    rw [if_neg works]
    refine (contents_change store i _ id each).trans ?_
    simp

end

section
variable {α β : Type}

theorem bind_ok {x : C α} {a : α} (f : α → C β) (made : x = .ok a) : (x >>= f) = f a := made ▸ rfl

theorem bind_error {x : C α} {fault : Fault} (f : α → C β) (failed : x = .error fault) : (x >>= f) = .error fault :=
  failed ▸ rfl

theorem strlenOf_bind (ival : Bytes) (f : Bytes → C β) : (strlenOf (some ival) >>= f) = f ival :=
  rfl

end

private theorem placed_entry {c : Contents} {sname : Bytes} {i : Nat} (placed : c.bind (Keyed.place sname) = some i) :
    ∃ sections items, c = some sections ∧ Keyed.place sname sections = some i ∧ Keyed.get sname sections = some items ∧
      sections[i]? = some (sname,items) := by
  obtain ⟨sections,known,place⟩ := Option.bind_eq_some_iff.mp placed
  obtain ⟨items,got,here,-⟩ := Keyed.place_some place
  exact ⟨sections,items,known,place,got,here⟩

private theorem items_none {c : Contents} {sname : Bytes} (missing : c.bind (Keyed.place sname) = none) :
    c.items sname = none := by
  cases c with
  | none => rfl
  | some sections => exact Keyed.place_eq_none.mp missing

private theorem items_some {c : Contents} {sname : Bytes} {sections : List (Bytes × Option Items)} {items : Option Items}
    (known : c = some sections) (got : Keyed.get sname sections = some items) : c.items sname = some items := by
  rw [known]
  exact got

private theorem item_value {store : Store} {sections : List (Bytes × Option Items)} {i : Nat} {sname : Bytes}
    {items : Option Items}
    (known : store.contents = some sections) (here : sections[i]? = some (sname,items)) (name : Bytes) :
    (items.bind (Keyed.place name)).bind (fun j => (store.item i j).bind Item.value) = (items.bind (Keyed.get name)).join := by
  cases items with
  | none => rfl
  | some items =>
    rw [Option.bind_some,Option.bind_some]
    cases place : Keyed.place name items with
    | none =>
      rw [Keyed.place_eq_none.mp place]
      rfl
    | some j =>
      obtain ⟨value,got,at',-⟩ := Keyed.place_some place
      have entry := item_entry store i j
      rw [known,Option.bind_some,here,Option.bind_some,Option.bind_some,at'] at entry
      obtain ⟨item,found,same⟩ := Option.map_eq_some_iff.mp entry
      rw [got,Option.bind_some,found]
      exact congrArg Prod.snd same

theorem cfgGetItem_contents (store : Store) (sname keyword : Bytes) :
    (cfgGetItem store sname keyword).map (fun r => (r.1,r.2.contents)) = store.contents.get sname keyword := by
  unfold cfgGetItem Contents.get
  by_cases fits : sname.length < Buffer.secname.size
  · obtain ⟨store',found,same⟩ := cfgGetSection_fits store sname fits
    rw [if_pos fits,bind_ok _ found,← same]
    rw [← same] at found
    cases place : store'.contents.bind (Keyed.place (sname.map toupper)) with
    | none =>
      rw [items_none place]
      rfl
    | some i =>
      obtain ⟨sections,items,known,-,got,here⟩ := placed_entry place
      rw [items_some known got,if_pos Option.isSome_some]
      by_cases fits' : keyword.length < Buffer.getItemname.size
      · obtain ⟨item,still⟩ := findItem_spec known here (keyword.map toupper)
        have value : (store'.contents.value (sname.map toupper) (keyword.map toupper)) =
            (items.bind (Keyed.get (keyword.map toupper))).join := by
          rw [Contents.value,Contents.item,items_some known got]
          rfl
        rw [if_pos fits',value,← item_value known here]
        dsimp only
        rw [bind_ok _ (copyInto_fits _ _ _ fits')]
        refine congrArg Except.ok (Prod.ext ?_ still)
        exact congrArg (fun place : Option Nat => place.bind (fun j => (store'.item i j).bind Item.value)) item
      · rw [if_neg fits']
        dsimp only
        rw [bind_error _ (copyInto_long _ _ _ fits')]
        rfl
  · rw [if_neg fits,cfgGetSection,copyInto_long _ _ _ fits]
    rfl

theorem Contents.placed_none (m : Mallocs) {c : Contents} {sname : Bytes} (missing : c.items sname = none) :
    c.placed m sname = if m.sectionNode && m.sectionCopy then
      c.map fun sections => some (sections ++ [(sname,if m.sectionItems then some [] else none)]) else none := by
  rw [Contents.placed,missing]
  exact if_neg (by simp)

private theorem cfgCreateSection_contents (m : Mallocs) (store : Store) (sname : Bytes)
    (fits : sname.length < Cfg.sectionNameSize) (missing : store.contents.items (sname.map toupper) = none) :
    ∃ place store', cfgCreateSection m store sname = .ok (place,store') ∧
      store.contents.placed m (sname.map toupper) = place.map (fun _ => store'.contents) ∧
      (place = none → store'.contents = store.contents) ∧
      ∀ i, place = some i → store'.contents.bind (Keyed.place (sname.map toupper)) = some i := by
  unfold cfgCreateSection
  rw [bind_ok _ (newsecName_fits sname fits),Contents.placed_none m missing]
  obtain ⟨sections⟩ := store
  cases sections with
  | none => exact ⟨none,⟨none⟩,rfl,ite_self _,fun _ => rfl,nofun⟩
  | some z =>
    dsimp only
    rw [listAdd_all]
    by_cases works : (m.sectionNode && m.sectionCopy) = true
    · rw [if_pos works,if_pos works]
      refine ⟨_,_,rfl,?_,nofun,fun i equal => ?_⟩
      · simp only [Store.contents,Option.map_some,Cursored.all_add,List.map_append,List.map_cons,List.map_nil]
        cases m.sectionItems <;> rfl
      · have new : Keyed.get (sname.map toupper) (z.all.map Section.entry) = none := missing
        have added := Keyed.place_append ((if m.sectionItems then some .empty else none : Option (Cursored Item)).map
          (fun z => z.all.map Item.entry)) new
        rw [List.length_map] at added
        simp only [Store.contents,Option.map_some,Cursored.all_add,List.map_append,List.map_cons,List.map_nil]
        exact added.trans equal
    · rw [if_neg works,if_neg works]
      exact ⟨none,_,rfl,rfl,fun _ => rfl,nofun⟩

private theorem getOrCreate_contents (m : Mallocs) (store : Store) (sname : Bytes) (fits : sname.length < Buffer.secname.size) :
    ∃ place store', getOrCreate m store sname = .ok (place,store') ∧
      store.contents.placed m (sname.map toupper) = place.map (fun _ => store'.contents) ∧
      (place = none → store'.contents = store.contents) ∧
      ∀ i, place = some i → store'.contents.bind (Keyed.place (sname.map toupper)) = some i := by
  obtain ⟨found,got,same⟩ := cfgGetSection_fits store sname fits
  unfold getOrCreate
  rw [bind_ok _ got,← same]
  cases place : found.contents.bind (Keyed.place (sname.map toupper)) with
  | some i =>
    obtain ⟨sections,items,known,-,here,-⟩ := placed_entry place
    refine ⟨some i,found,rfl,?_,nofun,fun j equal => place.trans equal⟩
    rw [Contents.placed,items_some known here,if_pos Option.isSome_some]
    rfl
  | none =>
    rw [if_pos rfl]
    exact cfgCreateSection_contents m found sname fits (items_none place)

theorem Contents.item_of {c : Contents} {sname : Bytes} {items : Option Items} (there : c.items sname = some items)
    (iname : Bytes) : c.item sname iname = items.bind (Keyed.get iname) := by
  rw [Contents.item,there]
  rfl

private theorem replaceItem_contents (m : Mallocs) {store : Store} {sections : List (Bytes × Option Items)}
    {sname iname : Bytes}
    {i j : Nat} {items : Items} (known : store.contents = some sections) (placed : Keyed.place sname sections = some i)
    (there : Keyed.get sname sections = some (some items)) (found : Keyed.place iname items = some j) (desc ival : Option Bytes) :
    (replaceItem m store i j desc ival).map (fun r => (r.1,r.2.contents)) =
      store.contents.setItem m sname iname desc ival := by
  have item : (store.contents.item sname iname).isSome = true := by
    obtain ⟨value,got,-,-⟩ := Keyed.place_some found
    rw [Contents.item_of (items_some known there),Option.bind_some,got]
    rfl
  have changed (value : Option Bytes) := contents_changeItem known placed there found value
    (fun item => {item with value := value}) (fun _ => rfl)
  unfold replaceItem Contents.setItem
  cases ival with
  | none => rfl
  | some ival =>
    rw [strlenOf_bind,strlenOf_bind]
    rw [if_pos item]
    cases m.value with
    | false => exact congrArg (fun c => Except.ok (1,c)) (changed none)
    | true =>
      simp only [Bool.not_true,Bool.false_eq_true,if_false]
      cases copied : copyDesc m desc with
      | error fault => rfl
      | ok u =>
        have kept := contents_describe (store.changeItem i j (fun item => {item with value := some ival})) i j
          (fun item => {item with desc := if desc.isSome then desc else item.desc}) (fun _ => rfl)
        exact congrArg (fun c => Except.ok (0,c)) (kept.trans (changed (some ival)))

private theorem addItem_contents (m : Mallocs) {store : Store} {sections : List (Bytes × Option Items)} {sname : Bytes}
    {i : Nat} {items : Option Items} (known : store.contents = some sections) (placed : Keyed.place sname sections = some i)
    (there : Keyed.get sname sections = some items) (itemname : Text (Cfg.keywordSize - 1))
    (missing : items.bind (Keyed.place itemname.1) = none) (desc ival : Option Bytes) :
    (addItem m store i itemname desc ival).map (fun r => (r.1,r.2.contents)) =
      store.contents.setItem m sname itemname.1 desc ival := by
  have item : ¬ (store.contents.item sname itemname.1).isSome = true := by
    rw [Contents.item_of (items_some known there)]
    cases items with
    | none => exact Bool.false_ne_true
    | some items =>
      rw [Option.bind_some,Keyed.place_eq_none.mp missing]
      exact Bool.false_ne_true
  unfold addItem Contents.setItem
  cases ival with
  | none => rfl
  | some ival =>
    rw [strlenOf_bind,strlenOf_bind]
    rw [if_neg item]
    cases m.value with
    | false => rfl
    | true =>
      simp only [Bool.not_true,Bool.false_eq_true,if_false]
      cases copied : copyDesc m desc with
      | error fault => rfl
      | ok u =>
        have added := contents_add known placed m.itemNode m.itemCopy
          ⟨⟨itemname.1,Nat.lt_succ_of_lt itemname.2⟩,desc,some ival⟩ ival rfl
        exact congrArg (fun c => Except.ok (0,c)) added

theorem cfgSetItem_contents (m : Mallocs) (store : Store) (sname iname : Bytes) (desc ival : Option Bytes) :
    (cfgSetItem m store sname iname desc ival).map (fun r => (r.1,r.2.contents)) =
      store.contents.set m sname iname desc ival := by
  unfold cfgSetItem Contents.set
  by_cases fits : sname.length < Buffer.secname.size
  · obtain ⟨place,store',got,created,none,some⟩ := getOrCreate_contents m store sname fits
    rw [if_pos fits,bind_ok _ got,created]
    cases place with
    | none => exact congrArg (fun c => Except.ok (1,c)) (none rfl)
    | some i =>
      obtain ⟨sections,items,known,at',there,here⟩ := placed_entry (some i rfl)
      rw [Option.map_some]
      dsimp only
      by_cases fits' : iname.length < Buffer.setItemname.size
      · obtain ⟨found,still⟩ := findItem_spec known here (iname.map toupper)
        rw [if_pos fits',bind_ok _ (copyInto_fits _ _ _ fits')]
        dsimp only
        rw [← still]
        rw [← still] at known
        cases place : items.bind (Keyed.place (iname.map toupper)) with
        | none =>
          rw [found.trans place]
          exact addItem_contents m known at' there ⟨iname.map toupper,_⟩ place desc ival
        | some j =>
          obtain ⟨items,rfl,inside⟩ := Option.bind_eq_some_iff.mp place
          rw [found.trans place]
          exact replaceItem_contents m known at' there inside desc ival
      · rw [if_neg fits',bind_error _ (copyInto_long _ _ _ fits')]
        rfl
  · rw [if_neg fits,getOrCreate,cfgGetSection,copyInto_long _ _ _ fits]
    rfl

theorem cfgGetItem_result (store : Store) (sname keyword : Bytes) :
    (cfgGetItem store sname keyword).map Prod.fst = (store.contents.get sname keyword).map Prod.fst := by
  rw [← cfgGetItem_contents]
  cases cfgGetItem store sname keyword <;> rfl

theorem cfgSetItem_exists (m : Mallocs) (store : Store) (sname iname : Bytes) (desc ival : Option Bytes)
    (p : Int → Contents → Prop) :
    (∃ r store', cfgSetItem m store sname iname desc ival = .ok (r,store') ∧ p r store'.contents) ↔
      ∃ r c', store.contents.set m sname iname desc ival = .ok (r,c') ∧ p r c' := by
  rw [← cfgSetItem_contents]
  cases cfgSetItem m store sname iname desc ival with
  | error fault => simp [Except.map]
  | ok r =>
    constructor
    · rintro ⟨r,store',same,holds⟩
      exact ⟨r,store'.contents,congrArg (Except.map _) same,holds⟩
    · rintro ⟨r,c',same,holds⟩
      obtain ⟨rfl,rfl⟩ := Prod.mk.inj (Except.ok.inj same)
      exact ⟨_,_,rfl,holds⟩

end Jbdtool.CfgStore
