import Jbdtool.CfgRoundTrip
import Jbdtool.CfgMap

/-! Which names fit in the arrays that the store's functions copy them to. -/
namespace Jbdtool.Cfg
open CString

structure Named (sections : List Section) : Prop where
  name : ∀ s ∈ sections, s.name.length < sectionNameSize
  keyword : ∀ s ∈ sections, ∀ i ∈ s.items, i.keyword.length < keywordSize

private theorem takeKeyword_length (x : Nat) (line : Bytes) (room : x + 1 < keywordSize) :
    x + (takeKeyword x line).1.length < keywordSize := by
  induction line generalizing x with
  | nil => exact Nat.lt_of_succ_lt room
  | cons c ptr ih =>
    rw [takeKeyword]
    split_ifs with equals full
    · exact Nat.lt_of_succ_lt room
    · exact room
    · have more : x + 1 + 1 < keywordSize := by
        unfold keywordSize at full ⊢
        omega
      have later := ih (x + 1) more
      rw [List.length_cons]
      omega

private theorem trim_length (s : Bytes) : (trim s).length ≤ s.length :=
  ((List.rdropWhile_prefix isspace _).sublist.trans (List.dropWhile_suffix _).sublist).length_le

private theorem newItem_keyword {line desc : Bytes} {item : Item} (made : newItem line desc = some item) :
    item.keyword.length < keywordSize := by
  have length := takeKeyword_length 0 line (by decide)
  have trimmed := trim_length (takeKeyword 0 line).1
  unfold newItem at made
  cases rest : (takeKeyword 0 line).2 with
  | nil => simp [rest] at made
  | cons c value =>
    simp only [rest] at made
    obtain rfl := Option.some.inj made
    show (trim (takeKeyword 0 line).1).length < keywordSize
    omega

private theorem headerName_length (line : Bytes) : (headerName line).length < sectionNameSize := by
  simp [headerName,sectionNameSize]

private theorem named_put {sections : List Section} (named : Named sections) (i : Nat) {item : Item}
    (fits : item.keyword.length < keywordSize) : Named (sections.modify i (Section.put item)) := by
  have source (s : Section) (inside : s ∈ sections.modify i (Section.put item)) : ∃ t ∈ sections, s = t ∨ s = t.put item := by
    obtain ⟨j,found⟩ := List.mem_iff_getElem?.mp inside
    rw [List.getElem?_modify] at found
    obtain ⟨t,there,same⟩ := Option.map_eq_some_iff.mp found
    refine ⟨t,List.mem_of_getElem? there,?_⟩
    split_ifs at same
    · exact .inr same.symm
    · exact .inl same.symm
  refine ⟨fun s inside => ?_,fun s inside k listed => ?_⟩
  · obtain ⟨t,there,rfl | rfl⟩ := source s inside
    · exact named.name s there
    · exact named.name t there
  · obtain ⟨t,there,rfl | rfl⟩ := source s inside
    · exact named.keyword s there k listed
    · rcases List.mem_append.mp listed with old | new
      · exact named.keyword t there k ((List.eraseP_sublist).subset old)
      · exact List.mem_singleton.mp new ▸ fits

private theorem processLine_named {r r' : Reader} {line : Bytes} (named : Named r.sections)
    (read : processLine r line = some r') :
    Named r'.sections := by
  by_cases blank : line = []
  · rw [processLine,if_pos blank] at read
    obtain rfl := Option.some.inj read
    exact named
  cases header : isHeader line with
  | true =>
    rw [processLine_header header] at read
    cases found : r.sections.findIdx? (fun s => s.name = headerName line) with
    | some i =>
      simp only [found] at read
      obtain rfl := Option.some.inj read
      exact named
    | none =>
      simp only [found] at read
      obtain rfl := Option.some.inj read
      refine ⟨fun s inside => ?_,fun s inside => ?_⟩
      · rcases List.mem_append.mp inside with old | new
        · exact named.name s old
        · exact List.mem_singleton.mp new ▸ headerName_length line
      · rcases List.mem_append.mp inside with old | new
        · exact named.keyword s old
        · rw [List.mem_singleton.mp new]
          exact nofun
  | false =>
    cases current : r.current with
    | none =>
      rw [processLine_outside blank header current] at read
      obtain rfl := Option.some.inj read
      exact named
    | some i =>
      cases comment : isComment line with
      | true =>
        rw [processLine_comment blank header current comment] at read
        obtain rfl := Option.some.inj read
        exact named
      | false =>
        unfold processLine at read
        rw [if_neg blank,header,current,comment] at read
        obtain ⟨item,made,same⟩ := Option.bind_eq_some_iff.mp read
        obtain rfl := Option.some.inj same
        exact named_put named i (newItem_keyword made)

private theorem readAll_named (n : Nat) (fp : Option Bytes) {r r' : Reader} (named : Named r.sections)
    (read : readAll n fp r = some r') : Named r'.sections := by
  induction n generalizing fp r with
  | zero => cases read
  | succ n ih =>
    rw [readAll] at read
    cases next : readline 1022 fp with
    | none =>
      simp only [next] at read
      obtain rfl := Option.some.inj read
      exact named
    | some got =>
      simp only [next] at read
      obtain ⟨r1,here,later⟩ := Option.bind_eq_some_iff.mp read
      exact ih got.2 (processLine_named named here) later

/-- All that cfg_read makes fits in the fields. -/
theorem cfgRead_named {file : Bytes} {info : Info} (read : cfgRead file = some info) : Named info.sections := by
  obtain ⟨r,all,same⟩ := Option.bind_eq_some_iff.mp read
  obtain rfl := Option.some.inj same
  exact readAll_named _ _ ⟨fun _ inside => (List.not_mem_nil inside).elim,fun _ inside => (List.not_mem_nil inside).elim⟩ all

end Jbdtool.Cfg

namespace Jbdtool.CfgStore
open CString

def Inside {α : Type} (x : C α) : Prop := ∀ b i, x ≠ .error (.bounds b i)

section
variable {α β : Type}

private theorem inside_ok (a : α) : Inside (.ok a : C α) := nofun

private theorem inside_null : Inside (.error .null : C α) := nofun

private theorem inside_map (x : C α) (f : α → β) : Inside (x.map f) ↔ Inside x := by
  cases x with
  | ok a => exact ⟨nofun,nofun⟩
  | error fault => exact forall₂_congr fun b i => not_congr ⟨fun same => congrArg _ (Except.error.inj same),
      fun same => congrArg _ (Except.error.inj same)⟩

private theorem inside_bind {x : C α} {f : α → C β} (first : Inside x) (later : ∀ a, Inside (f a)) : Inside (x >>= f) := by
  cases x with
  | ok a => exact later a
  | error fault => exact fun b i same => first b i (congrArg _ (Except.error.inj same))

end

private theorem inside_copyDesc (m : Mallocs) (desc : Option Bytes) : Inside (copyDesc m desc) := by
  unfold copyDesc
  split_ifs
  · exact inside_null
  · exact inside_ok ()

private theorem inside_setItem (m : Mallocs) (c : Contents) (sname iname : Bytes) (desc ival : Option Bytes) :
    Inside (c.setItem m sname iname desc ival) := by
  have value : Inside (strlenOf ival) := by
    cases ival with
    | none => exact inside_null
    | some ival => exact inside_ok ival
  refine inside_bind value fun ival => ?_
  split_ifs <;> first | exact inside_ok _ | exact inside_bind (inside_copyDesc m desc) fun _ => inside_ok _

private theorem inside_set (m : Mallocs) (c : Contents) (sname : Text Cfg.sectionNameSize) (iname : Bytes)
    (desc ival : Option Bytes) : Inside (c.set m sname.1 iname desc ival) ↔
      c.placed m (sname.1.map toupper) = none ∨ iname.length < Buffer.setItemname.size := by
  have short : sname.1.length < Buffer.secname.size := sname.2
  rw [Contents.set,if_pos short]
  cases placed : c.placed m (sname.1.map toupper) with
  | none => exact ⟨fun _ => .inl rfl,fun _ => inside_ok _⟩
  | some c1 =>
    dsimp only
    split_ifs with short'
    · exact ⟨fun _ => .inr short',fun _ => inside_setItem m c1 _ _ desc ival⟩
    · exact ⟨fun inside => (inside _ _ rfl).elim,fun fits => absurd (fits.resolve_left not_false) short'⟩

/-- Names that fit in the fields are written inside the arrays, except for a keyword of 63
characters that cfg_set_item copies when it has got a section. -/
theorem cfg_inside_iff (m : Mallocs) (store : Store) (sname : Text Cfg.sectionNameSize) (keyword : Text Cfg.keywordSize)
    (desc ival : Option Bytes) :
    (Inside (cfgSetItem m store sname.1 keyword.1 desc ival) ∧ Inside (cfgGetItem store sname.1 keyword.1) ∧
      Inside (cfgGetSection store sname.1) ∧ Inside (cfgCreateSection m store sname.1)) ↔
    keyword.1.length < 63 ∨ store.contents.placed m (sname.1.map toupper) = none := by
  have short : sname.1.length < Buffer.secname.size := sname.2
  have got : Inside (cfgGetItem store sname.1 keyword.1) := by
    have short' : keyword.1.length < Buffer.getItemname.size := keyword.2
    rw [← inside_map _ (fun r => (r.1,r.2.contents)),cfgGetItem_contents,Contents.get,if_pos short,if_pos short']
    split_ifs
    · exact inside_ok _
    · exact inside_ok _
  have section' : Inside (cfgGetSection store sname.1) := by
    obtain ⟨store',found,-⟩ := cfgGetSection_fits store sname.1 short
    rw [found]
    exact inside_ok _
  have created : Inside (cfgCreateSection m store sname.1) := by
    rw [cfgCreateSection,bind_ok _ (newsecName_fits sname.1 sname.2)]
    exact inside_ok _
  rw [← inside_map _ (fun r => (r.1,r.2.contents)),cfgSetItem_contents,inside_set]
  exact ⟨fun all => all.1.symm,fun fits => ⟨fits.symm,got,section',created⟩⟩

/-- A file with such a keyword, which does not fit in itemname when it is set again. -/
theorem cfg_inside_keyword : (List.replicate 63 75).length < Cfg.keywordSize ∧
    Cfg.cfgRead (bytes "[s]\n" ++ List.replicate 63 107 ++ bytes "=1\n") =
      some ⟨[⟨bytes "S",[⟨List.replicate 63 75,none,bytes "1"⟩]⟩]⟩ ∧
    ¬ Inside (cfgSetItem .all (cfgCreate true) (bytes "s") (List.replicate 63 75) none (some (bytes "2"))) := by
  refine ⟨by decide,by decide +kernel,fun inside => ?_⟩
  exact inside .setItemname 63 (by rfl)

end Jbdtool.CfgStore
