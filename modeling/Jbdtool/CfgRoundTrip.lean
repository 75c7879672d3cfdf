import Jbdtool.CfgLines
import Mathlib.Data.List.Nodup

/-! A config file that is read, written and read again. -/
namespace Jbdtool.Cfg
open CString

/-- No blank at either end. -/
structure Bare (line : Bytes) : Prop where
  start : ∀ c, line.head? = some c → isspace c = false
  stop : ∀ c, line.getLast? = some c → isspace c = false

section
variable {line key value : Bytes} {p : UInt8 → Bool}

private theorem prefix_head {front : Bytes} (first : front <+: line) {c : UInt8} (head : front.head? = some c) :
    line.head? = some c := by
  obtain ⟨rest,rfl⟩ := first
  rw [List.head?_append,head]
  rfl

theorem dropWhile_start (line : Bytes) {c : UInt8} (head : (line.dropWhile p).head? = some c) : p c = false := by
  have first := List.head?_dropWhile_not p line
  rw [head] at first
  exact first

private theorem rdropWhile_stop (line : Bytes) {c : UInt8} (last : (line.rdropWhile p).getLast? = some c) : p c = false := by
  have some : line.rdropWhile p ≠ [] := fun none => by simp [none] at last
  have final := List.rdropWhile_last_not p line some
  rw [List.getLast?_eq_some_getLast some] at last
  rw [Option.some.inj last] at final
  simpa using final

private theorem bare_strip (line : Bytes) : Bare (strip line) where
  start _ head := dropWhile_start line (prefix_head (List.rdropWhile_prefix isspace _) head)
  stop _ last := rdropWhile_stop (line.dropWhile isspace) last

private theorem dropWhile_bare (start : ∀ c, line.head? = some c → p c = false) : line.dropWhile p = line := by
  cases line with
  | nil => rfl
  | cons c line => exact List.dropWhile_cons_of_neg (by simp [start c rfl])

private theorem rdropWhile_bare (stop : ∀ c, line.getLast? = some c → p c = false) : line.rdropWhile p = line := by
  refine List.rdropWhile_eq_self_iff.mpr fun some => ?_
  simp [stop _ (List.getLast?_eq_some_getLast some)]

private theorem strip_bare (bare : Bare line) : strip line = line := by
  unfold strip
  rw [dropWhile_bare bare.start,rdropWhile_bare bare.stop]

private theorem trim_bare (text : ∀ c ∈ key, printable c) (start : ∀ c, key.head? = some c → isspace c = false) :
    trim key = key.rdropWhile isspace := by
  have front : key.dropWhile (fun c => isspace c || (0 < c && c < 32)) = key := by
    refine dropWhile_bare fun c head => ?_
    obtain ⟨low,-⟩ : 32 ≤ c ∧ c ≤ 126 := by simpa [printable] using text c (List.mem_of_head? head)
    simpa [start c head] using fun _ => low
  unfold trim
  rw [front]
  rfl

end

def Item.line (i : Item) : Bytes := i.keyword ++ 61::i.value

structure Comment (desc : Bytes) : Prop where
  text : ∀ c ∈ desc, printable c
  short : desc.length ≤ 1020
  bare : Bare desc
  marked : isComment desc = true

structure Item.Kept (i : Item) : Prop where
  text : ∀ c ∈ i.line, printable c
  short : i.line.length ≤ 1020
  bare : Bare i.line
  upper : i.keyword.map toupper = i.keyword
  trimmed : trim i.keyword = i.keyword
  room : i.keyword.length ≤ 62
  equals : 61 ∉ i.keyword
  noHeader : isHeader i.line = false
  noComment : isComment i.line = false
  desc : ∀ d, i.desc = some d → Comment d

structure Section.Kept (s : Section) : Prop where
  text : ∀ c ∈ s.name, printable c
  upper : s.name.map toupper = s.name
  room : s.name.length ≤ 63
  bracket : 93 ∉ s.name
  items : ∀ i ∈ s.items, i.Kept
  distinct : (s.items.map Item.keyword).Nodup

structure Reader.Kept (r : Reader) : Prop where
  sections : ∀ s ∈ r.sections, s.Kept
  distinct : (r.sections.map Section.name).Nodup
  current : ∀ i, r.current = some i → i < r.sections.length
  desc : r.desc = [] ∨ Comment r.desc

section
variable {line key value desc : Bytes}

private theorem isHeader_iff : isHeader line = true ↔ line.head? = some 91 ∧ 93 ∈ line := by
  simp [isHeader]

private theorem isComment_iff : isComment line = true ↔ line.head? = some 59 ∨ line.head? = some 35 := by
  simp [isComment]

private theorem takeKeyword_append (x : Nat) (equals : 61 ∉ key) (room : x + key.length ≤ 62) :
    takeKeyword x (key ++ 61::value) = (key.map toupper,61::value) := by
  induction key generalizing x with
  | nil => rfl
  | cons c key ih =>
    obtain ⟨other,others⟩ : 61 ≠ c ∧ 61 ∉ key := by simpa using equals
    rw [List.length_cons] at room
    have fits : ¬ x + 1 > keywordSize - 2 := by
      unfold keywordSize
      omega
    rw [List.cons_append,takeKeyword,if_neg other.symm,if_neg fits,ih (x + 1) others (by omega)]
    rfl

private theorem newItem_append (equals : 61 ∉ key) (room : key.length ≤ 62) : newItem (key ++ 61::value) desc =
    some ⟨trim (key.map toupper),if desc = [] then none else some desc,value⟩ := by
  unfold newItem
  rw [takeKeyword_append 0 equals (by omega)]

private theorem line_head (text : ∀ c ∈ key ++ 61::value, printable c) (bare : Bare (key ++ 61::value)) :
    trim (key.map toupper) = (key.map toupper).rdropWhile isspace ∧
      (trim (key.map toupper) ++ 61::value).head? = (key ++ 61::value).head?.map toupper := by
  have upperText (c : UInt8) (inside : c ∈ key.map toupper) : printable c := by
    obtain ⟨d,member,rfl⟩ := List.mem_map.mp inside
    rw [printable_toupper]
    exact text d (List.mem_append_left _ member)
  have start (c : UInt8) (head : (key.map toupper).head? = some c) : isspace c = false := by
    rw [List.head?_map] at head
    obtain ⟨d,first,rfl⟩ := Option.map_eq_some_iff.mp head
    rw [isspace_toupper]
    exact bare.start d (by rw [List.head?_append,first]; rfl)
  rw [trim_bare upperText start]
  have front := List.rdropWhile_prefix isspace (key.map toupper)
  refine ⟨rfl,?_⟩
  cases key with
  | nil => rfl
  | cons d key =>
    have visible : isspace (toupper d) = false := start _ rfl
    have some : ((d::key).map toupper).rdropWhile isspace ≠ [] := fun none => by
      have blank := List.rdropWhile_eq_nil_iff.mp none (toupper d) (by simp)
      rw [visible] at blank
      cases blank
    obtain ⟨c,rest,whole⟩ := List.exists_cons_of_ne_nil some
    rw [whole] at front ⊢
    have same := prefix_head front (c := c) rfl
    simpa using same.symm

private theorem newItem_kept (text : ∀ c ∈ key ++ 61::value, printable c) (short : (key ++ 61::value).length ≤ 1020)
    (bare : Bare (key ++ 61::value)) (equals : 61 ∉ key) (room : key.length ≤ 62)
    (noHeader : isHeader (key ++ 61::value) = false) (noComment : isComment (key ++ 61::value) = false)
    (known : desc = [] ∨ Comment desc) :
    Item.Kept ⟨trim (key.map toupper),if desc = [] then none else some desc,value⟩ := by
  obtain ⟨trimmed,head⟩ := line_head text bare
  have front : trim (key.map toupper) <+: key.map toupper := trimmed ▸ List.rdropWhile_prefix isspace _
  have length : (trim (key.map toupper)).length ≤ key.length := by
    simpa using front.length_le
  have source (c : UInt8) (inside : c ∈ trim (key.map toupper)) : ∃ d ∈ key, toupper d = c :=
    List.mem_map.mp (front.subset inside)
  have headed {c : UInt8} (other : ¬ (65 ≤ c ∧ c ≤ 90))
      (first : (trim (key.map toupper) ++ 61::value).head? = some c) : (key ++ 61::value).head? = some c := by
    rw [head] at first
    obtain ⟨d,found,same⟩ := Option.map_eq_some_iff.mp first
    rwa [toupper_eq other same] at found
  have last : (trim (key.map toupper) ++ 61::value).getLast? = (key ++ 61::value).getLast? := by
    rw [List.getLast?_append_of_ne_nil _ (List.cons_ne_nil 61 value),
      List.getLast?_append_of_ne_nil _ (List.cons_ne_nil 61 value)]
  have starts (c : UInt8) (first : (trim (key.map toupper) ++ 61::value).head? = some c) : isspace c = false := by
    rw [head] at first
    obtain ⟨d,found,rfl⟩ := Option.map_eq_some_iff.mp first
    rw [isspace_toupper]
    exact bare.start d found
  have keyText (c : UInt8) (inside : c ∈ trim (key.map toupper)) : printable c := by
    obtain ⟨d,member,rfl⟩ := source c inside
    rw [printable_toupper]
    exact text d (List.mem_append_left _ member)
  constructor
  · intro c inside
    rcases List.mem_append.mp inside with early | late
    · exact keyText c early
    · exact text c (List.mem_append_right _ late)
  · simp [Item.line] at short ⊢
    omega
  · exact ⟨starts,fun c final => bare.stop c (last ▸ final)⟩
  · refine (List.map_congr_left fun c inside => ?_).trans (List.map_id _)
    obtain ⟨d,-,rfl⟩ := source c inside
    exact toupper_toupper d
  · have again := trim_bare keyText fun c first => starts c (by rw [List.head?_append,first]; rfl)
    rw [again,trimmed,List.rdropWhile_idempotent]
  · exact length.trans room
  · intro inside
    obtain ⟨d,member,same⟩ := source 61 inside
    exact equals (toupper_eq (by decide) same ▸ member)
  · refine Bool.eq_false_iff.mpr fun header => ?_
    obtain ⟨first,bracket⟩ := isHeader_iff.mp header
    have bracket' : 93 ∈ key ++ 61::value := by
      rcases List.mem_append.mp bracket with early | late
      · obtain ⟨d,member,same⟩ := source 93 early
        exact List.mem_append_left _ (toupper_eq (by decide) same ▸ member)
      · exact List.mem_append_right _ late
    have found := isHeader_iff.mpr ⟨headed (by decide) first,bracket'⟩
    rw [noHeader] at found
    cases found
  · refine Bool.eq_false_iff.mpr fun comment => ?_
    have found := isComment_iff.mpr ((isComment_iff.mp comment).imp (headed (by decide)) (headed (by decide)))
    rw [noComment] at found
    cases found
  · intro d some
    rcases known with rfl | comment
    · cases some
    · by_cases empty : desc = []
      · simp [empty] at some
      · simp only [empty,if_false] at some
        exact Option.some.inj some ▸ comment

private theorem early_split (early : 61 ∈ line.take 63) :
    ∃ key value, line = key ++ 61::value ∧ 61 ∉ key ∧ key.length ≤ 62 := by
  obtain ⟨key,rest,whole,equals⟩ := List.eq_append_cons_of_mem early
  have length := congrArg List.length whole
  refine ⟨key,rest ++ line.drop 63,?_,equals,?_⟩
  · rw [← List.cons_append,← List.append_assoc,← whole,List.take_append_drop]
  · simp at length
    omega

private theorem headerName_kept (text : ∀ c ∈ line, printable c) : Section.Kept ⟨headerName line,[]⟩ := by
  have source (c : UInt8) (inside : c ∈ headerName line) : ∃ d ∈ line, d ≠ 93 ∧ toupper d = c := by
    obtain ⟨d,member,same⟩ := List.mem_map.mp inside
    have taken := List.mem_of_mem_take member
    have other : d ≠ 93 := by simpa using List.mem_takeWhile_imp taken
    exact ⟨d,List.mem_of_mem_drop ((List.takeWhile_sublist _).subset taken),other,same⟩
  constructor
  · intro c inside
    obtain ⟨d,member,-,rfl⟩ := source c inside
    rw [printable_toupper]
    exact text d member
  · exact map_toupper _
  · simp [headerName,sectionNameSize]
  · intro inside
    obtain ⟨d,-,other,same⟩ := source 93 inside
    exact other (toupper_eq (by decide) same)
  · exact nofun
  · exact List.nodup_nil

section
variable {r : Reader} {i : Nat}

theorem processLine_header (header : isHeader line = true) : processLine r line =
    match r.sections.findIdx? (fun s => s.name = headerName line) with
    | some i => some ⟨r.sections,some i,[]⟩
    | none => some ⟨r.sections ++ [⟨headerName line,[]⟩],some r.sections.length,[]⟩ := by
  have some : line ≠ [] := by
    rintro rfl
    cases header
  have upper : (headerName line).map toupper = headerName line := map_toupper _
  have fits : (headerName line).length < sectionNameSize := by simp [headerName,sectionNameSize]
  unfold processLine getSection createSection
  simp only [if_neg some,if_pos header,if_pos fits,upper]
  cases r.sections.findIdx? (fun s => s.name = headerName line) <;> rfl

theorem processLine_outside (some : line ≠ []) (header : isHeader line = false) (outside : r.current = none) :
    processLine r line = Option.some r := by
  unfold processLine
  rw [if_neg some,header,outside]
  rfl

theorem processLine_comment (some : line ≠ []) (header : isHeader line = false) (inside : r.current = Option.some i)
    (comment : isComment line = true) : processLine r line = Option.some {r with desc := line.take 1023} := by
  unfold processLine
  rw [if_neg some,header,inside]
  simp only [comment,if_true]
  rfl

private theorem processLine_item (header : isHeader (key ++ 61::value) = false) (inside : r.current = some i)
    (comment : isComment (key ++ 61::value) = false) (equals : 61 ∉ key) (room : key.length ≤ 62) :
    processLine r (key ++ 61::value) = some ⟨r.sections.modify i
      (Section.put ⟨trim (key.map toupper),if r.desc = [] then none else some r.desc,value⟩),some i,[]⟩ := by
  unfold processLine
  rw [if_neg (by simp),header,inside,newItem_append equals room,comment]
  rfl

end

private theorem modify_split {α : Type} (l : List α) (i : Nat) (inside : i < l.length) :
    ∃ before a after, l = before ++ a::after ∧
    before.length = i ∧ ∀ f, l.modify i f = before ++ f a::after := by
  refine ⟨l.take i,l[i],l.drop (i + 1),?_,by simp; omega,fun f => ?_⟩
  · rw [← List.drop_eq_getElem_cons inside,List.take_append_drop]
  · exact List.modify_eq_take_cons_drop inside

private theorem eraseP_absent {α β : Type} [DecidableEq β] (f : α → β) (b : β) (l : List α) (distinct : (l.map f).Nodup) :
    b ∉ (l.eraseP (fun a => f a = b)).map f := by
  induction l with
  | nil => exact nofun
  | cons a l ih =>
    obtain ⟨alone,others⟩ := List.nodup_cons.mp distinct
    by_cases same : f a = b
    · rw [List.eraseP_cons_of_pos (by simpa using same),← same]
      exact alone
    · rw [List.eraseP_cons_of_neg (by simpa using same),List.map_cons]
      simpa [Ne.symm same] using ih others

private theorem put_kept {item : Item} {s : Section} (kept : s.Kept) (new : item.Kept) : (s.put item).Kept := by
  have remains := List.eraseP_sublist (p := fun i => i.keyword = item.keyword) (l := s.items)
  refine ⟨kept.text,kept.upper,kept.room,kept.bracket,fun i inside => ?_,?_⟩
  · rcases List.mem_append.mp inside with old | only
    · exact kept.items i (remains.subset old)
    · exact List.mem_singleton.mp only ▸ new
  · have absent := eraseP_absent Item.keyword item.keyword s.items kept.distinct
    rw [Section.put,List.map_append]
    refine List.nodup_append.mpr ⟨kept.distinct.sublist (remains.map _),List.nodup_singleton _,?_⟩
    rintro a inside b only rfl
    exact absent (List.mem_singleton.mp only ▸ inside)

/-- Every line of the language has a meaning, and keeps what the writer relies on. -/
private theorem processLine_kept {r : Reader} (kept : r.Kept) (text : ∀ c ∈ line, printable c) (short : line.length ≤ 1020)
    (bare : Bare line) (early : r.current.isSome → line ≠ [] → isHeader line = false → isComment line = false →
      61 ∈ line.take 63) : ∃ r', processLine r line = some r' ∧ r'.Kept ∧
    r'.current.isSome = if line = [] then false else if isHeader line then true else r.current.isSome := by
  by_cases blank : line = []
  · subst blank
    exact ⟨_,rfl,⟨kept.sections,kept.distinct,nofun,kept.desc⟩,rfl⟩
  rw [if_neg blank]
  cases header : isHeader line with
  | true =>
    rw [processLine_header header,if_pos rfl]
    cases found : r.sections.findIdx? (fun s => s.name = headerName line) with
    | some i =>
      obtain ⟨inside,-⟩ := List.findIdx?_eq_some_iff_getElem.mp found
      exact ⟨⟨r.sections,some i,[]⟩,rfl,⟨kept.sections,kept.distinct,fun j same => Option.some.inj same ▸ inside,.inl rfl⟩,rfl⟩
    | none =>
      have absent : headerName line ∉ r.sections.map Section.name := fun inside => by
        obtain ⟨s,member,same⟩ := List.mem_map.mp inside
        have other := List.findIdx?_eq_none_iff.mp found s member
        simp [same] at other
      refine ⟨⟨r.sections ++ [⟨headerName line,[]⟩],some r.sections.length,[]⟩,rfl,⟨fun s inside => ?_,?_,fun j same => ?_,
        .inl rfl⟩,rfl⟩
      · rcases List.mem_append.mp inside with old | only
        · exact kept.sections s old
        · exact List.mem_singleton.mp only ▸ headerName_kept text
      · rw [List.map_append]
        refine List.nodup_append.mpr ⟨kept.distinct,List.nodup_singleton _,?_⟩
        rintro a inside b only rfl
        have same : a = headerName line := List.mem_singleton.mp only
        exact absent (same ▸ inside)
      · rw [← Option.some.inj same]
        simp
  | false =>
    rw [if_neg Bool.false_ne_true]
    cases current : r.current with
    | none => exact ⟨r,processLine_outside blank header current,kept,by rw [current]⟩
    | some i =>
      cases comment : isComment line with
      | true =>
        have whole : line.take 1023 = line := List.take_of_length_le (short.trans (by decide))
        refine ⟨_,processLine_comment blank header current comment,?_,by rw [current]⟩
        rw [whole]
        exact ⟨kept.sections,kept.distinct,kept.current,.inr ⟨text,short,bare,comment⟩⟩
      | false =>
        obtain ⟨key,value,rfl,equals,room⟩ := early_split (early (by rw [current]; rfl) blank header comment)
        have item := newItem_kept text short bare equals room header comment kept.desc
        obtain ⟨before,s,after,whole,-,modified⟩ := modify_split r.sections i (kept.current i current)
        refine ⟨_,processLine_item header current comment equals room,⟨?_,?_,fun j same => ?_,.inl rfl⟩,rfl⟩
        · change ∀ s ∈ r.sections.modify i _, s.Kept
          rw [modified]
          intro s' inside
          rcases List.mem_append.mp inside with left | right
          · exact kept.sections s' (whole ▸ List.mem_append_left _ left)
          · rcases List.mem_cons.mp right with rfl | right
            · exact put_kept (kept.sections s (by simp [whole])) item
            · exact kept.sections s' (by simp [whole,right])
        · change ((r.sections.modify i _).map Section.name).Nodup
          have same := kept.distinct
          rw [whole] at same
          rw [modified]
          simpa [Section.put] using same
        · change j < (r.sections.modify i _).length
          rw [List.length_modify]
          exact kept.current j (current.trans same)

end

/-- Inside a section every line that is no header and no comment has an '=' among its first
63 characters. A blank line ends a section. -/
def equalsEarly : Bool → List Bytes → Bool
  | _, [] => true
  | inside, line::lines =>
    if line = [] then equalsEarly false lines
    else if isHeader line then equalsEarly true lines
    else (!inside || isComment line || (line.take 63).contains 61) && equalsEarly inside lines

private theorem lines_kept (lines : List Bytes) (text : ∀ line ∈ lines, ∀ c ∈ line, printable c)
    (short : ∀ line ∈ lines, line.length ≤ 1020) (bare : ∀ line ∈ lines, Bare line) (r : Reader) (kept : r.Kept)
    (early : equalsEarly r.current.isSome lines = true) : ∃ r', lines.foldlM processLine r = some r' ∧ r'.Kept := by
  induction lines generalizing r with
  | nil => exact ⟨r,rfl,kept⟩
  | cons line lines ih =>
    rw [equalsEarly] at early
    have here (inside : r.current.isSome) (some : line ≠ []) (header : isHeader line = false)
        (comment : isComment line = false) : 61 ∈ line.take 63 := by
      rw [if_neg some,header,comment,inside] at early
      simpa using (Bool.and_eq_true_iff.mp early).1
    obtain ⟨r1,step,kept1,current⟩ := processLine_kept kept (text line List.mem_cons_self) (short line List.mem_cons_self)
      (bare line List.mem_cons_self) here
    have later : equalsEarly r1.current.isSome lines = true := by
      rw [current]
      split_ifs at early ⊢ with blank header
      · exact early
      · exact early
      · exact (Bool.and_eq_true_iff.mp early).2
    rw [List.foldlM_cons,step]
    exact ih (fun line inside => text line (List.mem_cons_of_mem _ inside))
      (fun line inside => short line (List.mem_cons_of_mem _ inside))
      (fun line inside => bare line (List.mem_cons_of_mem _ inside)) r1 kept1 later

def writtenDesc (desc : Bytes) : Bytes := if desc.head? ≠ some 59 then 59::desc else desc

/-- What is read back: a comment of the other kind is behind a semicolon. -/
def Item.written (i : Item) : Item := {i with desc := i.desc.map writtenDesc}

def Section.written (s : Section) : Section := {s with items := s.items.map Item.written}

def itemLines (i : Item) : List Bytes := (i.desc.map writtenDesc).toList ++ [i.line]

def headerLine (name : Bytes) : Bytes := 91::(name ++ [93])

def sectionLines (s : Section) : List Bytes := headerLine s.name::(s.items.flatMap itemLines ++ [[]])

def terminated (lines : List Bytes) : Bytes := lines.flatMap (· ++ [10])

private theorem terminated_append (lines more : List Bytes) :
    terminated (lines ++ more) = terminated lines ++ terminated more :=
  List.flatMap_append

private theorem terminated_flatMap {α : Type} (l : List α) (f : α → List Bytes) :
    terminated (l.flatMap f) = l.flatMap (fun a => terminated (f a)) :=
  List.flatMap_assoc

private theorem writeItem_lines (i : Item) : writeItem i = terminated (itemLines i) := by
  have desc : writeDesc i.desc = terminated (i.desc.map writtenDesc).toList := by
    cases i.desc with
    | none => rfl
    | some desc =>
      simp only [writeDesc,writtenDesc,terminated,Option.map_some,Option.toList_some,List.flatMap_singleton]
      split_ifs <;> rfl
  rw [itemLines,terminated_append,← desc]
  simp [writeItem,terminated,Item.line]

private theorem writeSection_lines (s : Section) : writeSection s = terminated (sectionLines s) := by
  have items : s.items.flatMap writeItem = terminated (s.items.flatMap itemLines) := by
    rw [terminated_flatMap,funext writeItem_lines]
  rw [sectionLines,← List.singleton_append,terminated_append,terminated_append,← items]
  simp [writeSection,terminated,headerLine]

private theorem cfgWrite_lines (info : Info) : cfgWrite info = terminated (info.sections.flatMap sectionLines) := by
  rw [terminated_flatMap,← funext writeSection_lines]
  rfl

private theorem terminated_splitOn (lines : List Bytes) (single : ∀ line ∈ lines, 10 ∉ line) :
    (terminated lines).splitOn 10 = lines ++ [[]] := by
  induction lines with
  | nil => rfl
  | cons line lines ih =>
    obtain ⟨here,later⟩ := List.forall_mem_cons.mp single
    have first : terminated (line::lines) = line ++ 10::terminated lines := by simp [terminated]
    rw [first,List.splitOn_append_cons_self_of_not_mem here,ih later,List.cons_append]

/-- A line as the writer makes them: it is read as it is. -/
structure Clean (line : Bytes) : Prop where
  text : ∀ c ∈ line, printable c
  short : line.length ≤ 1021
  bare : Bare line

private theorem writtenDesc_clean {desc : Bytes} (comment : Comment desc) : Clean (writtenDesc desc) ∧
    (writtenDesc desc).head? = some 59 := by
  have some : desc ≠ [] := by
    rintro rfl
    cases comment.marked
  unfold writtenDesc
  split_ifs with other
  · refine ⟨⟨?_,?_,?_,fun c last => comment.bare.stop c ?_⟩,rfl⟩
    · exact List.forall_mem_cons.mpr ⟨by decide,comment.text⟩
    · have short := comment.short
      rw [List.length_cons]
      omega
    · rintro c first
      obtain rfl := Option.some.inj first
      rfl
    · rwa [List.getLast?_cons_of_ne_nil some] at last
  · exact ⟨⟨comment.text,comment.short.trans (by decide),comment.bare⟩,not_not.mp other⟩

private theorem headerLine_clean {s : Section} (kept : s.Kept) : Clean (headerLine s.name) := by
  refine ⟨?_,?_,?_,?_⟩
  · refine List.forall_mem_cons.mpr ⟨by decide,fun c inside => ?_⟩
    rcases List.mem_append.mp inside with name | only
    · exact kept.text c name
    · exact List.mem_singleton.mp only ▸ by decide
  · have room := kept.room
    simp [headerLine]
    omega
  · rintro c first
    obtain rfl := Option.some.inj first
    rfl
  · intro c last
    have stop : (headerLine s.name).getLast? = some 93 := by
      rw [headerLine,← List.cons_append,List.getLast?_concat]
    rw [stop] at last
    obtain rfl := Option.some.inj last
    rfl

private theorem sectionLines_clean {s : Section} (kept : s.Kept) : ∀ line ∈ sectionLines s, Clean line := by
  refine List.forall_mem_cons.mpr ⟨headerLine_clean kept,fun line inside => ?_⟩
  rcases List.mem_append.mp inside with items | only
  · obtain ⟨i,member,inside⟩ := List.mem_flatMap.mp items
    have item := kept.items i member
    rcases List.mem_append.mp inside with desc | only
    · obtain ⟨d,some,rfl⟩ := Option.map_eq_some_iff.mp (Option.mem_toList.mp desc)
      exact (writtenDesc_clean (item.desc d some)).1
    · rw [List.mem_singleton.mp only]
      exact ⟨item.text,item.short.trans (by decide),item.bare⟩
  · rw [List.mem_singleton.mp only]
    exact ⟨nofun,Nat.zero_le _,nofun,nofun⟩

section
variable {sections : List Section}

private theorem modify_last {α : Type} (l : List α) (a : α) (f : α → α) : (l ++ [a]).modify l.length f = l ++ [f a] := by
  induction l with
  | nil => rfl
  | cons b l ih => exact congrArg (b::·) ih

private theorem headerName_line {s : Section} (kept : s.Kept) : headerName (headerLine s.name) = s.name := by
  have name : (s.name ++ [93]).takeWhile (· ≠ 93) = s.name := by
    rw [List.takeWhile_append_of_pos fun c inside => by simpa using fun same : c = 93 => kept.bracket (same ▸ inside)]
    simp
  unfold headerName headerLine
  rw [List.drop_one,List.tail_cons,name,@List.take_of_length_le _ (sectionNameSize - 1) _ kept.room,kept.upper]

private theorem item_written (name : Bytes) (done : List Item) {i : Item} (kept : i.Kept)
    (new : i.keyword ∉ done.map Item.keyword) :
    (itemLines i).foldlM processLine ⟨sections ++ [⟨name,done⟩],some sections.length,[]⟩ =
      some ⟨sections ++ [⟨name,done ++ [i.written]⟩],some sections.length,[]⟩ := by
  have added (desc : Bytes) : processLine ⟨sections ++ [⟨name,done⟩],some sections.length,desc⟩ i.line =
      some ⟨sections ++ [⟨name,done ++ [⟨i.keyword,if desc = [] then none else some desc,i.value⟩]⟩],
        some sections.length,[]⟩ := by
    have item := @processLine_item i.keyword i.value ⟨sections ++ [⟨name,done⟩],some sections.length,desc⟩ _
      kept.noHeader rfl kept.noComment kept.equals kept.room
    have single : done.eraseP (fun d => d.keyword = i.keyword) = done :=
      List.eraseP_of_forall_not fun d inside => by
        simpa using fun same : d.keyword = i.keyword => new (same ▸ List.mem_map_of_mem inside)
    rw [kept.upper,kept.trimmed,modify_last] at item
    simp only [Section.put,single] at item
    exact item
  unfold itemLines
  cases comment : i.desc with
  | none =>
    have same : i.written = ⟨i.keyword,none,i.value⟩ := by simp [Item.written,comment]
    rw [same]
    exact (congrArg (· >>= fun r => some r) (added [])).trans rfl
  | some desc =>
    obtain ⟨clean,first⟩ := writtenDesc_clean (kept.desc desc comment)
    have some : writtenDesc desc ≠ [] := fun none => by
      rw [none] at first
      cases first
    have header : isHeader (writtenDesc desc) = false := by
      unfold isHeader
      rw [first]
      rfl
    have whole : (writtenDesc desc).take 1023 = writtenDesc desc := List.take_of_length_le (clean.short.trans (by decide))
    have read := @processLine_comment (writtenDesc desc) ⟨sections ++ [⟨name,done⟩],Option.some sections.length,[]⟩ _
      some header rfl (isComment_iff.mpr (.inl first))
    rw [whole] at read
    have item := added (writtenDesc desc)
    rw [if_neg some] at item
    have same : i.written = ⟨i.keyword,Option.some (writtenDesc desc),i.value⟩ := by simp [Item.written,comment]
    rw [same,Option.map_some,Option.toList_some,List.singleton_append,List.foldlM_cons,read]
    exact (congrArg (· >>= fun r => Option.some r) item).trans rfl

private theorem items_written (name : Bytes) (items done : List Item) (kept : ∀ i ∈ items, i.Kept)
    (distinct : ((done ++ items).map Item.keyword).Nodup) :
    (items.flatMap itemLines).foldlM processLine ⟨sections ++ [⟨name,done⟩],some sections.length,[]⟩ =
      some ⟨sections ++ [⟨name,done ++ items.map Item.written⟩],some sections.length,[]⟩ := by
  induction items generalizing done with
  | nil => rw [List.map_nil,List.append_nil]; rfl
  | cons i items ih =>
    obtain ⟨here,later⟩ := List.forall_mem_cons.mp kept
    have new : i.keyword ∉ done.map Item.keyword := fun inside => by
      rw [List.map_append,List.map_cons] at distinct
      exact (List.nodup_append.mp distinct).2.2 _ inside _ List.mem_cons_self rfl
    have rest : ((done ++ [i.written] ++ items).map Item.keyword).Nodup := by
      simpa [Item.written] using distinct
    rw [List.flatMap_cons,List.foldlM_append,item_written name done here new]
    have final := ih (done ++ [i.written]) later rest
    rw [List.append_assoc] at final
    exact final

private theorem section_written {s : Section} (kept : s.Kept) (new : s.name ∉ sections.map Section.name) :
    (sectionLines s).foldlM processLine ⟨sections,none,[]⟩ = some ⟨sections ++ [s.written],none,[]⟩ := by
  have absent : sections.findIdx? (fun t => t.name = headerName (headerLine s.name)) = none := by
    rw [headerName_line kept]
    refine List.findIdx?_eq_none_iff.mpr fun t inside => ?_
    simpa using fun same : t.name = s.name => new (same ▸ List.mem_map_of_mem inside)
  have start : processLine ⟨sections,none,[]⟩ (headerLine s.name) =
      some ⟨sections ++ [⟨s.name,[]⟩],some sections.length,[]⟩ := by
    rw [processLine_header (isHeader_iff.mpr ⟨rfl,by simp [headerLine]⟩)]
    simp only [absent]
    rw [headerName_line kept]
  have items := @items_written sections s.name s.items [] kept.items kept.distinct
  rw [List.nil_append] at items
  rw [sectionLines,List.foldlM_cons,start]
  change (s.items.flatMap itemLines ++ [[]]).foldlM processLine _ = _
  rw [List.foldlM_append,items]
  rfl

private theorem sections_written (more : List Section) (kept : ∀ s ∈ more, s.Kept)
    (distinct : ((sections ++ more).map Section.name).Nodup) :
    (more.flatMap sectionLines).foldlM processLine ⟨sections,none,[]⟩ =
      some ⟨sections ++ more.map Section.written,none,[]⟩ := by
  induction more generalizing sections with
  | nil => rw [List.map_nil,List.append_nil]; rfl
  | cons s more ih =>
    obtain ⟨here,later⟩ := List.forall_mem_cons.mp kept
    have new : s.name ∉ sections.map Section.name := fun inside => by
      rw [List.map_append,List.map_cons] at distinct
      exact (List.nodup_append.mp distinct).2.2 _ inside _ List.mem_cons_self rfl
    have rest : ((sections ++ [s.written] ++ more).map Section.name).Nodup := by
      simpa [Section.written] using distinct
    rw [List.flatMap_cons,List.foldlM_append,section_written here new]
    have final := ih later rest
    rw [List.append_assoc] at final
    exact final

end

/-- What the writer makes of sections as the reader leaves them is read as the same. -/
private theorem cfgRead_written (info : Info) (kept : ∀ s ∈ info.sections, s.Kept)
    (distinct : (info.sections.map Section.name).Nodup) :
    cfgRead (cfgWrite info) = some ⟨info.sections.map Section.written⟩ := by
  have clean : ∀ line ∈ info.sections.flatMap sectionLines, Clean line := fun line inside => by
    obtain ⟨s,member,inside⟩ := List.mem_flatMap.mp inside
    exact sectionLines_clean (kept s member) line inside
  have split : (cfgWrite info).splitOn 10 = info.sections.flatMap sectionLines ++ [[]] := by
    rw [cfgWrite_lines]
    exact terminated_splitOn _ fun line inside newline => (printable_ascii ((clean line inside).text 10 newline)).2.1 rfl
  have text : ∀ c ∈ cfgWrite info, c = 10 ∨ printable c := fun c inside => by
    rw [cfgWrite_lines] at inside
    obtain ⟨line,member,inside⟩ := List.mem_flatMap.mp inside
    rcases List.mem_append.mp inside with here | only
    · exact .inr ((clean line member).text c here)
    · exact .inl (List.mem_singleton.mp only)
  have short : ∀ line ∈ (cfgWrite info).splitOn 10, line.length ≤ 1021 := fun line inside => by
    rw [split] at inside
    rcases List.mem_append.mp inside with here | only
    · exact (clean line here).short
    · rw [List.mem_singleton.mp only]
      exact Nat.zero_le _
  have same : (info.sections.flatMap sectionLines).map strip = info.sections.flatMap sectionLines :=
    (List.map_congr_left fun line inside => strip_bare (clean line inside).bare).trans (List.map_id _)
  have all := @sections_written [] info.sections kept distinct
  rw [List.nil_append] at all
  rw [cfgRead_lines _ text short,split,List.map_append,same,List.foldlM_append,all]
  rfl

def Info.contents (info : Info) : List (Bytes × List (Bytes × Bytes)) :=
  info.sections.map fun s => (s.name,s.items.map fun i => (i.keyword,i.value))

/-- Every file whose items have their '=' early is read, and read again as it is written. -/
theorem cfgRead_cfgWrite (file : Bytes) (text : ∀ c ∈ file, c = 10 ∨ printable c)
    (short : ∀ line ∈ file.splitOn 10, line.length ≤ 1020)
    (early : equalsEarly false ((file.splitOn 10).map strip) = true) : ∃ info info', cfgRead file = some info ∧
    cfgRead (cfgWrite info) = some info' ∧ info'.contents = info.contents ∧ (info'.sections.map Section.name).Nodup ∧
    ∀ s ∈ info'.sections, (s.items.map Item.keyword).Nodup := by
  have part (line : Bytes) (inside : line ∈ (file.splitOn 10).map strip) : (∀ c ∈ line, printable c) ∧
      line.length ≤ 1020 ∧ Bare line := by
    obtain ⟨raw,member,rfl⟩ := List.mem_map.mp inside
    have sublist := strip_sublist raw
    refine ⟨fun c inside => ?_,sublist.length_le.trans (short raw member),bare_strip raw⟩
    obtain ⟨there,single⟩ := mem_splitOn 10 file raw member c (sublist.subset inside)
    exact (text c there).resolve_left single
  have start : Reader.Kept ⟨[],none,[]⟩ := ⟨nofun,List.nodup_nil,nofun,.inl rfl⟩
  obtain ⟨r,read,kept⟩ := lines_kept _ (fun line inside => (part line inside).1) (fun line inside => (part line inside).2.1)
    (fun line inside => (part line inside).2.2) ⟨[],none,[]⟩ start early
  refine ⟨⟨r.sections⟩,⟨r.sections.map Section.written⟩,?_,cfgRead_written ⟨r.sections⟩ kept.sections kept.distinct,?_,?_,?_⟩
  · rw [cfgRead_lines file text fun line inside => (short line inside).trans (by decide),read]
    rfl
  · simp [Info.contents,Section.written,Item.written]
  · have names : (r.sections.map Section.written).map Section.name = r.sections.map Section.name := by
      simp [Section.written]
    rw [names]
    exact kept.distinct
  · intro s inside
    obtain ⟨t,member,rfl⟩ := List.mem_map.mp inside
    have keywords : t.written.items.map Item.keyword = t.items.map Item.keyword := by
      simp [Section.written,Item.written]
    rw [keywords]
    exact (kept.sections t member).distinct

def resumed : Bytes :=
  bytes "no section\n [Main] rest\n# note\nname = x y \n[key=v\nNAME=;z]\n\nignored\n[other]\n[main]\nb=\n = \n"

theorem cfgRead_cfgWrite_resumed : ∃ info info', cfgRead resumed = some info ∧ cfgRead (cfgWrite info) = some info' ∧
    info'.contents = info.contents ∧ (info'.sections.map Section.name).Nodup ∧
    ∀ s ∈ info'.sections, (s.items.map Item.keyword).Nodup :=
  cfgRead_cfgWrite resumed (by decide +kernel) (by decide +kernel) (by decide +kernel)

end Jbdtool.Cfg
