import Jbdtool.Balance
import Jbdtool.Base.Buffer
import Jbdtool.Json.Decimals
import Jbdtool.JsonLists

/-! The lists of temperatures and cells in display_info, and the text buffer that they share. -/
namespace Jbdtool
open CString Numbers Json Mem
variable {τ : Type}

def printSeparator (sep : UInt8) (i p : Nat) : Traced (Mem UInt8) Access Nat :=
  if i = 0 then pure p else sprintf p [sep]

def printElements (sep : UInt8) (digits : Nat) (array : Mem ℚ) : Nat → Nat → Nat → Traced (Mem UInt8) Access Nat
  | 0, _, p => return p
  | count + 1, i, p => do
    let p ← printSeparator sep i p
    let p ← sprintf p (showFixed digits (array i))
    printElements sep digits array count (i + 1) p

/-- One list, and the text that is handed to json_parse_string or to dstr. -/
def printList (fmt : Fmt) (digits : Nat) (array : Mem ℚ) (count : Nat) : Traced (Mem UInt8) Access Bytes :=
  if fmt.outfmt = .json then do
    let p ← sprintf 0 (bytes "[ ")
    let _ ← printElements 44 digits array count 0 p
    strcat 256 (bytes " ]")
    readString 256
  else do
    let _ ← printElements fmt.sepch digits array count 0 0
    readString 256

def printLists (fmt : Fmt) (info : JbdInfo) : Traced (Mem UInt8) Access (Bytes × Bytes) := do
  let temps ← printList fmt 1 info.temps info.probes
  let cells ← printList fmt 3 info.cellvolt info.strings
  return (temps,cells)

def Host.withTemp (host : Host τ) (temp : Mem UInt8) : Host τ := {host with infoText := stringIn 256 temp}

def valueTexts (digits : Nat) (array : Mem ℚ) (count : Nat) : List Bytes :=
  (List.range count).map (fun i => showFixed digits (array i))

/-- The list stands under the label: in JSON mode an array of the numbers next to the
decimals, otherwise their texts with the separator between them. -/
def ListShown (fmt : Fmt) (label : Bytes) (digits : Nat) (array : Mem ℚ) (count : Nat) (o : Outcome (World τ) Event Unit) : Prop :=
  if fmt.outfmt = .json then
    Json.getValue (o.state.rootObject.getD []) label =
      some (.array ((List.range count).map (fun i => .number (roundDouble (fixedValue digits (array i))))))
  else shownUnder fmt label o = [joined [fmt.sepch] (valueTexts digits array count)]

/-- Both lists are shown, and nothing outside the buffer is touched. -/
structure ListsRight (fmt : Fmt) (info : JbdInfo) (temp : Mem UInt8) (o : Outcome (World τ) Event Unit) : Prop where
  inside : Below 256 (printLists fmt info temp).events
  temps : ListShown fmt (bytes "Temps") 1 info.temps info.probes o
  cells : ListShown fmt (bytes "Cells") 3 info.cellvolt info.strings o

/-- The bytes that a list takes: its values, each with what follows it, and the brackets. -/
def listSpan (fmt : Fmt) (digits : Nat) (array : Mem ℚ) (count : Nat) : Nat :=
  ((valueTexts digits array count).map (fun text => text.length + 1)).sum + if fmt.outfmt = .json then 4 else 0

private theorem valueTexts_succ (digits : Nat) (array : Mem ℚ) (count : Nat) :
    valueTexts digits array (count + 1) = showFixed digits (array 0)::valueTexts digits (fun i => array (i + 1)) count := by
  simp [valueTexts,List.range_succ_eq_map,Function.comp_def]

private theorem elementsText_next (sep : UInt8) (digits : Nat) (array : Mem ℚ) (count i : Nat) (text : Bytes) :
    elementsText sep digits array count (i + 1) text =
      text ++ (valueTexts digits (fun j => array (i + 1 + j)) count).flatMap ([sep] ++ ·) := by
  induction count generalizing i text with
  | zero => simp [elementsText,valueTexts]
  | succ count ih =>
    rw [elementsText,if_neg (by omega),ih,valueTexts_succ,List.flatMap_cons]
    have shifted : (fun j => array (i + 1 + (j + 1))) = fun j => array (i + 1 + 1 + j) := by
      funext j
      congr 1
      omega
    rw [shifted]
    simp

private theorem elementsText_joined (sep : UInt8) (digits : Nat) (array : Mem ℚ) (count : Nat) (text : Bytes) :
    elementsText sep digits array count 0 text = text ++ joined [sep] (valueTexts digits array count) := by
  cases count with
  | zero => simp [elementsText,valueTexts,joined]
  | succ count =>
    have shifted : (fun j => array (0 + 1 + j)) = fun j => array (j + 1) := by
      funext j
      congr 1
      omega
    rw [elementsText,if_pos rfl,List.append_nil,elementsText_next,shifted,valueTexts_succ,joined,List.append_assoc]

private theorem valueTexts_clean (digits : Nat) (array : Mem ℚ) (count : Nat) (places : 0 < digits) (sep : UInt8)
    (mark : sep ≠ 0) :
    0 ∉ joined [sep] (valueTexts digits array count) := by
  have value (i : Nat) : 0 ∉ showFixed digits (array i) := by
    intro member
    rcases showFixed_chars digits (array i) places 0 member with minus | point | digit
    · cases minus
    · cases point
    · cases digit
  cases count with
  | zero => simp [valueTexts,joined]
  | succ count =>
    rw [valueTexts_succ,joined]
    simp [value,valueTexts,Ne.symm mark]

private theorem joined_span (sep : UInt8) (digits : Nat) (array : Mem ℚ) (count : Nat) (some : 0 < count) :
    (joined [sep] (valueTexts digits array count)).length + 1 =
      ((valueTexts digits array count).map (fun text => text.length + 1)).sum := by
  have nonempty : valueTexts digits array count ≠ [] := by
    intro none
    have length := congrArg List.length none
    simp [valueTexts] at length
    omega
  exact joined_length [sep] _ nonempty

section
variable {sep : UInt8} {digits : Nat} {array : Mem ℚ} {buffer : Mem UInt8}

private theorem writes_elements {p : Nat} {text : Bytes} {m : Traced (Mem UInt8) Access Nat} (count i : Nat)
    (written : Writes 256 p text m buffer) :
    Writes 256 p (elementsText sep digits array count i text)
      (m >>= fun q => printElements sep digits array count i q) buffer := by
  induction count generalizing i text m with
  | zero =>
    have same : (m >>= fun q => printElements sep digits array 0 i q) = m := bind_pure m
    rwa [same]
  | succ count ih =>
    have separated : Writes 256 p (text ++ if i = 0 then [] else [sep]) (m >>= printSeparator sep i) buffer := by
      by_cases first : i = 0
      · have same : printSeparator sep i = pure := funext fun q => if_pos first
        rwa [same,bind_pure,if_pos first,List.append_nil]
      · have next : printSeparator sep i = fun q => sprintf q [sep] := funext fun q => if_neg first
        rw [next,if_neg first]
        exact writes_bind written (writes_sprintf _ _ _ _)
    have value : Writes 256 p ((text ++ if i = 0 then [] else [sep]) ++ showFixed digits (array i))
        (m >>= printSeparator sep i >>= fun q => sprintf q (showFixed digits (array i))) buffer :=
      writes_bind separated (writes_sprintf _ _ _ _)
    have rest := ih (i + 1) value
    rw [bind_assoc,bind_assoc] at rest
    exact rest

/-- In JSON mode the list is in the buffer with its brackets, however many values it has. -/
private theorem leaves_json (fmt : Fmt) (json : fmt.outfmt = .json) (places : 0 < digits) (count : Nat) :
    Leaves 256 (bytes "[ " ++ joined [44] (valueTexts digits array count) ++ bytes " ]") (printList fmt digits array count)
      buffer := by
  have written := @writes_elements 44 digits array buffer _ _ _ count 0 (writes_sprintf 256 0 (bytes "[ ") buffer)
  rw [elementsText_joined] at written
  have clean : 0 ∉ bytes "[ " ++ joined [44] (valueTexts digits array count) ++ bytes " ]" := by
    have values := valueTexts_clean digits array count places 44 (by decide)
    simp only [List.mem_append,not_or]
    exact ⟨⟨by decide,values⟩,by decide⟩
  have list := leaves_strcat written clean
  rw [bind_assoc] at list
  unfold printList
  rw [if_pos json]
  exact list

private theorem writes_text (count : Nat) : Writes 256 0 (joined [sep] (valueTexts digits array (count + 1)))
    (printElements sep digits array (count + 1) 0 0) buffer := by
  have written := @writes_elements sep digits array buffer _ _ _ count 1 (writes_sprintf 256 0 (showFixed digits (array 0)) buffer)
  have text := elementsText_joined sep digits array (count + 1) []
  rw [elementsText,if_pos rfl,List.nil_append,List.nil_append] at text
  rwa [text] at written

private theorem below_list (fmt : Fmt) (places : 0 < digits) (count : Nat) (some : fmt.outfmt = .json ∨ 0 < count) :
    Below 256 (printList fmt digits array count buffer).events ↔ listSpan fmt digits array count ≤ 256 := by
  by_cases json : fmt.outfmt = .json
  · rw [(leaves_json fmt json places count).below,listSpan,if_pos json,List.length_append,List.length_append]
    have brackets : (bytes "[ ").length = 2 ∧ (bytes " ]").length = 2 := by decide
    rcases Nat.eq_zero_or_pos count with rfl | several
    · simp [valueTexts,joined,brackets]
    · have span := joined_span 44 digits array count several
      omega
  · have several := some.resolve_left json
    obtain ⟨count,rfl⟩ := Nat.exists_eq_succ_of_ne_zero (Nat.pos_iff_ne_zero.mp several)
    have span := joined_span fmt.sepch digits array (count + 1) several
    unfold printList
    rw [if_neg json,listSpan,if_neg json,← span]
    exact (below_written (writes_text count)).trans Nat.lt_iff_add_one_le

end

private theorem below_lists (fmt : Fmt) (info : JbdInfo) (temp : Mem UInt8) : Below 256 (printLists fmt info temp).events ↔
    Below 256 (printList fmt 1 info.temps info.probes temp).events ∧ Below 256 (printList fmt 3 info.cellvolt info.strings
      (printList fmt 1 info.temps info.probes temp).state).events := by
  unfold printLists
  simp only [Traced.bind_run,Outcome.after_events,below_append,Traced.pure_run,below_nil,and_true]

private theorem inside_iff (fmt : Fmt) (info : JbdInfo) (temp : Mem UInt8)
    (some : fmt.outfmt = .json ∨ 0 < info.probes ∧ 0 < info.strings) : Below 256 (printLists fmt info temp).events ↔
      listSpan fmt 1 info.temps info.probes ≤ 256 ∧ listSpan fmt 3 info.cellvolt info.strings ≤ 256 := by
  rw [below_lists,below_list fmt (by decide) _ (some.imp_right And.left),below_list fmt (by decide) _ (some.imp_right And.right)]

section
variable {fmt : Fmt} {label : Bytes}

/-- The text of a list outside JSON mode: with nothing to show it is what `temp` held before. -/
def shownText (fmt : Fmt) (digits : Nat) (array : Mem ℚ) (count : Nat) (temp : Bytes) : Bytes :=
  if count = 0 then temp else joined [fmt.sepch] (valueTexts digits array count)

/-- The list that is shown is what `temp` holds for the next one. -/
private theorem displayList_shown (lines : fmt.outfmt ≠ .json) (region : Region) (digits : Nat) (array : Mem ℚ) (count : Nat)
    (temp : Bytes) (w : World τ) : (displayList fmt region label digits array count temp w).value =
      shownText fmt digits array count temp ∧
    (displayList fmt region label digits array count temp w).events.flatMap (Event.under fmt label) =
      [shownText fmt digits array count temp] := by
  obtain ⟨value,-⟩ := page_joinElements region fmt.sepch digits array count 0 [] w rfl
  have text := elementsText_joined fmt.sepch digits array count []
  unfold displayList
  rw [if_neg lines,Traced.bind_run,value,text,List.nil_append]
  refine ⟨rfl,?_⟩
  rw [Outcome.after_events,List.flatMap_append,prints_joinElements]
  exact prints_bind (prints_own lines _ _) (fun _ => prints_pure _) _

private theorem prints_temps (host : Host τ) (lines : fmt.outfmt ≠ .json) (nested : fmt.flat = false) (info : JbdInfo) :
    Prints fmt (bytes "Temps") (displayLists host fmt info) [shownText fmt 1 info.temps info.probes host.infoText] := by
  intro w
  unfold displayLists
  rw [if_neg (by simp [nested])]
  exact prints_bind (fun w => (displayList_shown lines _ _ _ _ _ w).2)
    (fun _ => prints_skip (prints_displayList _ _ (by decide) _ _ _ _) fun _ => prints_pure _) w

private theorem prints_cells (host : Host τ) (lines : fmt.outfmt ≠ .json) (nested : fmt.flat = false) (info : JbdInfo) :
    Prints fmt (bytes "Cells") (displayLists host fmt info)
      [shownText fmt 3 info.cellvolt info.strings (shownText fmt 1 info.temps info.probes host.infoText)] := by
  intro w
  unfold displayLists
  rw [if_neg (by simp [nested]),Traced.bind_run,Outcome.after_events,List.flatMap_append,
    prints_displayList _ _ (by decide),(displayList_shown lines _ _ _ _ _ w).1]
  exact prints_bind (fun w => (displayList_shown lines _ _ _ _ _ w).2) (fun _ => prints_pure _) _

private theorem shown_lists (host : Host τ) (lines : fmt.outfmt ≠ .json) (nested : fmt.flat = false) (info : JbdInfo)
    (w : World τ) :
    shownUnder fmt (bytes "Temps") (displayInfo host fmt info w) = [shownText fmt 1 info.temps info.probes host.infoText] ∧
    shownUnder fmt (bytes "Cells") (displayInfo host fmt info w) =
      [shownText fmt 3 info.cellvolt info.strings (shownText fmt 1 info.temps info.probes host.infoText)] := by
  have balance (label : Bytes) (apart : Apart label (bytes "Balance")) :
      Prints fmt label (displayBalance fmt info : Program τ Unit) [] :=
    prints_skip (prints_balanceBits _ _ _ _ _) fun _ => prints_skip (prints_touch _ _ _) fun _ => prints_other _ _ _ apart
  unfold shownUnder
  rw [if_neg lines,if_neg lines]
  constructor
  · exact prints_others host info (by decide) (prints_temps host lines nested info) (balance _ (by decide)) w
  · exact prints_others host info (by decide) (prints_cells host lines nested info) (balance _ (by decide)) w

private theorem denotes_fixed (digits : Nat) (q : ℚ) (places : 0 < digits) (few : digits ≤ 300)
    (short : (showFixed digits q).length ≤ 256) :
    Denotes (showFixed digits q) (.number (roundDouble (fixedValue digits q))) := by
  refine ⟨?_,?_,?_⟩
  · obtain ⟨c,s,shown,shape⟩ := showFixed_head digits q places
    refine ⟨c,s,shown,(numeral_char c shape).1,?_⟩
    rintro rfl
    rcases shape with minus | digit
    · cases minus
    · cases digit
  · intro member
    rcases showFixed_chars digits q places 0 member with minus | point | digit
    · cases minus
    · cases point
    · cases digit
  · intro fuel nesting c rest depth mark
    have stops : Stops 10 (c::rest) := by
      intro d s same
      obtain ⟨rfl,-⟩ := List.cons.inj same
      rcases mark with rfl | rfl <;> decide
    apply parseValue_fixed fuel nesting digits q depth places few short _ stops
    intro d s same
    obtain ⟨rfl,-⟩ := List.cons.inj same
    rcases mark with rfl | rfl <;> decide

private theorem bracketed_values (digits : Nat) (array : Mem ℚ) (count : Nat) (places : 0 < digits) (few : digits ≤ 300)
    (fits : ((valueTexts digits array count).map (fun text => text.length + 1)).sum ≤ 256) :
    bracketed (joined [44] (valueTexts digits array count)) =
      some (.array ((List.range count).map (fun i => .number (roundDouble (fixedValue digits (array i)))))) := by
  have denotes (i : Nat) (inside : i ∈ List.range count) :
      Denotes (showFixed digits (array i)) (.number (roundDouble (fixedValue digits (array i)))) := by
    apply denotes_fixed digits _ places few
    have member : (showFixed digits (array i)).length + 1 ∈ (valueTexts digits array count).map (fun text => text.length + 1) :=
      List.mem_map_of_mem (List.mem_map_of_mem inside)
    have part := List.single_le_sum (fun n _ => Nat.zero_le n) _ member
    omega
  have read := bracketed_denoted ((List.range count).map fun i =>
    (showFixed digits (array i),.number (roundDouble (fixedValue digits (array i))))) fun e member => by
      obtain ⟨i,inside,rfl⟩ := List.mem_map.mp member
      exact denotes i inside
  rw [joined_comma]
  simpa [valueTexts,List.map_map,Function.comp_def] using read

private theorem infoRows_lists (nested : fmt.flat = false) (info : JbdInfo) : ∃ before after, infoRows fmt info =
    before ++ listRow (bytes "Temps") 1 info.temps info.probes::listRow (bytes "Cells") 3 info.cellvolt info.strings::after ∧
      bytes "Temps" ∉ after.map Prod.fst ∧ bytes "Cells" ∉ after.map Prod.fst := by
  have rows : arrayRows fmt info = [listRow (bytes "Temps") 1 info.temps info.probes,
      listRow (bytes "Cells") 3 info.cellvolt info.strings] := if_neg (by simp [nested])
  have behind : ∀ l ∈ [bytes "Temps",bytes "Cells"], l ∉ [bytes "Balance",bytes "CellTotal",bytes "CellMin",bytes "CellMax",
    bytes "CellDiff",bytes "CellAvg",bytes "DeviceName",bytes "ManufactureDate",bytes "Version",bytes "FET"] := by decide
  refine ⟨_,_,by rw [infoRows,rows,List.append_assoc]; rfl,?_,?_⟩
  · exact behind _ List.mem_cons_self
  · exact behind _ (List.mem_cons_of_mem _ List.mem_cons_self)

private theorem shown_members (host : Host τ) (json : fmt.outfmt = .json) (nested : fmt.flat = false) (info : JbdInfo)
    (w : World τ) (document : w.rootObject ≠ none) (first : listSpan fmt 1 info.temps info.probes ≤ 256)
    (second : listSpan fmt 3 info.cellvolt info.strings ≤ 256) :
    ListShown fmt (bytes "Temps") 1 info.temps info.probes (displayInfo host fmt info w) ∧
      ListShown fmt (bytes "Cells") 3 info.cellvolt info.strings (displayInfo host fmt info w) := by
  have row (label : Bytes) (digits : Nat) (array : Mem ℚ) (count : Nat) (places : 0 < digits) (few : digits ≤ 300)
      (fits : listSpan fmt digits array count ≤ 256) : listRow label digits array count =
        (label,some (.array ((List.range count).map (fun i => .number (roundDouble (fixedValue digits (array i))))))) := by
    rw [listSpan] at fits
    have read := bracketed_values digits array count places few (by omega)
    rw [listRow,elementsText_joined]
    exact congrArg (label,·) read
  obtain ⟨before,after,rows,temps,cells⟩ := infoRows_lists nested info
  rw [row _ 1 _ _ (by decide) (by decide) first,row _ 3 _ _ (by decide) (by decide) second] at rows
  unfold ListShown
  rw [if_pos json,if_pos json]
  constructor
  · apply member_row host json info w document before _ _ rows
    have other : bytes "Temps" ≠ bytes "Cells" := by decide
    rw [List.map_cons,List.mem_cons,not_or]
    exact ⟨other,temps⟩
  · rw [List.append_cons] at rows
    exact member_row host json info w document _ after _ rows cells

section
variable {digits : Nat} {array : Mem ℚ} {buffer : Mem UInt8}

private theorem printList_text (lines : fmt.outfmt ≠ .json) (mark : fmt.sepch ≠ 0) (places : 0 < digits) (count : Nat)
    (inside : Below 256 (printList fmt digits array count buffer).events) :
    (printList fmt digits array count buffer).value = shownText fmt digits array count (stringIn 256 buffer) ∧
      stringIn 256 (printList fmt digits array count buffer).state =
        shownText fmt digits array count (stringIn 256 buffer) := by
  unfold printList at inside ⊢
  rw [if_neg lines] at inside ⊢
  cases count with
  | zero => exact ⟨rfl,rfl⟩
  | succ count =>
    have clean := valueTexts_clean digits array (count + 1) places fmt.sepch mark
    have list := leaves_read (@writes_text fmt.sepch digits array buffer count) clean
    have short := list.below.mp inside
    refine ⟨list.returned short,?_⟩
    rw [list.left short]
    exact stringIn_written 256 buffer _ clean short

private theorem printList_json (json : fmt.outfmt = .json) (places : 0 < digits) (count : Nat)
    (inside : Below 256 (printList fmt digits array count buffer).events) : (printList fmt digits array count buffer).value =
      bytes "[ " ++ joined [44] (valueTexts digits array count) ++ bytes " ]" := by
  have list := @leaves_json digits array buffer fmt json places count
  exact list.returned (list.below.mp inside)

end

theorem displayInfo_buffer (host : Host τ) (nested : fmt.flat = false) (mark : fmt.sepch ≠ 0) (info : JbdInfo) (w : World τ)
    (temp : Mem UInt8) (inside : Below 256 (printLists fmt info temp).events) :
    if fmt.outfmt = .json then arrayRows fmt info =
      [(bytes "Temps",Json.parseString (printLists fmt info temp).value.1),
        (bytes "Cells",Json.parseString (printLists fmt info temp).value.2)]
    else shownUnder fmt (bytes "Temps") (displayInfo (host.withTemp temp) fmt info w) = [(printLists fmt info temp).value.1] ∧
      shownUnder fmt (bytes "Cells") (displayInfo (host.withTemp temp) fmt info w) = [(printLists fmt info temp).value.2] := by
  have parts : Below 256 (printList fmt 1 info.temps info.probes temp).events ∧ Below 256 (printList fmt 3 info.cellvolt
      info.strings (printList fmt 1 info.temps info.probes temp).state).events := (below_lists fmt info temp).mp inside
  have values : (printLists fmt info temp).value = ((printList fmt 1 info.temps info.probes temp).value,
      (printList fmt 3 info.cellvolt info.strings (printList fmt 1 info.temps info.probes temp).state).value) := rfl
  rw [values]
  split_ifs with json
  · have rows : arrayRows fmt info = [listRow (bytes "Temps") 1 info.temps info.probes,
        listRow (bytes "Cells") 3 info.cellvolt info.strings] := if_neg (by simp [nested])
    rw [rows,printList_json json (by decide) _ parts.1,printList_json json (by decide) _ parts.2,listRow,listRow,
      elementsText_joined,elementsText_joined]
  · obtain ⟨temps,cells⟩ := shown_lists (host.withTemp temp) json nested info w
    obtain ⟨first,held⟩ := printList_text json mark (by decide) _ parts.1
    obtain ⟨second,-⟩ := printList_text json mark (by decide) _ parts.2
    rw [temps,cells,first,second,held]
    exact ⟨rfl,rfl⟩

private theorem shownText_visible (digits : Nat) (array : Mem ℚ) (count : Nat) (temp : Bytes) (places : 0 < digits)
    (visible : temp ≠ []) :
    shownText fmt digits array count temp ≠ [] := by
  unfold shownText
  cases count with
  | zero => simpa using visible
  | succ count =>
    obtain ⟨c,s,shown,-⟩ := showFixed_head digits (array 0) places
    rw [if_neg (Nat.succ_ne_zero count),valueTexts_succ,joined,shown]
    exact List.cons_ne_nil c _

private theorem shownText_iff (digits : Nat) (array : Mem ℚ) (count : Nat) (temp : Bytes) (visible : temp ≠ []) :
    shownText fmt digits array count temp = joined [fmt.sepch] (valueTexts digits array count) ↔ 0 < count := by
  unfold shownText
  split_ifs with none
  · subst none
    simpa [valueTexts,joined] using visible
  · simpa using Nat.pos_iff_ne_zero.mpr none

end

/-- Whatever the buffer held, display_info shows both lists as they are exactly in JSON mode,
or where none of them is empty, and where both fit the buffer. -/
theorem displayInfo_lists_iff (host : Host τ) (fmt : Fmt) (info : JbdInfo) (w : World τ) (nested : fmt.flat = false)
    (document : fmt.outfmt = .json → w.rootObject ≠ none) :
    (∀ temp, ListsRight fmt info temp (displayInfo (host.withTemp temp) fmt info w)) ↔
      (fmt.outfmt = .json ∨ 0 < info.probes ∧ 0 < info.strings) ∧
        listSpan fmt 1 info.temps info.probes ≤ 256 ∧ listSpan fmt 3 info.cellvolt info.strings ≤ 256 := by
  constructor
  · intro right
    have some : fmt.outfmt = .json ∨ 0 < info.probes ∧ 0 < info.strings := by
      by_cases json : fmt.outfmt = .json
      · exact .inl json
      -- A buffer that holds a letter.
      let temp : Mem UInt8 := overlay (fun _ => 0) 0 ([65] ++ [0])
      have held : stringIn 256 temp = [65] := stringIn_written 256 _ [65] (by decide) (by decide)
      have visible : (host.withTemp temp).infoText ≠ [] := by
        change stringIn 256 temp ≠ []
        rw [held]
        decide
      obtain ⟨-,temps,cells⟩ := right temp
      obtain ⟨first,second⟩ := shown_lists (host.withTemp temp) json nested info w
      rw [ListShown,if_neg json,first,List.singleton_inj,shownText_iff _ _ _ _ visible] at temps
      rw [ListShown,if_neg json,second,List.singleton_inj,
        shownText_iff _ _ _ _ (shownText_visible _ _ _ _ (by decide) visible)] at cells
      exact .inr ⟨temps,cells⟩
    exact ⟨some,(inside_iff fmt info (fun _ => 0) some).mp (right _).inside⟩
  · rintro ⟨some,first,second⟩ temp
    have inside := (inside_iff fmt info temp some).mpr ⟨first,second⟩
    by_cases json : fmt.outfmt = .json
    · obtain ⟨temps,cells⟩ := shown_members (host.withTemp temp) json nested info w (document json) first second
      exact ⟨inside,temps,cells⟩
    · obtain ⟨several,cells⟩ := some.resolve_left json
      obtain ⟨first,second⟩ := shown_lists (host.withTemp temp) json nested info w
      refine ⟨inside,?_,?_⟩
      · rw [ListShown,if_neg json,first,shownText,if_neg (by omega)]
      · rw [ListShown,if_neg json,second,shownText,if_neg (by omega)]

/-- A pack with one probe at 25 degrees, and this many cells at 3.3 volts. -/
def onePlus (strings : Nat) : JbdInfo :=
  {JbdInfo.zero with probes := 1,temps := fun _ => 25,strings := strings,cellvolt := fun _ => 33 / 10}

theorem displayInfo_lists_one : ListsRight Settings.initial.fmt (onePlus 1) (fun _ => 65)
    (displayInfo ((statusHost [0,0,0,0] rfl).withTemp fun _ => 65) Settings.initial.fmt (onePlus 1) (World.start 0)) :=
  (displayInfo_lists_iff (statusHost [0,0,0,0] rfl) Settings.initial.fmt (onePlus 1) (World.start 0) rfl (by decide)).mpr
    ⟨.inr ⟨by decide,by decide⟩,by decide +kernel,by decide +kernel⟩ fun _ => 65

/-- Without cells the list of cells has the temperatures. -/
theorem displayInfo_lists_carried : ¬ ∀ temp, ListsRight Settings.initial.fmt (onePlus 0) temp
    (displayInfo ((statusHost [0,0,0,0] rfl).withTemp temp) Settings.initial.fmt (onePlus 0) (World.start 0)) := by
  intro right
  obtain ⟨-,-,cells⟩ := right fun _ => 0
  have lines : Settings.initial.fmt.outfmt ≠ .json := by decide
  obtain ⟨-,shown⟩ := shown_lists ((statusHost [0,0,0,0] rfl).withTemp fun _ => 0) lines rfl (onePlus 0) (World.start 0)
  have carried : shownText Settings.initial.fmt 3 (onePlus 0).cellvolt (onePlus 0).strings (shownText Settings.initial.fmt 1
      (onePlus 0).temps (onePlus 0).probes []) = bytes "25.0" := by decide +kernel
  rw [ListShown,if_neg lines,shown] at cells
  exact absurd (carried.symm.trans (List.singleton_inj.mp cells)) (by decide)

end Jbdtool
