import Jbdtool.Base.Buffer
import Jbdtool.CfgRoundTrip

/-! cfg_read on the array `line` that it reads every line into: what an item line gives and
which places of the array it reads, whatever the array held before. -/
namespace Jbdtool.CfgBuffer
open CString Cfg

abbrev LineBuffer := Mem UInt8

def lineSize : Nat := 1022

/-- The loop of `_readline`: how far the line has come, and what is left of the file. Of
what it reads back only characters of the line are looked at. -/
def fill : Bytes → Nat → LineBuffer → Nat × Option Bytes × LineBuffer
  | [], ptr, line => (ptr,none,line)
  | ch::rest, ptr, line =>
    if 128 ≤ ch then fill rest ptr line
    else if ch = 10 then (ptr,some rest,line)
    else if ptr ≠ 0 then
      if ptr < lineSize - 1 then fill rest (ptr + 1) (Mem.overlay line ptr [ch]) else (ptr,some rest,line)
    else if isspace ch then fill rest ptr line
    else fill rest 1 (Mem.overlay line 0 [ch])

/-- `while(isspace((int)*(ptr-1))) ptr--;` -/
def trimEnd (line : LineBuffer) : Nat → Nat
  | 0 => 0
  | ptr + 1 => if isspace (line ptr) then trimEnd line ptr else ptr + 1

def readline (fp : Option Bytes) (line : LineBuffer) : Option (Option Bytes × LineBuffer) :=
  match fp with
  | none => none
  | some rest =>
    let read := fill rest 0 (Mem.overlay line 0 [0])
    some (read.2.1,if read.1 > 0 then Mem.overlay read.2.2 (trimEnd read.2.2 read.1) [0] else read.2.2)

/-- The string at a place, read up to its terminator; without one the reader leaves the array. -/
def readStringAt (p : Nat) : Traced LineBuffer Access Bytes := fun line =>
  let text := (Mem.slice line p (lineSize - p)).takeWhile (· ≠ 0)
  ⟨text,line,(List.range (text.length + 1)).map (fun i => .load (p + i))⟩

/-- The loop of the keyword, with room for this many more characters. -/
def scanKeyword : Nat → Nat → Traced LineBuffer Access (Bytes × Nat)
  | 0, ptr => pure ([],ptr)
  | n + 1, ptr => do
    let c ← Mem.load ptr
    if c = 61 ∨ c = 0 then pure ([],ptr)
    else do
      let rest ← scanKeyword n (ptr + 1)
      return (toupper c::rest.1,rest.2)

def readItem : Traced LineBuffer Access (Bytes × Bytes) := do
  let keyword ← scanKeyword (keywordSize - 1) 0
  let value ← readStringAt (keyword.2 + 1)
  return (trim keyword.1,value)

/-- What has been read of an item line. -/
structure ItemRead where
  line : Bytes
  keyword : Bytes
  value : Bytes
  accesses : List Access

def itemRead (line : LineBuffer) : ItemRead :=
  let read := readItem line
  ⟨stringIn lineSize line,read.value.1,read.value.2,read.events⟩

@[simp] theorem itemRead_line (line : LineBuffer) : (itemRead line).line = stringIn lineSize line := by
  rw [itemRead]

def itemSection (r : Reader) (text : Bytes) : Option Nat :=
  if text = [] ∨ isHeader text ∨ isComment text then none else r.current

/-- The body of the loop of cfg_read; strlen and strchr do not leave the string in `line`. -/
def processBuffer (r : Reader) (line : LineBuffer) : Option (Reader × List ItemRead) :=
  match itemSection r (stringIn lineSize line) with
  | some i =>
    let read := itemRead line
    let item : Item := ⟨read.keyword,if r.desc = [] then none else some r.desc,read.value⟩
    some (⟨r.sections.modify i (Section.put item),r.current,[]⟩,[read])
  | none => (processLine r (stringIn lineSize line)).map (fun r => (r,[]))

/-- The rest of the file: what has become of the reader, and the item lines, in order. -/
def readBuffer : Nat → Option Bytes → LineBuffer → Reader → Option (Reader × List ItemRead)
  | 0, _, _, _ => none
  | n + 1, fp, line, r => match readline fp line with
    | none => some (r,[])
    | some (fp,line) => do
      let (r,reads) ← processBuffer r line
      let (r,others) ← readBuffer n fp line r
      some (r,reads ++ others)

/-- From whatever is in `line` at first. -/
def cfgReadBuffer (file : Bytes) (line : LineBuffer) : Option (Info × List ItemRead) := do
  let (r,reads) ← readBuffer (file.length + 2) (some file) line ⟨[],none,[]⟩
  some (⟨r.sections⟩,reads)

section
variable {line : LineBuffer} {text : Bytes}

private theorem readFrom_front (size : Nat) (raw text : Bytes) : text <+: (readFrom size raw text).1 := by
  induction raw generalizing text with
  | nil => exact List.prefix_refl text
  | cons ch rest ih =>
    rw [readFrom]
    split_ifs with wide newline some room blank
    · exact ih text
    · exact List.prefix_refl text
    · exact (List.prefix_append text [ch]).trans (ih (text ++ [ch]))
    · exact List.prefix_refl text
    · exact ih text
    · rw [not_not.mp some]
      exact List.nil_prefix

private theorem readFrom_some {size : Nat} {raw text : Bytes} (some : text ≠ []) : (readFrom size raw text).1 ≠ [] := by
  intro none
  have front := readFrom_front size raw text
  rw [none] at front
  exact some (List.prefix_nil.mp front)

private theorem readFrom_length (size : Nat) (room : 1 < size) (raw text : Bytes) (short : text.length ≤ size - 1) :
    (readFrom size raw text).1.length ≤ size - 1 := by
  induction raw generalizing text with
  | nil => exact short
  | cons ch rest ih =>
    rw [readFrom]
    split_ifs with wide newline some more blank
    · exact ih text short
    · exact short
    · exact ih (text ++ [ch]) (by rw [List.length_append,List.length_singleton]; omega)
    · exact short
    · exact ih text short
    · exact ih [ch] (by rw [List.length_singleton]; omega)

theorem readFrom_shorter {size : Nat} {raw text rest : Bytes} (left : (readFrom size raw text).2 = some rest) :
    rest.length < raw.length := by
  induction raw generalizing text with
  | nil => cases left
  | cons ch raw ih =>
    rw [List.length_cons]
    rw [readFrom] at left
    split_ifs at left with wide newline some more blank
    · exact Nat.lt_succ_of_lt (ih left)
    · obtain rfl := Option.some.inj left
      exact Nat.lt_succ_self _
    · exact Nat.lt_succ_of_lt (ih left)
    · obtain rfl := Option.some.inj left
      exact Nat.lt_succ_self _
    · exact Nat.lt_succ_of_lt (ih left)
    · exact Nat.lt_succ_of_lt (ih left)

private theorem slice_next (same : Mem.slice line 0 text.length = text) (c : UInt8) :
    Mem.slice (Mem.overlay line text.length [c]) 0 (text ++ [c]).length = text ++ [c] := by
  have front : Mem.slice (Mem.overlay line text.length [c]) 0 text.length = text := by
    refine (Mem.slice_congr _ line 0 text.length fun i inside => ?_).trans same
    exact Mem.overlay_outside line text.length [c] (0 + i) (.inl (by omega))
  have last := Mem.slice_overlay line text.length [c]
  rw [List.length_append,Mem.slice_append,front,Nat.zero_add,last]

private theorem fill_text (raw : Bytes) (same : Mem.slice line 0 text.length = text) : ∃ line',
    fill raw text.length line = ((readFrom lineSize raw text).1.length,(readFrom lineSize raw text).2,line') ∧
      Mem.slice line' 0 (readFrom lineSize raw text).1.length = (readFrom lineSize raw text).1 ∧
      ((readFrom lineSize raw text).1 = [] → line' = line) := by
  induction raw generalizing line text with
  | nil => exact ⟨line,rfl,same,fun _ => rfl⟩
  | cons ch rest ih =>
    have start : text.length ≠ 0 ↔ text ≠ [] := not_congr List.length_eq_zero_iff
    rw [fill,readFrom]
    by_cases wide : 128 ≤ ch
    · rw [if_pos wide,if_pos wide]
      exact ih same
    rw [if_neg wide,if_neg wide]
    by_cases newline : ch = 10
    · rw [if_pos newline,if_pos newline]
      exact ⟨line,rfl,same,fun _ => rfl⟩
    rw [if_neg newline,if_neg newline]
    by_cases some : text ≠ []
    · rw [if_pos (start.mpr some),if_pos some]
      by_cases room : text.length < lineSize - 1
      · rw [if_pos room,if_pos room]
        obtain ⟨line',filled,slice,empty⟩ := ih (slice_next same ch)
        rw [List.length_append] at filled
        exact ⟨line',filled,slice,fun none => absurd none (readFrom_some (by simp))⟩
      · rw [if_neg room,if_neg room]
        exact ⟨line,rfl,same,fun _ => rfl⟩
    · rw [if_neg (mt start.mp some),if_neg some]
      obtain rfl := not_not.mp some
      by_cases blank : isspace ch = true
      · rw [if_pos blank,if_pos blank]
        exact ih same
      · rw [if_neg blank,if_neg blank]
        obtain ⟨line',filled,slice,empty⟩ := ih (slice_next same ch)
        exact ⟨line',filled,slice,fun none => absurd none (readFrom_some (List.cons_ne_nil ch []))⟩

private theorem trimEnd_text (same : Mem.slice line 0 text.length = text) :
    trimEnd line text.length = (text.rdropWhile isspace).length := by
  induction text using List.reverseRecOn with
  | nil => rfl
  | append_singleton text c ih =>
    rw [List.length_append,Mem.slice_append,Nat.zero_add] at same
    obtain ⟨front,last⟩ := List.append_inj same (by simp)
    have here : line text.length = c := List.head_eq_of_cons_eq last
    rw [List.length_append,List.length_singleton,trimEnd,here,List.rdropWhile_concat]
    split_ifs with blank
    · exact ih front
    · rw [List.length_append,List.length_singleton]

private theorem takeWhile_stop (p : UInt8 → Bool) {c : UInt8} (stops : p c = false) (front rest : Bytes) :
    (front ++ c::rest).takeWhile p = front.takeWhile p := by
  induction front with
  | nil => exact List.takeWhile_cons_of_neg (by simp [stops])
  | cons d front ih => rw [List.cons_append,List.takeWhile_cons,List.takeWhile_cons,ih]

private theorem stringIn_terminated (same : Mem.slice line 0 text.length = text) (ended : line text.length = 0)
    (short : text.length < lineSize) : stringIn lineSize line = text.takeWhile (· ≠ 0) := by
  have size : lineSize = text.length + (lineSize - text.length - 1 + 1) := by omega
  rw [stringIn,size,Mem.slice_append,same,Mem.slice_succ,Nat.zero_add,ended]
  exact takeWhile_stop _ (by decide) _ _

private theorem slice_front {front : Bytes} (same : Mem.slice line 0 text.length = text) (prefixed : front <+: text) :
    Mem.slice line 0 front.length = front := by
  obtain ⟨rest,rfl⟩ := prefixed
  rw [List.length_append,Mem.slice_append] at same
  exact (List.append_inj same (by simp)).1

private theorem stringIn_cut {front : Bytes} (same : Mem.slice line 0 text.length = text) (prefixed : front <+: text)
    (short : front.length < lineSize) :
    stringIn lineSize (Mem.overlay line front.length [0]) = front.takeWhile (· ≠ 0) := by
  refine stringIn_terminated ?_ (Mem.overlay_inside line front.length [0] 0 Nat.zero_lt_one) short
  refine (Mem.slice_congr _ line 0 front.length fun i inside => ?_).trans (slice_front same prefixed)
  exact Mem.overlay_outside line front.length [0] (0 + i) (.inl (by omega))

theorem readline_text (rest : Bytes) (line : LineBuffer) : ∃ text fp line',
    Cfg.readline lineSize (some rest) = some (text,fp) ∧ readline (some rest) line = some (fp,line') ∧
      stringIn lineSize line' = text ∧ text.length < lineSize := by
  obtain ⟨line1,filled,slice,unchanged⟩ := @fill_text (Mem.overlay line 0 [0]) [] rest rfl
  have room := readFrom_length lineSize (by decide) rest [] (Nat.zero_le _)
  have front := List.rdropWhile_prefix isspace (readFrom lineSize rest []).1
  have short : ((readFrom lineSize rest []).1.rdropWhile isspace).length < lineSize :=
    (front.length_le.trans room).trans_lt (by decide)
  have ended := stringIn_cut slice front short
  refine ⟨_,_,if (readFrom lineSize rest []).1.length > 0 then
    Mem.overlay line1 (trimEnd line1 (readFrom lineSize rest []).1.length) [0] else line1,readline_some lineSize rest,?_,?_,?_⟩
  · rw [List.length_nil] at filled
    unfold readline
    dsimp only
    rw [filled]
  · by_cases some : (readFrom lineSize rest []).1.length > 0
    · rw [if_pos some,trimEnd_text slice,ended]
    · have none : (readFrom lineSize rest []).1 = [] := List.length_eq_zero_iff.mp (by omega)
      rw [if_neg some,unchanged none,none]
      exact @stringIn_terminated (Mem.overlay line 0 [0]) [] rfl (Mem.overlay_inside line 0 [0] 0 Nat.zero_lt_one) (by decide)
  · exact (List.takeWhile_prefix _).length_le.trans_lt short

end

/-- The array holds this string. -/
structure Holds (line : LineBuffer) (text : Bytes) : Prop where
  same : Mem.slice line 0 text.length = text
  ended : line text.length = 0
  clean : ∀ c ∈ text, c ≠ 0
  short : text.length < lineSize

section
variable {line : LineBuffer} {text : Bytes}

theorem holds_string (known : stringIn lineSize line = text) (short : text.length < lineSize) : Holds line text := by
  have parts : Mem.slice line 0 lineSize = text ++ (Mem.slice line 0 lineSize).dropWhile (· ≠ 0) := by
    rw [← known,stringIn,List.takeWhile_append_dropWhile]
  have clean : ∀ c ∈ text, c ≠ 0 := fun c inside => by
    rw [← known] at inside
    simpa using List.mem_takeWhile_imp inside
  have size : lineSize = text.length + (lineSize - text.length - 1 + 1) := by omega
  have split : Mem.slice line 0 lineSize =
      Mem.slice line 0 text.length ++ line text.length::Mem.slice line (text.length + 1) (lineSize - text.length - 1) := by
    rw [size,Mem.slice_append,Mem.slice_succ,Nat.zero_add]
    simp
  have both := List.append_inj (split.symm.trans parts) (by simp)
  refine ⟨both.1,?_,clean,short⟩
  have head := congrArg List.head? both.2
  rw [List.head?_cons] at head
  simpa using dropWhile_start _ head.symm

private theorem Holds.slice (holds : Holds line text) {p : Nat} (inside : p ≤ text.length) :
    Mem.slice line p (text.length - p) = text.drop p := by
  have split : text.length = p + (text.length - p) := by omega
  have parts := holds.same
  rw [split,Mem.slice_append,Nat.zero_add] at parts
  have whole : text.take p ++ text.drop p = text := List.take_append_drop p text
  exact (List.append_inj (parts.trans whole.symm) (by simp; omega)).2

private theorem Holds.at (holds : Holds line text) {p : Nat} (inside : p < text.length) :
    text.drop p = line p::text.drop (p + 1) := by
  have parts := holds.slice inside.le
  have size : text.length - p = text.length - (p + 1) + 1 := by omega
  rw [size,Mem.slice_succ,holds.slice inside] at parts
  exact parts.symm

private theorem Holds.rest (holds : Holds line text) {p : Nat} (inside : p ≤ text.length) :
    (readStringAt p line).value = text.drop p := by
  have size : lineSize - p = text.length - p + (lineSize - text.length - 1 + 1) := by
    have := holds.short
    omega
  have place : p + (text.length - p) = text.length := by omega
  have clean : (text.drop p).takeWhile (· ≠ 0) = text.drop p :=
    List.takeWhile_eq_self_iff.mpr fun c inside => by simpa using holds.clean c (List.mem_of_mem_drop inside)
  have read : (readStringAt p line).value = (Mem.slice line p (lineSize - p)).takeWhile (· ≠ 0) := rfl
  rw [read,size,Mem.slice_append,holds.slice inside,Mem.slice_succ,place,holds.ended]
  exact (takeWhile_stop _ (by decide) _ _).trans clean

private theorem scanKeyword_stop {n x : Nat} (stops : line x = 61 ∨ line x = 0) :
    scanKeyword (n + 1) x line = ⟨([],x),line,[.load x]⟩ := by
  rw [scanKeyword,Mem.load_bind,if_pos stops]
  rfl

private theorem scanKeyword_next {n x : Nat} (goes : ¬ (line x = 61 ∨ line x = 0)) :
    scanKeyword (n + 1) x line = ⟨(toupper (line x)::(scanKeyword n (x + 1) line).value.1,(scanKeyword n (x + 1) line).value.2),
      (scanKeyword n (x + 1) line).state,.load x::(scanKeyword n (x + 1) line).events⟩ := by
  rw [scanKeyword,Mem.load_bind,if_neg goes,Traced.bind_run]
  simp [Outcome.after]

/-- The scan is that of the line itself, and does not leave the string. -/
structure Scans (line : LineBuffer) (text : Bytes) (n x : Nat) : Prop where
  value : (scanKeyword n x line).value =
    ((takeKeyword x (text.drop x)).1,text.length - (takeKeyword x (text.drop x)).2.length)
  state : (scanKeyword n x line).state = line
  accesses : Mem.Below (text.length + 1) (scanKeyword n x line).events

private theorem scans_stop (holds : Holds line text) (n : Nat) {x : Nat} (inside : x ≤ text.length)
    (stops : x = text.length ∨ x < text.length ∧ line x = 61) : Scans line text (n + 1) x := by
  have read : Mem.Below (text.length + 1) [Access.load x] := by
    simpa using Nat.lt_succ_of_le inside
  rcases stops with rfl | ⟨before,equals⟩
  · have scan := @scanKeyword_stop line n text.length (.inr holds.ended)
    refine ⟨?_,congrArg Outcome.state scan,scan ▸ read⟩
    rw [scan,List.drop_length]
    rfl
  · have scan := @scanKeyword_stop line n x (.inl equals)
    refine ⟨?_,congrArg Outcome.state scan,scan ▸ read⟩
    have length : text.length - (text.drop x).length = x := by
      rw [List.length_drop]
      omega
    rw [scan,holds.at before,takeKeyword,if_pos equals,← holds.at before,length]

private theorem scans_next (holds : Holds line text) {n x : Nat} (before : x < text.length) (equals : line x ≠ 61)
    {key rest : Bytes} (value : (scanKeyword n (x + 1) line).value = (key,text.length - rest.length))
    (state : (scanKeyword n (x + 1) line).state = line)
    (accesses : Mem.Below (text.length + 1) (scanKeyword n (x + 1) line).events)
    (taken : takeKeyword x (line x::text.drop (x + 1)) = (toupper (line x)::key,rest)) : Scans line text (n + 1) x := by
  have here := holds.at before
  have some : line x ≠ 0 := holds.clean _ (List.mem_of_mem_drop (here ▸ List.mem_cons_self))
  have scan := @scanKeyword_next line n x (not_or.mpr ⟨equals,some⟩)
  refine ⟨?_,?_,?_⟩
  · rw [scan,here,taken,value]
  · rw [scan,state]
  · rw [scan]
    exact (Mem.below_cons _ _ _).mpr ⟨Nat.lt_succ_of_lt before,accesses⟩

private theorem scanKeyword_text (holds : Holds line text) (n x : Nat) (room : x + (n + 1) = keywordSize - 1)
    (inside : x ≤ text.length) : Scans line text (n + 1) x := by
  induction n generalizing x with
  | zero =>
    by_cases stops : x = text.length ∨ x < text.length ∧ line x = 61
    · exact scans_stop holds 0 inside stops
    · have before : x < text.length := by omega
      have equals : line x ≠ 61 := fun same => stops (.inr ⟨before,same⟩)
      have full : x + 1 > keywordSize - 2 := by
        unfold keywordSize at *
        omega
      have length : x + 1 = text.length - (text.drop (x + 1)).length := by
        rw [List.length_drop]
        omega
      refine @scans_next line text holds 0 x before equals [] (text.drop (x + 1)) (congrArg _ length) rfl (Mem.below_nil _) ?_
      rw [takeKeyword,if_neg equals,if_pos full]
  | succ n ih =>
    by_cases stops : x = text.length ∨ x < text.length ∧ line x = 61
    · exact scans_stop holds (n + 1) inside stops
    · have before : x < text.length := by omega
      have equals : line x ≠ 61 := fun same => stops (.inr ⟨before,same⟩)
      have more : ¬ x + 1 > keywordSize - 2 := by
        unfold keywordSize at *
        omega
      obtain ⟨value,state,accesses⟩ := ih (x + 1) (by omega) before
      refine scans_next holds before equals value state accesses ?_
      rw [takeKeyword,if_neg equals,if_neg more]

private theorem takeKeyword_end (x : Nat) (room : x < keywordSize - 1) (text : Bytes) :
    (takeKeyword x text).2 = [] ↔ 61 ∉ text ∧ x + text.length ≤ keywordSize - 1 := by
  induction text generalizing x with
  | nil => exact ⟨fun _ => ⟨nofun,room.le⟩,fun _ => rfl⟩
  | cons c ptr ih =>
    rw [takeKeyword,List.length_cons]
    by_cases equals : c = 61
    · rw [if_pos equals]
      exact iff_of_false (List.cons_ne_nil c ptr) fun both => both.1 (equals ▸ List.mem_cons_self)
    rw [if_neg equals]
    by_cases full : x + 1 > keywordSize - 2
    · rw [if_pos full]
      constructor
      · rintro rfl
        exact ⟨by simpa using Ne.symm equals,room⟩
      · intro both
        have none : ptr.length = 0 := by
          unfold keywordSize at *
          omega
        exact List.length_eq_zero_iff.mp none
    · rw [if_neg full]
      have later := ih (x + 1) (by unfold keywordSize at *; omega)
      refine later.trans (and_congr ?_ ?_)
      · simp [Ne.symm equals]
      · omega

private theorem takeKeyword_suffix (x : Nat) (text : Bytes) : (takeKeyword x text).2 <:+ text := by
  induction text generalizing x with
  | nil => exact List.suffix_refl []
  | cons c ptr ih =>
    rw [takeKeyword]
    split_ifs
    · exact List.suffix_refl _
    · exact List.suffix_cons c ptr
    · exact (ih (x + 1)).trans (List.suffix_cons c ptr)

/-- The scan of the keyword ends before the end of the line. -/
def Early (text : Bytes) : Prop := 61 ∈ text.take 63 ∨ 64 ≤ text.length

instance (text : Bytes) : Decidable (Early text) := inferInstanceAs (Decidable (_ ∨ _))

theorem early_iff (text : Bytes) : Early text ↔ (takeKeyword 0 text).2 ≠ [] := by
  rw [Ne,takeKeyword_end 0 (by decide) text,Early]
  by_cases long : 64 ≤ text.length
  · exact iff_of_true (.inr long) fun both => absurd both.2 (by unfold keywordSize; omega)
  · have whole : text.take 63 = text := List.take_of_length_le (by omega)
    have short : 0 + text.length ≤ keywordSize - 1 := by
      unfold keywordSize
      omega
    rw [whole]
    exact ⟨fun early both => both.1 (early.resolve_right long),fun late => .inl (by_contra fun none => late ⟨none,short⟩)⟩

private theorem readItem_run (holds : Holds line text) : readItem line =
    ⟨(trim (takeKeyword 0 text).1,(readStringAt (text.length - (takeKeyword 0 text).2.length + 1) line).value),line,
      (scanKeyword (keywordSize - 1) 0 line).events ++
        (readStringAt (text.length - (takeKeyword 0 text).2.length + 1) line).events⟩ := by
  have scans : Scans line text (keywordSize - 1) 0 := scanKeyword_text holds 62 0 (by decide) (Nat.zero_le _)
  have value := scans.value
  have eta (o : Outcome LineBuffer Access (Bytes × Nat)) : o = ⟨o.value,o.state,o.events⟩ := rfl
  have scan := eta (scanKeyword (keywordSize - 1) 0 line)
  rw [List.drop_zero] at value
  rw [value,scans.state] at scan
  rw [readItem,Traced.bind_of_run scan,Traced.bind_run]
  exact congrArg (fun l => Outcome.mk _ line (_ ++ l)) (List.append_nil _)

private theorem readStringAt_below (holds : Holds line text) {p : Nat} (inside : p ≤ text.length) :
    Mem.Below (text.length + 1) (readStringAt p line).events := by
  have events : (readStringAt p line).events =
      (List.range ((readStringAt p line).value.length + 1)).map (fun i => .load (p + i)) := rfl
  rw [events,holds.rest inside]
  exact Mem.below_loads p _ _ (by rw [List.length_drop]; omega)

/-- What stands behind the scan is in the line, and nothing else is read. -/
theorem itemRead_early (holds : Holds line text) (known : stringIn lineSize line = text) (early : Early text) :
    ∃ accesses, itemRead line = ⟨text,trim (takeKeyword 0 text).1,(takeKeyword 0 text).2.tail,accesses⟩ ∧
      Mem.Below (text.length + 1) accesses := by
  have some := List.length_pos_of_ne_nil ((early_iff text).mp early)
  have scans : Scans line text (keywordSize - 1) 0 := scanKeyword_text holds 62 0 (by decide) (Nat.zero_le _)
  have behind := takeKeyword_suffix 0 text
  have inside : text.length - (takeKeyword 0 text).2.length + 1 ≤ text.length := by
    have := behind.length_le
    omega
  have value : (readStringAt (text.length - (takeKeyword 0 text).2.length + 1) line).value = (takeKeyword 0 text).2.tail := by
    rw [holds.rest inside,← List.drop_drop,← List.suffix_iff_eq_drop.mp behind,List.drop_one]
  refine ⟨(scanKeyword (keywordSize - 1) 0 line).events ++
    (readStringAt (text.length - (takeKeyword 0 text).2.length + 1) line).events,?_,?_⟩
  · unfold itemRead
    rw [readItem_run holds,known,value]
  · exact (Mem.below_append _ _ _).mpr ⟨scans.accesses,readStringAt_below holds inside⟩

/-- What stands behind the line's terminator is read. -/
theorem itemRead_late (holds : Holds line text) (late : ¬ Early text) :
    61 ∉ text ∧ Access.load (text.length + 1) ∈ (itemRead line).accesses := by
  have none := not_not.mp (mt (early_iff text).mpr late)
  refine ⟨((takeKeyword_end 0 (by decide) text).mp none).1,?_⟩
  unfold itemRead
  rw [readItem_run holds,none]
  refine List.mem_append_right _ (List.mem_map.mpr ⟨0,List.mem_range.mpr (Nat.succ_pos _),?_⟩)
  rfl

end

end Jbdtool.CfgBuffer
