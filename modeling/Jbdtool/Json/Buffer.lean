import Jbdtool.Base.TwoPass
import Jbdtool.Json.Members
import Jbdtool.Json.Printed

/-! The serializer as it is run: once without a buffer to find the size, with the numbers
printed into an array of 64 bytes, and then into a buffer of that size. -/
namespace Jbdtool.Json
open CString TwoPass Traced Mem

def numBufSize : Nat := 64

def appendString (s : Bytes) : Printer := text s

/-- `append_indent` -/
def appendIndent (level : Nat) : Printer := all ((List.replicate level (bytes "    ")).map appendString)

/-- One turn of the loop of `json_serialize_string`. -/
def serializeChar (c : UInt8) : Printer :=
  if c = 34 ∨ c = 92 ∨ c = 47 ∨ c < 32 then appendString (escape c) else byte c

def serializeStringTo (s : Bytes) : Printer :=
  all [appendString [34],all (s.map serializeChar),appendString [34]]

/-- The bodies of a loop, with what stands before and behind each. -/
def elementsTo (pretty : Bool) (level : Nat) : List Printer → Printer
  | [] => nothing
  | body::rest => all [if pretty then appendIndent (level + 1) else nothing,body,
      if !rest.isEmpty then appendString [44] else nothing,if pretty then appendString [10] else nothing,
      elementsTo pretty level rest]

/-- `json_serialize_to_buffer_r` without its failures: sprintf has none, and a name of the object is found there. -/
def serializeTo (pretty : Bool) (level : Nat) : Json → Printer
  | .array items => all [appendString [91],if !items.isEmpty && pretty then appendString [10] else nothing,
      elementsTo pretty level (items.attach.map (fun item => serializeTo pretty (level + 1) item.1)),
      if !items.isEmpty && pretty then appendIndent level else nothing,appendString [93]]
  | .object members => all [appendString [123],if !members.isEmpty && pretty then appendString [10] else nothing,
      elementsTo pretty level (members.map (fun m => all [serializeStringTo m.1,appendString [58],
        if pretty then appendString [32] else nothing,
        match _found : getValue members m.1 with
        | some value => serializeTo pretty (level + 1) value
        | none => nothing])),
      if !members.isEmpty && pretty then appendIndent level else nothing,appendString [125]]
  | .string s => serializeStringTo s
  | .boolean b => if b then appendString (bytes "true") else appendString (bytes "false")
  | .number x => scratch (showG17 x)
  | .null => appendString (bytes "null")
termination_by v => v
decreasing_by
  · have := List.sizeOf_lt_of_mem item.2
    simp only [array.sizeOf_spec]
    omega
  · have := List.sizeOf_lt_of_mem (getValue_some members m.1 value _found)
    simp only [Prod.mk.sizeOf_spec] at this
    simp only [object.sizeOf_spec]
    omega

/-- `json_serialization_size`, over its array for numbers. It has no result where the count overflows. -/
def serializationSize (pretty : Bool) (v : Json) : Traced (Mem UInt8) Access (Option Nat) := do
  let res ← serializeTo pretty 0 v none
  return res.map (· + 1)

/-- `json_serialize_to_buffer`, over the buffer; the array of the sizing is what the stack had there. -/
def serializeToBuffer (pretty : Bool) (v : Json) (stack : Mem UInt8) (bufSize : Nat) :
    Traced (Mem UInt8) Access (Option Bool) :=
  match (serializationSize pretty v stack).value with
  | none => pure none
  | some needed => if needed = 0 ∨ bufSize < needed then pure (some false) else do
    let written ← serializeTo pretty 0 v (some 0)
    return written.map (fun _ => true)

/-- `json_serialize_to_string`, with what malloc makes of the size: the buffer afterwards, and how large it is. -/
def serializeToString (pretty : Bool) (v : Json) (stack : Nat → Mem UInt8) (malloc : Nat → Option (Mem UInt8)) :
    Option (Option (Nat × Outcome (Mem UInt8) Access (Option Bool))) := do
  let size ← (serializationSize pretty v (stack 0)).value
  if size = 0 then return none
  match malloc size with
  | none => return none
  | some buf =>
    let written := serializeToBuffer pretty v (stack 1) size buf
    if ← written.value then return some (size,written)
    return none

/-- A value as parson can hold it: doubles but the negative zero, and objects with distinct names. -/
inductive Held : Json → Prop where
  | null : Held .null
  | boolean (b : Bool) : Held (.boolean b)
  | number (x : ℚ) (double : Double x) : Held (.number x)
  | string (s : Bytes) : Held (.string s)
  | array (items : List Json) (inner : ∀ v ∈ items, Held v) : Held (.array items)
  | object (members : List (Bytes × Json)) (own : (members.map Prod.fst).Nodup) (inner : ∀ m ∈ members, Held m.2) :
    Held (.object members)

section
variable {size : Nat}

private theorem prints_appendString (s : Bytes) : Prints size (appendString s) s true := prints_text size s

private theorem prints_appendIndent (level : Nat) : ∃ e, Prints size (appendIndent level) (indent level) e := by
  have each := prints_all (List.replicate level (bytes "    ")) appendString id
    (fun s _ => ⟨true,(prints_appendString s : Prints size _ s true)⟩)
  rwa [List.flatMap_id] at each

private theorem prints_serializeChar (c : UInt8) : ∃ e, Prints size (serializeChar c) (escape c) e := by
  unfold serializeChar
  split_ifs with escaped
  · exact ⟨true,prints_appendString _⟩
  · obtain ⟨quote,slash,solidus,control⟩ : c ≠ 34 ∧ c ≠ 92 ∧ c ≠ 47 ∧ ¬ c < 32 := by tauto
    have plain : escape c = [c] := by
      have small (k : UInt8) (low : k < 32) : c ≠ k := by
        rintro rfl
        exact control low
      unfold escape
      simp only [quote,slash,solidus,control,small 8 (by decide),small 12 (by decide),small 10 (by decide),
        small 13 (by decide),small 9 (by decide),if_false]
    rw [plain]
    exact ⟨false,prints_byte size c⟩

/-- A sequence that ends with sprintf ends with a terminator. -/
private theorem prints_last (m : Printer) (s t : Bytes) (shown : ∃ e, Prints size m s e) :
    Prints size (all [m,appendString t]) (s ++ t) true := by
  obtain ⟨e,shown⟩ := shown
  have last := prints_andThen (prints_appendString t) (prints_nothing size)
  rw [List.append_nil,Bool.false_or,List.isEmpty_nil,Bool.and_true] at last
  have both := prints_andThen shown last
  rwa [Bool.true_or] at both

private theorem prints_more {m : Printer} {s t : Bytes} {ps : List Printer} (shown : ∃ e, Prints size m s e)
    (more : Prints size (all ps) t true) : Prints size (all (m::ps)) (s ++ t) true := by
  obtain ⟨e,shown⟩ := shown
  have both := prints_andThen shown more
  rwa [Bool.true_or] at both

private theorem prints_then {m : Printer} {s t : Bytes} {ps : List Printer} (shown : ∃ e, Prints size m s e)
    (more : ∃ e, Prints size (all ps) t e) : ∃ e, Prints size (all (m::ps)) (s ++ t) e := by
  obtain ⟨e,shown⟩ := shown
  obtain ⟨e',more⟩ := more
  exact ⟨_,prints_andThen shown more⟩

private theorem prints_end : ∃ e, Prints size (all []) [] e := ⟨false,prints_nothing size⟩

private theorem prints_serializeStringTo (s : Bytes) : Prints size (serializeStringTo s) (serializeString s) true := by
  have chars : ∃ e, Prints size (all (s.map serializeChar)) (s.flatMap escape) e :=
    prints_all s serializeChar escape (fun c _ => prints_serializeChar c)
  rw [serializeString,List.append_assoc]
  exact prints_more ⟨true,prints_appendString _⟩ (prints_last _ _ _ chars)

/-- What the bodies print, laid out as the serializer lays them out. -/
def layout (pretty : Bool) (level : Nat) : List Bytes → Bytes
  | [] => []
  | s::rest => (if pretty then indent (level + 1) else []) ++ (s ++ ((if !rest.isEmpty then [44] else []) ++
      ((if pretty then [10] else []) ++ layout pretty level rest)))

private theorem prints_elementsTo {α : Type} (pretty : Bool) (level : Nat) (xs : List α) (body : α → Printer)
    (printed : α → Bytes) (each : ∀ x ∈ xs, ∃ e, Prints size (body x) (printed x) e) :
    ∃ e, Prints size (elementsTo pretty level (xs.map body)) (layout pretty level (xs.map printed)) e := by
  induction xs with
  | nil => exact ⟨false,prints_nothing size⟩
  | cons x xs ih =>
    obtain ⟨first,others⟩ := List.forall_mem_cons.mp each
    have last := prints_then (ih others) prints_end
    rw [List.append_nil] at last
    have comma : ((xs.map body).isEmpty) = (xs.map printed).isEmpty := by simp
    rw [List.map_cons,List.map_cons,elementsTo,layout,comma]
    apply prints_then
    · obtain ⟨e,shown⟩ : ∃ e, Prints size (appendIndent (level + 1)) (indent (level + 1)) e := prints_appendIndent _
      exact prints_if pretty shown
    apply prints_then first
    apply prints_then (prints_if _ (prints_appendString _))
    exact prints_then (prints_if _ (prints_appendString _)) last

private theorem prints_container (pretty : Bool) (level : Nat) (some' : Bool) (left right : UInt8) (m : Printer) (s : Bytes)
    (shown : ∃ e, Prints size m s e) :
    Prints size (all [appendString [left],if some' && pretty then appendString [10] else nothing,m,
      if some' && pretty then appendIndent level else nothing,appendString [right]])
      ([left] ++ ((if some' && pretty then [10] else []) ++ (s ++ ((if some' && pretty then indent level else []) ++
        [right])))) true := by
  obtain ⟨e,inner⟩ : ∃ e, Prints size (appendIndent level) (indent level) e := prints_appendIndent level
  have last := prints_last _ _ [right] (prints_if (some' && pretty) inner)
  apply prints_more ⟨true,prints_appendString _⟩
  exact prints_more (prints_if _ (prints_appendString _)) (prints_more shown last)

end

private theorem serializeItems_layout (pretty : Bool) (level : Nat) (items : List Json) :
    serializeItems pretty level items = layout pretty level (items.map (serialize pretty (level + 1))) := by
  induction items with
  | nil => rfl
  | cons item items ih =>
    rw [serializeItems,List.map_cons,layout,ih]
    cases items <;> simp

private theorem serializeMembers_layout (pretty : Bool) (level : Nat) (members : List (Bytes × Json)) :
    serializeMembers pretty level members = layout pretty level (members.map (fun m =>
      serializeString m.1 ++ ([58] ++ ((if pretty then [32] else []) ++ serialize pretty (level + 1) m.2)))) := by
  induction members with
  | nil => rfl
  | cons m members ih =>
    obtain ⟨name,value⟩ := m
    rw [serializeMembers,List.map_cons,layout,ih]
    cases members <;> simp

/-- The serializer prints its text, and counts it with the numbers inside their array. -/
private theorem prints_serializeTo (pretty : Bool) (v : Json) (held : Held v) (level : Nat) :
    Prints numBufSize (serializeTo pretty level v) (serialize pretty level v) true := by
  induction held generalizing level with
  | null =>
    rw [serializeTo,serialize]
    exact prints_appendString _
  | boolean b =>
    rw [serializeTo,serialize]
    cases b <;> exact prints_appendString _
  | number x double =>
    rw [serializeTo,serialize]
    apply prints_scratch
    have := showG17_length x double
    rw [numBufSize]
    omega
  | string s =>
    rw [serializeTo,serialize]
    exact prints_serializeStringTo s
  | array items inner ih =>
    have bodies := prints_elementsTo pretty level items (serializeTo pretty (level + 1)) (serialize pretty (level + 1))
      fun v member => ⟨true,ih v member (level + 1)⟩
    have whole := prints_container pretty level (!items.isEmpty) 91 93 _ _ bodies
    have same : serialize pretty level (.array items) = [91] ++ ((if !items.isEmpty && pretty then [10] else []) ++
        (layout pretty level (items.map (serialize pretty (level + 1))) ++
          ((if !items.isEmpty && pretty then indent level else []) ++ [93]))) := by
      rw [← serializeItems_layout]
      cases items with
      | nil => rfl
      | cons item items => simp [serialize]
    rw [serializeTo,same,List.attach_map_val]
    exact whole
  | object members own inner ih =>
    have bodies := prints_elementsTo pretty level members (fun m => all [serializeStringTo m.1,appendString [58],
        if pretty then appendString [32] else nothing,
        match _found : getValue members m.1 with
        | some value => serializeTo pretty (level + 1) value
        | none => nothing])
      (fun m => serializeString m.1 ++ ([58] ++ ((if pretty then [32] else []) ++ serialize pretty (level + 1) m.2))) (by
        intro m member
        have last := prints_then ⟨true,ih m member (level + 1)⟩ prints_end
        have here := getValue_member members own m member
        rw [List.append_nil] at last
        apply prints_then ⟨true,prints_serializeStringTo m.1⟩
        apply prints_then ⟨true,prints_appendString _⟩
        apply prints_then (prints_if pretty (prints_appendString _))
        split
        case h_2 missing => cases missing.symm.trans here
        case h_1 value found =>
        obtain rfl := Option.some.inj (here.symm.trans found)
        exact last)
    have whole := prints_container pretty level (!members.isEmpty) 123 125 _ _ bodies
    have same : serialize pretty level (.object members) = [123] ++ ((if !members.isEmpty && pretty then [10] else []) ++
        (serializeMembers pretty level members ++ ((if !members.isEmpty && pretty then indent level else []) ++ [125]))) := by
      cases members with
      | nil => rfl
      | cons m members => simp [serialize]
    rw [serializeTo,same,serializeMembers_layout]
    exact whole

/-- The size is one more than the text is long, and finding it stays inside the array for numbers. -/
private theorem serializationSize_spec (pretty : Bool) (v : Json) (held : Held v) (stack : Mem UInt8) :
    (serializationSize pretty v stack).value = (int (serialize pretty 0 v).length).map (· + 1) ∧
    Below numBufSize (serializationSize pretty v stack).events := by
  obtain ⟨count,small⟩ := (prints_serializeTo pretty v held 0).counted stack
  rw [serializationSize,bind_run]
  exact ⟨congrArg (Option.map (· + 1)) count,by simpa using small⟩

private theorem serializationSize_short (pretty : Bool) (v : Json) (held : Held v) (stack : Mem UInt8)
    (short : (serialize pretty 0 v).length < 2^31) :
    (serializationSize pretty v stack).value = some ((serialize pretty 0 v).length + 1) := by
  rw [(serializationSize_spec pretty v held stack).1,int_small short,Option.map_some]

/-- A buffer that is too small is not touched. -/
private theorem serializeToBuffer_small (pretty : Bool) (v : Json) (held : Held v) (stack buffer : Mem UInt8) (bufSize : Nat)
    (short : (serialize pretty 0 v).length < 2^31) (small : bufSize ≤ (serialize pretty 0 v).length) :
    serializeToBuffer pretty v stack bufSize buffer = ⟨some false,buffer,[]⟩ := by
  rw [serializeToBuffer,serializationSize_short pretty v held stack short]
  simp only
  rw [if_pos (.inr (Nat.lt_succ_of_le small))]
  rfl

/-- Into any other goes the text with its terminator, and nothing behind that. -/
private theorem serializeToBuffer_fits (pretty : Bool) (v : Json) (held : Held v) (stack buffer : Mem UInt8) (bufSize : Nat)
    (short : (serialize pretty 0 v).length < 2^31) (fits : (serialize pretty 0 v).length < bufSize) :
    (serializeToBuffer pretty v stack bufSize buffer).value = some true ∧
      (serializeToBuffer pretty v stack bufSize buffer).state = overlay buffer 0 (serialize pretty 0 v ++ [0]) ∧
      Below ((serialize pretty 0 v).length + 1) (serializeToBuffer pretty v stack bufSize buffer).events := by
  obtain ⟨count,left,stored⟩ := (prints_serializeTo pretty v held 0).written short 0 buffer
  have enough : ¬ ((serialize pretty 0 v).length + 1 = 0 ∨ bufSize < (serialize pretty 0 v).length + 1) := by omega
  rw [serializeToBuffer,serializationSize_short pretty v held stack short]
  simp only
  rw [if_neg enough,bind_run]
  refine ⟨congrArg (Option.map (fun _ => true)) count,left,?_⟩
  intro access member
  rw [Outcome.after_events,pure_run,List.append_nil] at member
  obtain ⟨i,inside,rfl⟩ := stored access member
  rw [closing,if_pos rfl,List.length_append,List.length_singleton] at inside
  rw [Access.store_index,Nat.zero_add]
  exact inside

/-- The size is found exactly where the print is shorter than 2^31 bytes. There the string handed
out is the text in an allocation that it fills to the last byte, and no smaller buffer is written to. -/
theorem serializeToString_exact (pretty : Bool) (v : Json) (held : Held v) (stack : Nat → Mem UInt8)
    (malloc : Nat → Option (Mem UInt8)) :
    let size := (serialize pretty 0 v).length + 1
    (∀ n, (serializationSize pretty v (stack n)).value = if size ≤ 2^31 then some size else none) ∧
    (size ≤ 2^31 → (∀ n, Below numBufSize (serializationSize pretty v (stack n)).events) ∧
      (∀ bufSize buffer, bufSize < size → serializeToBuffer pretty v (stack 0) bufSize buffer = ⟨some false,buffer,[]⟩) ∧
      (malloc size = none → serializeToString pretty v stack malloc = some none) ∧
      ∀ buffer, malloc size = some buffer → ∃ written,
        serializeToString pretty v stack malloc = some (some (size,written)) ∧
        written.state = overlay buffer 0 (serialize pretty 0 v ++ [0]) ∧ Below size written.events) := by
  intro size
  refine ⟨fun n => ?_,fun fits => ?_⟩
  · rw [(serializationSize_spec pretty v held (stack n)).1,int]
    by_cases short : (serialize pretty 0 v).length < 2^31
    · rw [if_pos short,if_pos (Nat.succ_le_of_lt short),Option.map_some]
    · rw [if_neg short,if_neg (fun fits => short (Nat.lt_of_succ_le fits)),Option.map_none]
  have short : (serialize pretty 0 v).length < 2^31 := Nat.lt_of_succ_le fits
  have sized : (serializationSize pretty v (stack 0)).value = some size := serializationSize_short pretty v held (stack 0) short
  have some' : ¬ size = 0 := Nat.succ_ne_zero _
  refine ⟨fun n => (serializationSize_spec pretty v held (stack n)).2,
    fun bufSize buffer small => serializeToBuffer_small pretty v held (stack 0) buffer bufSize short (Nat.le_of_lt_succ small),
    fun refused => ?_,fun buffer given => ?_⟩
  · rw [serializeToString,sized]
    simp only [Option.bind_eq_bind,Option.bind_some,if_neg some',refused]
    rfl
  · obtain ⟨success,left,below⟩ := serializeToBuffer_fits pretty v held (stack 1) buffer size short (Nat.lt_succ_self _)
    refine ⟨_,?_,left,below⟩
    rw [serializeToString,sized]
    simp only [Option.bind_eq_bind,Option.bind_some,if_neg some',given,success]
    rfl

theorem serializeToString_exact_half : ∃ written, serializeToString false (.array [.number (1 / 2),.string [10]])
    (fun _ _ => 1) (fun _ => some (fun _ => 2)) = some (some (11,written)) ∧
    written.state = overlay (fun _ => 2) 0 (bytes "[0.5,\"\\n\"]" ++ [0]) ∧ Below 11 written.events := by
  have held : Held (.array [.number (1 / 2),.string [10]]) := by
    apply Held.array
    simp only [List.forall_mem_cons]
    exact ⟨.number _ normal_half.1,.string _,nofun⟩
  have text : serialize false 0 (.array [.number (1 / 2),.string [10]]) = bytes "[0.5,\"\\n\"]" := by decide +kernel
  have length : (serialize false 0 (.array [.number (1 / 2),.string [10]])).length + 1 = 11 := by rw [text]; decide
  have exact := ((serializeToString_exact false _ held (fun _ _ => 1) (fun _ => some (fun _ => 2))).2
    (by rw [length]; decide)).2.2.2 _ rfl
  rwa [length,text] at exact

end Jbdtool.Json
