import Jbdtool.Base.Strings
import Jbdtool.Bits

/-! `_addstr` on the array that it appends to: what is in the array after any calls, and which
elements are dropped. -/
namespace Jbdtool.AddStr
open CString Traced Mem

/-- What an int holds of a size_t or of a sum. -/
def asInt (n : Int) : Int := n.bmod 4294967296

def intMax : Nat := 2147483647

/-- Separator, optional quotes, the string itself and the null. -/
def need (fmt : Fmt) (len : Int) (newstr : Bytes) : Int :=
  asInt ((if len ≠ 0 then fmt.sepstr.length else 0 : Nat) + newstr.length + (if fmt.outfmt = .json then 2 else 0) + 1)

def append (fmt : Fmt) (size : Nat) (len : Int) (newstr : Bytes) : Traced (Mem UInt8) Access Unit := do
  strcatIf (len ≠ 0) size fmt.sepstr
  strcatIf (fmt.outfmt = .json) size [34]
  strcat size newstr
  strcatIf (fmt.outfmt = .json) size [34]

/-- `_addstr` -/
def addstr (fmt : Fmt) (size : Nat) (newstr : Bytes) : Traced (Mem UInt8) Access Unit := do
  let len := asInt (← readString size).length
  if asInt (len + need fmt len newstr) > size then pure () else append fmt size len newstr

def addstrs (fmt : Fmt) (size : Nat) : List Bytes → Traced (Mem UInt8) Access Unit
  | [] => pure ()
  | newstr::rest => do
    addstr fmt size newstr
    addstrs fmt size rest

def listed (fmt : Fmt) (elements : List Bytes) : Bytes := joined fmt.sepstr (elements.map (shown fmt))

/-- An element is accepted if there is room for it whole, with what goes with it, and for the
terminator. -/
def accept (fmt : Fmt) (size : Nat) (done : List Bytes) (newstr : Bytes) : List Bytes :=
  if (listed fmt (done ++ [newstr])).length + 1 > size then done else done ++ [newstr]

def accepted (fmt : Fmt) (size : Nat) (calls : List Bytes) : List Bytes := calls.foldl (accept fmt size) []

section
variable {fmt : Fmt} {size : Nat} {buffer : Mem UInt8} {str newstr : Bytes}

def added (fmt : Fmt) (str newstr : Bytes) : Bytes :=
  str ++ ((if str.length ≠ 0 then fmt.sepstr else []) ++ shown fmt newstr)

private theorem asInt_small (n : Nat) (small : n ≤ intMax) : asInt n = n := by
  unfold intMax at small
  exact Int.bmod_eq_of_le_mul_two (by omega) (by omega)

private theorem added_length (fmt : Fmt) (str newstr : Bytes) : (added fmt str newstr).length =
    str.length + ((if str.length ≠ 0 then fmt.sepstr.length else 0) + (shown fmt newstr).length) := by
  have gap : (if str.length ≠ 0 then fmt.sepstr else []).length = if str.length ≠ 0 then fmt.sepstr.length else 0 := by
    split_ifs <;> rfl
  rw [added,List.length_append,List.length_append,gap]

private theorem need_added (ints : (added fmt str newstr).length < intMax) :
    asInt (str.length + need fmt str.length newstr) = ((added fmt str newstr).length + 1 : Nat) := by
  have length := added_length fmt str newstr
  have first : (str.length : Int) ≠ 0 ↔ str.length ≠ 0 := by omega
  have needed : need fmt str.length newstr = asInt
      (((if str.length ≠ 0 then fmt.sepstr.length else 0) + (shown fmt newstr).length + 1 : Nat) : Int) := by
    rw [need,shown_length]
    simp only [first]
    congr 1
    split_ifs <;> omega
  rw [needed,asInt_small _ (by omega),← Int.natCast_add,asInt_small _ (by omega),length]
  congr 1

private theorem appends_append (len : Int) (clean : 0 ∉ newstr) (separator : 0 ∉ fmt.sepstr) :
    Appends size ((if len ≠ 0 then fmt.sepstr else []) ++ shown fmt newstr) (append fmt size len newstr) := by
  have mark : Appends size (if fmt.outfmt = .json then [34] else []) (strcatIf (fmt.outfmt = .json) size [34]) :=
    appends_strcatIf _ (by decide)
  have parts : shown fmt newstr = (if fmt.outfmt = .json then [34] else []) ++ (newstr ++ if fmt.outfmt = .json then [34] else []) := by
    unfold shown
    split_ifs <;> simp [quote]
  rw [parts]
  exact appends_bind (appends_strcatIf _ separator) (appends_bind mark (appends_bind (appends_strcat clean) mark))

/-- Where the length is an int, the element is dropped or written whole. -/
private theorem addstr_text (held : stringIn size buffer = str) (short : str.length < size) (clean : 0 ∉ newstr)
    (separator : 0 ∉ fmt.sepstr) (ints : (added fmt str newstr).length < intMax) :
    Below size (addstr fmt size newstr buffer).events ∧ stringIn size (addstr fmt size newstr buffer).state =
      if (added fmt str newstr).length + 1 > size then str else added fmt str newstr := by
  have loads : Below size (readString size buffer).events := by rwa [below_read,held]
  have length := added_length fmt str newstr
  have len : asInt (stringIn size buffer).length = str.length := by
    rw [held]
    exact asInt_small _ (by omega)
  have run : addstr fmt size newstr buffer =
      ((if asInt (asInt (stringIn size buffer).length + need fmt (asInt (stringIn size buffer).length) newstr) > size then pure ()
        else append fmt size (asInt (stringIn size buffer).length) newstr : Traced (Mem UInt8) Access Unit) buffer).after
          (readString size buffer).events := rfl
  rw [run,len,need_added ints,Outcome.after_events,Outcome.after_state,below_append]
  by_cases full : (added fmt str newstr).length + 1 > size
  · rw [if_pos (Int.ofNat_lt.mpr full),if_pos full]
    exact ⟨⟨loads,below_nil size⟩,held⟩
  · have appended := @appends_append fmt size newstr str.length clean separator buffer
    have first : (str.length : Int) ≠ 0 ↔ str.length ≠ 0 := Int.natCast_ne_zero
    simp only [first] at appended
    rw [held] at appended
    obtain ⟨below,text⟩ := appended (Nat.succ_le_iff.mp (Nat.not_lt.mp full))
    rw [if_neg (mt Int.ofNat_lt.mp full),if_neg full]
    exact ⟨⟨loads,below⟩,text⟩

variable {calls : List Bytes}

/-- Every call comes to a length, with the element whole and the terminator, that is an int. -/
def IntLengths (fmt : Fmt) (size : Nat) (calls : List Bytes) : Prop :=
  ∀ before newstr after, calls = before ++ newstr::after →
    (listed fmt (accepted fmt size before ++ [newstr])).length + 1 ≤ intMax

private theorem addstrs_append (fmt : Fmt) (size : Nat) (before after : List Bytes) :
    addstrs fmt size (before ++ after) = addstrs fmt size before >>= fun _ => addstrs fmt size after := by
  induction before with
  | nil => rfl
  | cons newstr before ih => rw [List.cons_append,addstrs,addstrs,ih,bind_assoc]

private theorem addstrs_snoc (fmt : Fmt) (size : Nat) (calls : List Bytes) (newstr : Bytes) (buffer : Mem UInt8) :
    addstrs fmt size (calls ++ [newstr]) buffer =
      (addstr fmt size newstr (addstrs fmt size calls buffer).state).after (addstrs fmt size calls buffer).events := by
  have single : addstrs fmt size [newstr] = addstr fmt size newstr := by rw [addstrs,addstrs,bind_pure_unit]
  rw [addstrs_append,single,bind_run]

private theorem accepted_snoc (fmt : Fmt) (size : Nat) (calls : List Bytes) (newstr : Bytes) :
    accepted fmt size (calls ++ [newstr]) = accept fmt size (accepted fmt size calls) newstr := by
  rw [accepted,List.foldl_append]
  rfl

private theorem accepted_sublist (fmt : Fmt) (size : Nat) (calls : List Bytes) : (accepted fmt size calls).Sublist calls := by
  induction calls using List.reverseRecOn with
  | nil => exact .slnil
  | append_singleton calls newstr ih =>
    rw [accepted_snoc,accept]
    split_ifs
    · exact ih.trans (List.sublist_append_left _ _)
    · exact ih.append (List.Sublist.refl _)

private theorem added_listed (fmt : Fmt) {done : List Bytes} (nonempty : ∀ s ∈ done, s ≠ []) (newstr : Bytes) :
    added fmt (listed fmt done) newstr = listed fmt (done ++ [newstr]) := by
  have visible : ∀ s ∈ done.map (shown fmt), s ≠ [] := by
    intro s member
    obtain ⟨element,inside,rfl⟩ := List.mem_map.mp member
    unfold shown
    split_ifs
    · simp [quote]
    · exact nonempty element inside
  rw [listed,listed,List.map_append,List.map_singleton,joined_snoc fmt.sepstr _ _ visible,added,List.append_assoc]

private theorem addstrs_text (strings : ∀ s ∈ calls, s ≠ [] ∧ 0 ∉ s) (separator : 0 ∉ fmt.sepstr) (some : 0 < size)
    (ints : IntLengths fmt size calls) (empty : buffer 0 = 0) :
    Below size (addstrs fmt size calls buffer).events ∧ (listed fmt (accepted fmt size calls)).length < size ∧
      stringIn size (addstrs fmt size calls buffer).state = listed fmt (accepted fmt size calls) := by
  induction calls using List.reverseRecOn with
  | nil => exact ⟨below_nil size,some,stringIn_stringAt some (stringAt_nil.mpr empty)⟩
  | append_singleton calls newstr ih =>
    obtain ⟨earlier,last⟩ := List.forall_mem_append.mp strings
    obtain ⟨below,short,held⟩ := ih earlier fun before s after same =>
      ints before s (after ++ [newstr]) (by rw [same,List.append_assoc,List.cons_append])
    have nonempty : ∀ s ∈ accepted fmt size calls, s ≠ [] := fun s member =>
      (earlier s ((accepted_sublist fmt size calls).subset member)).1
    have here := ints calls newstr [] rfl
    have step := addstr_text held short (last newstr List.mem_cons_self).2 separator
      (by rw [added_listed fmt nonempty]; omega)
    rw [added_listed fmt nonempty] at step
    obtain ⟨below',text⟩ := step
    rw [addstrs_snoc,accepted_snoc,accept,Outcome.after_events,Outcome.after_state,below_append,text]
    refine ⟨⟨below,below'⟩,?_,?_⟩
    · split_ifs with full
      · exact short
      · omega
    · split_ifs <;> rfl

private theorem intLengths_together (short : (listed fmt calls).length < intMax) : IntLengths fmt size calls := by
  rintro before newstr after rfl
  have front : (before ++ [newstr]).Sublist (before ++ newstr::after) :=
    (List.Sublist.refl before).append (List.singleton_sublist.mpr List.mem_cons_self)
  have part := ((accepted_sublist fmt size before).append (List.Sublist.refl [newstr])).trans front
  have less := joined_sublist fmt.sepstr (part.map (shown fmt))
  unfold listed at short ⊢
  omega

private theorem intLengths_front {before after : List Bytes} (ints : IntLengths fmt size (before ++ after)) :
    IntLengths fmt size before :=
  fun first newstr rest same => ints first newstr (rest ++ after) (by rw [same,List.append_assoc,List.cons_append])

/-- The array is not left, it holds the accepted elements, and a call drops its element exactly
where there is no room for it. -/
theorem addstrs_bounded (fmt : Fmt) (size : Nat) (calls : List Bytes) (buffer : Mem UInt8) (some : 0 < size)
    (strings : ∀ s ∈ calls, s ≠ [] ∧ 0 ∉ s) (separator : 0 ∉ fmt.sepstr) (empty : buffer 0 = 0)
    (ints : IntLengths fmt size calls) :
    Below size (addstrs fmt size calls buffer).events ∧
      (stringIn size (addstrs fmt size calls buffer).state).length < size ∧
      stringIn size (addstrs fmt size calls buffer).state = listed fmt (accepted fmt size calls) ∧
      ∀ before newstr after, calls = before ++ newstr::after →
        (stringIn size (addstrs fmt size (before ++ [newstr]) buffer).state = stringIn size (addstrs fmt size before buffer).state ↔
          (listed fmt (accepted fmt size before ++ [newstr])).length + 1 > size) := by
  obtain ⟨below,short,held⟩ := addstrs_text strings separator some ints empty
  refine ⟨below,held.symm ▸ short,held,?_⟩
  rintro before newstr after rfl
  have split : before ++ newstr::after = before ++ [newstr] ++ after := by simp
  rw [split] at strings ints
  have strings' := (List.forall_mem_append.mp strings).1
  have earlier := (List.forall_mem_append.mp strings').1
  have ints' := intLengths_front ints
  obtain ⟨-,-,first⟩ := addstrs_text earlier separator some (intLengths_front ints') empty
  obtain ⟨-,-,second⟩ := addstrs_text strings' separator some ints' empty
  have nonempty : ∀ s ∈ accepted fmt size before, s ≠ [] := fun s member =>
    (earlier s ((accepted_sublist fmt size before).subset member)).1
  have longer : (listed fmt (accepted fmt size before)).length < (listed fmt (accepted fmt size before ++ [newstr])).length := by
    have visible := List.length_pos_of_ne_nil (strings' newstr (List.mem_append_right _ List.mem_cons_self)).1
    rw [← added_listed fmt nonempty,added_length,shown_length]
    omega
  rw [first,second,accepted_snoc,accept]
  split_ifs with full
  · exact iff_of_true rfl full
  · exact iff_of_false (fun same => longer.ne' (congrArg List.length same)) full

end

/-- Of three elements two fit into twelve bytes. -/
theorem addstrs_bounded_quoted : stringIn 12 (addstrs ⟨.json,44,[44],false,false⟩ 12 [bytes "ab",bytes "cd",bytes "ef"]
    (fun _ => 0)).state = bytes "\"ab\",\"cd\"" := by
  have bounded := addstrs_bounded ⟨.json,44,[44],false,false⟩ 12 [bytes "ab",bytes "cd",bytes "ef"] (fun _ => 0) (by decide)
    (by decide +kernel) (by decide) rfl (intLengths_together (by decide +kernel))
  rw [bounded.2.2.1]
  decide +kernel

private theorem display_addstr (fmt : Fmt) (size : Nat) (str newstr : Bytes) : Jbdtool.addstr fmt size str newstr =
    if (added fmt str newstr).length + 1 > size then str else added fmt str newstr := by
  have written : str ++ (if str.length ≠ 0 then fmt.sepstr else []) ++ shown fmt newstr = added fmt str newstr :=
    List.append_assoc _ _ _
  have test : str.length + ((if str.length ≠ 0 then fmt.sepstr.length else 0) + newstr.length +
      (if fmt.outfmt = .json then 2 else 0) + 1) = (added fmt str newstr).length + 1 := by
    rw [added_length,shown_length]
    omega
  have same : Jbdtool.addstr fmt size str newstr =
      if str.length + ((if str.length ≠ 0 then fmt.sepstr.length else 0) + newstr.length +
        (if fmt.outfmt = .json then 2 else 0) + 1) > size then str
      else str ++ (if str.length ≠ 0 then fmt.sepstr else []) ++ shown fmt newstr := rfl
  rw [same,test,written]

private theorem display_accepted (fmt : Fmt) (size : Nat) {calls : List Bytes} (nonempty : ∀ s ∈ calls, s ≠ []) :
    calls.foldl (Jbdtool.addstr fmt size) [] = listed fmt (accepted fmt size calls) := by
  induction calls using List.reverseRecOn with
  | nil => rfl
  | append_singleton calls newstr ih =>
    have earlier := (List.forall_mem_append.mp nonempty).1
    have visible : ∀ s ∈ accepted fmt size calls, s ≠ [] := fun s member =>
      earlier s ((accepted_sublist fmt size calls).subset member)
    rw [List.foldl_append,List.foldl_cons,List.foldl_nil,ih earlier,display_addstr,added_listed fmt visible,accepted_snoc,accept]
    split_ifs <;> rfl

/-- The names that pdisp collects, in its array of 192 bytes. -/
theorem bitList_array (fmt : Fmt) (bits : List JbdBit) (val : UInt16) (buffer : Mem UInt8)
    (strings : ∀ bp ∈ bits, bp.label ≠ [] ∧ 0 ∉ bp.label) (separator : 0 ∉ fmt.sepstr)
    (ints : IntLengths fmt 192 ((setBits bits val).map JbdBit.label)) (empty : buffer 0 = 0) :
    Below 192 (addstrs fmt 192 ((setBits bits val).map JbdBit.label) buffer).events ∧
      stringIn 192 (addstrs fmt 192 ((setBits bits val).map JbdBit.label) buffer).state = bitList fmt bits val := by
  have labels : ∀ s ∈ (setBits bits val).map JbdBit.label, s ≠ [] ∧ 0 ∉ s := by
    intro s member
    obtain ⟨bp,set,rfl⟩ := List.mem_map.mp member
    exact strings bp (List.mem_of_mem_filter set)
  obtain ⟨below,-,held⟩ := addstrs_text labels separator (by decide) ints empty
  refine ⟨below,held.trans ?_⟩
  have collected := display_accepted fmt 192 fun s member => (labels s member).1
  rw [List.foldl_map,setBits,List.foldl_filter] at collected
  simpa [bitList,setBits] using collected.symm

def textFmt : Fmt := ⟨.text,44,[44],false,false⟩

/-- The int that such a length is put into is negative. -/
private theorem addstrs_wrapped {newstr : Bytes} (long : newstr.length = 2147483647) :
    ¬ Below 1 (addstrs textFmt 1 [newstr] (fun _ => 0)).events := by
  have negative : ¬ asInt (asInt 0 + need textFmt (asInt 0) newstr) > 1 := by
    unfold need
    rw [long]
    decide
  have bare : append textFmt 1 (asInt 0) newstr = strcat 1 newstr := by
    have first : ¬ asInt 0 ≠ 0 := by decide
    have unquoted : ¬ textFmt.outfmt = .json := by decide
    rw [append,strcatIf,strcatIf,if_neg first,if_neg unquoted,pure_bind,pure_bind,bind_pure_unit]
  have run : addstrs textFmt 1 [newstr] (fun _ => 0) =
      ((if asInt (asInt 0 + need textFmt (asInt 0) newstr) > 1 then pure ()
        else append textFmt 1 (asInt 0) newstr : Traced (Mem UInt8) Access Unit) (fun _ => 0)).after
          (readString 1 (fun _ => 0)).events := by
    rw [addstrs,addstrs,bind_pure_unit]
    rfl
  rw [run,if_neg negative,bare,Outcome.after_events,below_append,below_strcat,List.length_append,long]
  omega

theorem addstrs_unbounded : ¬ ∀ (fmt : Fmt) (size : Nat) (calls : List Bytes) (buffer : Mem UInt8), 0 < size →
    (∀ s ∈ calls, s ≠ [] ∧ 0 ∉ s) → 0 ∉ fmt.sepstr → buffer 0 = 0 → Below size (addstrs fmt size calls buffer).events := by
  intro bounded
  have long : (List.replicate 2147483647 (97 : UInt8)).length = 2147483647 := List.length_replicate
  refine addstrs_wrapped long (bounded textFmt 1 _ (fun _ => 0) Nat.zero_lt_one ?_ (by decide) rfl)
  intro s member
  rw [List.mem_singleton.mp member]
  refine ⟨List.ne_nil_of_length_pos (by omega),fun inside => ?_⟩
  exact absurd (List.eq_of_mem_replicate inside) (by decide)

end Jbdtool.AddStr
