import Jbdtool.Names
import Jbdtool.Options

/-! The lists that pdisp writes into the document, after any sequence of the options that
choose the form of the output. -/
namespace Jbdtool
open CString Numbers Json

def formOptions : List Char := ['c','j','J','F','o']

private theorem setOption_form (s s' : Settings) (option : Char) (optarg : Bytes) (form : option ∈ formOptions)
    (taken : setOption s option optarg = .ok s') :
    s'.dontInterpret = s.dontInterpret ∧ s'.sepstr = if option = 'c' then [32] else s.sepstr := by
  have cases : option = 'c' ∨ option = 'j' ∨ option = 'J' ∨ option = 'F' ∨ option = 'o' := by
    simpa [formOptions] using form
  rcases cases with rfl | rfl | rfl | rfl | rfl
  all_goals
    obtain rfl := Except.ok.inj taken
    exact ⟨rfl,rfl⟩

/-- Once `-c` was given its separator stays; nothing else touches it. -/
private theorem setOptions_form (options : List (Char × Bytes)) (s s' : Settings) (form : ∀ o ∈ options, o.1 ∈ formOptions)
    (taken : setOptions options s = .ok s') :
    s'.dontInterpret = s.dontInterpret ∧ s'.sepstr = if 'c' ∈ options.map Prod.fst then [32] else s.sepstr := by
  induction options generalizing s with
  | nil =>
    obtain rfl := Except.ok.inj taken
    exact ⟨rfl,rfl⟩
  | cons o options ih =>
    obtain ⟨here,others⟩ := List.forall_mem_cons.mp form
    unfold setOptions at taken
    cases first : setOption s o.1 o.2 with
    | error refused =>
      rw [first] at taken
      cases taken
    | ok next =>
      rw [first] at taken
      obtain ⟨plain,separator⟩ := setOption_form s next o.1 o.2 here first
      obtain ⟨plains,separators⟩ := ih next others taken
      have named : 'c' ∈ (o::options).map Prod.fst ↔ 'c' = o.1 ∨ 'c' ∈ options.map Prod.fst := by simp
      refine ⟨plains.trans plain,?_⟩
      rw [separators,separator]
      by_cases later : 'c' ∈ options.map Prod.fst
      · rw [if_pos later,if_pos (named.mpr (.inr later))]
      rw [if_neg later]
      by_cases comma : 'c' = o.1
      · rw [if_pos comma.symm,if_pos (named.mpr (.inl comma))]
      · have never : 'c' ∉ (o::options).map Prod.fst := by
          rw [named]
          exact fun either => either.elim comma later
        rw [if_neg (Ne.symm comma),if_neg never]

private theorem output_form (s : Settings) : s.output.dontInterpret = s.dontInterpret ∧ s.output.sepstr = s.sepstr := by
  unfold Settings.output
  split
  · split_ifs <;> exact ⟨rfl,rfl⟩
  · exact ⟨rfl,rfl⟩

/-- The labels of the bits that are set, or the three forms of the number. -/
def listElements (dt : ParmDt) (data : Bytes) : List Bytes :=
  let short := getshort (data.getD 0 0) (data.getD 1 0)
  match dt with
  | .func => (setBits funcBits (UInt16.ofInt short)).map JbdBit.label
  | .ntc => (setBits ntcBits (UInt16.ofInt short)).map JbdBit.label
  | .dump => [showInt short,showNat (short % 65536).toNat,showHex 4 (short % 65536).toNat]
  | _ => []

def listRows : List ParmDt := [.func,.ntc,.dump]

private theorem toDigits_shown (base n : Nat) (several : 1 < base) :
    ∀ c ∈ Nat.toDigits base n, ∃ d < base, c = Nat.digitChar d := by
  induction n using Nat.strong_induction_on with
  | _ n ih =>
    intro c member
    rw [Nat.toDigits_eq_if several] at member
    split_ifs at member with small
    · exact ⟨n,small,List.mem_singleton.mp member⟩
    · have less : n / base < n := Nat.div_lt_self (by omega) several
      rcases List.mem_append.mp member with front | last
      · exact ih (n / base) less c front
      · exact ⟨n % base,Nat.mod_lt _ (by omega),List.mem_singleton.mp last⟩

private theorem verbatim_digits (base n : Nat) (several : 1 < base) (small : base ≤ 16) :
    Verbatim ((Nat.toDigits base n).map (fun c => c.toNat.toUInt8)) := by
  have each : ∀ d < 16, escape (Nat.digitChar d).toNat.toUInt8 = [(Nat.digitChar d).toNat.toUInt8] ∧
      (Nat.digitChar d).toNat.toUInt8 ≠ 0 := by decide
  intro c member
  obtain ⟨digit,inside,rfl⟩ := List.mem_map.mp member
  obtain ⟨d,bound,rfl⟩ := toDigits_shown base n several digit inside
  exact each d (by omega)

private theorem verbatim_append {first second : Bytes} (one : Verbatim first) (two : Verbatim second) :
    Verbatim (first ++ second) := by
  intro c member
  rcases List.mem_append.mp member with front | back
  · exact one c front
  · exact two c back

private theorem verbatim_numbers (n : Int) (m : Nat) :
    Verbatim (showInt n) ∧ Verbatim (showNat m) ∧ Verbatim (showHex 4 m) := by
  have decimal (m : Nat) : Verbatim (showNat m) := verbatim_digits 10 m (by decide) (by decide)
  have minus : Verbatim [45] := by
    intro c member
    rw [List.mem_singleton.mp member]
    decide
  refine ⟨?_,decimal m,?_⟩
  · unfold showInt
    split_ifs
    · exact verbatim_append minus (decimal _)
    · exact decimal _
  · apply verbatim_append _ (verbatim_digits 16 m (by decide) (by decide))
    intro c member
    rw [List.eq_of_mem_replicate member]
    decide

private theorem listElements_verbatim (dt : ParmDt) (data : Bytes) : ∀ l ∈ listElements dt data, Verbatim l := by
  have labels (bits : List JbdBit) (named : Named bits) (val : UInt16) :
      ∀ l ∈ (setBits bits val).map JbdBit.label, Verbatim l := by
    intro l member
    obtain ⟨bp,inside,rfl⟩ := List.mem_map.mp member
    exact verbatim_plain (named bp (List.mem_of_mem_filter inside)).1
  cases dt
  case func => exact labels funcBits funcBits_named _
  case ntc => exact labels ntcBits ntcBits_named _
  case dump =>
    have forms := verbatim_numbers (getshort (data.getD 0 0) (data.getD 1 0))
      (getshort (data.getD 0 0) (data.getD 1 0) % 65536).toNat
    exact List.forall_mem_cons.mpr ⟨forms.1,List.forall_mem_cons.mpr ⟨forms.2.1,List.forall_mem_singleton.mpr forms.2.2⟩⟩
  all_goals
    intro l member
    cases member

private theorem dump_lengths (d0 d1 : UInt8) : (showInt (getshort d0 d1)).length ≤ 6 ∧
    (showNat (getshort d0 d1 % 65536).toNat).length ≤ 5 ∧ (showHex 4 (getshort d0 d1 % 65536).toNat).length = 4 := by
  have range : -32768 ≤ getshort d0 d1 ∧ getshort d0 d1 ≤ 32767 := by
    have := d0.toNat_lt
    have := d1.toNat_lt
    rw [getshort,beSigned_eq]
    split_ifs <;> omega
  refine ⟨?_,(showNat_width _ 5 (by decide)).mpr (by omega),?_⟩
  · have digits := (showNat_width (getshort d0 d1).natAbs 5 (by decide)).mpr (by omega)
    unfold showInt
    split_ifs
    · rw [List.length_cons]
      omega
    · omega
  · have digits : (Nat.toDigits 16 (getshort d0 d1 % 65536).toNat).length ≤ 4 :=
      (Nat.length_toDigits_le_iff (by decide) (by decide)).mpr (by omega)
    unfold showHex padLeft
    rw [List.length_append,List.length_replicate,List.length_map]
    omega

private theorem addstr_three (fmt : Fmt) (one two three : Bytes) (json : fmt.outfmt = .json) (narrow : fmt.sepstr.length = 1)
    (fits : one.length + two.length + three.length < 56) :
    addstr fmt 64 (addstr fmt 64 (addstr fmt 64 [] one) two) three = joined fmt.sepstr ([one,two,three].map quote) := by
  have quoted : shown fmt = quote := funext fun label => if_pos json
  have collected := foldl_addstr_joined fmt 64 [one,two,three] []
    (by rw [quoted]; exact quote_nonempty _) (by
      simp only [quoted,List.nil_append,List.map_cons,List.map_nil,joined,List.flatMap_cons,List.flatMap_nil,
        List.length_append,quote,List.length_singleton,List.length_nil,narrow]
      omega)
  rwa [quoted] at collected

private theorem dumpValue_joined (fmt : Fmt) (d0 d1 : UInt8) (json : fmt.outfmt = .json) (narrow : fmt.sepstr.length = 1) :
    dumpValue fmt (getshort d0 d1) = bracketed (joined fmt.sepstr ([showInt (getshort d0 d1),
      showNat (getshort d0 d1 % 65536).toNat,showHex 4 (getshort d0 d1 % 65536).toNat].map quote)) := by
  obtain ⟨first,second,third⟩ := dump_lengths d0 d1
  unfold dumpValue
  rw [← addstr_three fmt _ _ _ json narrow (by omega)]

private theorem pdispValue_joined (fmt : Fmt) (dt : ParmDt) (data : Bytes) (len : Nat) (row : dt ∈ listRows)
    (json : fmt.outfmt = .json) (plain : fmt.dontInterpret = false) (narrow : fmt.sepstr.length = 1) :
    pdispValue fmt dt data len = bracketed (joined fmt.sepstr ((listElements dt data).map quote)) := by
  have quoted : shown fmt = quote := funext fun label => if_pos json
  have bits (table : List JbdBit) (readable : Readable table) (short : Int) : bitsValue fmt table short =
      bracketed (joined fmt.sepstr (((setBits table (UInt16.ofInt short)).map JbdBit.label).map quote)) := by
    unfold bitsValue
    rw [if_neg (by simp [plain]),bitList_joined fmt table _ readable narrow,quoted]
  have cases : dt = .func ∨ dt = .ntc ∨ dt = .dump := by simpa [listRows] using row
  rcases cases with rfl | rfl | rfl
  · exact bits funcBits tables_readable.1 _
  · exact bits ntcBits tables_readable.2 _
  · exact dumpValue_joined fmt _ _ json narrow

private theorem pdisp_setRoot {τ : Type} (fmt : Fmt) (label : Bytes) (dt : ParmDt) (data : Bytes) (len : Nat)
    (row : dt ∈ listRows) (json : fmt.outfmt = .json) (plain : fmt.dontInterpret = false) :
    (pdisp fmt label dt data len : Program τ Unit) = setRoot label (pdispValue fmt dt data len) := by
  have bits (table : List JbdBit) (short : Int) :
      (pdispBits fmt label table short : Program τ Unit) = setRoot label (bitsValue fmt table short) := by
    have interpreted : ¬ fmt.dontInterpret = true := by simp [plain]
    unfold pdispBits bitsValue
    rw [if_neg interpreted,if_neg interpreted]
    exact if_pos json
  have cases : dt = .func ∨ dt = .ntc ∨ dt = .dump := by simpa [listRows] using row
  rcases cases with rfl | rfl | rfl
  · exact bits funcBits _
  · exact bits ntcBits _
  · exact if_pos json

private theorem bracketed_blanks (first second : Bytes) (rest : List Bytes) (verbatim : ∀ l ∈ first::second::rest, Verbatim l) :
    bracketed (joined [32] ((first::second::rest).map quote)) = none := by
  obtain ⟨one,others⟩ := List.forall_mem_cons.mp verbatim
  have denotes := denotes_quote first one
  have clean : 0 ∉ ((second::rest).map quote).flatMap ([32] ++ ·) := by
    simp only [List.mem_flatMap,List.mem_map,not_exists,not_and]
    rintro text ⟨label,member,rfl⟩ zero
    exact (denotes_quote label (others label member)).clean (by simpa using zero)
  have items := bracketed_items (quote first) (((second::rest).map quote).flatMap ([32] ++ ·)) _ denotes clean
  have text : quote first ++ ((second::rest).map quote).flatMap ([32] ++ ·) ++ closing =
      quote first ++ 32::34::(second ++ [34] ++ ((rest.map quote).flatMap ([32] ++ ·) ++ closing)) := by
    simp [quote]
  have next : skipSpaces (32::34::(second ++ [34] ++ ((rest.map quote).flatMap ([32] ++ ·) ++ closing))) =
      34::(second ++ [34] ++ ((rest.map quote).flatMap ([32] ++ ·) ++ closing)) := rfl
  rw [List.map_cons,joined,items,text,parseItems,denotes.read _ 1 32 _ (by decide) (.inr rfl)]
  simp only [next]
  rfl

/-- The list is a JSON array with these elements when they are separated by commas, or
when there is nothing to separate. -/
private theorem bracketed_iff (list : List Bytes) (spaced : Prop) [Decidable spaced] (verbatim : ∀ l ∈ list, Verbatim l) :
    bracketed (joined (if spaced then [32] else [44]) (list.map quote)) = some (.array (list.map .string)) ↔
      (¬ spaced ∨ list.length ≤ 1) := by
  rcases list with _ | ⟨first,_ | ⟨second,rest⟩⟩
  · exact iff_of_true (by split_ifs <;> rfl) (.inr (by simp))
  · have alone (sepstr : Bytes) : joined sepstr ([first].map quote) = commaList ([first].map quote) := rfl
    rw [alone,bracketed_quoted [first] verbatim]
    exact iff_of_true rfl (.inr (by simp))
  · by_cases blank : spaced
    · rw [if_pos blank,bracketed_blanks first second rest verbatim]
      simp [blank]
    · rw [if_neg blank,joined_comma,bracketed_quoted _ verbatim]
      exact iff_of_true rfl (.inl blank)

/-- After any of the options of its form, ending in JSON, the list of a row is an array of
its elements unless `-c` was among them and there are several. -/
theorem pdisp_list_iff {τ : Type} (options : List (Char × Bytes)) (s : Settings) (label : Bytes) (dt : ParmDt) (data : Bytes)
    (len : Nat) (form : ∀ o ∈ options, o.1 ∈ formOptions) (taken : setOptions options .initial = .ok s)
    (json : s.output.outfmt = .json) (row : dt ∈ listRows) :
    (pdisp s.output.fmt label dt data len : Program τ Unit) = setRoot label (pdispValue s.output.fmt dt data len) ∧
      (pdispValue s.output.fmt dt data len = some (.array ((listElements dt data).map .string)) ↔
        'c' ∉ options.map Prod.fst ∨ (listElements dt data).length ≤ 1) := by
  obtain ⟨plain,separator⟩ := setOptions_form options .initial s form taken
  have uninterpreted : s.output.fmt.dontInterpret = false := (output_form s).1.trans plain
  have sepstr : s.output.fmt.sepstr = if 'c' ∈ options.map Prod.fst then [32] else [44] :=
    (output_form s).2.trans separator
  have narrow : s.output.fmt.sepstr.length = 1 := by
    rw [sepstr]
    split_ifs <;> rfl
  refine ⟨pdisp_setRoot s.output.fmt label dt data len row json uninterpreted,?_⟩
  rw [pdispValue_joined s.output.fmt dt data len row json uninterpreted narrow,sepstr]
  exact bracketed_iff _ _ (listElements_verbatim dt data)

/-- `-c -j`, and a register with two bits set: the member is dropped. -/
theorem pdisp_list_dropped : ∃ s, setOptions [('c',[]),('j',[])] .initial = .ok s ∧ s.output.outfmt = .json ∧
    listElements .func [0,3] = [bytes "Switch",bytes "SCRL"] ∧ pdispValue s.output.fmt .func [0,3] 2 = none :=
  ⟨_,rfl,rfl,by decide,by rfl⟩

theorem pdisp_list_one : ∃ s, setOptions [('c',[]),('o',bytes "pack.json")] .initial = .ok s ∧
    pdispValue s.output.fmt .ntc [0,4] 2 = some (.array [.string (bytes "NTC3")]) := by
  have one : listElements .ntc [0,4] = [bytes "NTC3"] := by decide
  refine ⟨_,rfl,?_⟩
  have shown := @pdisp_list_iff Unit [('c',[]),('o',bytes "pack.json")] _ (bytes "NtcConfig") .ntc [0,4] 2
    (by decide) rfl (by decide) (by decide)
  rw [one] at shown
  exact shown.2.mpr (.inr (by decide))

end Jbdtool
