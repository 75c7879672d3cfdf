import Jbdtool.Restore
import Jbdtool.Json.Members
import Jbdtool.Bits

/-! Dump and restore of the settings: which register contents come back. -/
namespace Jbdtool
open CString Numbers Observe

/-- The value that a row gets in the document, if any. -/
def rowValue (numeric : Bool) (regs : UInt8 → Bytes) (pp : JbdParams) : Option Json :=
  if regs pp.reg = [] then none else
  pdispValue (dumpSettings [] numeric).fmt pp.dt (regs pp.reg) (regs pp.reg).length

/-- pdisp looks at the first two bytes of its data, or at as many as were received. -/
private theorem pdispValue_settle (fmt : Fmt) (dt : ParmDt) (content : Bytes) (fits : content.length ≤ 128) :
    pdispValue fmt dt (settle 128 (some content)).2 content.length = pdispValue fmt dt content content.length := by
  have byte (i : Nat) : (settle 128 (some content)).2.getD i 0 = content.getD i 0 := settle_getD 128 content i fits
  have front : (settle 128 (some content)).2.take content.length = content.take content.length := by
    rw [settle_fits 128 content fits]
    simp
  unfold pdispValue
  simp only [byte,front]

private theorem dumpRow_value (numeric : Bool) (regs : UInt8 → Bytes) (members : List (Bytes × Json)) (pp : JbdParams)
    (fits : (regs pp.reg).length ≤ 128) :
    dumpRow (dumpSettings [] numeric).fmt regs members pp = Json.setValue members pp.label (rowValue numeric regs pp) := by
  unfold dumpRow rowValue
  split_ifs with empty
  · rfl
  · rw [pdispValue_settle _ _ _ fits]

def docRows (numeric : Bool) (regs : UInt8 → Bytes) (table : List JbdParams) : List (JbdParams × Json) :=
  table.filterMap (fun pp => (rowValue numeric regs pp).map (fun j => (pp,j)))

theorem params_labels : (params.map JbdParams.label).Nodup := by decide +kernel

theorem getp_label : ∀ pp ∈ params, getp pp.label = some pp := by
  intro pp member
  obtain ⟨qq,found⟩ : ∃ qq, getp pp.label = some qq :=
    Option.isSome_iff_exists.mp (List.find?_isSome.mpr ⟨pp,member,beq_self_eq_true _⟩)
  have same : qq.label = pp.label := by simpa using List.find?_some found
  rw [found,List.inj_on_of_nodup_map params_labels (List.mem_of_find?_eq_some found) member same]

theorem dumped_rows (numeric : Bool) (regs : UInt8 → Bytes) (fits : ∀ pp ∈ params, (regs pp.reg).length ≤ 128) :
    dumped numeric regs = (docRows numeric regs params).map (fun row => (row.1.label,row.2)) := by
  have rows (table : List JbdParams) (members : List (Bytes × Json))
      (short : ∀ pp ∈ table, (regs pp.reg).length ≤ 128) : table.foldl (dumpRow (dumpSettings [] numeric).fmt regs) members =
        Json.setValues members (table.map (fun pp => (pp.label,rowValue numeric regs pp))) := by
    induction table generalizing members with
    | nil => rfl
    | cons pp table ih =>
      obtain ⟨here,others⟩ := List.forall_mem_cons.mp short
      rw [List.foldl_cons,dumpRow_value numeric regs members pp here]
      exact ih _ others
  have labels : (params.map (fun pp => (pp.label,rowValue numeric regs pp))).map Prod.fst =
      params.map JbdParams.label := by
    rw [List.map_map]
    rfl
  unfold dumped docRows
  rw [rows params [] fits,Json.setValues_fresh _ _ (labels ▸ params_labels) (by simp),List.nil_append,List.filterMap_map,
    List.map_filterMap]
  congr 1
  funext pp
  rw [Option.map_map]
  rfl

/-- The text handed to write_parm for a value of the document. -/
def valueText (j : Json) : Bytes :=
  match jsonText j with
  | .ok text => text
  | .error _ => []

private theorem number_text (q : ℚ) : (showInt (toInt32 q)).length ≤ 11 := by
  have range : -2147483648 ≤ toInt32 q ∧ toInt32 q < 2147483648 := by
    unfold toInt32
    dsimp only
    split_ifs with _ fits fits <;> first | exact fits | decide
  have digits := (showNat_width (toInt32 q).natAbs 10 (by decide)).mpr (by norm_num; omega)
  unfold showInt
  split_ifs
  · rw [List.length_cons]
    omega
  · omega

private theorem joinNames_length (items : List Json) (temp : Bytes) (short : temp.length ≤ 127) :
    (joinNames items temp).length ≤ 127 := by
  induction items generalizing temp with
  | nil => exact short
  | cons item items ih =>
    cases item
    case string s =>
      simp only [joinNames]
      split_ifs with _ empty
      · exact short
      · exact ih _ (by simp; omega)
      · exact ih _ (by simp; omega)
    all_goals exact ih _ short

/-- A value that write_parm can use, with no text longer than its buffer. -/
structure Usable (j : Json) : Prop where
  printable : Json.Printable 1 j
  text : jsonText j = .ok (valueText j)
  short : (valueText j).length ≤ 128

private theorem usable_number (n : Int) (small : n.natAbs < 2^53) : Usable (.number n) where
  printable := ⟨by omega,n,rfl,small⟩
  text := rfl
  short := by
    have := number_text n
    change (showInt (toInt32 n)).length ≤ 128
    omega

private theorem usable_text (s : Bytes) (short : s.length ≤ 128) : Usable (.string s) where
  printable := by
    change 1 ≤ 2048
    omega
  text := rfl
  short := by
    have : (Json.cstr s).length ≤ s.length := (List.takeWhile_sublist _).length_le
    change (Json.cstr s).length ≤ 128
    omega

private theorem usable_boolean (b : Bool) : Usable (.boolean b) where
  printable := by
    change 1 ≤ 2048
    omega
  text := rfl
  short := by cases b <;> decide

private theorem usable_names (labels : List Bytes) : Usable (.array (labels.map .string)) where
  printable := by
    refine ⟨by omega,?_⟩
    induction labels with
    | nil => trivial
    | cons label labels ih => exact ⟨by change 2 ≤ 2048; omega,ih⟩
  text := rfl
  short := by
    have := joinNames_length (labels.map .string) [] (by simp)
    change (joinNames (labels.map .string) []).length ≤ 128
    omega

private theorem trim_sublist (s : Bytes) : (trim s).Sublist s := by
  have front : (s.dropWhile (fun c => isspace c || (0 < c && c < 32))).Sublist s := List.dropWhile_sublist _
  have back := (List.dropWhile_sublist isspace
    (l := (s.dropWhile (fun c => isspace c || (0 < c && c < 32))).reverse)).reverse
  rw [List.reverse_reverse] at back
  exact back.trans front

theorem bits_dumped (bits : List JbdBit) (val : UInt16) (known : bits = funcBits ∨ bits = ntcBits) :
    bracketed (bitList (dumpSettings [] false).fmt bits val) =
      some (.array (((setBits bits val).map JbdBit.label).map .string)) ∧
    (parseBits (joinNames (((setBits bits val).map JbdBit.label).map .string) []) bits).toOption =
      if val &&& 0xFF = 0 then none else some (val &&& 0xFF) := by
  have table : Named bits ∧ room (bits.map JbdBit.label) < 127 ∧ masks bits 0 = 0xFF ∧
      ∀ bp ∈ bits, ∃ k, bp.mask.toNat = 2^k := by
    rcases known with rfl | rfl
    · exact ⟨funcBits_named,whole_room.1,whole_masks.1,fun bp member => single_bits bp (by simp [member])⟩
    · exact ⟨ntcBits_named,whole_room.2,whole_masks.2,fun bp member => single_bits bp (by simp [member])⟩
  obtain ⟨named,enough,whole,single⟩ := table
  obtain ⟨listed,parsed⟩ := bits_return (dumpSettings [] false).fmt bits val rfl rfl named enough
  refine ⟨listed,parsed.trans ?_⟩
  simp only [setBits_eq_nil bits val single,masks_setBits bits val single,whole]

theorem params_kinds : ∀ pp ∈ params, pp.dt ≠ .unk ∧ pp.dt ≠ .float ∧ pp.dt ≠ .dump := by decide +kernel

private theorem usable_field (fmt : Fmt) (vals : List Int) (i : UInt8) (j : Json) (small : ∀ v ∈ vals, v.natAbs < 2000)
    (value : fieldValue fmt vals i = some j) : Usable j := by
  obtain rfl := Option.some.inj value
  have bound : (vals.getD i.toNat 0).natAbs < 2000 := by
    rw [List.getD_eq_getElem?_getD]
    cases known : vals[i.toNat]? with
    | none => simp
    | some v => exact small v (List.mem_of_getElem? known)
  have := i.toNat_lt
  refine usable_number _ ?_
  split_ifs <;> omega

theorem usable_value (numeric : Bool) (dt : ParmDt) (content : Bytes) (j : Json)
    (kind : dt ≠ .unk ∧ dt ≠ .float ∧ dt ≠ .dump) (short : dt = .str → content.length ≤ 128)
    (value : pdispValue (dumpSettings [] numeric).fmt dt content content.length = some j) : Usable j := by
  have word (d0 d1 : UInt8) : (getshort d0 d1).natAbs < 2^53 ∧ ((getushort d0 d1 : Int)).natAbs < 2^53 := by
    have := d0.toNat_lt
    have := d1.toNat_lt
    unfold getshort getushort
    rw [beSigned_eq,beUnsigned_eq]
    constructor
    · split_ifs <;> omega
    · omega
  have byte (d : UInt8) : ((d.toNat : Int)).natAbs < 2^53 := by
    have := d.toNat_lt
    omega
  have bits (table : List JbdBit) (v : Int) (known : table = funcBits ∨ table = ntcBits) (small : v.natAbs < 2^53)
      (value : bitsValue (dumpSettings [] numeric).fmt table v = some j) : Usable j := by
    unfold bitsValue at value
    cases numeric with
    | true =>
      obtain rfl := Option.some.inj value
      exact usable_number v small
    | false =>
      rw [if_neg (by simp [dumpSettings,Settings.fmt]),(bits_dumped table _ known).1] at value
      obtain rfl := Option.some.inj value
      exact usable_names _
  unfold pdispValue at value
  cases dt <;> simp only at value
  case unk | float | dump => simp at kind
  case uint =>
    obtain rfl := Option.some.inj value
    exact usable_number _ (word _ _).2
  case int | temp | date | pct =>
    obtain rfl := Option.some.inj value
    exact usable_number _ (word _ _).1
  case b0 | b1 =>
    obtain rfl := Option.some.inj value
    exact usable_number _ (byte _)
  case func => exact bits _ _ (.inl rfl) (word _ _).1 value
  case ntc => exact bits _ _ (.inr rfl) (word _ _).1 value
  case str =>
    unfold Json.initString at value
    split_ifs at value
    obtain rfl := Option.some.inj value
    refine usable_text _ ?_
    rw [List.take_length]
    have cut : (Json.cstr content).length ≤ content.length := (List.takeWhile_sublist _).length_le
    exact ((trim_sublist _).length_le.trans cut).trans (short rfl)
  case double =>
    obtain rfl := Option.some.inj value
    exact usable_boolean _
  all_goals exact usable_field _ _ _ j (by decide) value

theorem valueText_number (n : Int) (range : -2147483648 ≤ n ∧ n < 2147483648) :
    valueText (.number n) = showInt n := by
  change showInt (toInt32 n) = showInt n
  rw [toInt32_int n range]

theorem shortPayload_word (v : Int) (a b : UInt8) (small : v.natAbs < 65536)
    (word : v % 65536 = (a.toNat * 256 + b.toNat : Nat)) : shortPayload v = [a,b] := by
  have := a.toNat_lt
  have := b.toNat_lt
  have exact : roundInt 24 v = v := roundInt_exact 24 v (by omega) (by omega)
  have kept : floatDetour v = v := by
    unfold floatDetour
    rw [exact]
    exact if_pos (by omega)
  have byte (n : Int) (c : UInt8) (same : n % 256 = c.toNat) : UInt8.ofInt n = c := by
    apply UInt8.toNat_inj.mp
    rw [UInt8.ofInt,UInt8.toNat_ofNat',show (2 : Int)^8 = 256 by norm_num,same]
    have := c.toNat_lt
    simp
  have high : v >>> (8 : Nat) = v / 256 := by
    rw [Int.shiftRight_eq_div_pow]
    norm_num
  unfold shortPayload putshort
  rw [kept,high,byte _ a (by omega),byte _ b (by omega)]

private theorem shortPayload_unsigned (a b : UInt8) : shortPayload (getushort a b : Int) = [a,b] := by
  have := a.toNat_lt
  have := b.toNat_lt
  unfold getushort
  rw [beUnsigned_eq]
  exact shortPayload_word _ a b (by omega) (by omega)

private theorem shortPayload_signed (a b : UInt8) : shortPayload (getshort a b) = [a,b] := by
  have := a.toNat_lt
  have := b.toNat_lt
  unfold getshort
  rw [beSigned_eq]
  exact shortPayload_word _ a b (by split_ifs <;> omega) (by split_ifs <;> omega)

theorem byte_ofInt (c : UInt8) : UInt8.ofInt (c.toNat : Int) = c := by
  have := c.toNat_lt
  apply UInt8.toNat_inj.mp
  rw [UInt8.ofInt,UInt8.toNat_ofNat']
  omega

/-- The types whose two bytes are one number of the document. -/
def plainKinds : List ParmDt := [.uint,.int,.temp,.date,.pct,.b0,.b1]

theorem effect_plain (numeric : Bool) (data : Mem UInt8) (pp : JbdParams) (a b : UInt8) (j : Json)
    (kind : pp.dt ∈ plainKinds) (value : pdispValue (dumpSettings [] numeric).fmt pp.dt [a,b] 2 = some j) :
    effect data pp (valueText j) [a,b] = some [a,b] := by
  have := a.toNat_lt
  have := b.toNat_lt
  have unsigned : 0 ≤ (getushort a b : Int) ∧ (getushort a b : Int) < 65536 := by
    unfold getushort
    rw [beUnsigned_eq]
    omega
  have signed : -32768 ≤ getshort a b ∧ getshort a b < 32768 := by
    unfold getshort
    rw [beSigned_eq]
    split_ifs <;> omega
  have number (n : Int) (range : -2147483648 ≤ n ∧ n < 2147483648) : atoi (valueText (.number n)) = n := by
    rw [valueText_number n range,atoi_showInt n range]
  unfold pdispValue at value
  unfold effect
  cases known : pp.dt <;> simp only [known] at value kind ⊢
  case uint =>
    obtain rfl := Option.some.inj value
    rw [number _ (by simpa using by omega)]
    exact congrArg some (shortPayload_unsigned a b)
  case int | temp | date | pct =>
    obtain rfl := Option.some.inj value
    rw [number _ (by simpa using by omega)]
    exact congrArg some (shortPayload_signed a b)
  case b0 | b1 =>
    obtain rfl := Option.some.inj value
    rw [number _ (by simp; omega)]
    simp [byte_ofInt]
  all_goals simp [plainKinds] at kind

/-- What comes back of a bit mask: with `-n` every one but those printed negative,
otherwise those with a named bit and no bit without a name. -/
def BitsReturn (numeric : Bool) (a b : UInt8) : Prop :=
  if numeric then a.toNat < 128 else a = 0 ∧ b ≠ 0

private theorem showInt_nonempty (n : Int) : showInt n ≠ [] := by
  obtain ⟨digits,shown,nonempty,-⟩ := showNat_digits n.natAbs
  unfold showInt
  split_ifs
  · exact List.cons_ne_nil _ _
  · simpa [shown] using nonempty

private theorem word_toNat (a b : UInt8) : (UInt16.ofInt (getshort a b)).toNat = getushort a b := by
  have := a.toNat_lt
  have := b.toNat_lt
  rw [show UInt16.ofInt (getshort a b) = UInt16.ofNat (beUnsigned a b) from beSigned_word a b,UInt16.toNat_ofNat',
    getushort,beUnsigned_eq]
  omega

private theorem parseBits_number (table : List JbdBit) (a b : UInt8) :
    (parseBits (showInt (getshort a b)) table).toOption =
      if a.toNat < 128 then some (UInt16.ofInt (getshort a b)) else none := by
  have := a.toNat_lt
  have := b.toNat_lt
  have read : strtol 0 (showInt (getshort a b)) = (getshort a b,[]) := by
    have whole := strtol_showInt 0 (getshort a b) [] (.inr rfl)
      (by unfold getshort longMax; rw [beSigned_eq]; split_ifs <;> omega) (stops_nil 10) (by simp)
    rwa [List.append_nil] at whole
  have spaces : (showInt (getshort a b)).dropWhile isspace = showInt (getshort a b) := by
    simpa using (numeralSign_showInt (getshort a b) []).2
  have some' : showInt (getshort a b) ≠ [] := showInt_nonempty _
  unfold parseBits
  simp only [spaces,read]
  have whole : ([] : Bytes) ≠ showInt (getshort a b) ∧ ([] : Bytes).dropWhile isspace = [] := ⟨some'.symm,rfl⟩
  rw [if_neg some',if_pos whole]
  have signed : getshort a b = if a.toNat < 128 then (a.toNat * 256 + b.toNat : Int)
      else a.toNat * 256 + b.toNat - 65536 := beSigned_eq a b
  by_cases positive : a.toNat < 128
  · have small : ¬ (getshort a b < 0 ∨ getshort a b > 0xFFFF) := by
      rw [signed,if_pos positive]
      omega
    rw [if_pos positive,if_neg small]
    rfl
  · have negative : getshort a b < 0 := by
      rw [signed,if_neg positive]
      omega
    rw [if_neg positive,if_pos (.inl negative)]
    rfl

theorem effect_bits (numeric : Bool) (table : List JbdBit) (a b : UInt8) (j : Json)
    (known : table = funcBits ∨ table = ntcBits)
    (value : bitsValue (dumpSettings [] numeric).fmt table (getshort a b) = some j) :
    (parseBits (valueText j) table).toOption.map (fun mask => shortPayload mask.toNat) = some [a,b] ↔
      BitsReturn numeric a b := by
  have := a.toNat_lt
  have := b.toNat_lt
  have signed : -32768 ≤ getshort a b ∧ getshort a b < 32768 := by
    unfold getshort
    rw [beSigned_eq]
    split_ifs <;> omega
  unfold bitsValue at value
  unfold BitsReturn
  cases numeric with
  | true =>
    obtain rfl := Option.some.inj value
    have text : valueText (.number (getshort a b)) = showInt (getshort a b) := valueText_number _ (by omega)
    rw [text,parseBits_number]
    by_cases positive : a.toNat < 128
    · rw [if_pos positive,Option.map_some,word_toNat,shortPayload_unsigned]
      simpa using positive
    · rw [if_neg positive]
      simpa using positive
  | false =>
    rw [if_neg (by simp [dumpSettings,Settings.fmt]),(bits_dumped table _ known).1] at value
    obtain rfl := Option.some.inj value
    have text : valueText (.array (((setBits table (UInt16.ofInt (getshort a b))).map JbdBit.label).map .string)) =
        joinNames (((setBits table (UInt16.ofInt (getshort a b))).map JbdBit.label).map .string) [] := rfl
    have low : (UInt16.ofInt (getshort a b) &&& 0xFF).toNat = b.toNat := by
      rw [UInt16.toNat_and,word_toNat,getushort,beUnsigned_eq]
      exact (Nat.and_two_pow_sub_one_eq_mod _ 8).trans (by omega)
    have zero : UInt16.ofInt (getshort a b) &&& 0xFF = 0 ↔ b = 0 := by
      rw [← UInt16.toNat_inj,low,← UInt8.toNat_inj]
      rfl
    rw [text,(bits_dumped table _ known).2]
    by_cases none : b = 0
    · rw [if_pos (zero.mpr none)]
      simp [none]
    · have stored : shortPayload (b.toNat : Int) = [0,b] := by
        have := shortPayload_unsigned 0 b
        rwa [getushort,beUnsigned_eq,UInt8.toNat_zero,Nat.zero_mul,Nat.zero_add] at this
      rw [if_neg (fun same => none (zero.mp same)),Option.map_some,low,stored]
      simp [none,eq_comm]

theorem effect_text (data : Mem UInt8) (pp : JbdParams) (content : Bytes) (j : Json) (kind : pp.dt = .str)
    (value : Json.initString (trim (Json.cstr content)) = some j) :
    effect data pp (valueText j) content = some (trim (Json.cstr content)) := by
  unfold Json.initString at value
  split_ifs at value
  obtain rfl := Option.some.inj value
  have clean : 0 ∉ trim (Json.cstr content) := by
    intro inside
    have nonzero := List.all_eq_true.mp List.all_takeWhile 0 ((trim_sublist (Json.cstr content)).subset inside)
    simp at nonzero
  have text : valueText (.string (trim (Json.cstr content))) = trim (Json.cstr content) :=
    Json.cstr_clean _ clean
  unfold effect
  rw [kind,text]

end Jbdtool
