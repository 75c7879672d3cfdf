import Jbdtool.Bits
import Mathlib.Data.List.Find
import Mathlib.Data.List.Pairwise

/-! parse_bits over all texts: numbers, lists of names, and what is refused. -/
namespace Jbdtool
open CString Tokens

/-- What parse_bits returns, and what it leaves in `*maskp` which held `mask`. -/
def parseBitsTo (value : Bytes) (bits : List JbdBit) (mask : UInt16) : Int × UInt16 :=
  match parseBits value bits with
  | .ok num => (0,num)
  | .error _ => (-1,mask)

private theorem masks_nonzero (chosen : List JbdBit) (some : chosen ≠ []) (nonzero : ∀ bp ∈ chosen, bp.mask ≠ 0) :
    masks chosen 0 ≠ 0 := by
  obtain ⟨bp,rest,rfl⟩ := List.exists_cons_of_ne_nil some
  have first : masks (bp::rest) 0 = bp.mask ||| masks rest 0 := by
    rw [← masks_or]
    simp [masks]
  intro zero
  rw [first,UInt16.or_eq_zero_iff] at zero
  exact nonzero bp List.mem_cons_self zero.1

def OnlySeparators (value : Bytes) : Prop := (∀ c ∈ value, isSeparator c = true) ∧ ∃ c ∈ value, isspace c = false

private theorem isSeparator_iff (c : UInt8) :
    isSeparator c = true ↔ isspace c = true ∨ c = 44 ∨ c = 124 ∨ c = 43 := by
  simp [isSeparator,or_assoc]

theorem constant_clean (s : Bytes) (n : Nat) (digits : Constant s n) :
    Clean isSeparator s ∧ ∃ c t, s = c::t ∧ isdigit c = true := by
  have clean (base : Nat) (c : UInt8) (digit : isDigitOf base c = true) : isSeparator c = false := by
    by_contra separator
    rw [Bool.not_eq_false,isSeparator_iff] at separator
    obtain ⟨d,value,-⟩ := (isDigitOf_iff base c).mp digit
    rw [digitValue_none c (by tauto)] at value
    cases value
  rcases digits with ⟨x,digits,letter,rfl,-,all,-⟩ | ⟨zero,nonempty,all,-⟩ | ⟨-,nonempty,all,-⟩
  · have front : isSeparator 48 = false ∧ isSeparator x = false := by
      rcases letter with rfl | rfl <;> decide
    refine ⟨⟨by simp,?_⟩,48,_,rfl,by decide⟩
    intro c member
    rcases List.mem_cons.mp member with rfl | member
    · exact front.1
    rcases List.mem_cons.mp member with rfl | member
    · exact front.2
    · exact clean 16 c (all c member)
  · obtain ⟨t,rfl⟩ := List.head?_eq_some_iff.mp zero
    exact ⟨⟨nonempty,fun c member => clean 8 c (all c member)⟩,48,t,rfl,by decide⟩
  · obtain ⟨c,t,rfl⟩ := List.exists_cons_of_ne_nil nonempty
    refine ⟨⟨nonempty,fun d member => clean 10 d (all d member)⟩,c,t,rfl,?_⟩
    rw [← isDigitOf_ten]
    exact all c List.mem_cons_self

private theorem signed_token (s : Bytes) (n : Int) (number : Signed Constant s n) :
    ∃ c t, tokens isSeparator s = [c::t] ∧ (isdigit c = true ∨ c = 45) := by
  cases number with
  | bare digits =>
    obtain ⟨clean,c,t,rfl,digit⟩ := constant_clean s _ digits
    exact ⟨c,t,tokens_clean clean,.inl digit⟩
  | plus digits =>
    obtain ⟨clean,c,t,rfl,digit⟩ := constant_clean _ _ digits
    exact ⟨c,t,(tokens_skip _ (by decide)).trans (tokens_clean clean),.inl digit⟩
  | minus digits =>
    obtain ⟨clean,c,t,rfl,-⟩ := constant_clean _ _ digits
    have whole : Clean isSeparator (45::c::t) := by
      refine ⟨by simp,fun d member => ?_⟩
      rcases List.mem_cons.mp member with rfl | member
      · decide
      · exact clean.2 d member
    exact ⟨45,c::t,tokens_clean whole,.inr rfl⟩

theorem tokens_trimmed (value : Bytes) : tokens isSeparator (trimmed value) = tokens isSeparator value := by
  obtain ⟨blanks,white,parts,-,-⟩ := trimmed_spec value
  have gap : ∀ c ∈ blanks, isSeparator c = true := fun c member => by simp [isSeparator,white c member]
  rw [← tokens_blanks value,parts,tokens_behind gap]

/-- parse_bits gives no zero mask away, except to separators without a name. -/
theorem parseBits_zero_iff (value : Bytes) (bits : List JbdBit) (nonzero : ∀ bp ∈ bits, bp.mask ≠ 0) :
    (parseBits value bits = .ok 0 → Signed Constant (trimmed value) 0) ↔ ¬ OnlySeparators value := by
  constructor
  · rintro safe ⟨all,c,member,visible⟩
    have some : trimmed value ≠ [] := by
      intro blank
      rw [(trimmed_eq_nil value).mp blank c member] at visible
      cases visible
    have list : ∀ n, ¬ Signed Constant (trimmed value) n := by
      intro n number
      obtain ⟨d,t,token,-⟩ := signed_token _ n number
      rw [tokens_trimmed,(tokens_eq_nil value).mpr all] at token
      cases token
    have parsed : parseBits value bits = .ok 0 := by
      rw [parseBits_names value bits some list,(tokens_eq_nil value).mpr all]
      rfl
    exact list 0 (safe parsed)
  · intro mixed parsed
    by_cases blank : trimmed value = []
    · obtain ⟨message,refused⟩ := parseBits_blank value bits blank
      rw [refused] at parsed
      cases parsed
    by_cases numeral : ∃ n, Signed Constant (trimmed value) n
    · obtain ⟨n,number⟩ := numeral
      rw [parseBits_numeral value bits n number] at parsed
      split_ifs at parsed with outside
      have low := congrArg UInt16.toNat (Except.ok.inj parsed)
      rw [UInt16.ofInt,UInt16.toNat_ofNat',UInt16.toNat_zero] at low
      obtain rfl : n = 0 := by omega
      exact number
    · rw [parseBits_names value bits blank (fun n number => numeral ⟨n,number⟩)] at parsed
      obtain ⟨chosen,same,zero⟩ := (tokensMask_ok bits _ 0 0).mp parsed
      have none : chosen = [] := by
        by_contra some
        exact masks_nonzero chosen some (fun bp member => nonzero bp (matching_mem same bp member)) zero.symm
      rw [none,List.map_nil,List.map_eq_nil_iff,tokens_eq_nil] at same
      obtain ⟨c,member,visible⟩ : ∃ c ∈ value, isspace c = false := by
        rw [trimmed_eq_nil] at blank
        simpa using blank
      exact absurd ⟨same,c,member,visible⟩ mixed

theorem parseBits_comma : ¬ (parseBits (bytes ",") funcBits = .ok 0 → Signed Constant (trimmed (bytes ",")) 0) := by
  intro safe
  obtain ⟨c,t,token,-⟩ := signed_token _ 0 (safe rfl)
  rw [tokens_trimmed] at token
  cases token

theorem parseBits_zero_hex :
    parseBits (bytes " 0x0 ") funcBits = .ok 0 ∧ Signed Constant (trimmed (bytes " 0x0 ")) 0 := by
  have parsed : parseBits (bytes " 0x0 ") funcBits = .ok 0 := rfl
  have mixed : ¬ OnlySeparators (bytes " 0x0 ") := by
    rintro ⟨all,-⟩
    exact absurd (all 48 (by decide)) (by decide)
  exact ⟨parsed,(parseBits_zero_iff (bytes " 0x0 ") funcBits (by decide)).mpr mixed parsed⟩

def rowNamed (bits : List JbdBit) (token : Bytes) : Option JbdBit := bits.find? (fun bp => caseEqual bp.label token)

def maskNamed (bits : List JbdBit) (token : Bytes) : UInt16 := ((rowNamed bits token).map JbdBit.mask).getD 0

def union (masks : List UInt16) : UInt16 := masks.foldl (· ||| ·) 0

private theorem matching_named (bits : List JbdBit) (token : Bytes) (short : ∀ bp ∈ bits, bp.label.length ≤ 30) :
    matching bits token = rowNamed bits token := by
  -- A cut token is longer than every label, and so is the whole one.
  have whole : ∀ bp ∈ bits, caseEqual bp.label (token.take 31) = caseEqual bp.label token := by
    intro bp member
    have small := short bp member
    by_cases long : token.length ≤ 31
    · rw [List.take_of_length_le long]
    · have differs (t : Bytes) (more : bp.label.length ≠ t.length) : caseEqual bp.label t = false := by
        rw [caseEqual,beq_eq_false_iff_ne]
        intro same
        have lengths := congrArg List.length same
        rw [List.length_map,List.length_map] at lengths
        exact more lengths
      rw [differs _ (by rw [List.length_take]; omega),differs token (by omega)]
  exact List.find?_congr whole

private theorem rowNamed_isSome (bits : List JbdBit) (token : Bytes) :
    (∃ bp, rowNamed bits token = some bp) ↔ ∃ bp ∈ bits, caseEqual bp.label token = true := by
  rw [← Option.isSome_iff_exists,rowNamed,List.find?_isSome]

private theorem masks_union (chosen : List JbdBit) (mask : UInt16) :
    masks chosen mask = (chosen.map JbdBit.mask).foldl (· ||| ·) mask := by
  rw [List.foldl_map]
  rfl

private theorem tokensMask_known (bits : List JbdBit) (list : List Bytes) (short : ∀ bp ∈ bits, bp.label.length ≤ 30)
    (known : ∀ token ∈ list, ∃ bp ∈ bits, caseEqual bp.label token = true) :
    tokensMask bits list 0 = .ok (union (list.map (maskNamed bits))) := by
  have rows : list.map (matching bits) = (list.filterMap (rowNamed bits)).map some := by
    induction list with
    | nil => rfl
    | cons token list ih =>
      obtain ⟨here,others⟩ := List.forall_mem_cons.mp known
      obtain ⟨bp,found⟩ := (rowNamed_isSome bits token).mpr here
      simp [matching_named bits token short,found,ih others]
  have marks : list.map (maskNamed bits) = (list.filterMap (rowNamed bits)).map JbdBit.mask := by
    clear rows
    induction list with
    | nil => rfl
    | cons token list ih =>
      obtain ⟨here,others⟩ := List.forall_mem_cons.mp known
      obtain ⟨bp,found⟩ := (rowNamed_isSome bits token).mpr here
      simp [maskNamed,found,ih others]
  rw [tokensMask_ok]
  exact ⟨_,rows,by rw [masks_union,marks,union]⟩

def sameNames (first second : List Bytes) : Prop :=
  ∀ name, name ∈ first.map (·.map tolower) ↔ name ∈ second.map (·.map tolower)

private theorem foldl_union (masks : List UInt16) (mask : UInt16) : masks.foldl (· ||| ·) mask = mask ||| union masks := by
  induction masks generalizing mask with
  | nil => simp [union]
  | cons first masks ih =>
    have split : union (first::masks) = first ||| union masks := by
      rw [union,List.foldl_cons,ih,UInt16.zero_or]
    rw [List.foldl_cons,ih,split,UInt16.or_assoc]

theorem union_append (first second : List UInt16) : union (first ++ second) = union first ||| union second := by
  rw [union,List.foldl_append,foldl_union]
  rfl

theorem union_cons (first : UInt16) (masks : List UInt16) : union (first::masks) = first ||| union masks := by
  rw [union,List.foldl_cons,foldl_union,UInt16.zero_or]

theorem union_absorbs (masks : List UInt16) (m : UInt16) : union masks ||| m = m ↔ ∀ mask ∈ masks, mask ||| m = m := by
  have le (a b : UInt16) : (a ||| b) ||| m = m ↔ a ||| m = m ∧ b ||| m = m := by
    constructor
    · intro both
      constructor
      · calc
          a ||| m = a ||| ((a ||| b) ||| m) := by rw [both]
          _ = (a ||| b) ||| m := by rw [← UInt16.or_assoc,← UInt16.or_assoc,UInt16.or_self]
          _ = m := both
      · calc
          b ||| m = b ||| ((a ||| b) ||| m) := by rw [both]
          _ = (a ||| b) ||| m := by
            rw [UInt16.or_comm a b,← UInt16.or_assoc,← UInt16.or_assoc,UInt16.or_self]
          _ = m := both
    · rintro ⟨first,second⟩
      rw [UInt16.or_assoc,second,first]
  induction masks with
  | nil => simp [union]
  | cons first masks ih =>
    rw [union_cons,le,List.forall_mem_cons]
    exact and_congr_right fun _ => ih

private theorem union_congr (first second : List UInt16) (same : ∀ m, m ∈ first ↔ m ∈ second) : union first = union second := by
  have below (a b : List UInt16) (inside : ∀ m ∈ a, m ∈ b) : union a ||| union b = union b := by
    rw [union_absorbs]
    intro mask member
    exact (union_absorbs b (union b)).mp (UInt16.or_self) mask (inside mask member)
  calc
    union first = union second ||| union first := (below second first fun m => (same m).mpr).symm
    _ = union first ||| union second := UInt16.or_comm _ _
    _ = union second := below first second fun m => (same m).mp

def AllNamed (bits : List JbdBit) (list : List Bytes) : Prop :=
  ∀ token ∈ list, ∃ bp ∈ bits, caseEqual bp.label token = true

instance (bits : List JbdBit) (list : List Bytes) : Decidable (AllNamed bits list) :=
  inferInstanceAs (Decidable (∀ token ∈ list, _))

private theorem parseBits_list (value : Bytes) (bits : List JbdBit) (mask : UInt16) (short : ∀ bp ∈ bits, bp.label.length ≤ 30)
    (list : ∀ n, ¬ Signed Constant (trimmed value) n) (some : tokens isSeparator value ≠ []) :
    parseBitsTo value bits mask = if AllNamed bits (tokens isSeparator value)
      then (0,union ((tokens isSeparator value).map (maskNamed bits))) else (-1,mask) := by
  have visible : trimmed value ≠ [] := by
    intro blank
    apply some
    rw [tokens_eq_nil]
    intro c member
    simp [isSeparator,(trimmed_eq_nil value).mp blank c member]
  unfold parseBitsTo
  rw [parseBits_names value bits visible list]
  split_ifs with known
  · rw [tokensMask_known bits _ short known]
  · obtain ⟨token,member,unknown⟩ : ∃ token ∈ tokens isSeparator value,
        ¬ ∃ bp ∈ bits, caseEqual bp.label token = true := by simpa [AllNamed] using known
    have none : matching bits token = none := by
      rw [matching_named bits token short,Option.eq_none_iff_forall_ne_some]
      intro bp found
      exact unknown ((rowNamed_isSome bits token).mp ⟨bp,found⟩)
    obtain ⟨message,refused⟩ := tokensMask_error bits _ 0 ⟨token,member,none⟩
    rw [refused]

private theorem sameNames_result {bits : List JbdBit} {first second : List Bytes} (same : sameNames first second) :
    (AllNamed bits first ↔ AllNamed bits second) ∧
      union (first.map (maskNamed bits)) = union (second.map (maskNamed bits)) := by
  have named (list : List Bytes) : AllNamed bits list ↔ ∀ name ∈ list.map (·.map tolower),
      ∃ bp ∈ bits, (bp.label.map tolower == name) = true := by
    simp [AllNamed,caseEqual]
  have marks (list : List Bytes) (m : UInt16) : m ∈ list.map (maskNamed bits) ↔ ∃ name ∈ list.map (·.map tolower),
      ((bits.find? (fun bp => bp.label.map tolower == name)).map JbdBit.mask).getD 0 = m := by
    simp [maskNamed,rowNamed,caseEqual]
  constructor
  · rw [named,named]
    exact forall_congr' fun name => imp_congr_left (same name)
  · apply union_congr
    intro m
    rw [marks,marks]
    exact exists_congr fun name => and_congr_left' (same name)

/-- parse_bits accepts the lists of known names and no others; order, repetition, case and
the separators between the names do not matter. -/
theorem parseBits_accepts (value : Bytes) (bits : List JbdBit) (mask : UInt16)
    (labels : ∀ bp ∈ bits, bp.label ≠ [] ∧ bp.label.length ≤ 30 ∧ ∀ c ∈ bp.label, isSeparator c = false)
    (list : ∀ n, ¬ Signed Constant (trimmed value) n) (some : tokens isSeparator value ≠ []) :
    (parseBitsTo value bits mask = if AllNamed bits (tokens isSeparator value)
      then (0,union ((tokens isSeparator value).map (maskNamed bits))) else (-1,mask)) ∧
    ∀ other, (∀ n, ¬ Signed Constant (trimmed other) n) → tokens isSeparator other ≠ [] →
      sameNames (tokens isSeparator value) (tokens isSeparator other) →
      parseBitsTo other bits mask = parseBitsTo value bits mask := by
  have short : ∀ bp ∈ bits, bp.label.length ≤ 30 := fun bp member => (labels bp member).2.1
  have here := parseBits_list value bits mask short list some
  refine ⟨here,fun other list' some' same => ?_⟩
  obtain ⟨known,marks⟩ := @sameNames_result bits _ _ same
  rw [here,parseBits_list other bits mask short list' some',marks]
  simp only [known]

/-- Names of one table, one of them twice; the other table refuses them. -/
theorem parseBits_accepts_mixed :
    parseBitsTo (bytes "scrl, BALANCE_EN + scrl") funcBits 7 = (0,6) ∧
      parseBitsTo (bytes "scrl, BALANCE_EN + scrl") ntcBits 7 = (-1,7) := by
  have list : ∀ n, ¬ Signed Constant (trimmed (bytes "scrl, BALANCE_EN + scrl")) n :=
    signed_letter 115 (bytes "crl, BALANCE_EN + scrl") (by decide)
  have known := parseBits_accepts (bytes "scrl, BALANCE_EN + scrl") funcBits 7 (by decide +kernel) list (by decide)
  have unknown := parseBits_accepts (bytes "scrl, BALANCE_EN + scrl") ntcBits 7 (by decide +kernel) list (by decide)
  exact ⟨known.1.trans (by decide),unknown.1.trans (by decide)⟩

/-- A table that pdisp can show in full and whose names parse_bits can tell apart. -/
structure Readable (bits : List JbdBit) : Prop where
  nonempty : ∀ bp ∈ bits, bp.label ≠ []
  short : ∀ bp ∈ bits, bp.label.length ≤ 30
  clean : ∀ bp ∈ bits, ∀ c ∈ bp.label, isSeparator c = false ∧ c ≠ 34
  letter : ∀ bp ∈ bits, ∀ c ∈ bp.label.head?, isdigit c = false ∧ c ≠ 45 ∧ c ≠ 43
  distinct : bits.Pairwise (fun a b => caseEqual a.label b.label = false)
  nonzero : ∀ bp ∈ bits, bp.mask ≠ 0
  disjoint : bits.Pairwise (fun a b => a.mask &&& b.mask = 0)
  fits : (commaList (bits.map (fun bp => quote bp.label))).length < 192

theorem bitList_joined (fmt : Fmt) (bits : List JbdBit) (val : UInt16) (readable : Readable bits)
    (narrow : fmt.sepstr.length = 1) :
    bitList fmt bits val = joined fmt.sepstr (((setBits bits val).map JbdBit.label).map (shown fmt)) := by
  have sub : (setBits bits val).Sublist bits := List.filter_sublist
  have nonempty : ∀ l ∈ (([] : List Bytes) ++ (setBits bits val).map JbdBit.label).map (shown fmt), l ≠ [] := by
    intro l member
    obtain ⟨label,listed,rfl⟩ := List.mem_map.mp member
    obtain ⟨bp,inside,rfl⟩ := List.mem_map.mp listed
    unfold shown
    split_ifs
    · simp [quote]
    · exact readable.nonempty bp (sub.subset inside)
  have enough : (joined fmt.sepstr (((setBits bits val).map JbdBit.label).map (shown fmt))).length < 192 := by
    have part := joined_sublist fmt.sepstr ((sub.map JbdBit.label).map (shown fmt))
    have whole := readable.fits
    rw [← joined_comma] at whole
    by_cases none : bits = []
    · have empty : setBits bits val = [] := by simp [setBits,none]
      simp [empty,joined]
    have wide := List.sum_le_sum (l := bits) (f := fun bp => (shown fmt bp.label).length + fmt.sepstr.length)
      (g := fun bp => (quote bp.label).length + ([44] : Bytes).length) (by
        intro bp _
        unfold shown
        split_ifs <;> simp [quote] <;> omega)
    have first := joined_length fmt.sepstr ((bits.map JbdBit.label).map (shown fmt)) (by simpa using none)
    have second := joined_length [44] (bits.map (fun bp => quote bp.label)) (by simpa using none)
    simp only [List.map_map,Function.comp_def] at first second part
    simp only [List.map_map,Function.comp_def]
    rw [← first,← second] at wide
    simp only [narrow,List.length_singleton] at wide
    omega
  have collected := foldl_addstr_joined fmt 192 ((setBits bits val).map JbdBit.label) [] nonempty enough
  rw [List.foldl_map,setBits,List.foldl_filter] at collected
  simpa [bitList,setBits,joined] using collected

private theorem masks_and (chosen : List JbdBit) (mask : UInt16) :
    masks chosen 0 &&& mask = 0 ↔ ∀ bp ∈ chosen, bp.mask &&& mask = 0 := by
  induction chosen with
  | nil => simp [masks]
  | cons bp chosen ih =>
    have step : masks (bp::chosen) 0 = bp.mask ||| masks chosen 0 := by
      rw [← masks_or]
      simp [masks]
    have split : (bp.mask ||| masks chosen 0) &&& mask = (bp.mask &&& mask) ||| (masks chosen 0 &&& mask) :=
      UInt16.toBitVec_inj.mp BitVec.and_or_distrib_right
    rw [step,split,UInt16.or_eq_zero_iff,List.forall_mem_cons]
    exact and_congr_right fun _ => ih

private theorem readable_same {bits : List JbdBit} (readable : Readable bits) {a b : JbdBit} (first : a ∈ bits)
    (second : b ∈ bits) (overlap : a.mask &&& b.mask ≠ 0) : a = b := by
  by_contra other
  have apart : Std.Symm (fun a b : JbdBit => a.mask &&& b.mask = 0) := by
    constructor
    intro a b none
    rwa [UInt16.and_comm]
  exact overlap (readable.disjoint.forall first second other)

private theorem mem_setBits_masks {bits chosen : List JbdBit} (readable : Readable bits) (inside : ∀ bp ∈ chosen, bp ∈ bits)
    (bp : JbdBit) : bp ∈ setBits bits (masks chosen 0) ↔ bp ∈ chosen := by
  simp only [setBits,List.mem_filter,decide_eq_true_eq,ne_eq,masks_and]
  constructor
  · rintro ⟨member,overlap⟩
    obtain ⟨other,picked,shared⟩ : ∃ other ∈ chosen, other.mask &&& bp.mask ≠ 0 := by simpa using overlap
    rwa [← readable_same readable (inside other picked) member shared]
  · intro picked
    refine ⟨inside bp picked,fun none => readable.nonzero bp (inside bp picked) ?_⟩
    simpa using none bp picked

private theorem masks_setBits_masks {bits chosen : List JbdBit} (readable : Readable bits) (inside : ∀ bp ∈ chosen, bp ∈ bits) :
    masks (setBits bits (masks chosen 0)) 0 = masks chosen 0 := by
  have same : ∀ m, m ∈ (setBits bits (masks chosen 0)).map JbdBit.mask ↔ m ∈ chosen.map JbdBit.mask := by
    intro m
    simp only [List.mem_map,mem_setBits_masks readable inside]
  calc
    masks (setBits bits (masks chosen 0)) 0 = union ((setBits bits (masks chosen 0)).map JbdBit.mask) := masks_union _ 0
    _ = union (chosen.map JbdBit.mask) := union_congr _ _ same
    _ = masks chosen 0 := (masks_union chosen 0).symm

private theorem rowNamed_label {bits : List JbdBit} (readable : Readable bits) {bp : JbdBit} (member : bp ∈ bits) :
    rowNamed bits bp.label = some bp := by
  obtain ⟨other,found⟩ := (rowNamed_isSome bits bp.label).mpr ⟨bp,member,by simp [caseEqual]⟩
  have same := List.find?_some found
  have inside := List.mem_of_find?_eq_some found
  have apart : Std.Symm (fun a b : JbdBit => caseEqual a.label b.label = false) := by
    constructor
    intro a b differs
    rw [caseEqual,beq_eq_false_iff_ne] at differs ⊢
    exact differs.symm
  by_contra wrong
  have different : other ≠ bp := by
    rintro rfl
    exact wrong found
  rw [readable.distinct.forall inside member different] at same
  cases same

private theorem parseBits_joined {bits chosen : List JbdBit} (readable : Readable bits) (inside : ∀ bp ∈ chosen, bp ∈ bits)
    (some : chosen ≠ []) (c : UInt8) (separator : isSeparator c = true) :
    parseBits (joined [c] (chosen.map JbdBit.label)) bits = .ok (masks chosen 0) := by
  apply parseBits_labels some c separator
  · intro bp member
    exact ⟨readable.nonempty bp (inside bp member),fun d occurs => (readable.clean bp (inside bp member) d occurs).1⟩
  · exact fun bp member => readable.letter bp (inside bp member)
  · intro bp member
    rw [matching_named bits _ readable.short,rowNamed_label readable (inside bp member)]
    rfl

/-- What pdisp shows of a union of masks is parsed to the same union: as the list of labels
it collects joined with commas, and outside JSON as it stands. -/
theorem display_parse (fmt : Fmt) (bits chosen : List JbdBit) (readable : Readable bits)
    (separator : fmt.sepstr = [44] ∨ fmt.sepstr = [32]) (inside : ∀ bp ∈ chosen, bp ∈ bits) (nonzero : masks chosen 0 ≠ 0) :
    bitList fmt bits (masks chosen 0) =
        joined fmt.sepstr (((setBits bits (masks chosen 0)).map JbdBit.label).map (shown fmt)) ∧
      parseBits (joined [44] ((setBits bits (masks chosen 0)).map JbdBit.label)) bits = .ok (masks chosen 0) ∧
      (fmt.outfmt ≠ .json → parseBits (bitList fmt bits (masks chosen 0)) bits = .ok (masks chosen 0)) := by
  have collected := bitList_joined fmt bits (masks chosen 0) readable (by rcases separator with same | same <;> rw [same] <;> rfl)
  have some : setBits bits (masks chosen 0) ≠ [] := by
    intro none
    have empty : chosen = [] := by
      apply List.eq_nil_iff_forall_not_mem.mpr
      intro bp picked
      have member := (mem_setBits_masks readable inside bp).mpr picked
      rw [none] at member
      cases member
    exact nonzero (by rw [empty]; rfl)
  have sub : ∀ bp ∈ setBits bits (masks chosen 0), bp ∈ bits := fun bp member => List.mem_of_mem_filter member
  have parsed (c : UInt8) (sep : isSeparator c = true) :=
    (parseBits_joined readable sub some c sep).trans (congrArg Except.ok (masks_setBits_masks readable inside))
  refine ⟨collected,parsed 44 (by decide),fun plain => ?_⟩
  have bare : ((setBits bits (masks chosen 0)).map JbdBit.label).map (shown fmt) =
      (setBits bits (masks chosen 0)).map JbdBit.label := by
    simp [shown,plain]
  rw [collected,bare]
  rcases separator with same | same
  · rw [same]
    exact parsed 44 (by decide)
  · rw [same]
    exact parsed 32 (by decide)

theorem tables_readable : Readable funcBits ∧ Readable ntcBits :=
  ⟨⟨by decide,by decide,by decide +kernel,by decide +kernel,by decide +kernel,by decide,by decide,by decide⟩,
    ⟨by decide,by decide,by decide +kernel,by decide +kernel,by decide +kernel,by decide,by decide,by decide⟩⟩

theorem display_parse_three :
    bitList ⟨.json,44,[44],false,false⟩ funcBits 14 = bytes "\"SCRL\",\"BALANCE_EN\",\"CHG_BALANCE\"" ∧
      parseBits (bytes "SCRL,BALANCE_EN,CHG_BALANCE") funcBits = .ok 14 := by
  have inside : ∀ bp ∈ (funcBits.drop 1).take 3, bp ∈ funcBits :=
    fun bp member => List.mem_of_mem_drop (List.mem_of_mem_take member)
  have whole := display_parse ⟨.json,44,[44],false,false⟩ funcBits ((funcBits.drop 1).take 3) tables_readable.1
    (.inl rfl) inside (by decide)
  exact ⟨whole.1,whole.2.1⟩

/-- No numeral is a list of known names: labels start with a letter. -/
private theorem named_list {bits : List JbdBit} (readable : Readable bits) (value : Bytes)
    (known : AllNamed bits (tokens isSeparator value)) (n : Int) : ¬ Signed Constant (trimmed value) n := by
  intro number
  obtain ⟨c,t,token,start⟩ := signed_token _ n number
  rw [tokens_trimmed] at token
  obtain ⟨bp,member,same⟩ := known (c::t) (by rw [token]; exact List.mem_singleton_self _)
  obtain ⟨d,label,text⟩ := List.exists_cons_of_ne_nil (readable.nonempty bp member)
  obtain ⟨digit,minus,-⟩ := readable.letter bp member d (by rw [text]; rfl)
  have first : tolower d = tolower c := by
    have whole : bp.label.map tolower = (c::t).map tolower := by simpa [caseEqual] using same
    rw [text,List.map_cons,List.map_cons] at whole
    exact (List.cons.inj whole).1
  have plain : tolower c = c ∧ ¬ (97 ≤ c ∧ c ≤ 122) :=
    forall_byte (fun c => (isdigit c = true ∨ c = 45) → tolower c = c ∧ ¬ (97 ≤ c ∧ c ≤ 122)) (by decide +kernel) c start
  have letters : tolower d = d ∨ (97 ≤ tolower d ∧ tolower d ≤ 122) :=
    forall_byte (fun d => tolower d = d ∨ (97 ≤ tolower d ∧ tolower d ≤ 122)) (by decide +kernel) d
  rw [plain.1] at first
  rw [first] at letters
  obtain rfl : d = c := (letters.resolve_right plain.2).symm
  rcases start with isDigit | rfl
  · rw [digit] at isDigit
    cases isDigit
  · exact minus rfl

theorem parseBits_named {bits : List JbdBit} (readable : Readable bits) (value : Bytes) (visible : trimmed value ≠ [])
    (known : AllNamed bits (tokens isSeparator value)) :
    parseBits value bits = .ok (union ((tokens isSeparator value).map (maskNamed bits))) := by
  rw [parseBits_names value bits visible (named_list readable value known)]
  exact tokensMask_known bits _ readable.short known

theorem parseBits_unnamed {bits : List JbdBit} (short : ∀ bp ∈ bits, bp.label.length ≤ 30) (value : Bytes)
    (list : ∀ n, ¬ Signed Constant (trimmed value) n) (unknown : ¬ AllNamed bits (tokens isSeparator value)) :
    ∃ message, parseBits value bits = .error message := by
  have some : tokens isSeparator value ≠ [] := by
    intro none
    rw [none] at unknown
    exact unknown (by simp [AllNamed])
  have result := parseBits_list value bits 0 short list some
  rw [if_neg unknown] at result
  unfold parseBitsTo at result
  cases parsed : parseBits value bits with
  | error message => exact ⟨message,rfl⟩
  | ok m =>
    rw [parsed] at result
    simp at result

end Jbdtool
