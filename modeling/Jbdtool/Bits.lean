import Jbdtool.Dump
import Jbdtool.ParseBits
import Jbdtool.Json.RoundTrip
import Mathlib.Data.Nat.Bitwise
import Mathlib.Algebra.Order.BigOperators.Group.List

/-! Lists of bit names: how pdisp collects them, how they come back out of a JSON
document, and what parse_bits makes of them. -/
namespace Jbdtool
open CString Numbers Json Tokens

def commaList : List Bytes → Bytes
  | [] => []
  | first::rest => first ++ rest.flatMap (44::·)

def quote (label : Bytes) : Bytes := [34] ++ label ++ [34]

/-- A name that survives every list it is put in. -/
structure Plain (label : Bytes) : Prop where
  nonempty : label ≠ []
  short : label.length ≤ 31
  clean : ∀ c ∈ label, isSeparator c = false ∧ escape c = [c] ∧ c ≠ 0
  letter : ∀ c ∈ label.head?, isdigit c = false ∧ c ≠ 45 ∧ c ≠ 43

instance (label : Bytes) : Decidable (Plain label) :=
  haveI : Decidable (∀ c ∈ label, isSeparator c = false ∧ escape c = [c] ∧ c ≠ 0) := List.decidableBAll _ _
  haveI : Decidable (∀ c ∈ label.head?, isdigit c = false ∧ c ≠ 45 ∧ c ≠ 43) := Option.decidableForallMem _
  decidable_of_iff (label ≠ [] ∧ label.length ≤ 31 ∧
    (∀ c ∈ label, isSeparator c = false ∧ escape c = [c] ∧ c ≠ 0) ∧
    ∀ c ∈ label.head?, isdigit c = false ∧ c ≠ 45 ∧ c ≠ 43)
    ⟨fun ⟨nonempty,short,clean,letter⟩ => ⟨nonempty,short,clean,letter⟩,
      fun plain => ⟨plain.nonempty,plain.short,plain.clean,plain.letter⟩⟩

private theorem commaList_snoc (labels : List Bytes) (label : Bytes) (nonempty : ∀ l ∈ labels, l ≠ []) :
    commaList (labels ++ [label]) =
      commaList labels ++ (if commaList labels = [] then [] else [44]) ++ label := by
  cases labels with
  | nil => simp [commaList]
  | cons first rest =>
    have front : first ≠ [] := nonempty first List.mem_cons_self
    simp [commaList,front]

/-- The bytes that the names take with their quotes and separators. -/
def room (labels : List Bytes) : Nat := (labels.map (fun l => l.length + 3)).sum

theorem quote_nonempty (labels : List Bytes) : ∀ l ∈ labels.map quote, l ≠ [] := by
  simp [quote]

/-- A label as `_addstr` writes it. -/
def shown (fmt : Fmt) (label : Bytes) : Bytes := if fmt.outfmt = .json then quote label else label

theorem joined_snoc (sepstr : Bytes) (list : List Bytes) (last : Bytes) (nonempty : ∀ l ∈ list, l ≠ []) :
    joined sepstr (list ++ [last]) = joined sepstr list ++ (if (joined sepstr list).length ≠ 0 then sepstr else []) ++ last := by
  cases list with
  | nil => simp [joined]
  | cons first rest =>
    have front : first ≠ [] := nonempty first List.mem_cons_self
    simp [joined,front]

theorem joined_length (sepstr : Bytes) (list : List Bytes) (some : list ≠ []) :
    (joined sepstr list).length + sepstr.length = (list.map (fun l => l.length + sepstr.length)).sum := by
  obtain ⟨first,rest,rfl⟩ := List.exists_cons_of_ne_nil some
  have each : (rest.flatMap (sepstr ++ ·)).length = (rest.map (fun l => l.length + sepstr.length)).sum := by
    rw [List.length_flatMap]
    simp only [List.length_append,Nat.add_comm]
  simp only [joined,List.length_append,each,List.map_cons,List.sum_cons]
  omega

theorem joined_sublist (sepstr : Bytes) {first second : List Bytes} (sub : first.Sublist second) :
    (joined sepstr first).length ≤ (joined sepstr second).length := by
  by_cases none : first = []
  · simp [none,joined]
  · have some : second ≠ [] := by
      rintro rfl
      exact none (List.sublist_nil.mp sub)
    have less := (sub.map (fun l => l.length + sepstr.length)).sum_le_sum (by simp)
    rw [← joined_length sepstr first none,← joined_length sepstr second some] at less
    omega

theorem shown_length (fmt : Fmt) (label : Bytes) :
    (shown fmt label).length = label.length + if fmt.outfmt = .json then 2 else 0 := by
  unfold shown
  split_ifs <;> simp [quote]

private theorem addstr_shown (fmt : Fmt) (size : Nat) (str label : Bytes)
    (enough : (str ++ (if str.length ≠ 0 then fmt.sepstr else []) ++ shown fmt label).length < size) :
    addstr fmt size str label = str ++ (if str.length ≠ 0 then fmt.sepstr else []) ++ shown fmt label := by
  have gap : (if str.length ≠ 0 then fmt.sepstr else []).length = if str.length ≠ 0 then fmt.sepstr.length else 0 := by
    split_ifs <;> rfl
  rw [List.length_append,List.length_append,shown_length,gap] at enough
  unfold addstr
  simp only
  rw [if_neg (by omega)]
  rfl

/-- `_addstr` on every label, as long as all of them have room. -/
theorem foldl_addstr_joined (fmt : Fmt) (size : Nat) (labels done : List Bytes)
    (nonempty : ∀ l ∈ (done ++ labels).map (shown fmt), l ≠ [])
    (enough : (joined fmt.sepstr ((done ++ labels).map (shown fmt))).length < size) :
    labels.foldl (addstr fmt size) (joined fmt.sepstr (done.map (shown fmt))) =
      joined fmt.sepstr ((done ++ labels).map (shown fmt)) := by
  induction labels generalizing done with
  | nil => simp
  | cons label labels ih =>
    have whole : done ++ label::labels = done ++ [label] ++ labels := by simp
    rw [whole] at nonempty enough ⊢
    have visible : ∀ l ∈ done.map (shown fmt), l ≠ [] := by
      intro l member
      apply nonempty l
      rw [List.append_assoc,List.map_append]
      exact List.mem_append_left _ member
    have front : (done ++ [label]).Sublist (done ++ [label] ++ labels) := List.sublist_append_left _ _
    have room := joined_sublist fmt.sepstr (front.map (shown fmt))
    have next : joined fmt.sepstr ((done ++ [label]).map (shown fmt)) = joined fmt.sepstr (done.map (shown fmt)) ++
        (if (joined fmt.sepstr (done.map (shown fmt))).length ≠ 0 then fmt.sepstr else []) ++ shown fmt label := by
      rw [List.map_append,List.map_singleton,joined_snoc fmt.sepstr _ _ visible]
    rw [List.foldl_cons,addstr_shown fmt size _ label (by rw [← next]; omega),← next,ih (done ++ [label]) nonempty enough]

theorem joined_comma (list : List Bytes) : joined [44] list = commaList list := by
  cases list <;> rfl

private theorem joinNames_plain (labels done : List Bytes) (plain : ∀ l ∈ labels, Plain l) (names : ∀ l ∈ done, l ≠ [])
    (enough : (commaList done).length + room labels < 127) :
    joinNames (labels.map .string) (commaList done) = commaList (done ++ labels) := by
  induction labels generalizing done with
  | nil => simp [joinNames]
  | cons label labels ih =>
    obtain ⟨here,others⟩ := List.forall_mem_cons.mp plain
    have split : room (label::labels) = label.length + 3 + room labels := by simp [room]
    have whole : cstr label = label := cstr_clean label fun zero => (here.clean 0 zero).2.2 rfl
    have added : commaList done ++ (if commaList done = [] then [] else [44]) ++ label =
        commaList (done ++ [label]) := (commaList_snoc done label names).symm
    have size : (commaList (done ++ [label])).length ≤ (commaList done).length + label.length + 1 := by
      rw [← added]
      split_ifs
      · simp
      · simp only [List.length_append,List.length_singleton]
        omega
    simp only [List.map_cons,joinNames,whole]
    rw [if_neg (by omega),added,ih (done ++ [label]) others ?_ (by omega),List.append_assoc]
    · rfl
    · intro l member
      rcases List.mem_append.mp member with old | new
      · exact names l old
      · rw [List.mem_singleton.mp new]
        exact here.nonempty

/-- In front of a comma or a space the text is read as this value. -/
structure Denotes (text : Bytes) (v : Json) : Prop where
  visible : ∃ c tail, text = c::tail ∧ isspace c = false ∧ c ≠ 93
  clean : 0 ∉ text
  read : ∀ fuel nesting c rest, nesting ≤ 2048 → (c = 44 ∨ c = 32) →
    parseValue (fuel + 1) nesting (text ++ c::rest) = some (v,c::rest)

/-- Between quotes the text stands for itself. -/
def Verbatim (text : Bytes) : Prop := ∀ c ∈ text, escape c = [c] ∧ c ≠ 0

theorem denotes_quote (label : Bytes) (verbatim : Verbatim label) : Denotes (quote label) (.string label) := by
  have same : label.flatMap escape = label := by
    have each : ∀ c ∈ label, escape c = [c] := fun c member => (verbatim c member).1
    rw [List.flatMap_congr each]
    simp
  have text : quote label = serializeString label := by simp [quote,serializeString,same]
  refine ⟨⟨34,label ++ [34],rfl,by decide,by decide⟩,fun zero => ?_,fun fuel nesting c rest depth _ => ?_⟩
  · exact (verbatim 0 (by simpa [quote] using zero)).2 rfl
  · rw [text]
    exact parseValue_text fuel nesting label _ depth

def closing : Bytes := [32,93]

private theorem skipSpaces_visible {text : Bytes} {v : Json} (denotes : Denotes text v) (rest : Bytes) :
    skipSpaces (text ++ rest) = text ++ rest := by
  obtain ⟨c,tail,rfl,visible,-⟩ := denotes.visible
  exact skipSpaces_cons c _ visible

private theorem parseItems_denoted (entries : List (Bytes × Json)) (done : List Json) (fuel nesting : Nat)
    (some' : entries ≠ []) (denotes : ∀ e ∈ entries, Denotes e.1 e.2) (depth : nesting ≤ 2048)
    (enough : (commaList (entries.map Prod.fst)).length + 1 < fuel) :
    parseItems fuel nesting done (commaList (entries.map Prod.fst) ++ closing) =
      some (.array (done ++ entries.map Prod.snd),[]) := by
  induction entries generalizing done fuel with
  | nil => exact absurd rfl some'
  | cons e entries ih =>
    obtain ⟨here,others⟩ := List.forall_mem_cons.mp denotes
    obtain ⟨fuel,rfl⟩ : ∃ n, fuel = n + 2 := ⟨fuel - 2,by omega⟩
    cases entries with
    | nil =>
      have text : commaList ([e].map Prod.fst) ++ closing = e.1 ++ 32::[93] := by simp [commaList,closing]
      rw [text,parseItems,here.read fuel nesting 32 [93] depth (.inr rfl)]
      rfl
    | cons next entries =>
      have text : commaList ((e::next::entries).map Prod.fst) ++ closing =
          e.1 ++ 44::(commaList ((next::entries).map Prod.fst) ++ closing) := by
        simp [commaList]
      have size : (commaList ((e::next::entries).map Prod.fst)).length =
          e.1.length + 1 + (commaList ((next::entries).map Prod.fst)).length := by
        simp [commaList]
        omega
      have front : commaList ((next::entries).map Prod.fst) ++ closing =
          next.1 ++ ((entries.map Prod.fst).flatMap (44::·) ++ closing) := by
        simp [commaList]
      have visible : skipSpaces (commaList ((next::entries).map Prod.fst) ++ closing) =
          commaList ((next::entries).map Prod.fst) ++ closing := by
        rw [front]
        exact skipSpaces_visible (others next List.mem_cons_self) _
      have some : 1 ≤ e.1.length := by
        obtain ⟨c,tail,first,-⟩ := here.visible
        rw [first]
        simp
      rw [text,parseItems,here.read fuel nesting 44 _ depth (.inl rfl)]
      simp only [skipSpaces_cons 44 _ (by decide),visible]
      have read := ih (done ++ [e.2]) (fuel + 1) (by simp) others (by omega)
      rw [read,List.append_assoc]
      rfl

theorem bracketed_items (text rest : Bytes) (v : Json) (denotes : Denotes text v) (clean : 0 ∉ rest) :
    bracketed (text ++ rest) =
      (parseItems ((text ++ rest).length + 4) 1 [] (text ++ rest ++ closing)).map Prod.fst := by
  have framed : bytes "[ " ++ (text ++ rest) ++ bytes " ]" = 91::32::(text ++ rest ++ closing) := rfl
  have whole : 0 ∉ 91::32::(text ++ rest ++ closing) := by simp [denotes.clean,clean,closing]
  have skipped : skipBom (91::32::(text ++ rest ++ closing)) = 91::32::(text ++ rest ++ closing) := rfl
  have visible : skipSpaces (32::(text ++ rest ++ closing)) = text ++ rest ++ closing := by
    rw [List.append_assoc]
    exact skipSpaces_visible denotes _
  have size : (91::32::(text ++ rest ++ closing)).length = (text ++ rest).length + 4 := by simp [closing,Nat.add_assoc]
  unfold bracketed parseString
  rw [framed,cstr_clean _ whole]
  simp only [skipped,size]
  rw [parseValue,if_neg (by omega),skipSpaces_cons 91 _ (by decide)]
  simp only [visible]
  obtain ⟨c,tail,rfl,-,other⟩ := denotes.visible
  simp [other]

theorem bracketed_denoted (entries : List (Bytes × Json)) (denotes : ∀ e ∈ entries, Denotes e.1 e.2) :
    bracketed (commaList (entries.map Prod.fst)) = some (.array (entries.map Prod.snd)) := by
  cases entries with
  | nil => rfl
  | cons e entries =>
    have clean : 0 ∉ (entries.map Prod.fst).flatMap (44::·) := by
      simp only [List.mem_flatMap,List.mem_map,not_exists,not_and]
      rintro text ⟨other,member,rfl⟩ zero
      exact (denotes other (List.mem_cons_of_mem _ member)).clean (by simpa using zero)
    have read := parseItems_denoted (e::entries) [] ((commaList ((e::entries).map Prod.fst)).length + 4) 1 (by simp)
      denotes (by omega) (by omega)
    have items := bracketed_items e.1 ((entries.map Prod.fst).flatMap (44::·)) e.2 (denotes e List.mem_cons_self) clean
    rw [← commaList,← List.map_cons] at items
    rw [items,read]
    rfl

theorem verbatim_plain {label : Bytes} (plain : Plain label) : Verbatim label := fun c member =>
  (plain.clean c member).2

theorem bracketed_quoted (labels : List Bytes) (verbatim : ∀ l ∈ labels, Verbatim l) :
    bracketed (commaList (labels.map quote)) = some (.array (labels.map .string)) := by
  have read := bracketed_denoted (labels.map fun l => (quote l,.string l)) fun e member => by
    obtain ⟨label,inside,rfl⟩ := List.mem_map.mp member
    exact denotes_quote label (verbatim label inside)
  simpa [List.map_map,Function.comp_def] using read

def Named (bits : List JbdBit) : Prop :=
  ∀ bp ∈ bits, Plain bp.label ∧ (bits.find? (fun b => caseEqual b.label bp.label)).map JbdBit.mask = some bp.mask

instance (bits : List JbdBit) : Decidable (Named bits) :=
  inferInstanceAs (Decidable (∀ bp ∈ bits, _ ∧ _))

/-- A list of names is the mask of its names; an empty one is refused. -/
private theorem parseBits_plain (bits chosen : List JbdBit) (named : Named bits) (inside : ∀ bp ∈ chosen, bp ∈ bits) :
    (parseBits (commaList (chosen.map JbdBit.label)) bits).toOption =
      if chosen = [] then none else some (masks chosen 0) := by
  by_cases empty : chosen = []
  · rw [empty]
    rfl
  have plain (bp : JbdBit) (member : bp ∈ chosen) := (named bp (inside bp member)).1
  have found : ∀ bp ∈ chosen, (matching bits bp.label).map JbdBit.mask = some bp.mask := by
    intro bp member
    rw [matching,List.take_of_length_le (plain bp member).short]
    exact (named bp (inside bp member)).2
  have parsed := parseBits_labels empty 44 (by decide)
    (fun bp member => ⟨(plain bp member).nonempty,fun c occurs => ((plain bp member).clean c occurs).1⟩)
    (fun bp member => (plain bp member).letter) found
  rw [if_neg empty,← joined_comma,parsed]
  rfl

def setBits (bits : List JbdBit) (val : UInt16) : List JbdBit := bits.filter (fun bp => val &&& bp.mask ≠ 0)

private theorem room_filter (bits : List JbdBit) (val : UInt16) :
    room ((setBits bits val).map JbdBit.label) ≤ room (bits.map JbdBit.label) := by
  induction bits with
  | nil => simp [setBits]
  | cons bp bits ih =>
    have step (l : Bytes) (labels : List Bytes) : room (l::labels) = l.length + 3 + room labels := by simp [room]
    unfold setBits at ih ⊢
    rw [List.filter_cons,List.map_cons,step]
    split_ifs
    · rw [List.map_cons,step]
      omega
    · omega

private theorem bitList_plain (fmt : Fmt) (bits : List JbdBit) (val : UInt16) (json : fmt.outfmt = .json)
    (comma : fmt.sepstr = [44]) (enough : room (bits.map JbdBit.label) < 192) :
    bitList fmt bits val = commaList (((setBits bits val).map JbdBit.label).map quote) := by
  have quoted : shown fmt = quote := funext fun label => if_pos json
  have fits : (joined [44] (((setBits bits val).map JbdBit.label).map quote)).length < 192 := by
    have fewer := room_filter bits val
    by_cases none : setBits bits val = []
    · simp [none,joined]
    · have length := joined_length [44] (((setBits bits val).map JbdBit.label).map quote) (by simpa using none)
      have width : (((setBits bits val).map JbdBit.label).map quote).map (fun l => l.length + ([44] : Bytes).length) =
          ((setBits bits val).map JbdBit.label).map (fun l => l.length + 3) := by
        rw [List.map_map]
        apply List.map_congr_left
        intro label _
        simp [quote]
      rw [width] at length
      unfold room at fewer enough
      omega
  have collected := foldl_addstr_joined fmt 192 ((setBits bits val).map JbdBit.label) []
    (by rw [quoted]; exact quote_nonempty _) (by rwa [quoted,comma])
  rw [List.foldl_map,setBits,List.foldl_filter] at collected
  rw [← joined_comma]
  simpa [bitList,setBits,joined,quoted,comma] using collected

/-- What a list of bits stands for when it is written back. -/
theorem bits_return (fmt : Fmt) (bits : List JbdBit) (val : UInt16) (json : fmt.outfmt = .json)
    (comma : fmt.sepstr = [44]) (named : Named bits) (enough : room (bits.map JbdBit.label) < 127) :
    bracketed (bitList fmt bits val) = some (.array (((setBits bits val).map JbdBit.label).map .string)) ∧
      (parseBits (joinNames (((setBits bits val).map JbdBit.label).map .string) []) bits).toOption =
        if setBits bits val = [] then none else some (masks (setBits bits val) 0) := by
  have inside : ∀ bp ∈ setBits bits val, bp ∈ bits := fun bp member => List.mem_of_mem_filter member
  have plain : ∀ l ∈ (setBits bits val).map JbdBit.label, Plain l := by
    intro l member
    obtain ⟨bp,known,rfl⟩ := List.mem_map.mp member
    exact (named bp (inside bp known)).1
  have fewer := room_filter bits val
  have joined := joinNames_plain ((setBits bits val).map JbdBit.label) [] plain (by simp) (by simp [commaList]; omega)
  constructor
  · rw [bitList_plain fmt bits val json comma (by omega)]
    exact bracketed_quoted _ fun l member => verbatim_plain (plain l member)
  · rw [show ([] : Bytes) = commaList [] from rfl,joined]
    exact parseBits_plain bits (setBits bits val) named inside

private theorem and_bit (val mask : UInt16) (k : Nat) (single : mask.toNat = 2^k) : val &&& mask = 0 ∨ val &&& mask = mask := by
  have bit := Nat.and_two_pow val.toNat k
  rw [← single,← UInt16.toNat_and] at bit
  cases known : val.toNat.testBit k with
  | false => exact .inl (UInt16.toNat_inj.mp (by simpa [known] using bit))
  | true => exact .inr (UInt16.toNat_inj.mp (by simpa [known] using bit))

theorem masks_or (chosen : List JbdBit) (mask : UInt16) : masks chosen mask = mask ||| masks chosen 0 := by
  induction chosen generalizing mask with
  | nil => simp [masks]
  | cons bp chosen ih =>
    have step (mask : UInt16) : masks (bp::chosen) mask = masks chosen (mask ||| bp.mask) := rfl
    rw [step,step,ih (mask ||| bp.mask),ih (0 ||| bp.mask)]
    simp [UInt16.or_assoc]

/-- The bits that a value has in the table make up the part of it that the table covers. -/
theorem masks_setBits (bits : List JbdBit) (val : UInt16) (single : ∀ bp ∈ bits, ∃ k, bp.mask.toNat = 2^k) :
    masks (setBits bits val) 0 = val &&& masks bits 0 := by
  induction bits with
  | nil => simp [setBits,masks]
  | cons bp bits ih =>
    obtain ⟨⟨k,here⟩,others⟩ := List.forall_mem_cons.mp single
    have step (chosen : List JbdBit) : masks (bp::chosen) 0 = bp.mask ||| masks chosen 0 := by
      rw [← masks_or]
      simp [masks]
    rw [step]
    have split : val &&& (bp.mask ||| masks bits 0) = (val &&& bp.mask) ||| (val &&& masks bits 0) :=
      UInt16.toBitVec_inj.mp BitVec.and_or_distrib_left
    rw [split]
    rcases and_bit val bp.mask k here with absent | present
    · have skipped : setBits (bp::bits) val = setBits bits val := by simp [setBits,absent]
      rw [skipped,ih others,absent,UInt16.zero_or]
    · have nonzero : bp.mask ≠ 0 := by
        intro zero
        have positive := Nat.two_pow_pos k
        rw [zero] at here
        simp at here
        omega
      have kept : setBits (bp::bits) val = bp::setBits bits val := by simp [setBits,present,nonzero]
      rw [kept,step,ih others,present]

example : masks (setBits funcBits 0x0A) 0 = 0x0A &&& masks funcBits 0 := by decide +kernel

theorem setBits_eq_nil (bits : List JbdBit) (val : UInt16) (single : ∀ bp ∈ bits, ∃ k, bp.mask.toNat = 2^k) :
    setBits bits val = [] ↔ val &&& masks bits 0 = 0 := by
  rw [← masks_setBits bits val single]
  cases kept : setBits bits val with
  | nil => simp [masks]
  | cons bp chosen =>
    have member : bp ∈ setBits bits val := by simp [kept]
    have has : val &&& bp.mask ≠ 0 := by simpa using (List.mem_filter.mp member).2
    have first : masks (bp::chosen) 0 = bp.mask ||| masks chosen 0 := by
      rw [← masks_or]
      simp [masks]
    rw [first,UInt16.or_eq_zero_iff]
    simp only [reduceCtorEq,false_iff]
    rintro ⟨zero,-⟩
    exact has (by simp [zero])

private theorem tables_named : Named funcBits ∧ Named ntcBits := by decide +kernel

theorem funcBits_named : Named funcBits := tables_named.1

theorem ntcBits_named : Named ntcBits := tables_named.2

theorem single_bits : ∀ bp ∈ funcBits ++ ntcBits, ∃ k, bp.mask.toNat = 2^k := by
  have powers : ∀ bp ∈ funcBits ++ ntcBits, ∃ k ∈ List.range 8, bp.mask.toNat = 2^k := by decide
  intro bp member
  obtain ⟨k,-,same⟩ := powers bp member
  exact ⟨k,same⟩

theorem whole_masks : masks funcBits 0 = 0xFF ∧ masks ntcBits 0 = 0xFF := by decide

theorem whole_room : room (funcBits.map JbdBit.label) < 127 ∧ room (ntcBits.map JbdBit.label) < 127 := by decide

end Jbdtool
