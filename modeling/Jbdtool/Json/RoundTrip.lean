import Jbdtool.Json.Parse
import Mathlib.Tactic.IntervalCases

/-! What the compact serializer prints, the parser reads back. -/
namespace Jbdtool
open CString Numbers
namespace Json

private theorem processString_unicode (a b c d : UInt8) (n : Nat) (rest : Bytes)
    (hex : hex4 a b c d = some n) (ascii : n < 0x80) :
    processString (92::117::a::b::c::d::rest) = (processString rest).map (UInt8.ofNat n::·) := by
  have plain : n < 0xD800 := by omega
  simp [processString,hex,plain,utf8Encode,ascii]

private theorem processString_named (c e : UInt8) (rest : Bytes) (named : unescape c = some e)
    (other : c ≠ 117) : processString (92::c::rest) = (processString rest).map (e::·) := by
  rw [processString,named]
  intro a b d f s same _
  exact other same

private theorem skipQuotes_pair (c : UInt8) (rest : Bytes) :
    skipQuotes (92::c::rest) = (skipQuotes rest).map (fun r => (92::c::r.1,r.2)) := rfl

private theorem plain_char (c : UInt8) (rest : Bytes) (quote : c ≠ 34) (backslash : c ≠ 92) :
    skipQuotes (c::rest) = (skipQuotes rest).map (fun r => (c::r.1,r.2)) ∧
      (¬ c < 32 → processString (c::rest) = (processString rest).map (c::·)) := by
  constructor
  · conv_lhs => unfold skipQuotes
    split <;> simp_all
  · intro printable
    conv_lhs => unfold processString
    split <;> simp_all

/-- An escape is one named letter, a `\u` with two zeros in front, or nothing. -/
private def escapeShape (c : UInt8) : Bool :=
  match escape c with
  | [d] => d == c && d != 34 && d != 92 && decide (¬ d < 32)
  | [b,e] => b == 92 && unescape e == some c && e != 117
  | [b,u,y,z,h,l] => b == 92 && u == 117 && y == 48 && z == 48 && hex4 48 48 h l == some c.toNat &&
      decide (c.toNat < 0x80) && h != 34 && h != 92 && l != 34 && l != 92
  | _ => false

private theorem escape_shape (c : UInt8) : escapeShape c = true := by
  have all : ∀ n < 256, escapeShape (UInt8.ofNat n) = true := by decide +kernel
  simpa using all c.toNat c.toNat_lt

private theorem processString_escape (c : UInt8) (rest : Bytes) :
    processString (escape c ++ rest) = (processString rest).map (c::·) := by
  have shape := escape_shape c
  unfold escapeShape at shape
  split at shape
  · rename_i d same
    simp only [Bool.and_eq_true,beq_iff_eq,bne_iff_ne,decide_eq_true_eq] at shape
    obtain ⟨⟨⟨rfl,quote⟩,backslash⟩,printable⟩ := shape
    rw [same]
    exact (plain_char d rest quote backslash).2 printable
  · rename_i b e same
    simp only [Bool.and_eq_true,beq_iff_eq,bne_iff_ne] at shape
    obtain ⟨⟨rfl,named⟩,other⟩ := shape
    rw [same]
    exact processString_named e c rest named other
  · rename_i b u y z h l same
    simp only [Bool.and_eq_true,beq_iff_eq,bne_iff_ne,decide_eq_true_eq] at shape
    obtain ⟨⟨⟨⟨⟨⟨⟨⟨⟨rfl,rfl⟩,rfl⟩,rfl⟩,hex⟩,ascii⟩,-⟩,-⟩,-⟩,-⟩ := shape
    rw [same]
    have read := processString_unicode 48 48 h l c.toNat rest hex ascii
    rwa [UInt8.ofNat_toNat] at read
  · cases shape

private theorem skipQuotes_escape (c : UInt8) (rest : Bytes) :
    skipQuotes (escape c ++ rest) = (skipQuotes rest).map (fun r => (escape c ++ r.1,r.2)) := by
  have shape := escape_shape c
  unfold escapeShape at shape
  split at shape
  · rename_i d same
    simp only [Bool.and_eq_true,beq_iff_eq,bne_iff_ne,decide_eq_true_eq] at shape
    obtain ⟨⟨⟨rfl,quote⟩,backslash⟩,-⟩ := shape
    rw [same]
    exact (plain_char d rest quote backslash).1
  · rename_i b e same
    simp only [Bool.and_eq_true,beq_iff_eq,bne_iff_ne] at shape
    obtain ⟨⟨rfl,-⟩,-⟩ := shape
    rw [same]
    rfl
  · rename_i b u y z h l same
    simp only [Bool.and_eq_true,beq_iff_eq,bne_iff_ne,decide_eq_true_eq] at shape
    obtain ⟨⟨⟨⟨⟨⟨⟨⟨⟨rfl,rfl⟩,rfl⟩,rfl⟩,-⟩,-⟩,hq⟩,hb⟩,lq⟩,lb⟩ := shape
    rw [same]
    simp only [List.cons_append,List.nil_append,skipQuotes_pair,(plain_char _ _ hq hb).1,
      (plain_char _ _ lq lb).1,(plain_char 48 _ (by decide) (by decide)).1,Option.map_map]
    rfl
  · cases shape

theorem processString_text (s : Bytes) : processString (s.flatMap escape) = some s := by
  induction s with
  | nil => rfl
  | cons c s ih => rw [List.flatMap_cons,processString_escape,ih]; rfl

theorem skipQuotes_text (s rest : Bytes) :
    skipQuotes (s.flatMap escape ++ 34::rest) = some (s.flatMap escape,rest) := by
  induction s with
  | nil => rfl
  | cons c s ih => rw [List.flatMap_cons,List.append_assoc,skipQuotes_escape,ih]; rfl

private theorem getQuotedString_text (s rest : Bytes) :
    getQuotedString (serializeString s ++ rest) = some (s,rest) := by
  have opened : serializeString s ++ rest = 34::(s.flatMap escape ++ 34::rest) := by
    simp [serializeString]
  rw [opened]
  simp only [getQuotedString,skipQuotes_text,processString_text,Option.map_some]

/-- What may follow a value inside a compact document, or its end. -/
def Ends (rest : Bytes) : Prop := ∀ c s, rest = c::s → c = 44 ∨ c = 93 ∨ c = 125

private theorem ends_stops (rest : Bytes) (ends : Ends rest) : Stops 10 rest := by
  intro c s same
  rcases ends c s same with rfl | rfl | rfl <;> rfl

/-- The first character of a numeral, and why it has no leading zero. -/
private theorem showInt_head (n : Int) : ∃ c s, showInt n = c::s ∧ (c = 45 ∨ isdigit c = true) ∧
    (c = 48 → s = []) ∧ (c = 45 → ∃ d t, s = d::t ∧ isdigit d = true ∧ d ≠ 48) := by
  obtain ⟨digits,shown,nonempty,small,value,zero⟩ := showNat_digits n.natAbs
  obtain ⟨d,digits,rfl⟩ := List.exists_cons_of_ne_nil nonempty
  have first := small d (by simp)
  have digit : isdigit (UInt8.ofNat (48 + d)) = true ∧ UInt8.ofNat (48 + d) ≠ 45 ∧
      (UInt8.ofNat (48 + d) = 48 → d = 0) := by
    interval_cases d <;> decide
  have alone (lead : d = 0) : n = 0 ∧ digits = [] := by
    obtain ⟨none,same⟩ := zero (by simp [lead])
    exact ⟨by omega,(List.cons.inj same).2⟩
  unfold showInt
  rw [shown]
  split_ifs with negative
  · refine ⟨45,_,rfl,.inl rfl,by simp,fun _ => ⟨_,_,rfl,digit.1,?_⟩⟩
    intro lead
    have := (alone (digit.2.2 lead)).1
    omega
  · refine ⟨_,_,rfl,.inr digit.1,?_,fun minus => (digit.2.1 minus).elim⟩
    intro lead
    rw [(alone (digit.2.2 lead)).2]
    rfl

private theorem isDecimal_showInt (n : Int) : isDecimal (showInt n) = true := by
  obtain ⟨c,s,shown,-,zero,minus⟩ := showInt_head n
  rw [shown]
  unfold isDecimal
  split
  · rename_i d t same
    obtain ⟨rfl,rfl⟩ := List.cons.inj same
    cases zero rfl
  · rename_i d t same
    obtain ⟨rfl,rfl⟩ := List.cons.inj same
    obtain ⟨e,u,same,-,nonzero⟩ := minus rfl
    exact (nonzero (List.cons.inj same).1.symm).elim
  · rfl

private theorem notDecimal_showInt (n : Int) (rest : Bytes) (ends : Ends rest) :
    notDecimal (showInt n ++ rest) = false := by
  obtain ⟨digits,shown,nonempty,small,-,zero⟩ := showNat_digits n.natAbs
  obtain ⟨d,digits,rfl⟩ := List.exists_cons_of_ne_nil nonempty
  have first := small d (by simp)
  have letter : tolower (UInt8.ofNat (48 + d)) ≠ 105 ∧ tolower (UInt8.ofNat (48 + d)) ≠ 110 ∧
      (UInt8.ofNat (48 + d) = 48 → d = 0) := by
    interval_cases d <;> decide
  unfold notDecimal
  rw [(numeralSign_showInt n rest).1,shown,List.map_cons,List.cons_append]
  generalize UInt8.ofNat (48 + d) = z at letter
  split
  · rename_i x t same
    obtain ⟨lead,same⟩ := List.cons.inj same
    have none := (zero (by simp [letter.2.2 lead])).2
    rw [(List.cons.inj none).2] at same
    rcases ends x t same with rfl | rfl | rfl <;> rfl
  · rename_i a b c t _ same
    obtain ⟨rfl,-⟩ := List.cons.inj same
    simp [bytes,letter]
  · rfl

private theorem parseNumber_text (n : Int) (rest : Bytes) (small : n.natAbs < 2^53) (ends : Ends rest) :
    parseNumber (showInt n ++ rest) = some (.number n,rest) := by
  have value : strtod (showInt n ++ rest) = ((n : ℚ),rest) := by
    apply strtod_showInt n rest (ends_stops rest ends)
    intro c s same
    rcases ends c s same with rfl | rfl | rfl <;> decide
  have exact : roundDouble n = n := roundRat_int 53 (-1074) n small (by decide)
  have inside : outOfRange n = false := by
    have size : |(n : ℚ)| < 2^53 := by
      have : ((n.natAbs : ℕ) : ℚ) < ((2^53 : ℕ) : ℚ) := by exact_mod_cast small
      rwa [Nat.cast_natAbs,Int.cast_abs,Nat.cast_pow] at this
    have large : (2 : ℚ)^53 ≤ 2^1024 := pow_le_pow_right₀ (by norm_num) (by norm_num)
    simp only [outOfRange,exact,ne_eq,not_true_eq_false,decide_false,Bool.and_false,Bool.or_false,
      decide_eq_false_iff_not,not_le]
    exact lt_of_lt_of_le size large
  have consumed : (showInt n ++ rest).take ((showInt n ++ rest).length - rest.length) = showInt n := by
    simp
  simp only [parseNumber,value,consumed,notDecimal_showInt n rest ends,inside,isDecimal_showInt,exact]
  rfl

mutual

/-- Documents whose numbers are whole and below 2^53, whose names are distinct and
free of NULs, and which are not nested too deep to be parsed. -/
def Printable (nesting : Nat) : Json → Prop
  | .null => nesting ≤ 2048
  | .boolean _ => nesting ≤ 2048
  | .number q => nesting ≤ 2048 ∧ ∃ n : Int, q = n ∧ n.natAbs < 2^53
  | .string _ => nesting ≤ 2048
  | .array items => nesting ≤ 2048 ∧ PrintableItems (nesting + 1) items
  | .object members =>
    nesting ≤ 2048 ∧ (members.map Prod.fst).Nodup ∧ PrintableMembers (nesting + 1) members

def PrintableItems (nesting : Nat) : List Json → Prop
  | [] => True
  | item::items => Printable nesting item ∧ PrintableItems nesting items

def PrintableMembers (nesting : Nat) : List (Bytes × Json) → Prop
  | [] => True
  | (name,value)::members => 0 ∉ name ∧ Printable nesting value ∧ PrintableMembers nesting members

end

theorem skipSpaces_cons (c : UInt8) (s : Bytes) (visible : isspace c = false) :
    skipSpaces (c::s) = c::s := List.dropWhile_cons_of_neg (by simp [visible])

private theorem ends_cons (c : UInt8) (s : Bytes) (mark : c = 44 ∨ c = 93 ∨ c = 125) : Ends (c::s) := by
  intro d t same
  obtain ⟨rfl,-⟩ := List.cons.inj same
  exact mark

theorem numeral_char (c : UInt8) (shape : c = 45 ∨ isdigit c = true) :
    isspace c = false ∧ c ≠ 123 ∧ c ≠ 91 ∧ c ≠ 34 ∧ ¬ (c = 102 ∨ c = 116) := by
  have all : ∀ n < 256, (UInt8.ofNat n = 45 ∨ isdigit (UInt8.ofNat n) = true) →
      isspace (UInt8.ofNat n) = false ∧ UInt8.ofNat n ≠ 123 ∧ UInt8.ofNat n ≠ 91 ∧
        UInt8.ofNat n ≠ 34 ∧ ¬ (UInt8.ofNat n = 102 ∨ UInt8.ofNat n = 116) := by decide +kernel
  have known := all c.toNat c.toNat_lt
  rw [UInt8.ofNat_toNat] at known
  exact known shape

private theorem serialize_number (level : Nat) (n : Int) (small : n.natAbs < 2^53) :
    serialize false level (.number n) = showInt n := by
  rw [serialize]
  exact showG17_int n (by omega)

private theorem serialize_head (level : Nat) (v : Json) (nesting : Nat) (printable : Printable nesting v) :
    ∃ c s, serialize false level v = c::s ∧ isspace c = false ∧ c ≠ 93 ∧ c ≠ 0xEF := by
  cases v with
  | null => exact ⟨110,_,rfl,by decide⟩
  | boolean b => cases b <;> exact ⟨_,_,rfl,by decide⟩
  | number q =>
    obtain ⟨-,n,rfl,small⟩ := printable
    obtain ⟨c,s,shown,shape,-⟩ := showInt_head n
    refine ⟨c,s,by rw [serialize_number level n small,shown],(numeral_char c shape).1,?_⟩
    rcases shape with rfl | digit
    · decide
    · constructor <;> rintro rfl <;> exact absurd digit (by decide)
  | string s => exact ⟨34,_,rfl,by decide⟩
  | array items => cases items <;> exact ⟨91,_,rfl,by decide⟩
  | object members => cases members <;> exact ⟨123,_,rfl,by decide⟩

private theorem serializeItems_cons (level : Nat) (item : Json) (items : List Json) :
    serializeItems false level (item::items) = serialize false (level + 1) item ++
      ((if items.isEmpty then [] else [44]) ++ serializeItems false level items) := by
  simp [serializeItems]

private theorem serializeMembers_cons (level : Nat) (name : Bytes) (value : Json)
    (members : List (Bytes × Json)) :
    serializeMembers false level ((name,value)::members) = serializeString name ++
      (58::(serialize false (level + 1) value ++
        ((if members.isEmpty then [] else [44]) ++ serializeMembers false level members))) := by
  simp [serializeMembers]

/-- The first character of a value decides which parser takes it. -/
theorem parseValue_scalar (fuel nesting : Nat) (c : UInt8) (s : Bytes) (depth : nesting ≤ 2048)
    (visible : isspace c = false) (scalar : c ≠ 123 ∧ c ≠ 91) :
    parseValue (fuel + 1) nesting (c::s) =
      if c = 34 then (getQuotedString (c::s)).map (fun r => (.string r.1,r.2))
      else if c = 102 ∨ c = 116 then parseBoolean (c::s)
      else if c = 45 ∨ isdigit c then parseNumber (c::s)
      else if c = 110 then parseNull (c::s)
      else none := by
  rw [parseValue,if_neg (by omega),skipSpaces_cons c s visible]
  simp only [scalar.1,scalar.2,if_false]

theorem parseValue_text (fuel nesting : Nat) (s rest : Bytes) (depth : nesting ≤ 2048) :
    parseValue (fuel + 1) nesting (serializeString s ++ rest) = some (.string s,rest) := by
  have read := getQuotedString_text s rest
  have quoted : serializeString s ++ rest = 34::(s.flatMap escape ++ [34] ++ rest) := by
    simp [serializeString]
  rw [quoted] at read ⊢
  rw [parseValue_scalar fuel nesting _ _ depth (by decide) (by decide),if_pos rfl,read]
  rfl

mutual

/-- The parser inverts the compact serializer and stops where the value ends. -/
private theorem parseValue_serialize : ∀ (v : Json) (nesting fuel level : Nat) (rest : Bytes),
    Printable nesting v → (serialize false level v).length < fuel → Ends rest →
      parseValue fuel nesting (serialize false level v ++ rest) = some (v,rest)
  | _, _, 0, _, _, _, enough, _ => by omega
  | .null, nesting, fuel + 1, level, rest, depth, _, _ => by
    have text : serialize false level .null ++ rest = 110::117::108::108::rest := rfl
    rw [text,parseValue_scalar fuel nesting _ _ depth (by decide) (by decide)]
    rfl
  | .boolean true, nesting, fuel + 1, level, rest, depth, _, _ => by
    have text : serialize false level (.boolean true) ++ rest = 116::114::117::101::rest := rfl
    rw [text,parseValue_scalar fuel nesting _ _ depth (by decide) (by decide)]
    rfl
  | .boolean false, nesting, fuel + 1, level, rest, depth, _, _ => by
    have text : serialize false level (.boolean false) ++ rest = 102::97::108::115::101::rest := rfl
    rw [text,parseValue_scalar fuel nesting _ _ depth (by decide) (by decide)]
    rfl
  | .number q, nesting, fuel + 1, level, rest, printable, _, ends => by
    obtain ⟨depth,n,rfl,small⟩ := printable
    rw [serialize_number level n small]
    obtain ⟨c,s,shown,shape,-⟩ := showInt_head n
    obtain ⟨visible,brace,bracket,quote,letter⟩ := numeral_char c shape
    have read := parseNumber_text n rest small ends
    rw [shown,List.cons_append] at read ⊢
    rw [parseValue_scalar fuel nesting c _ depth visible ⟨brace,bracket⟩,if_neg quote,if_neg letter,
      if_pos shape,read]
  | .string s, nesting, fuel + 1, level, rest, depth, _, _ => by
    rw [serialize]
    exact parseValue_text fuel nesting s rest depth
  | .array [], nesting, fuel + 1, level, rest, printable, _, _ => by
    have text : serialize false level (.array []) ++ rest = 91::93::rest := by simp [serialize]
    rw [text,parseValue,if_neg (by have := printable.1; omega),skipSpaces_cons 91 _ (by decide)]
    rfl
  | .array (item::items), nesting, fuel + 1, level, rest, printable, enough, _ => by
    obtain ⟨depth,inner⟩ := printable
    have text : serialize false level (.array (item::items)) ++ rest =
        91::(serializeItems false level (item::items) ++ 93::rest) := by simp [serialize]
    have size : (serialize false level (.array (item::items))).length =
        (serializeItems false level (item::items)).length + 2 := by simp [serialize]
    obtain ⟨c,s,first,visible,other,-⟩ := serialize_head (level + 1) item _ inner.1
    have read := parseItems_serialize (item::items) [] (nesting + 1) fuel level rest (by simp) inner (by omega)
    rw [text,parseValue,if_neg (by omega),skipSpaces_cons 91 _ (by decide)]
    rw [serializeItems_cons,first] at read ⊢
    simp only [List.cons_append] at read ⊢
    rw [skipSpaces_cons c _ visible]
    simpa [other] using read
  | .object [], nesting, fuel + 1, level, rest, printable, _, _ => by
    have text : serialize false level (.object []) ++ rest = 123::125::rest := by simp [serialize]
    rw [text,parseValue,if_neg (by have := printable.1; omega),skipSpaces_cons 123 _ (by decide)]
    rfl
  | .object (member::members), nesting, fuel + 1, level, rest, printable, enough, _ => by
    obtain ⟨depth,distinct,inner⟩ := printable
    have text : serialize false level (.object (member::members)) ++ rest =
        123::(serializeMembers false level (member::members) ++ 125::rest) := by simp [serialize]
    have size : (serialize false level (.object (member::members))).length =
        (serializeMembers false level (member::members)).length + 2 := by simp [serialize]
    have read := parseMembers_serialize (member::members) [] (nesting + 1) fuel level rest (by simp)
      (by simpa using distinct) inner (by omega)
    obtain ⟨name,value⟩ := member
    rw [text,parseValue,if_neg (by omega),skipSpaces_cons 123 _ (by decide)]
    have first : serializeString name = 34::(name.flatMap escape ++ [34]) := by simp [serializeString]
    rw [serializeMembers_cons,first] at read ⊢
    simp only [List.cons_append] at read ⊢
    rw [skipSpaces_cons 34 _ (by decide)]
    simpa using read

theorem parseItems_serialize : ∀ (items done : List Json) (nesting fuel level : Nat) (rest : Bytes),
    items ≠ [] → PrintableItems nesting items → (serializeItems false level items).length + 1 < fuel →
      parseItems fuel nesting done (serializeItems false level items ++ 93::rest) =
        some (.array (done ++ items),rest)
  | [], _, _, _, _, _, nonempty, _, _ => (nonempty rfl).elim
  | _, _, _, 0, _, _, _, _, enough => by omega
  | [item], done, nesting, fuel + 1, level, rest, _, printable, enough => by
    rw [serializeItems_cons] at enough ⊢
    simp only [List.isEmpty_nil,if_true,serializeItems,List.append_nil] at enough ⊢
    rw [parseItems,parseValue_serialize item nesting fuel (level + 1) (93::rest) printable.1 (by omega)
      (ends_cons _ _ (by simp))]
    rfl
  | item::next::items, done, nesting, fuel + 1, level, rest, _, printable, enough => by
    obtain ⟨c,s,first,visible,-⟩ := serialize_head (level + 1) next _ printable.2.1
    have read := parseItems_serialize (next::items) (done ++ [item]) nesting fuel level rest (by simp) printable.2
    rw [serializeItems_cons] at enough ⊢
    simp only [List.isEmpty_cons,Bool.false_eq_true,if_false,List.length_append,List.length_cons,
      List.append_assoc,List.cons_append,List.nil_append] at enough ⊢
    rw [parseItems,parseValue_serialize item nesting fuel (level + 1) _ printable.1 (by omega)
      (ends_cons _ _ (by simp))]
    have visibleTail : skipSpaces (serializeItems false level (next::items) ++ 93::rest) =
        serializeItems false level (next::items) ++ 93::rest := by
      rw [serializeItems_cons,first]
      exact skipSpaces_cons c _ visible
    simp only [skipSpaces_cons 44 _ (by decide),visibleTail]
    rw [read (by omega),List.append_assoc]
    rfl

theorem parseMembers_serialize : ∀ (members done : List (Bytes × Json)) (nesting fuel level : Nat)
    (rest : Bytes), members ≠ [] → ((done ++ members).map Prod.fst).Nodup →
      PrintableMembers nesting members → (serializeMembers false level members).length + 1 < fuel →
      parseMembers fuel nesting done (serializeMembers false level members ++ 125::rest) =
        some (.object (done ++ members),rest)
  | [], _, _, _, _, _, nonempty, _, _, _ => (nonempty rfl).elim
  | _, _, _, 0, _, _, _, _, _, enough => by omega
  | (name,value)::members, done, nesting, fuel + 1, level, rest, _, distinct, printable, enough => by
    obtain ⟨clean,here,others⟩ := printable
    have fresh : done.any (fun m => m.1 == name) = false := by
      rw [List.map_append,List.nodup_append] at distinct
      simp only [List.any_eq_false,beq_iff_eq]
      intro m member same
      exact distinct.2.2 m.1 (List.mem_map_of_mem member) name (by simp) same
    have named : name.contains 0 = false := by simpa using clean
    rw [serializeMembers_cons] at enough ⊢
    simp only [List.length_append,List.length_cons,List.append_assoc,List.cons_append] at enough ⊢
    rw [parseMembers,getQuotedString_text]
    simp only [named,skipSpaces_cons 58 _ (by decide)]
    cases members with
    | nil =>
      simp only [List.isEmpty_nil,if_true,List.nil_append,serializeMembers] at enough ⊢
      rw [parseValue_serialize value nesting fuel (level + 1) (125::rest) here (by omega)
        (ends_cons _ _ (by simp))]
      simp only [fresh,skipSpaces_cons 125 _ (by decide)]
      rfl
    | cons next members =>
      have read := parseMembers_serialize (next::members) (done ++ [(name,value)]) nesting fuel level rest
        (by simp) (by simpa using distinct) others
      simp only [List.isEmpty_cons,Bool.false_eq_true,if_false,List.cons_append,List.nil_append,
        List.length_cons] at enough ⊢
      rw [parseValue_serialize value nesting fuel (level + 1) _ here (by omega) (ends_cons _ _ (by simp))]
      have visibleTail : skipSpaces (serializeMembers false level (next::members) ++ 125::rest) =
          serializeMembers false level (next::members) ++ 125::rest := by
        obtain ⟨key,item⟩ := next
        rw [serializeMembers_cons]
        exact skipSpaces_cons 34 _ (by decide)
      simp only [fresh,skipSpaces_cons 44 _ (by decide),visibleTail]
      rw [read (by omega),List.append_assoc]
      rfl

end

private theorem escape_clean (c : UInt8) : 0 ∉ escape c := by
  have all : ∀ n < 256, 0 ∉ escape (UInt8.ofNat n) := by decide +kernel
  simpa using all c.toNat c.toNat_lt

private theorem serializeString_clean (s : Bytes) : 0 ∉ serializeString s := by
  simp [serializeString,escape_clean]

private theorem showInt_clean (n : Int) : 0 ∉ showInt n := by
  obtain ⟨digits,shown,-,small,-⟩ := showNat_digits n.natAbs
  have digit (d : Nat) (bound : d < 10) : UInt8.ofNat (48 + d) ≠ 0 := by interval_cases d <;> decide
  have clean : 0 ∉ showNat n.natAbs := by
    rw [shown]
    intro member
    obtain ⟨d,inside,same⟩ := List.mem_map.mp member
    exact digit d (small d inside) same
  unfold showInt
  split_ifs <;> simp [clean]

mutual

private theorem serialize_clean : ∀ (v : Json) (nesting level : Nat), Printable nesting v → 0 ∉ serialize false level v
  | .null, _, _, _ => by rw [serialize]; decide
  | .boolean true, _, _, _ => by rw [serialize]; decide
  | .boolean false, _, _, _ => by rw [serialize]; decide
  | .number q, _, level, printable => by
    obtain ⟨-,n,rfl,small⟩ := printable
    rw [serialize_number level n small]
    exact showInt_clean n
  | .string s, _, _, _ => by rw [serialize]; exact serializeString_clean s
  | .array [], _, _, _ => by rw [serialize]; decide
  | .array (item::items), nesting, level, printable => by
    have inner := serializeItems_clean (item::items) (nesting + 1) level printable.2
    simp [serialize,inner]
  | .object [], _, _, _ => by rw [serialize]; decide
  | .object (member::members), nesting, level, printable => by
    have inner := serializeMembers_clean (member::members) (nesting + 1) level printable.2.2
    simp [serialize,inner]

theorem serializeItems_clean : ∀ (items : List Json) (nesting level : Nat),
    PrintableItems nesting items → 0 ∉ serializeItems false level items
  | [], _, _, _ => by rw [serializeItems]; simp
  | item::items, nesting, level, printable => by
    have first := serialize_clean item nesting (level + 1) printable.1
    have others := serializeItems_clean items nesting level printable.2
    rw [serializeItems_cons]
    cases items <;> simp [first,others]

theorem serializeMembers_clean : ∀ (members : List (Bytes × Json)) (nesting level : Nat),
    PrintableMembers nesting members → 0 ∉ serializeMembers false level members
  | [], _, _, _ => by rw [serializeMembers]; simp
  | (name,value)::members, nesting, level, printable => by
    have first := serialize_clean value nesting (level + 1) printable.2.1
    have others := serializeMembers_clean members nesting level printable.2.2
    rw [serializeMembers_cons]
    cases members <;> simp [serializeString_clean,first,others]

end

theorem cstr_clean (s : Bytes) (clean : 0 ∉ s) : cstr s = s := by
  induction s with
  | nil => rfl
  | cons c s ih =>
    simp only [List.mem_cons,not_or] at clean
    have nonzero : c ≠ 0 := fun same => clean.1 same.symm
    rw [cstr,List.takeWhile_cons_of_pos (by simpa using nonzero)]
    exact congrArg (c::·) (ih clean.2)

/-- A printed document is parsed back whole. -/
theorem parseString_serialize (v : Json) (printable : Printable 0 v) :
    parseString (serialize false 0 v) = some v := by
  obtain ⟨c,s,first,-,-,mark⟩ := serialize_head 0 v 0 printable
  have read := parseValue_serialize v 0 ((serialize false 0 v).length + 1) 0 [] printable (by omega)
    (by intro c s same; cases same)
  rw [List.append_nil] at read
  have text : skipBom (cstr (serialize false 0 v)) = serialize false 0 v := by
    rw [cstr_clean _ (serialize_clean v 0 0 printable),first]
    unfold skipBom
    split
    · rename_i same
      exact (mark (List.cons.inj same).1).elim
    · rfl
  simp only [parseString,text,read,Option.map_some]

theorem initString_ascii (s : Bytes) (ascii : ∀ c ∈ s, c < 128) : initString s = some (.string s) := by
  have single (c : UInt8) : c < 128 → ∀ s, verifyUtf8 (c::s) = some 1 := by
    have alone (c : UInt8) : c < 128 → utf8Length c = 1 ∧ validPoint c.toNat 1 = true :=
      forall_byte (fun c => c < 128 → utf8Length c = 1 ∧ validPoint c.toNat 1 = true) (by decide +kernel) c
    intro below s
    obtain ⟨one,point⟩ := alone c below
    simp [verifyUtf8,one,point]
  have valid : isValidUtf8 s = true := by
    unfold isValidUtf8
    induction s with
    | nil => rfl
    | cons c s ih =>
      obtain ⟨below,rest⟩ := List.forall_mem_cons.mp ascii
      simp only [List.length_cons,validUtf8Fuel,single c below s,List.drop_one,List.tail_cons]
      exact ih rest
  rw [initString,if_pos valid]

end Json
end Jbdtool
