import Jbdtool.Base.Precision
import Jbdtool.Json.RoundTrip
import Mathlib.Data.List.Nodup

/-! The texts of JSON values, with white space where the parser skips it. -/
namespace Jbdtool
open CString Numbers
namespace Json

def Blank (w : Bytes) : Prop := ∀ c ∈ w, isspace c = true

/-- The text between quotes of a string. -/
inductive Spells : Bytes → Bytes → Prop where
  | nil : Spells [] []
  | plain (c : UInt8) (body s : Bytes) (printable : ¬ c < 32) (quote : c ≠ 34) (backslash : c ≠ 92)
    (later : Spells body s) : Spells (c::body) (c::s)
  | named (c e : UInt8) (body s : Bytes) (escape : unescape c = some e) (later : Spells body s) :
    Spells (92::c::body) (e::s)
  | point (a b c d : UInt8) (n : Nat) (body s : Bytes) (hex : hex4 a b c d = some n) (single : n < 0xD800 ∨ 0xDFFF < n)
    (later : Spells body s) : Spells (92::117::a::b::c::d::body) (utf8Encode n ++ s)
  | pair (a b c d e f g h : UInt8) (lead trail : Nat) (body s : Bytes) (first : hex4 a b c d = some lead)
    (high : 0xD800 ≤ lead ∧ lead ≤ 0xDBFF) (second : hex4 e f g h = some trail) (low : 0xDC00 ≤ trail ∧ trail ≤ 0xDFFF)
    (later : Spells body s) : Spells (92::117::a::b::c::d::92::117::e::f::g::h::body)
      (utf8Encode ((lead - 0xD800) * 1024 + (trail - 0xDC00) + 0x10000) ++ s)

/-- The text of a number, which is rounded to a double. -/
def Numeral (t : Bytes) (x : ℚ) : Prop := ∃ n : Scientific, t = n.text ∧ (n.negative = true ∨ n.whole ≠ []) ∧
  isDecimal t = true ∧ outOfRange n.value = false ∧ x = roundDouble n.value

mutual

/-- A text of the value, `nesting` levels deep. -/
def Text (nesting : Nat) : Json → Bytes → Prop
  | .null, t => nesting ≤ 2048 ∧ t = bytes "null"
  | .boolean b, t => nesting ≤ 2048 ∧ t = if b then bytes "true" else bytes "false"
  | .number x, t => nesting ≤ 2048 ∧ Numeral t x
  | .string s, t => nesting ≤ 2048 ∧ ∃ body, t = 34::(body ++ [34]) ∧ Spells body s
  | .array items, t => nesting ≤ 2048 ∧ ∃ body, t = 91::(body ++ [93]) ∧ TextItems (nesting + 1) items body
  | .object members, t => nesting ≤ 2048 ∧ (members.map Prod.fst).Nodup ∧
    ∃ body, t = 123::(body ++ [125]) ∧ TextMembers (nesting + 1) members body

def TextItems (nesting : Nat) : List Json → Bytes → Prop
  | [], body => Blank body
  | item::items, body => ∃ w t w' tail, body = w ++ (t ++ (w' ++ tail)) ∧ Blank w ∧ Text nesting item t ∧ Blank w' ∧
    (items = [] ∧ tail = [] ∨ items ≠ [] ∧ ∃ more, tail = 44::more ∧ TextItems nesting items more)

def TextMembers (nesting : Nat) : List (Bytes × Json) → Bytes → Prop
  | [], body => Blank body
  | (name,value)::members, body => ∃ w label w₁ w₂ t w₃ tail,
    body = w ++ 34::(label ++ 34::(w₁ ++ 58::(w₂ ++ (t ++ (w₃ ++ tail))))) ∧ Blank w ∧ Spells label name ∧ 0 ∉ name ∧
    Blank w₁ ∧ Blank w₂ ∧ Text nesting value t ∧ Blank w₃ ∧
    (members = [] ∧ tail = [] ∨ members ≠ [] ∧ ∃ more, tail = 44::more ∧ TextMembers nesting members more)

end

/-- A number ends where nothing more can be read of it. -/
def Longest : Json → Bytes → Bytes → Prop
  | .number _, t, rest => (strtod (t ++ rest)).2 = rest ∧ notDecimal (t ++ rest) = false
  | _, _, _ => True

/-- A minus without a number is taken for a zero, and is not passed over. -/
def LoneMinus (rest : Bytes) : Prop := rest.head? = some 45 ∧ strtod rest = (0,rest) ∧ notDecimal rest = false

theorem skipSpaces_split (s : Bytes) : ∃ w, Blank w ∧ s = w ++ skipSpaces s := by
  refine ⟨s.takeWhile isspace,?_,(List.takeWhile_append_dropWhile).symm⟩
  intro c member
  exact List.mem_takeWhile_imp member

theorem skipSpaces_blank (w s : Bytes) (blank : Blank w) : skipSpaces (w ++ s) = skipSpaces s := by
  induction w with
  | nil => rfl
  | cons c w ih =>
    obtain ⟨space,others⟩ := List.forall_mem_cons.mp blank
    rw [skipSpaces,List.cons_append,List.dropWhile_cons_of_pos space]
    exact ih others

theorem skipSpaces_skipSpaces (s : Bytes) : skipSpaces (skipSpaces s) = skipSpaces s :=
  List.dropWhile_idempotent isspace s

/-- `skip_quotes` stops at the first quote behind the text. -/
def Quotable (body : Bytes) : Prop := ∀ rest, skipQuotes (body ++ 34::rest) = some (body,rest)

private theorem skipQuotes_escaped (c : UInt8) (s : Bytes) :
    skipQuotes (92::c::s) = (skipQuotes s).map (fun r => (92::c::r.1,r.2)) := rfl

private theorem skipQuotes_plain (c : UInt8) (s : Bytes) (quote : c ≠ 34) (backslash : c ≠ 92) :
    skipQuotes (c::s) = (skipQuotes s).map (fun r => (c::r.1,r.2)) := by
  conv_lhs => unfold skipQuotes
  split <;> simp_all

private theorem quotable_escaped (c : UInt8) (body : Bytes) : Quotable (92::c::body) ↔ Quotable body := by
  have step (rest : Bytes) : skipQuotes (92::c::body ++ 34::rest) = some (92::c::body,rest) ↔
      skipQuotes (body ++ 34::rest) = some (body,rest) := by
    rw [List.cons_append,List.cons_append,skipQuotes_escaped]
    cases skipQuotes (body ++ 34::rest) <;> simp [Prod.ext_iff]
  exact forall_congr' step

private theorem quotable_plain (c : UInt8) (body : Bytes) (backslash : c ≠ 92) :
    Quotable (c::body) ↔ c ≠ 34 ∧ Quotable body := by
  by_cases quote : c = 34
  · constructor
    · intro quotable
      have empty := quotable []
      rw [quote] at empty
      cases empty
    · exact fun both => (both.1 quote).elim
  have step (rest : Bytes) : skipQuotes (c::body ++ 34::rest) = some (c::body,rest) ↔
      skipQuotes (body ++ 34::rest) = some (body,rest) := by
    rw [List.cons_append,skipQuotes_plain c _ quote backslash]
    cases skipQuotes (body ++ 34::rest) <;> simp [Prod.ext_iff]
  rw [and_iff_right quote]
  exact forall_congr' step

private theorem skipQuotes_some (s body rest : Bytes) (found : skipQuotes s = some (body,rest)) :
    s = body ++ 34::rest ∧ Quotable body := by
  fun_induction skipQuotes s generalizing body rest with
  | case1 => cases found
  | case2 s =>
    cases found
    exact ⟨rfl,fun _ => rfl⟩
  | case3 c s ih =>
    obtain ⟨⟨text,left⟩,inner,same⟩ := Option.map_eq_some_iff.mp found
    cases same
    obtain ⟨split,quotable⟩ := ih text _ inner
    exact ⟨by rw [split]; rfl,(quotable_escaped c text).mpr quotable⟩
  | case4 s => cases found
  | case5 c s quote escape backslash ih =>
    obtain ⟨⟨text,left⟩,inner,same⟩ := Option.map_eq_some_iff.mp found
    cases same
    obtain ⟨split,quotable⟩ := ih text _ inner
    exact ⟨by rw [split]; rfl,(quotable_plain c text backslash).mpr ⟨quote,quotable⟩⟩

private theorem hex4_digits (a b c d : UInt8) (n : Nat) (hex : hex4 a b c d = some n) :
    ∀ x ∈ [a,b,c,d], x ≠ 34 ∧ x ≠ 92 := by
  unfold hex4 at hex
  split_ifs at hex with digits
  intro x member
  have digit := List.all_eq_true.mp digits x member
  exact forall_byte (fun x => isDigitOf 16 x = true → x ≠ 34 ∧ x ≠ 92) (by decide +kernel) x digit

private theorem quotable_hex (a b c d : UInt8) (n : Nat) (body : Bytes) (hex : hex4 a b c d = some n) :
    Quotable (92::117::a::b::c::d::body) ↔ Quotable body := by
  have plain := hex4_digits a b c d n hex
  simp only [List.mem_cons,List.not_mem_nil,or_false,forall_eq_or_imp,forall_eq] at plain
  obtain ⟨⟨qa,ba⟩,⟨qb,bb⟩,⟨qc,bc⟩,qd,bd⟩ := plain
  rw [quotable_escaped,quotable_plain a _ ba,quotable_plain b _ bb,quotable_plain c _ bc,quotable_plain d _ bd]
  simp only [qa,qb,qc,qd,ne_eq,not_false_eq_true,true_and]

theorem spells_of_processString (body s : Bytes) (quotable : Quotable body) (processed : processString body = some s) :
    Spells body s := by
  fun_induction processString body generalizing s with
  | case1 =>
    cases processed
    exact .nil
  | case2 | case4 | case5 | case6 | case8 | case9 | case11 => cases processed
  | case3 a b c d rest n hex single ih =>
    obtain ⟨later,inner,rfl⟩ := Option.map_eq_some_iff.mp processed
    exact .point a b c d n rest later hex single (ih later ((quotable_hex a b c d n rest hex).mp quotable) inner)
  | case7 a b c d lead first high low e f g h rest trail second range ih =>
    obtain ⟨later,inner,rfl⟩ := Option.map_eq_some_iff.mp processed
    rw [quotable_hex a b c d lead _ first,quotable_hex e f g h trail _ second] at quotable
    exact .pair a b c d e f g h lead trail rest later first (by omega) second (by omega) (ih later quotable inner)
  | case10 c rest other e escape ih =>
    obtain ⟨later,inner,rfl⟩ := Option.map_eq_some_iff.mp processed
    exact .named c e rest later escape (ih later ((quotable_escaped c rest).mp quotable) inner)
  | case12 c rest _ _ printable ih =>
    obtain ⟨later,inner,rfl⟩ := Option.map_eq_some_iff.mp processed
    obtain ⟨backslash,visible⟩ := not_or.mp printable
    obtain ⟨quote,open'⟩ := (quotable_plain c rest backslash).mp quotable
    exact .plain c rest later visible quote backslash (ih later open' inner)

private theorem spells_read (body s : Bytes) (spells : Spells body s) : Quotable body ∧ processString body = some s := by
  induction spells with
  | nil => exact ⟨fun _ => rfl,rfl⟩
  | plain c body s printable quote backslash _ ih =>
    refine ⟨(quotable_plain c body backslash).mpr ⟨quote,ih.1⟩,?_⟩
    conv_lhs => unfold processString
    split <;> simp_all
  | named c e body s escape _ ih =>
    refine ⟨(quotable_escaped c body).mpr ih.1,?_⟩
    have other : c ≠ 117 := by
      rintro rfl
      have none : unescape 117 = none := by decide
      rw [none] at escape
      cases escape
    rw [processString,escape]
    · simp only [ih.2]
      rfl
    · intro a b d f rest same _
      exact other same
  | point a b c d n body s hex single _ ih =>
    refine ⟨(quotable_hex a b c d n body hex).mpr ih.1,?_⟩
    simp [processString,hex,single,ih.2]
  | pair a b c d e f g h lead trail body s first high second low _ ih =>
    refine ⟨?_,?_⟩
    · rw [quotable_hex a b c d lead _ first,quotable_hex e f g h trail _ second]
      exact ih.1
    · have surrogate : ¬ (lead < 0xD800 ∨ 0xDFFF < lead) := by omega
      have leading : ¬ 0xDBFF < lead := by omega
      have trailing : ¬ (trail < 0xDC00 ∨ 0xDFFF < trail) := by omega
      simp only [processString,first,second,surrogate,leading,trailing,if_false,ih.2]
      rfl

/-- A quoted string is read exactly when its text spells one. -/
theorem getQuotedString_iff (s t rest : Bytes) : getQuotedString s = some (t,rest) ↔
    ∃ body, s = 34::(body ++ 34::rest) ∧ Spells body t := by
  constructor
  · intro read
    unfold getQuotedString at read
    split at read
    · rename_i s
      split at read
      · cases read
      · rename_i text left found
        obtain ⟨split,quotable⟩ := skipQuotes_some s text left found
        obtain ⟨processed,same,pair⟩ := Option.map_eq_some_iff.mp read
        cases pair
        exact ⟨text,by rw [split],spells_of_processString text t quotable same⟩
    · cases read
  · rintro ⟨body,rfl,spells⟩
    obtain ⟨quotable,processed⟩ := spells_read body t spells
    simp only [getQuotedString,quotable rest,processed,Option.map_some]

/-- What can stand behind a value inside a document, or its end. -/
def Behind (rest : Bytes) : Prop := ∀ c s, rest = c::s → isspace c = true ∨ c = 44 ∨ c = 93 ∨ c = 125

private theorem behind_char (c : UInt8) (mark : isspace c = true ∨ c = 44 ∨ c = 93 ∨ c = 125) :
    isDigitOf 10 c = false ∧ c ≠ 101 ∧ c ≠ 69 ∧ c ≠ 46 ∧ c ≠ 120 ∧ c ≠ 88 :=
  forall_byte (fun c => isspace c = true ∨ c = 44 ∨ c = 93 ∨ c = 125 →
    isDigitOf 10 c = false ∧ c ≠ 101 ∧ c ≠ 69 ∧ c ≠ 46 ∧ c ≠ 120 ∧ c ≠ 88) (by decide +kernel) c mark

private theorem behind_ends (n : Scientific) (rest : Bytes) (behind : Behind rest) : n.Ends rest := by
  constructor
  · intro c s same
    exact (behind_char c (behind c s same)).1
  · intro _ c s same
    obtain ⟨-,lower,upper,point,-⟩ := behind_char c (behind c s same)
    exact ⟨lower,upper,fun _ => point⟩

private theorem notDecimal_text (n : Scientific) (rest : Bytes) (other : ∀ c s, rest = c::s → c ≠ 120 ∧ c ≠ 88) :
    notDecimal (n.text ++ rest) = false := by
  have letter (c : UInt8) (shape : isdigit c = true ∨ c = 46 ∨ c = 101 ∨ c = 69 ∨ c = 43 ∨ c = 45) :
      c ≠ 120 ∧ c ≠ 88 ∧ tolower c ≠ 105 ∧ tolower c ≠ 110 :=
    forall_byte (fun c => isdigit c = true ∨ c = 46 ∨ c = 101 ∨ c = 69 ∨ c = 43 ∨ c = 45 →
      c ≠ 120 ∧ c ≠ 88 ∧ tolower c ≠ 105 ∧ tolower c ≠ 110) (by decide +kernel) c shape
  have chars := n.unsigned_chars
  obtain ⟨first,more,start,-⟩ := n.unsigned_head []
  rw [List.append_nil] at start
  unfold notDecimal
  rw [(n.numeralSign_text rest).1]
  simp only
  rw [start] at chars ⊢
  obtain ⟨here,later⟩ := List.forall_mem_cons.mp chars
  rw [List.cons_append]
  have second (x : UInt8) (t : Bytes) (next : more ++ rest = x::t) : x ≠ 120 ∧ x ≠ 88 := by
    cases more with
    | nil => exact other x t next
    | cons y more =>
      obtain ⟨rfl,-⟩ := List.cons.inj next
      obtain ⟨lower,upper,-⟩ := letter y (later y List.mem_cons_self)
      exact ⟨lower,upper⟩
  split
  · rename_i x t same
    obtain ⟨lower,upper⟩ := second x t (List.cons.inj same).2
    simp [lower,upper]
  · rename_i a b c t _ same
    obtain ⟨rfl,-⟩ := List.cons.inj same
    obtain ⟨-,-,i,n⟩ := letter first here
    simp [bytes,i,n]
  · rfl

theorem numeral_head (t : Bytes) (x : ℚ) (numeral : Numeral t x) : ∃ c s, t = c::s ∧ (c = 45 ∨ isdigit c = true) := by
  obtain ⟨n,rfl,front,-⟩ := numeral
  unfold Scientific.text Scientific.signText
  cases negative : n.negative with
  | true => exact ⟨45,_,rfl,.inl rfl⟩
  | false =>
    obtain ⟨d,digits,whole⟩ := List.exists_cons_of_ne_nil (front.resolve_left (by simp [negative]))
    have digit : isdigit (UInt8.ofNat (48 + d)) = true := by
      have small := n.decimal d (by simp [whole])
      interval_cases d <;> decide
    rw [whole]
    exact ⟨_,_,rfl,.inr digit⟩

theorem parseNumber_some (c : UInt8) (s : Bytes) (v : Json) (rest : Bytes) (shape : c = 45 ∨ isdigit c = true)
    (read : parseNumber (c::s) = some (v,rest)) : ∃ t x, v = .number x ∧ c::s = t ++ rest ∧
      (Numeral t x ∧ Longest v t rest ∨ x = 0 ∧ t = [] ∧ LoneMinus rest) := by
  unfold parseNumber at read
  simp only at read
  split_ifs at read with refused
  simp only [Bool.or_eq_true,not_or,Bool.not_eq_true,Bool.not_eq_eq_eq_not] at refused
  obtain ⟨⟨decimal,inside⟩,shown⟩ := refused
  obtain ⟨rfl,rfl⟩ := Prod.mk.inj (Option.some.inj read)
  rcases Scientific.strtod_spec c s shape with ⟨rfl,none⟩ | ⟨n,split,value,front⟩
  · refine ⟨[],_,rfl,?_,.inr ⟨?_,rfl,?_⟩⟩
    · rw [none]
      rfl
    · rw [none]
      rfl
    · rw [none]
      exact ⟨rfl,none,decimal⟩
  · refine ⟨n.text,_,rfl,split,.inl ⟨⟨n,rfl,front,?_,?_,?_⟩,?_,?_⟩⟩
    · have consumed : (c::s).take ((c::s).length - (strtod (c::s)).2.length) = n.text := by
        generalize (strtod (c::s)).2 = left at split
        rw [split]
        simp
      rw [consumed] at shown
      simpa using shown
    · rwa [value] at inside
    · rw [value]
    · rw [← split]
    · rwa [← split]

theorem parseNumber_numeral (t : Bytes) (x : ℚ) (rest : Bytes) (numeral : Numeral t x)
    (longest : Longest (.number x) t rest) : parseNumber (t ++ rest) = some (.number x,rest) := by
  obtain ⟨c,s,first,shape⟩ := numeral_head t x numeral
  obtain ⟨n,text,-,shown,inside,rfl⟩ := numeral
  obtain ⟨stops,decimal⟩ := longest
  have value : (strtod (t ++ rest)).1 = n.value := by
    rw [first,List.cons_append] at stops ⊢
    rcases Scientific.strtod_spec c (s ++ rest) shape with ⟨-,none⟩ | ⟨m,split,value,-⟩
    · rw [none] at stops
      have long := congrArg List.length stops
      simp only [List.length_cons,List.length_append] at long
      omega
    · rw [stops,← List.cons_append,← first] at split
      have same : m.text = n.text := (List.append_cancel_right split).symm.trans text
      have own := n.strtod_text [] n.ends_nil
      have other := m.strtod_text [] m.ends_nil
      rw [value]
      rw [same,own] at other
      exact (Prod.mk.inj other).1.symm
  have consumed : (t ++ rest).take ((t ++ rest).length - rest.length) = t := by simp
  simp only [parseNumber,value,stops,decimal,inside,consumed,shown]
  rfl

theorem longest_behind (v : Json) (nesting : Nat) (t rest : Bytes) (text : Text nesting v t) (behind : Behind rest) :
    Longest v t rest := by
  cases v with
  | number x =>
    rw [Text] at text
    obtain ⟨-,n,rfl,-⟩ := text
    refine ⟨by rw [n.strtod_text rest (behind_ends n rest behind)],notDecimal_text n rest ?_⟩
    intro c s same
    obtain ⟨-,-,-,-,lower,upper⟩ := behind_char c (behind c s same)
    exact ⟨lower,upper⟩
  | _ => exact trivial

end Json
end Jbdtool
