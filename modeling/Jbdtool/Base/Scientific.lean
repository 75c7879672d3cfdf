import Jbdtool.Base.Decimals
import Jbdtool.Base.Numerals

/-! The numerals strtod reads: digits around a point, and an exponent. What is written
this way is read, and what is read was written this way. -/
namespace CString

def digitsText (digits : List Nat) : Bytes := digits.map (fun d => UInt8.ofNat (48 + d))

private theorem digitValue_some (c : UInt8) (d : Nat) (value : digitValue c = some d) (small : d < 10) :
    c = UInt8.ofNat (48 + d) := by
  have all : digitValue c = some (c.toNat - 48) ∧ 48 ≤ c.toNat ∧ c.toNat ≤ 57 ∨ ∀ d, digitValue c = some d → ¬ d < 10 := by
    unfold digitValue isdigit
    simp only [Bool.and_eq_true,decide_eq_true_eq,UInt8.le_iff_toNat_le]
    split_ifs with digit upper lower
    · exact .inl ⟨rfl,digit⟩
    · apply Or.inr
      intro d same
      have := Option.some.inj same
      change 65 ≤ c.toNat ∧ c.toNat ≤ 90 at upper
      omega
    · apply Or.inr
      intro d same
      have := Option.some.inj same
      change 97 ≤ c.toNat ∧ c.toNat ≤ 122 at lower
      omega
    · exact .inr fun d same => nomatch same
  rcases all with ⟨digit,low,high⟩ | other
  · have same : c.toNat - 48 = d := Option.some.inj (digit.symm.trans value)
    rw [← UInt8.toNat_inj]
    rw [UInt8.toNat_ofNat',Nat.mod_eq_of_lt (by omega)]
    omega
  · exact (other d value small).elim

private theorem takeDigits_spec (s : Bytes) : s = digitsText (takeDigits 10 s).1 ++ (takeDigits 10 s).2 ∧
    (∀ d ∈ (takeDigits 10 s).1, d < 10) ∧ Stops 10 (takeDigits 10 s).2 := by
  induction s with
  | nil => exact ⟨rfl,by simp [takeDigits],stops_nil 10⟩
  | cons c s ih =>
    have stopped (other : isDigitOf 10 c = false) : Stops 10 (c::s) := by
      intro d t same
      rwa [← (List.cons.inj same).1]
    unfold takeDigits
    cases value : digitValue c with
    | none => exact ⟨rfl,by simp,stopped (by simp [isDigitOf,value])⟩
    | some d =>
      by_cases small : d < 10
      · simp only [small,if_true]
        obtain ⟨split,decimal,ended⟩ := ih
        apply And.intro
        · rw [digitsText,List.map_cons,List.cons_append,← digitValue_some c d value small]
          exact congrArg (c::·) split
        · exact ⟨List.forall_mem_cons.mpr ⟨small,decimal⟩,ended⟩
      · simp only [small,if_false]
        exact ⟨rfl,by simp,stopped (by simp [isDigitOf,value,small])⟩

private theorem takeDigits_text (digits : List Nat) (rest : Bytes) (decimal : ∀ d ∈ digits, d < 10) (stops : Stops 10 rest) :
    takeDigits 10 (digitsText digits ++ rest) = (digits,rest) :=
  takeDigits_append digits rest 10 (fun d member => ⟨decimal d member,decimal d member⟩) stops

/-- The digits behind a point. -/
def takeFraction : Bytes → List Nat × Bytes
  | 46::rest => takeDigits 10 rest
  | rest => ([],rest)

private theorem strtod_eq (s : Bytes) : strtod s =
    let signed := numeralSign (s.dropWhile isspace)
    let whole := takeDigits 10 signed.2
    let fraction := takeFraction whole.2
    if whole.1 = [] ∧ fraction.1 = [] then (0,s) else
    let exponent := takeExponent fraction.2
    let value := (numeralValue 10 (whole.1 ++ fraction.1) : ℚ) * 10^(exponent.1 - fraction.1.length)
    (if signed.1 then -value else value,exponent.2) := rfl

structure Exponent where
  letter : UInt8
  sign : Bytes
  digits : List Nat
  marked : letter = 101 ∨ letter = 69
  signed : sign = [] ∨ sign = [43] ∨ sign = [45]
  decimal : ∀ d ∈ digits, d < 10
  nonempty : digits ≠ []

def Exponent.text (e : Exponent) : Bytes := e.letter::(e.sign ++ digitsText e.digits)

def Exponent.value (e : Exponent) : Int :=
  if e.sign = [45] then -(numeralValue 10 e.digits : Int) else numeralValue 10 e.digits

private theorem numeralSign_digits (digits : List Nat) (rest : Bytes) (decimal : ∀ d ∈ digits, d < 10)
    (nonempty : digits ≠ []) :
    numeralSign (digitsText digits ++ rest) = (false,digitsText digits ++ rest) := by
  obtain ⟨d,digits,rfl⟩ := List.exists_cons_of_ne_nil nonempty
  exact numeralSign_digit d _ (decimal d List.mem_cons_self)

private theorem takeExponent_text (e : Exponent) (rest : Bytes) (stops : Stops 10 rest) :
    takeExponent (e.text ++ rest) = (e.value,rest) := by
  have run := takeDigits_text e.digits rest e.decimal stops
  have plain := numeralSign_digits e.digits rest e.decimal e.nonempty
  have signed : numeralSign (e.sign ++ digitsText e.digits ++ rest) = (decide (e.sign = [45]),digitsText e.digits ++ rest) := by
    rcases e.signed with none | plus | minus
    · rw [none,List.nil_append,plain]
      simp
    · rw [plus]
      rfl
    · rw [minus]
      rfl
  rw [Exponent.text,List.cons_append,takeExponent]
  simp only [signed,run,e.marked,e.nonempty,ne_eq,not_false_eq_true,and_self,if_true,decide_eq_true_eq]
  rfl

private theorem takeExponent_spec (s : Bytes) : takeExponent s = (0,s) ∨
    ∃ e : Exponent, s = e.text ++ (takeExponent s).2 ∧ (takeExponent s).1 = e.value := by
  cases s with
  | nil => exact .inl rfl
  | cons c s =>
    obtain ⟨split,decimal,-⟩ := takeDigits_spec (numeralSign s).2
    by_cases read : (c = 101 ∨ c = 69) ∧ (takeDigits 10 (numeralSign s).2).1 ≠ []
    · have sign : ∃ sign, (sign = [] ∨ sign = [43] ∨ sign = [45]) ∧ s = sign ++ (numeralSign s).2 ∧
          (numeralSign s).1 = decide (sign = [45]) := by
        unfold numeralSign
        split
        · exact ⟨[45],by simp,rfl,rfl⟩
        · exact ⟨[43],by simp,rfl,rfl⟩
        · exact ⟨[],by simp,rfl,rfl⟩
      obtain ⟨sign,kind,front,value⟩ := sign
      have taken : takeExponent (c::s) = (if (numeralSign s).1 then -(numeralValue 10 (takeDigits 10 (numeralSign s).2).1 : Int)
          else numeralValue 10 (takeDigits 10 (numeralSign s).2).1,(takeDigits 10 (numeralSign s).2).2) := if_pos read
      apply Or.inr
      refine ⟨⟨c,sign,_,read.1,kind,decimal,read.2⟩,?_,?_⟩
      · rw [taken,Exponent.text,List.cons_append,List.append_assoc,← split,← front]
      · rw [taken,value]
        simp only [Exponent.value,decide_eq_true_eq]
    · exact .inl (if_neg read)

structure Scientific where
  negative : Bool
  whole : List Nat
  fraction : Option (List Nat)
  exponent : Option Exponent
  decimal : ∀ d ∈ whole ++ fraction.getD [], d < 10
  nonempty : whole ++ fraction.getD [] ≠ []

namespace Scientific
variable (n : Scientific)

def signText : Bytes := if n.negative then [45] else []

def fractionText : Bytes := match n.fraction with
  | none => []
  | some digits => 46::digitsText digits

def exponentText : Bytes := match n.exponent with
  | none => []
  | some e => e.text

def text : Bytes := n.signText ++ (digitsText n.whole ++ (n.fractionText ++ n.exponentText))

def magnitude : ℚ := (numeralValue 10 (n.whole ++ n.fraction.getD []) : ℚ) *
  10^((n.exponent.map Exponent.value).getD 0 - (n.fraction.getD []).length)

def value : ℚ := if n.negative then -n.magnitude else n.magnitude

/-- Nothing that the numeral could go on with. -/
def Ends (rest : Bytes) : Prop := Stops 10 rest ∧
  (n.exponent = none → ∀ c s, rest = c::s → c ≠ 101 ∧ c ≠ 69 ∧ (n.fraction = none → c ≠ 46))

theorem ends_nil : n.Ends [] := ⟨stops_nil 10,fun _ _ _ same => nomatch same⟩

private theorem whole_decimal : ∀ d ∈ n.whole, d < 10 := fun d member => n.decimal d (List.mem_append_left _ member)

/-- The text without its sign starts with a digit or the point. -/
theorem unsigned_head (rest : Bytes) : ∃ c s, digitsText n.whole ++ (n.fractionText ++ n.exponentText) ++ rest = c::s ∧
    isspace c = false ∧ c ≠ 45 ∧ c ≠ 43 := by
  cases whole : n.whole with
  | cons d digits =>
    obtain ⟨space,minus,plus,-⟩ := digit_byte d (n.whole_decimal d (by simp [whole]))
    exact ⟨_,_,rfl,space,minus,plus⟩
  | nil =>
    cases fraction : n.fraction with
    | none => exact (n.nonempty (by simp [whole,fraction])).elim
    | some digits =>
      have point : n.fractionText = 46::digitsText digits := by rw [fractionText,fraction]
      rw [point]
      exact ⟨46,_,rfl,by decide⟩

theorem numeralSign_text (rest : Bytes) :
    numeralSign (n.text ++ rest) = (n.negative,digitsText n.whole ++ (n.fractionText ++ n.exponentText) ++ rest) ∧
      (n.text ++ rest).dropWhile isspace = n.text ++ rest := by
  obtain ⟨c,s,first,space,minus,plus⟩ := n.unsigned_head rest
  unfold text signText
  cases n.negative with
  | true => exact ⟨rfl,rfl⟩
  | false =>
    simp only [Bool.false_eq_true,if_false,List.nil_append]
    rw [first]
    apply And.intro
    · unfold numeralSign
      split <;> simp_all
    · exact List.dropWhile_cons_of_neg (by simp [space])

theorem strtod_text (rest : Bytes) (ends : n.Ends rest) : strtod (n.text ++ rest) = (n.value,rest) := by
  obtain ⟨stops,plain⟩ := ends
  have signed := n.numeralSign_text rest
  have behindExponent : takeExponent (n.exponentText ++ rest) = ((n.exponent.map Exponent.value).getD 0,rest) := by
    unfold exponentText
    cases exponent : n.exponent with
    | some e => exact takeExponent_text e rest stops
    | none =>
      cases rest with
      | nil => rfl
      | cons d t =>
        obtain ⟨lower,upper,-⟩ := plain exponent d t rfl
        simp [takeExponent,lower,upper]
  have exponentStops : Stops 10 (n.exponentText ++ rest) := by
    unfold exponentText
    cases n.exponent with
    | none => exact stops
    | some e =>
      intro d t same
      obtain ⟨rfl,-⟩ := List.cons.inj same
      rcases e.marked with lower | upper
      · rw [lower]
        decide
      · rw [upper]
        decide
  have behindWhole : takeDigits 10 (digitsText n.whole ++ (n.fractionText ++ n.exponentText) ++ rest) =
      (n.whole,n.fractionText ++ (n.exponentText ++ rest)) := by
    rw [List.append_assoc,List.append_assoc]
    apply takeDigits_text n.whole _ n.whole_decimal
    unfold fractionText
    cases n.fraction with
    | none => exact exponentStops
    | some digits =>
      intro d t same
      obtain ⟨rfl,-⟩ := List.cons.inj same
      decide
  have behindPoint : takeFraction (n.fractionText ++ (n.exponentText ++ rest)) =
      (n.fraction.getD [],n.exponentText ++ rest) := by
    cases fraction : n.fraction with
    | some digits =>
      have point : n.fractionText = 46::digitsText digits := by rw [fractionText,fraction]
      rw [point]
      apply takeDigits_text digits _ _ exponentStops
      intro d member
      exact n.decimal d (by simp [fraction,member])
    | none =>
      have point : n.fractionText = [] := by rw [fractionText,fraction]
      rw [point,List.nil_append]
      unfold takeFraction
      split
      · rename_i t same
        unfold exponentText at same
        cases exponent : n.exponent with
        | none =>
          rw [exponent] at same
          exact ((plain exponent 46 t same).2.2 fraction rfl).elim
        | some e =>
          rw [exponent] at same
          have mark : e.letter = 46 := (List.cons.inj same).1
          rcases e.marked with lower | upper
          · exact absurd (lower.symm.trans mark) (by decide)
          · exact absurd (upper.symm.trans mark) (by decide)
      · rfl
  have read : ¬ (n.whole = [] ∧ n.fraction.getD [] = []) := fun none => n.nonempty (by rw [none.1,none.2]; rfl)
  simp only [strtod_eq,signed.1,signed.2,behindWhole,behindPoint,behindExponent,read,if_false]
  rfl

/-- No letter but that of the exponent stands in a numeral. -/
theorem unsigned_chars : ∀ c ∈ digitsText n.whole ++ (n.fractionText ++ n.exponentText),
    isdigit c = true ∨ c = 46 ∨ c = 101 ∨ c = 69 ∨ c = 43 ∨ c = 45 := by
  have digits (run : List Nat) (small : ∀ d ∈ run, d < 10) : ∀ c ∈ digitsText run, isdigit c = true := by
    intro c member
    obtain ⟨d,inside,rfl⟩ := List.mem_map.mp member
    have bound := small d inside
    interval_cases d <;> decide
  intro c member
  rw [List.mem_append,List.mem_append] at member
  rcases member with whole | fraction | exponent
  · exact .inl (digits _ n.whole_decimal c whole)
  · unfold fractionText at fraction
    cases known : n.fraction with
    | none =>
      rw [known] at fraction
      cases fraction
    | some run =>
      rw [known] at fraction
      rcases List.mem_cons.mp fraction with point | digit
      · exact .inr (.inl point)
      · exact .inl (digits run (fun d inside => n.decimal d (by simp [known,inside])) c digit)
  · unfold exponentText at exponent
    cases known : n.exponent with
    | none =>
      rw [known] at exponent
      cases exponent
    | some e =>
      rw [known] at exponent
      rcases List.mem_cons.mp exponent with letter | later
      · rw [letter]
        exact .inr (.inr (e.marked.imp_right .inl))
      · rcases List.mem_append.mp later with sign | digit
        · rcases e.signed with none | plus | minus
          · rw [none] at sign
            cases sign
          · rw [plus] at sign
            simp [List.mem_singleton.mp sign]
          · rw [minus] at sign
            simp [List.mem_singleton.mp sign]
        · exact .inl (digits e.digits e.decimal c digit)

private theorem sign_split (s : Bytes) (plus : s.head? ≠ some 43) :
    s = (if (numeralSign s).1 then [45] else []) ++ (numeralSign s).2 := by
  unfold numeralSign
  split
  · rfl
  · exact (plus rfl).elim
  · rfl

private theorem fraction_split (s : Bytes) : ∃ fraction : Option (List Nat), (∀ d ∈ fraction.getD [], d < 10) ∧
    (takeFraction s).1 = fraction.getD [] ∧
    s = (match fraction with | none => [] | some digits => 46::digitsText digits) ++ (takeFraction s).2 := by
  unfold takeFraction
  split
  · rename_i rest
    obtain ⟨split,decimal,-⟩ := takeDigits_spec rest
    exact ⟨some (takeDigits 10 rest).1,decimal,rfl,congrArg (46::·) split⟩
  · exact ⟨none,by simp,rfl,rfl⟩

private theorem exponent_split (s : Bytes) : ∃ exponent : Option Exponent,
    (takeExponent s).1 = (exponent.map Exponent.value).getD 0 ∧
    s = (match exponent with | none => [] | some e => e.text) ++ (takeExponent s).2 := by
  rcases takeExponent_spec s with absent | ⟨e,split,value⟩
  · rw [absent]
    exact ⟨none,rfl,rfl⟩
  · exact ⟨some e,value,split⟩

private theorem takeDigits_digit (c : UInt8) (s : Bytes) (digit : isdigit c = true) : (takeDigits 10 (c::s)).1 ≠ [] := by
  have small : isDigitOf 10 c = true := by rw [isDigitOf_ten,digit]
  obtain ⟨d,value,below⟩ := (isDigitOf_iff 10 c).mp small
  unfold takeDigits
  simp [value,below]

/-- From a sign or a digit on, strtod reads such a numeral, or nothing behind a sign. -/
theorem strtod_spec (c : UInt8) (s : Bytes) (shape : c = 45 ∨ isdigit c = true) :
    c = 45 ∧ strtod (c::s) = (0,c::s) ∨ ∃ n : Scientific, c::s = n.text ++ (strtod (c::s)).2 ∧
      (strtod (c::s)).1 = n.value ∧ (n.negative = true ∨ n.whole ≠ []) := by
  have known : isspace c = false ∧ c ≠ 43 := by
    rcases shape with rfl | digit
    · decide
    · exact forall_byte (fun c => isdigit c = true → isspace c = false ∧ c ≠ 43) (by decide +kernel) c digit
  have first : c = 45 ∧ (numeralSign (c::s)).1 = true ∨ (takeDigits 10 (numeralSign (c::s)).2).1 ≠ [] := by
    rcases shape with rfl | digit
    · exact .inl ⟨rfl,rfl⟩
    · have unsigned : numeralSign (c::s) = (false,c::s) := by
        unfold numeralSign
        split
        · rename_i same
          obtain ⟨rfl,-⟩ := List.cons.inj same
          exact absurd digit (by decide)
        · rename_i same
          exact (known.2 (List.cons.inj same).1).elim
        · rfl
      rw [unsigned]
      exact .inr (takeDigits_digit c s digit)
  have signed := sign_split (c::s) (by simpa using known.2)
  obtain ⟨front,decimal,-⟩ := takeDigits_spec (numeralSign (c::s)).2
  obtain ⟨fraction,small,digits,behind⟩ := fraction_split (takeDigits 10 (numeralSign (c::s)).2).2
  obtain ⟨exponent,value,last⟩ := exponent_split (takeFraction (takeDigits 10 (numeralSign (c::s)).2).2).2
  rw [strtod_eq,List.dropWhile_cons_of_neg (by simp [known.1])]
  simp only [digits,value]
  by_cases unread : (takeDigits 10 (numeralSign (c::s)).2).1 = [] ∧ fraction.getD [] = []
  · rcases first with ⟨minus,-⟩ | some
    · exact .inl ⟨minus,if_pos unread⟩
    · exact (some unread.1).elim
  rw [if_neg unread]
  apply Or.inr
  refine ⟨⟨(numeralSign (c::s)).1,_,fraction,exponent,?_,?_⟩,?_,rfl,first.imp And.right id⟩
  · intro d member
    rcases List.mem_append.mp member with inside | inside
    · exact decimal d inside
    · exact small d inside
  · exact fun none => unread (List.append_eq_nil_iff.mp none)
  · unfold text signText fractionText exponentText
    simp only [List.append_assoc]
    rw [← last,← behind,← front]
    exact signed

end Scientific
end CString
