import Jbdtool.Base.CString
import Mathlib.Data.List.DropRight

/-! Numerals as texts: what strtol reads to the end, and the white space around it. -/
namespace CString

def trimmed (s : Bytes) : Bytes := (s.dropWhile isspace).rdropWhile isspace

def Digits (base : Nat) (s : Bytes) (n : Nat) : Prop :=
  s ≠ [] ∧ (∀ c ∈ s, isDigitOf base c = true) ∧ numeralValue base (s.filterMap digitValue) = n

/-- An integer constant of C: hexadecimal behind `0x`, octal behind `0`, else decimal. -/
def Constant (s : Bytes) (n : Nat) : Prop :=
  (∃ x digits, (x = 120 ∨ x = 88) ∧ s = 48::x::digits ∧ Digits 16 digits n) ∨
    (s.head? = some 48 ∧ Digits 8 s n) ∨ (s.head? ≠ some 48 ∧ Digits 10 s n)

inductive Signed (p : Bytes → Nat → Prop) : Bytes → Int → Prop
  | bare {s n} (digits : p s n) : Signed p s n
  | plus {s n} (digits : p s n) : Signed p (43::s) n
  | minus {s n} (digits : p s n) : Signed p (45::s) (-n)

def clamp (n : Int) : Int := max (-longMax - 1) (min longMax n)

theorem isDigitOf_iff (base : Nat) (c : UInt8) : isDigitOf base c = true ↔ ∃ d, digitValue c = some d ∧ d < base := by
  cases value : digitValue c <;> simp [isDigitOf,value]

private theorem takeDigits_whole (base : Nat) (s : Bytes) (n : Nat) :
    Digits base s n ↔ (takeDigits base s).1 ≠ [] ∧ (takeDigits base s).2 = [] ∧
      numeralValue base (takeDigits base s).1 = n := by
  have whole (s : Bytes) (all : ∀ c ∈ s, isDigitOf base c = true) :
      takeDigits base s = (s.filterMap digitValue,[]) := by
    induction s with
    | nil => rfl
    | cons c s ih =>
      obtain ⟨here,others⟩ := List.forall_mem_cons.mp all
      obtain ⟨d,value,small⟩ := (isDigitOf_iff base c).mp here
      simp [takeDigits,value,small,ih others]
  have read (s : Bytes) (ended : (takeDigits base s).2 = []) : ∀ c ∈ s, isDigitOf base c = true := by
    induction s with
    | nil => simp
    | cons c s ih =>
      unfold takeDigits at ended
      cases value : digitValue c with
      | none => simp [value] at ended
      | some d =>
        by_cases small : d < base
        · simp only [value,small,if_true] at ended
          exact List.forall_mem_cons.mpr ⟨(isDigitOf_iff base c).mpr ⟨d,value,small⟩,ih ended⟩
        · simp [value,small] at ended
  have some' (s : Bytes) (all : ∀ c ∈ s, isDigitOf base c = true) : s ≠ [] ↔ s.filterMap digitValue ≠ [] := by
    cases s with
    | nil => simp
    | cons c s =>
      obtain ⟨d,value,-⟩ := (isDigitOf_iff base c).mp (all c List.mem_cons_self)
      simp [value]
  constructor
  · rintro ⟨nonempty,all,value⟩
    rw [whole s all]
    exact ⟨(some' s all).mp nonempty,rfl,value⟩
  · rintro ⟨nonempty,ended,value⟩
    have all := read s ended
    rw [whole s all] at nonempty value
    exact ⟨(some' s all).mpr nonempty,all,value⟩

private theorem takeDigits_suffix (base : Nat) (s : Bytes) : (takeDigits base s).2 <:+ s := by
  induction s with
  | nil => exact List.suffix_rfl
  | cons c s ih =>
    unfold takeDigits
    cases digitValue c with
    | none => exact List.suffix_rfl
    | some d =>
      by_cases small : d < base
      · simp only [small,if_true]
        exact ih.trans (List.suffix_cons c s)
      · simp only [small,if_false]
        exact List.suffix_rfl

private theorem takeDigits_behind (base : Nat) (s rest : Bytes) (stops : Stops base rest) :
    takeDigits base (s ++ rest) = ((takeDigits base s).1,(takeDigits base s).2 ++ rest) := by
  induction s with
  | nil => exact takeDigits_stops base rest stops
  | cons c s ih =>
    rw [List.cons_append]
    unfold takeDigits
    cases digitValue c with
    | none => rfl
    | some d =>
      by_cases small : d < base
      · simp [small,ih]
      · simp [small]

theorem digitValue_none (c : UInt8) (other : c = 43 ∨ c = 44 ∨ c = 45 ∨ c = 124 ∨ isspace c = true) :
    digitValue c = none :=
  forall_byte (fun c => (c = 43 ∨ c = 44 ∨ c = 45 ∨ c = 124 ∨ isspace c = true) → digitValue c = none)
    (by decide +kernel) c other

private theorem stops_space (base : Nat) (blanks : Bytes) (white : ∀ c ∈ blanks, isspace c = true) : Stops base blanks := by
  rintro c s rfl
  simp [isDigitOf,digitValue_none c (by simp [white c List.mem_cons_self])]

private theorem numeralBase_auto (s : Bytes) : numeralBase 0 s =
    match s with
    | 48::x::h::s => if (x = 120 ∨ x = 88) ∧ isDigitOf 16 h then (16,h::s) else (8,48::x::h::s)
    | 48::s => (8,48::s)
    | s => (10,s) := by
  unfold numeralBase
  split <;> simp

private theorem numeralBase_ten (s : Bytes) : numeralBase 10 s = (10,s) := by
  unfold numeralBase
  split <;> simp

def unsigned (base : Nat) (s : Bytes) : Nat × List Nat × Bytes :=
  ((numeralBase base s).1,takeDigits (numeralBase base s).1 (numeralBase base s).2)

/-- `p` is the notation that strtol reads in the base. -/
def Reads (base : Nat) (p : Bytes → Nat → Prop) : Prop := ∀ s n,
  p s n ↔ (unsigned base s).2.1 ≠ [] ∧ (unsigned base s).2.2 = [] ∧
    numeralValue (unsigned base s).1 (unsigned base s).2.1 = n

theorem reads_decimal : Reads 10 (Digits 10) := by
  intro s n
  unfold unsigned
  rw [numeralBase_ten]
  exact takeDigits_whole 10 s n

private theorem constant_hex (x h : UInt8) (s : Bytes) (n : Nat) (letter : x = 120 ∨ x = 88) :
    Constant (48::x::h::s) n ↔ Digits 16 (h::s) n := by
  have octal : ¬ Digits 8 (48::x::h::s) n := by
    rintro ⟨-,all,-⟩
    have digit := all x (by simp)
    rcases letter with rfl | rfl <;> exact absurd digit (by decide)
  constructor
  · rintro (⟨x',digits,-,same,hex⟩ | ⟨-,digits⟩ | ⟨nonzero,-⟩)
    · simp only [List.cons.injEq,true_and] at same
      rwa [← same.2] at hex
    · exact absurd digits octal
    · simp at nonzero
  · exact fun digits => .inl ⟨x,h::s,letter,rfl,digits⟩

private theorem constant_octal (s : Bytes) (n : Nat)
    (plain : ∀ x h t, s = x::h::t → ¬ ((x = 120 ∨ x = 88) ∧ isDigitOf 16 h = true)) :
    Constant (48::s) n ↔ Digits 8 (48::s) n := by
  constructor
  · rintro (⟨x,digits,letter,same,nonempty,all,-⟩ | ⟨-,digits⟩ | ⟨nonzero,-⟩)
    · obtain ⟨h,t,rfl⟩ := List.exists_cons_of_ne_nil nonempty
      exact absurd ⟨letter,all h List.mem_cons_self⟩ (plain x h t (List.cons.inj same).2)
    · exact digits
    · simp at nonzero
  · exact fun digits => .inr (.inl ⟨rfl,digits⟩)

private theorem constant_decimal (s : Bytes) (n : Nat) (start : s.head? ≠ some 48) : Constant s n ↔ Digits 10 s n := by
  constructor
  · rintro (⟨x,digits,-,rfl,-⟩ | ⟨zero,-⟩ | ⟨-,digits⟩)
    · simp at start
    · exact absurd zero start
    · exact digits
  · exact fun digits => .inr (.inr ⟨start,digits⟩)

theorem reads_constant : Reads 0 Constant := by
  intro s n
  unfold unsigned
  rw [numeralBase_auto]
  split
  · rename_i x h s
    split_ifs with hex
    · rw [constant_hex x h s n hex.1]
      exact takeDigits_whole 16 (h::s) n
    · rw [constant_octal (x::h::s) n]
      · exact takeDigits_whole 8 (48::x::h::s) n
      · rintro x' h' t same
        cases same
        exact hex
  · rename_i s short
    rw [constant_octal s n]
    · exact takeDigits_whole 8 (48::s) n
    · rintro x h t rfl
      exact absurd rfl (short x h t)
  · rename_i absent
    have start : s.head? ≠ some 48 := by
      intro zero
      obtain ⟨t,rfl⟩ := List.head?_eq_some_iff.mp zero
      exact absent t rfl
    rw [constant_decimal s n start]
    exact takeDigits_whole 10 s n

private theorem reads_unsigned (base : Nat) (p : Bytes → Nat → Prop) (reads : Reads base p) (c : UInt8) (s : Bytes) (n : Nat)
    (sign : c = 43 ∨ c = 44 ∨ c = 45 ∨ c = 124 ∨ isspace c = true) : ¬ p (c::s) n := by
  have other : c ≠ 48 := by
    rintro rfl
    revert sign
    decide
  have based : (numeralBase base (c::s)).2 = c::s := by
    unfold numeralBase
    split
    · simp_all
    · simp_all
    · split <;> rfl
  rw [reads]
  simp [unsigned,based,takeDigits,digitValue_none c sign]

private theorem strtol_unsigned (base : Nat) (s : Bytes) (start : ∀ c ∈ s.head?, isspace c = false) : strtol base s =
    let signed := numeralSign s
    let read := unsigned base signed.2
    if read.2.1 = [] then (0,s) else
      (clamp (if signed.1 then -(numeralValue read.1 read.2.1 : Int) else numeralValue read.1 read.2.1),read.2.2) := by
  have spaces : s.dropWhile isspace = s := by
    cases s with
    | nil => rfl
    | cons c s => exact List.dropWhile_cons_of_neg (by simp [start c rfl])
  unfold strtol unsigned clamp
  rw [spaces]

theorem signed_iff (base : Nat) (p : Bytes → Nat → Prop) (reads : Reads base p) (s : Bytes) (n : Int) :
    Signed p s n ↔ ∃ m : Nat, p (numeralSign s).2 m ∧ n = if (numeralSign s).1 then -(m : Int) else m := by
  constructor
  · intro signed
    cases signed with
    | bare digits =>
      have plain : numeralSign s = (false,s) := by
        unfold numeralSign
        split
        · exact absurd digits (reads_unsigned base p reads 45 _ _ (by decide))
        · exact absurd digits (reads_unsigned base p reads 43 _ _ (by decide))
        · rfl
      rw [plain]
      exact ⟨_,digits,rfl⟩
    | plus digits => exact ⟨_,digits,rfl⟩
    | minus digits => exact ⟨_,digits,rfl⟩
  · rintro ⟨m,digits,rfl⟩
    unfold numeralSign at digits ⊢
    split at digits
    · exact .minus digits
    · exact .plus digits
    · exact .bare digits

/-- strtol reads a text to its end if and only if the text is a numeral. -/
theorem strtol_numeral (base : Nat) (p : Bytes → Nat → Prop) (reads : Reads base p) (s : Bytes)
    (start : ∀ c ∈ s.head?, isspace c = false) (n : Int) (numeral : Signed p s n) :
    strtol base s = (clamp n,[]) := by
  obtain ⟨m,digits,rfl⟩ := (signed_iff base p reads s n).mp numeral
  obtain ⟨some,ended,value⟩ := (reads _ m).mp digits
  rw [strtol_unsigned base s start]
  simp only [some,ended,value,if_false]

theorem strtol_unread (base : Nat) (p : Bytes → Nat → Prop) (reads : Reads base p) (s : Bytes)
    (start : ∀ c ∈ s.head?, isspace c = false) (nonempty : s ≠ []) (none : ∀ n, ¬ Signed p s n) :
    (strtol base s).2 ≠ [] := by
  rw [strtol_unsigned base s start]
  by_cases unread : (unsigned base (numeralSign s).2).2.1 = []
  · simpa only [unread,if_true] using nonempty
  · simp only [unread,if_false]
    intro ended
    apply none
    exact (signed_iff base p reads s _).mpr ⟨_,(reads _ _).mpr ⟨unread,ended,rfl⟩,rfl⟩

theorem isDigitOf_ten (c : UInt8) : isDigitOf 10 c = isdigit c :=
  forall_byte (fun c => isDigitOf 10 c = isdigit c) (by decide +kernel) c

theorem signed_letter (c : UInt8) (s : Bytes) (letter : isdigit c = false ∧ c ≠ 45 ∧ c ≠ 43) (n : Int) :
    ¬ Signed Constant (c::s) n := by
  obtain ⟨digit,minus,plus⟩ := letter
  intro number
  cases number with
  | bare digits =>
    have start : (c::s).head? ≠ some 48 := by
      intro zero
      cases zero
      cases digit
    have first := ((constant_decimal _ _ start).mp digits).2.1 c List.mem_cons_self
    rw [isDigitOf_ten,digit] at first
    cases first
  | plus digits => exact plus rfl
  | minus digits => exact minus rfl

private theorem numeralSign_behind (s rest : Bytes) (nonempty : s ≠ []) :
    numeralSign (s ++ rest) = ((numeralSign s).1,(numeralSign s).2 ++ rest) ∧ (numeralSign s).2 <:+ s := by
  obtain ⟨c,s,rfl⟩ := List.exists_cons_of_ne_nil nonempty
  rw [List.cons_append]
  unfold numeralSign
  split
  · rename_i same
    cases same
    exact ⟨rfl,List.suffix_cons 45 s⟩
  · rename_i same
    cases same
    exact ⟨rfl,List.suffix_cons 43 s⟩
  · rename_i minus plus
    split
    · rename_i same
      cases same
      exact absurd rfl (minus _)
    · rename_i same
      cases same
      exact absurd rfl (plus _)
    · exact ⟨rfl,List.suffix_rfl⟩

private theorem numeralBase_other (base : Nat) (c : UInt8) (s : Bytes) (other : c ≠ 48) :
    numeralBase base (c::s) = (if base = 0 then 10 else base,c::s) := by
  unfold numeralBase
  split
  · simp_all
  · simp_all
  · split <;> rfl

private theorem numeralBase_behind (base : Nat) (s blanks : Bytes) (white : ∀ c ∈ blanks, isspace c = true) :
    numeralBase base (s ++ blanks) = ((numeralBase base s).1,(numeralBase base s).2 ++ blanks) := by
  have blank (c : UInt8) (space : isspace c = true) : c ≠ 48 ∧ c ≠ 120 ∧ c ≠ 88 ∧ isDigitOf 16 c = false :=
    forall_byte (fun c => isspace c = true → c ≠ 48 ∧ c ≠ 120 ∧ c ≠ 88 ∧ isDigitOf 16 c = false)
      (by decide +kernel) c space
  rcases s with _ | ⟨c,s⟩
  · cases blanks with
    | nil => simp
    | cons d blanks =>
      rw [List.nil_append,numeralBase_other base d blanks (blank d (white d List.mem_cons_self)).1]
      simp only [numeralBase]
      split_ifs <;> rfl
  by_cases zero : c = 48
  · subst zero
    rcases s with _ | ⟨x,s⟩
    · rcases blanks with _ | ⟨d,_ | ⟨e,blanks⟩⟩
      · rw [List.append_nil,List.append_nil]
      · simp only [List.cons_append,List.nil_append,numeralBase]
        split_ifs <;> rfl
      · have letter := blank d (white d List.mem_cons_self)
        simp only [List.cons_append,List.nil_append,numeralBase,letter,false_or,false_and,and_false,if_false]
        split_ifs <;> rfl
    · rcases s with _ | ⟨h,s⟩
      · cases blanks with
        | nil => rw [List.append_nil,List.append_nil]
        | cons d blanks =>
          have digit := (blank d (white d List.mem_cons_self)).2.2.2
          simp only [List.cons_append,List.nil_append,numeralBase,digit,Bool.false_eq_true,and_false,if_false]
          split_ifs <;> rfl
      · simp only [List.cons_append,numeralBase]
        split_ifs <;> rfl
  · rw [List.cons_append,numeralBase_other base c _ zero,numeralBase_other base c s zero]
    rfl

private theorem numeralBase_suffix (base : Nat) (s : Bytes) : (numeralBase base s).2 <:+ s := by
  unfold numeralBase
  split
  · rename_i x h s
    split_ifs
    · exact ⟨[48,x],rfl⟩
    · exact List.suffix_rfl
    · exact List.suffix_rfl
  · split_ifs <;> exact List.suffix_rfl
  · split_ifs <;> exact List.suffix_rfl

theorem strtol_blanks (base : Nat) (s blanks : Bytes) (start : ∀ c ∈ s.head?, isspace c = false) (nonempty : s ≠ [])
    (white : ∀ c ∈ blanks, isspace c = true) :
    strtol base (s ++ blanks) = ((strtol base s).1,(strtol base s).2 ++ blanks) ∧ (strtol base s).2 <:+ s := by
  obtain ⟨signed,suffix⟩ := numeralSign_behind s blanks nonempty
  have first : ∀ c ∈ (s ++ blanks).head?, isspace c = false := by
    rwa [List.head?_append_of_ne_nil s nonempty]
  have read : unsigned base ((numeralSign s).2 ++ blanks) =
      ((unsigned base (numeralSign s).2).1,(unsigned base (numeralSign s).2).2.1,
        (unsigned base (numeralSign s).2).2.2 ++ blanks) := by
    unfold unsigned
    rw [numeralBase_behind base _ blanks white,takeDigits_behind _ _ _ (stops_space _ blanks white)]
  have inside : (unsigned base (numeralSign s).2).2.2 <:+ s :=
    (takeDigits_suffix _ _).trans ((numeralBase_suffix base _).trans suffix)
  rw [strtol_unsigned base _ first,strtol_unsigned base s start,signed]
  simp only [read]
  by_cases unread : (unsigned base (numeralSign s).2).2.1 = []
  · simp only [unread,if_true]
    exact ⟨trivial,List.suffix_rfl⟩
  · simp only [unread,if_false]
    exact ⟨trivial,inside⟩

theorem trimmed_spec (s : Bytes) : ∃ blanks, (∀ c ∈ blanks, isspace c = true) ∧
    s.dropWhile isspace = trimmed s ++ blanks ∧ (∀ c ∈ (trimmed s).head?, isspace c = false) ∧
    ∀ c ∈ (trimmed s).getLast?, isspace c = false := by
  have parts : s.dropWhile isspace = trimmed s ++ (s.dropWhile isspace).rtakeWhile isspace :=
    List.rdropWhile_append_rtakeWhile.symm
  refine ⟨(s.dropWhile isspace).rtakeWhile isspace,fun c member => List.mem_rtakeWhile_imp member,parts,?_,?_⟩
  · intro c first
    have front := List.head?_dropWhile_not isspace s
    rw [parts,List.head?_append,Option.mem_def.mp first] at front
    simpa using front
  · intro c last
    by_cases empty : trimmed s = []
    · simp [empty] at last
    · have stopped : ¬ isspace ((trimmed s).getLast empty) = true := List.rdropWhile_last_not isspace _ empty
      rw [Option.mem_def,List.getLast?_eq_some_getLast empty] at last
      cases last
      simpa using stopped

theorem trimmed_eq_nil (s : Bytes) : trimmed s = [] ↔ ∀ c ∈ s, isspace c = true := by
  obtain ⟨blanks,white,parts,first,-⟩ := trimmed_spec s
  rw [← List.dropWhile_eq_nil_iff,parts]
  constructor
  · intro empty
    rw [empty] at parts ⊢
    have front := List.head?_dropWhile_not isspace s
    rw [parts] at front
    cases blanks with
    | nil => rfl
    | cons c blanks => simp [white c List.mem_cons_self] at front
  · intro empty
    exact (List.append_eq_nil_iff.mp empty).1

theorem trimmed_cons (c : UInt8) (s : Bytes) (visible : isspace c = false) : ∃ t, trimmed (c::s) = c::t := by
  obtain ⟨blanks,white,parts,-,-⟩ := trimmed_spec (c::s)
  rw [List.dropWhile_cons_of_neg (by simp [visible])] at parts
  cases known : trimmed (c::s) with
  | nil =>
    rw [known,List.nil_append] at parts
    rw [white c (by simp [← parts])] at visible
    cases visible
  | cons d t =>
    rw [known] at parts
    exact ⟨t,by rw [(List.cons.inj parts).1]⟩

end CString
