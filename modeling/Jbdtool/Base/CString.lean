import Mathlib.Data.List.Basic
import Mathlib.Data.Rat.Floor
import Mathlib.Tactic.SplitIfs
import Mathlib.Tactic.IntervalCases

/-! C strings as byte lists without their terminator: character classes of the
C locale, numerals read by strtol, numerals printed with `%d`. -/
namespace CString

abbrev Bytes := List UInt8

-- decided along the text, and not for all 256 bytes as a finite type would be
instance decidableOfEach (p : UInt8 → Prop) [DecidablePred p] (s : Bytes) : Decidable (∀ c ∈ s, p c) := List.decidableBAll p s

def bytes (text : String) : Bytes := text.toList.map (fun c => c.toNat.toUInt8)

def isspace (c : UInt8) : Bool := c == 32 || (9 ≤ c && c ≤ 13)

def isdigit (c : UInt8) : Bool := 48 ≤ c && c ≤ 57

def tolower (c : UInt8) : UInt8 := if 65 ≤ c ∧ c ≤ 90 then c + 32 else c

def toupper (c : UInt8) : UInt8 := if 97 ≤ c ∧ c ≤ 122 then c - 32 else c

/-- `strcasecmp(s,t) == 0` -/
def caseEqual (s t : Bytes) : Bool := s.map tolower == t.map tolower

def digitValue (c : UInt8) : Option Nat :=
  if isdigit c then some (c.toNat - 48)
  else if 65 ≤ c ∧ c ≤ 90 then some (c.toNat - 55)
  else if 97 ≤ c ∧ c ≤ 122 then some (c.toNat - 87)
  else none

def isDigitOf (base : Nat) (c : UInt8) : Bool := (digitValue c).any (· < base)

/-- The longest run of digits at the front, and what follows it. -/
def takeDigits (base : Nat) : Bytes → List Nat × Bytes
  | [] => ([],[])
  | c::s => match digitValue c with
    | none => ([],c::s)
    | some d => if d < base then (d::(takeDigits base s).1,(takeDigits base s).2) else ([],c::s)

/-- The base strtol uses, and the numeral without a `0x` in front. -/
def numeralBase (base : Nat) : Bytes → Nat × Bytes
  | 48::x::h::s =>
    if (base = 0 ∨ base = 16) ∧ (x = 120 ∨ x = 88) ∧ isDigitOf 16 h then (16,h::s)
    else if base = 0 then (8,48::x::h::s) else (base,48::x::h::s)
  | 48::s => if base = 0 then (8,48::s) else (base,48::s)
  | s => if base = 0 then (10,s) else (base,s)

def numeralSign : Bytes → Bool × Bytes
  | 45::s => (true,s)
  | 43::s => (false,s)
  | s => (false,s)

def numeralValue (base : Nat) (digits : List Nat) : Nat := digits.foldl (fun n d => n * base + d) 0

def longMax : Int := 9223372036854775807

/-- `strtol(s,&end,base)` with a 64-bit long: the value and `end`. -/
def strtol (base : Nat) (s : Bytes) : Int × Bytes :=
  let signed := numeralSign (s.dropWhile isspace)
  let based := numeralBase base signed.2
  let run := takeDigits based.1 based.2
  if run.1 = [] then (0,s) else
  let n : Int := numeralValue based.1 run.1
  (max (-longMax - 1) (min longMax (if signed.1 then -n else n)),run.2)

/-- `atoi`: strtol, then a conversion to a 32-bit int. -/
def atoi (s : Bytes) : Int := ((strtol 10 s).1).bmod 4294967296

/-- The exponent of a decimal numeral, 0 when there is none. -/
def takeExponent : Bytes → Int × Bytes
  | [] => (0,[])
  | c::s =>
    let signed := numeralSign s
    let run := takeDigits 10 signed.2
    if (c = 101 ∨ c = 69) ∧ run.1 ≠ [] then
      (if signed.1 then -(numeralValue 10 run.1 : Int) else numeralValue 10 run.1,run.2)
    else (0,c::s)

/-- `strtod(s,&end)` on decimal numerals, before any rounding. -/
def strtod (s : Bytes) : ℚ × Bytes :=
  let signed := numeralSign (s.dropWhile isspace)
  let whole := takeDigits 10 signed.2
  let fraction := match whole.2 with
    | 46::rest => takeDigits 10 rest
    | rest => ([],rest)
  if whole.1 = [] ∧ fraction.1 = [] then (0,s) else
  let exponent := takeExponent fraction.2
  let value := (numeralValue 10 (whole.1 ++ fraction.1) : ℚ) * 10^(exponent.1 - fraction.1.length)
  (if signed.1 then -value else value,exponent.2)

def showNat (n : Nat) : Bytes := (Nat.toDigits 10 n).map (fun c => c.toNat.toUInt8)

/-- `%d` -/
def showInt (n : Int) : Bytes := if n < 0 then 45::showNat n.natAbs else showNat n.natAbs

private theorem showNat_step (n : Nat) :
    showNat n = if n < 10 then [UInt8.ofNat (48 + n)] else showNat (n / 10) ++ [UInt8.ofNat (48 + n % 10)] := by
  unfold showNat
  rw [Nat.toDigits_eq_if (by decide)]
  have digit (d : Nat) (small : d < 10) : (Nat.digitChar d).toNat.toUInt8 = UInt8.ofNat (48 + d) := by
    rw [Nat.toNat_digitChar_of_lt_ten small]
  split_ifs with small
  · simp [digit n small]
  · simp [digit (n % 10) (Nat.mod_lt n (by decide))]

theorem showNat_width (n width : Nat) (some : 0 < width) : (showNat n).length ≤ width ↔ n < 10^width := by
  rw [showNat,List.length_map]
  exact Nat.length_toDigits_le_iff (by decide) some

private theorem digitValue_digit (d : Nat) (small : d < 10) : digitValue (UInt8.ofNat (48 + d)) = some d := by
  have bound : 48 + d < 256 := by omega
  simp [digitValue,isdigit,UInt8.le_iff_toNat_le,UInt8.toNat_ofNat',Nat.mod_eq_of_lt bound]
  omega

/-- Nothing that a numeral of this base could go on with. -/
def Stops (base : Nat) (rest : Bytes) : Prop := ∀ c s, rest = c::s → isDigitOf base c = false

theorem stops_nil (base : Nat) : Stops base [] := by
  intro c s same
  cases same

theorem takeDigits_stops (base : Nat) (rest : Bytes) (stops : Stops base rest) :
    takeDigits base rest = ([],rest) := by
  cases rest with
  | nil => rfl
  | cons c s =>
    have last := stops c s rfl
    unfold takeDigits
    cases value : digitValue c with
    | none => rfl
    | some d =>
      have large : ¬ d < base := by simpa [isDigitOf,value] using last
      simp [large]

theorem takeDigits_append (front : List Nat) (rest : Bytes) (base : Nat)
    (decimal : ∀ d ∈ front, d < 10 ∧ d < base) (stops : Stops base rest) :
    takeDigits base (front.map (fun d => UInt8.ofNat (48 + d)) ++ rest) = (front,rest) := by
  induction front with
  | nil => exact takeDigits_stops base rest stops
  | cons d front ih =>
    obtain ⟨first,others⟩ := List.forall_mem_cons.mp decimal
    simp only [List.map_cons,List.cons_append,takeDigits,digitValue_digit d first.1,first.2,if_true,ih others]

theorem showNat_digits (n : Nat) : ∃ digits : List Nat,
    showNat n = digits.map (fun d => UInt8.ofNat (48 + d)) ∧ digits ≠ [] ∧ (∀ d ∈ digits, d < 10) ∧
      numeralValue 10 digits = n ∧ (digits.head? = some 0 → n = 0 ∧ digits = [0]) := by
  induction n using Nat.strongRecOn with
  | ind n ih =>
    rw [showNat_step]
    split_ifs with small
    · refine ⟨[n],by simp,by simp,by simpa using small,by simp [numeralValue],?_⟩
      intro zero
      simp only [List.head?_cons,Option.some.injEq] at zero
      simp [zero]
    · obtain ⟨digits,shown,nonempty,decimal,value,zero⟩ := ih (n / 10) (by omega)
      refine ⟨digits ++ [n % 10],by simp [shown],by simp,?_,?_,?_⟩
      · simp only [List.forall_mem_append,List.forall_mem_singleton]
        exact ⟨decimal,Nat.mod_lt n (by decide)⟩
      · rw [numeralValue,List.foldl_append]
        change numeralValue 10 digits * 10 + n % 10 = n
        omega
      · intro first
        have head : digits.head? = some 0 := by
          cases digits with
          | nil => exact (nonempty rfl).elim
          | cons d digits => simpa using first
        have tiny := (zero head).1
        omega

theorem digit_byte (d : Nat) (small : d < 10) :
    isspace (UInt8.ofNat (48 + d)) = false ∧ UInt8.ofNat (48 + d) ≠ 45 ∧ UInt8.ofNat (48 + d) ≠ 43 ∧
      (UInt8.ofNat (48 + d) = 48 ↔ d = 0) := by
  interval_cases d <;> decide

private theorem numeralBase_nonzero (base : Nat) (c : UInt8) (s : Bytes) (decimal : base = 10 ∨ base = 0)
    (nonzero : c ≠ 48) : numeralBase base (c::s) = (10,c::s) := by
  unfold numeralBase
  split
  · simp_all
  · simp_all
  · rcases decimal with rfl | rfl <;> rfl

private theorem numeralBase_zero (base : Nat) (rest : Bytes) (decimal : base = 10 ∨ base = 0)
    (plain : ∀ c s, rest = c::s → c ≠ 120 ∧ c ≠ 88) :
    numeralBase base (48::rest) = (if base = 0 then 8 else 10,48::rest) := by
  unfold numeralBase
  split
  · rename_i x h s same
    obtain ⟨-,rfl⟩ := List.cons.inj same
    have other := plain x (h::s) rfl
    rcases decimal with rfl | rfl <;> simp [other]
  · rename_i same
    obtain ⟨-,rfl⟩ := List.cons.inj same
    rcases decimal with rfl | rfl <;> simp
  · rename_i absent
    exact (absent rest rfl).elim

theorem numeralSign_digit (d : Nat) (s : Bytes) (small : d < 10) :
    numeralSign (UInt8.ofNat (48 + d)::s) = (false,UInt8.ofNat (48 + d)::s) := by
  obtain ⟨-,minus,plus,-⟩ := digit_byte d small
  unfold numeralSign
  split <;> simp_all

private theorem stops_octal (rest : Bytes) (stops : Stops 10 rest) : Stops 8 rest := by
  intro c s same
  have decimal := stops c s same
  unfold isDigitOf at decimal ⊢
  cases value : digitValue c with
  | none => rfl
  | some d =>
    simp only [value,Option.any_some,decide_eq_false_iff_not] at decimal ⊢
    omega

theorem numeralSign_showInt (n : Int) (rest : Bytes) :
    numeralSign (showInt n ++ rest) = (decide (n < 0),showNat n.natAbs ++ rest) ∧
      (showInt n ++ rest).dropWhile isspace = showInt n ++ rest := by
  obtain ⟨digits,shown,nonempty,small,-,-⟩ := showNat_digits n.natAbs
  obtain ⟨d,digits,rfl⟩ := List.exists_cons_of_ne_nil nonempty
  have first := small d (by simp)
  have space := (digit_byte d first).1
  unfold showInt
  split_ifs with negative
  · rw [List.cons_append,List.dropWhile_cons_of_neg (by decide)]
    simp [numeralSign,negative]
  · rw [shown,List.map_cons,List.cons_append,List.dropWhile_cons_of_neg (by rw [space]; decide)]
    exact ⟨by rw [numeralSign_digit d _ first]; simp [negative],rfl⟩

theorem takeDigits_showNat (n : Nat) (rest : Bytes) (stops : Stops 10 rest) :
    ∃ digits, takeDigits 10 (showNat n ++ rest) = (digits,rest) ∧ digits ≠ [] ∧
      numeralValue 10 digits = n := by
  obtain ⟨digits,shown,nonempty,small,value,-⟩ := showNat_digits n
  refine ⟨digits,?_,nonempty,value⟩
  rw [shown]
  exact takeDigits_append _ _ _ (fun d member => ⟨small d member,small d member⟩) stops

/-- A numeral printed by `%d` is read back by strtol, in base 10 and in base 0. -/
theorem strtol_showInt (base : Nat) (n : Int) (rest : Bytes) (decimal : base = 10 ∨ base = 0)
    (range : -longMax - 1 ≤ n ∧ n ≤ longMax) (stops : Stops 10 rest)
    (plain : ∀ c s, rest = c::s → c ≠ 120 ∧ c ≠ 88) :
    strtol base (showInt n ++ rest) = (n,rest) := by
  obtain ⟨digits,shown,nonempty,small,value,zero⟩ := showNat_digits n.natAbs
  obtain ⟨d,digits,rfl⟩ := List.exists_cons_of_ne_nil nonempty
  have null := (digit_byte d (small d (by simp))).2.2.2
  -- The numeral is read in base 10, or in base 8 when it is a lone zero.
  have based : ∃ b, (b = 10 ∨ b = 8) ∧ (∀ e ∈ d::digits, e < b) ∧ numeralValue b (d::digits) = n.natAbs ∧
      numeralBase base (showNat n.natAbs ++ rest) = (b,showNat n.natAbs ++ rest) := by
    by_cases lead : d = 0
    · obtain ⟨none,alone⟩ := zero (by simp [lead])
      subst lead
      obtain ⟨-,rfl⟩ := List.cons.inj alone
      refine ⟨if base = 0 then 8 else 10,by split_ifs <;> simp,by split_ifs <;> simp,by simp [numeralValue,none],?_⟩
      rw [shown]
      exact numeralBase_zero base rest decimal plain
    · refine ⟨10,.inl rfl,small,value,?_⟩
      rw [shown]
      exact numeralBase_nonzero base _ _ decimal (fun same => lead (null.mp same))
  obtain ⟨b,choice,below,value,based⟩ := based
  have stopped : Stops b rest := by
    rcases choice with rfl | rfl
    · exact stops
    · exact stops_octal rest stops
  have run : takeDigits b (showNat n.natAbs ++ rest) = (d::digits,rest) := by
    rw [shown]
    exact takeDigits_append _ _ _ (fun e member => ⟨small e member,below e member⟩) stopped
  obtain ⟨signed,spaces⟩ := numeralSign_showInt n rest
  simp only [strtol,spaces,signed,based,run,value]
  rw [if_neg (by simp)]
  unfold longMax at range ⊢
  by_cases negative : n < 0
  · simp only [negative,decide_true,if_true,Prod.mk.injEq,and_true]
    omega
  · simp only [negative,decide_false,Prod.mk.injEq,and_true]
    simp only [Bool.false_eq_true,if_false]
    omega

/-- The same numeral is read back by strtod when no fraction or exponent follows. -/
theorem strtod_showInt (n : Int) (rest : Bytes) (stops : Stops 10 rest)
    (plain : ∀ c s, rest = c::s → c ≠ 46 ∧ c ≠ 101 ∧ c ≠ 69) :
    strtod (showInt n ++ rest) = ((n : ℚ),rest) := by
  obtain ⟨signed,spaces⟩ := numeralSign_showInt n rest
  obtain ⟨digits,run,nonempty,value⟩ := takeDigits_showNat n.natAbs rest stops
  have fraction : (match rest with
      | 46::rest => takeDigits 10 rest
      | rest => ([],rest)) = ([],rest) := by
    split
    · rename_i tail
      exact ((plain 46 tail rfl).1 rfl).elim
    · rfl
  have exponent : takeExponent rest = (0,rest) := by
    cases rest with
    | nil => rfl
    | cons c s =>
      obtain ⟨-,lower,upper⟩ := plain c s rfl
      simp [takeExponent,lower,upper]
  have magnitude : (numeralValue 10 digits : ℚ) = ((n.natAbs : Int) : ℚ) := by rw [value]; simp
  simp only [strtod,spaces,signed,run,fraction,nonempty,false_and,if_false,List.append_nil,exponent,
    List.length_nil,Nat.cast_zero,sub_zero,zpow_zero,mul_one,magnitude]
  by_cases negative : n < 0
  · have size : (n.natAbs : Int) = -n := by omega
    simp [negative,size]
  · have size : (n.natAbs : Int) = n := by omega
    simp [negative,size]

theorem atoi_showInt (n : Int) (range : -2147483648 ≤ n ∧ n < 2147483648) : atoi (showInt n) = n := by
  have whole := strtol_showInt 10 n [] (.inl rfl) (by unfold longMax; omega) (stops_nil 10)
    (by intro c s same; cases same)
  rw [List.append_nil] at whole
  rw [atoi,whole,Int.bmod_def]
  split_ifs <;> omega

theorem forall_byte (p : UInt8 → Prop) (all : ∀ n < 256, p (UInt8.ofNat n)) (c : UInt8) : p c := by
  have this := all c.toNat c.toNat_lt
  rwa [UInt8.ofNat_toNat] at this

private theorem toupper_cases (c : UInt8) : toupper (toupper c) = toupper c ∧ isspace (toupper c) = isspace c ∧
    (¬ (65 ≤ toupper c ∧ toupper c ≤ 90) → toupper c = c) ∧ toupper (tolower c) = toupper c ∧ tolower (toupper c) = tolower c :=
  forall_byte (fun c => toupper (toupper c) = toupper c ∧ isspace (toupper c) = isspace c ∧
    (¬ (65 ≤ toupper c ∧ toupper c ≤ 90) → toupper c = c) ∧ toupper (tolower c) = toupper c ∧ tolower (toupper c) = tolower c)
    (by decide +kernel) c

theorem toupper_toupper (c : UInt8) : toupper (toupper c) = toupper c := (toupper_cases c).1

theorem isspace_toupper (c : UInt8) : isspace (toupper c) = isspace c := (toupper_cases c).2.1

private theorem toupper_other (c : UInt8) (other : ¬ (65 ≤ toupper c ∧ toupper c ≤ 90)) : toupper c = c :=
  (toupper_cases c).2.2.1 other

theorem toupper_eq {c d : UInt8} (other : ¬ (65 ≤ d ∧ d ≤ 90)) (same : toupper c = d) : c = d :=
  (toupper_other c (same ▸ other)).symm.trans same

theorem map_toupper (s : Bytes) : (s.map toupper).map toupper = s.map toupper := by
  rw [List.map_map]
  exact List.map_congr_left fun c _ => toupper_toupper c

end CString
