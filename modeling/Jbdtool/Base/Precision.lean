import Jbdtool.Base.Nearest
import Jbdtool.Base.Scientific

/-! `%1.17g` as a numeral: seventeen digits are within a 54-bit fraction of the number, so a
double is read back from them. -/
namespace CString
open Numbers

private theorem showNat_text (n : Nat) : ∃ digits : List Nat, showNat n = digitsText digits ∧ digits ≠ [] ∧
    (∀ d ∈ digits, d < 10) ∧ numeralValue 10 digits = n ∧ (digits.head? = some 0 → digits = [0]) := by
  obtain ⟨digits,shown,nonempty,decimal,value,zero⟩ := showNat_digits n
  exact ⟨digits,shown,nonempty,decimal,value,fun lead => (zero lead).2⟩

private theorem numeralValue_zeros (k : Nat) (digits : List Nat) :
    numeralValue 10 (List.replicate k 0 ++ digits) = numeralValue 10 digits := by
  induction k with
  | zero => rfl
  | succ k ih =>
    rw [List.replicate_succ,List.cons_append,numeralValue,List.foldl_cons]
    exact ih

private theorem showPadded_text (width n : Nat) : ∃ digits : List Nat, showPadded width n = digitsText digits ∧ digits ≠ [] ∧
    (∀ d ∈ digits, d < 10) ∧ numeralValue 10 digits = n := by
  obtain ⟨digits,shown,nonempty,decimal,value,-⟩ := showNat_text n
  refine ⟨List.replicate (width - (showNat n).length) 0 ++ digits,?_,?_,?_,?_⟩
  · rw [showPadded,padLeft,shown,digitsText,digitsText,List.map_append,List.map_replicate]
    rfl
  · exact fun none => nonempty (List.append_eq_nil_iff.mp none).2
  · intro d member
    rcases List.mem_append.mp member with zero | digit
    · rw [List.eq_of_mem_replicate zero]
      decide
    · exact decimal d digit
  · rw [numeralValue_zeros,value]

def stripped (digits : List Nat) : List Nat := digits.rdropWhile (· == 0)

private theorem stripZeros_text (digits : List Nat) (decimal : ∀ d ∈ digits, d < 10) :
    stripZeros (digitsText digits) = digitsText (stripped digits) := by
  have drop (run : List Nat) (small : ∀ d ∈ run, d < 10) :
      (digitsText run).dropWhile (· == 48) = digitsText (run.dropWhile (· == 0)) := by
    induction run with
    | nil => rfl
    | cons d run ih =>
      obtain ⟨first,others⟩ := List.forall_mem_cons.mp small
      have null : (UInt8.ofNat (48 + d) == 48) = (d == 0) := by
        rw [Bool.eq_iff_iff,beq_iff_eq,beq_iff_eq]
        exact (digit_byte d first).2.2.2
      rw [digitsText,List.map_cons,List.dropWhile_cons,List.dropWhile_cons,null]
      split_ifs
      · exact ih others
      · rfl
  have back : (digitsText digits).reverse = digitsText digits.reverse := List.map_reverse.symm
  rw [stripZeros,stripped,List.rdropWhile,back,drop _ (fun d member => decimal d (List.mem_reverse.mp member))]
  exact List.map_reverse.symm

private theorem stripped_zeros (digits : List Nat) : ∃ k, digits = stripped digits ++ List.replicate k 0 := by
  refine ⟨(digits.rtakeWhile (· == 0)).length,?_⟩
  have zeros : digits.rtakeWhile (· == 0) = List.replicate (digits.rtakeWhile (· == 0)).length 0 := by
    rw [List.eq_replicate_iff]
    exact ⟨rfl,fun d member => by simpa using List.mem_rtakeWhile_imp member⟩
  rw [← zeros,stripped,List.rdropWhile_append_rtakeWhile]

private theorem stripped_value (whole fraction : List Nat) (e : Int) :
    (numeralValue 10 (whole ++ stripped fraction) : ℚ) * 10^(e - (stripped fraction).length) =
      numeralValue 10 (whole ++ fraction) * 10^(e - fraction.length) := by
  obtain ⟨k,split⟩ := stripped_zeros fraction
  have zeros : numeralValue 10 (List.replicate k 0) = 0 := by
    have none := numeralValue_zeros k []
    rwa [List.append_nil] at none
  generalize stripped fraction = short at split ⊢
  rw [split,← List.append_assoc,numeralValue_append 10 (whole ++ short),zeros,List.length_append,List.length_replicate,add_zero]
  have scale : (10 : ℚ)^(e - short.length) = 10^k * 10^(e - (short.length + k : Nat)) := by
    rw [← zpow_natCast,← zpow_add₀ (by norm_num)]
    congr 1
    push_cast
    ring
  rw [scale]
  push_cast
  ring

namespace Scientific

/-- A numeral without zeros at its end, and without a point when no fraction is left. -/
def strip (negative : Bool) (whole fraction : List Nat) (exponent : Option Exponent) (some : whole ≠ [])
    (decimal : ∀ d ∈ whole ++ fraction, d < 10) : Scientific where
  negative := negative
  whole := whole
  fraction := if stripped fraction = [] then none else .some (stripped fraction)
  exponent := exponent
  decimal := by
    intro d member
    have inside : d ∈ whole ++ stripped fraction := by
      split_ifs at member with none
      · rwa [none]
      · exact member
    rcases List.mem_append.mp inside with front | back
    · exact decimal d (List.mem_append_left _ front)
    · exact decimal d (List.mem_append_right _ ((List.rdropWhile_prefix _ _).subset back))
  nonempty := fun none => some (List.append_eq_nil_iff.mp none).1

variable (negative : Bool) (whole fraction : List Nat) (exponent : Option Exponent) (some : whole ≠ [])
  (decimal : ∀ d ∈ whole ++ fraction, d < 10)

private theorem strip_text : (strip negative whole fraction exponent some decimal).text =
    (if negative then [45] else []) ++ (digitsText whole ++ (showFraction (digitsText fraction) ++
      match exponent with | none => [] | .some e => e.text)) := by
  have short := stripZeros_text fraction fun d member => decimal d (List.mem_append_right _ member)
  have point : (strip negative whole fraction exponent some decimal).fractionText = showFraction (digitsText fraction) := by
    unfold fractionText showFraction strip
    rw [short]
    by_cases none : stripped fraction = []
    · simp [none,digitsText]
    · simp [none,digitsText]
  rw [text,point]
  rfl

private theorem strip_magnitude : (strip negative whole fraction exponent some decimal).magnitude =
    numeralValue 10 (whole ++ fraction) * 10^((exponent.map Exponent.value).getD 0 - fraction.length) := by
  have digits : (strip negative whole fraction exponent some decimal).fraction.getD [] = stripped fraction := by
    unfold strip
    by_cases none : stripped fraction = [] <;> simp [none]
  rw [magnitude,digits]
  exact stripped_value whole fraction _

end Scientific

/-- The digits of a nonzero number and the exponent of the first. -/
def digits17 (q : ℚ) : Nat × Int :=
  let x := Int.log 10 |q|
  let n := (roundHalfEven (|q| / 10^(x - 16))).toNat
  if n = 10^17 then (10^16,x + 1) else (n,x)

def layout17 (negative : Bool) (n : Nat) (x : Int) : Bytes :=
  let digits := showNat n
  let sign : Bytes := if negative then [45] else []
  if x < -4 ∨ 17 ≤ x then
    sign ++ digits.take 1 ++ showFraction (digits.drop 1) ++
      [101,if x < 0 then 45 else 43] ++ showPadded 2 x.natAbs
  else if x < 0 then
    sign ++ [48] ++ showFraction (List.replicate (x.natAbs - 1) 48 ++ digits)
  else sign ++ digits.take (x.toNat + 1) ++ showFraction (digits.drop (x.toNat + 1))

private theorem showG17_layout (q : ℚ) : showG17 q = if q.den = 1 ∧ q.num.natAbs < 10^17 then showInt q.num else
    layout17 (decide (q < 0)) (digits17 q).1 (digits17 q).2 := by
  unfold showG17 layout17 digits17
  simp only [decide_eq_true_eq]

private theorem digits17_spec (q : ℚ) (nonzero : q ≠ 0) : 10^16 ≤ (digits17 q).1 ∧ (digits17 q).1 < 10^17 ∧
    abs (((digits17 q).1 : ℚ) * 10^((digits17 q).2 - 16) - |q|) * (2 * 10^16) ≤ |q| := by
  have positive : 0 < |q| := abs_pos.mpr nonzero
  have low : (10 : ℚ)^Int.log 10 |q| ≤ |q| := by exact_mod_cast Int.zpow_log_le_self (b := 10) (by norm_num) positive
  have high : |q| < (10 : ℚ)^(Int.log 10 |q| + 1) := by exact_mod_cast Int.lt_zpow_succ_log_self (b := 10) (by norm_num) |q|
  unfold digits17
  simp only
  generalize Int.log 10 |q| = x at low high
  have unit : (0 : ℚ) < 10^(x - 16) := zpow_pos (by norm_num) _
  have ten : (10 : ℚ)^x = 10^16 * 10^(x - 16) := by
    rw [← zpow_natCast,← zpow_add₀ (by norm_num)]
    congr 1
    push_cast
    ring
  rw [ten] at low
  rw [zpow_add_one₀ (by norm_num),ten] at high
  have above : (10 : ℚ)^16 ≤ |q| / 10^(x - 16) := (le_div_iff₀ unit).mpr low
  have below : |q| / 10^(x - 16) < 10^17 := by
    rw [div_lt_iff₀ unit]
    linarith
  have half := abs_le.mp (abs_roundHalfEven_sub (|q| / 10^(x - 16)))
  have scaled : |q| / 10^(x - 16) * 10^(x - 16) = |q| := div_mul_cancel₀ _ unit.ne'
  generalize |q| / 10^(x - 16) = z at above below half scaled ⊢
  obtain ⟨n,whole⟩ : ∃ n : Nat, roundHalfEven z = n := by
    apply Int.eq_ofNat_of_zero_le
    have : ((-1 : Int) : ℚ) < roundHalfEven z := by
      push_cast
      linarith
    have := Int.cast_lt.mp this
    omega
  rw [whole] at half ⊢
  rw [Int.toNat_natCast]
  push_cast at half
  have least : 10^16 ≤ n := by
    have : ((10^16 : Nat) : ℚ) < (n + 1 : Nat) := by
      push_cast
      linarith
    exact Nat.lt_succ_iff.mp (Nat.cast_lt.mp this)
  have most : n ≤ 10^17 := by
    have : (n : ℚ) < (10^17 + 1 : Nat) := by
      push_cast
      linarith
    exact Nat.lt_succ_iff.mp (Nat.cast_lt.mp this)
  have error : abs ((n : ℚ) * 10^(x - 16) - |q|) * (2 * 10^16) ≤ |q| := by
    rw [← scaled,← sub_mul,abs_mul,abs_of_pos unit]
    have near : |(n : ℚ) - z| ≤ 1 / 2 := abs_le.mpr ⟨by linarith,by linarith⟩
    calc
      |(n : ℚ) - z| * 10^(x - 16) * (2 * 10^16) ≤ 1 / 2 * 10^(x - 16) * (2 * 10^16) := by gcongr
      _ = 10^16 * 10^(x - 16) := by ring
      _ ≤ z * 10^(x - 16) := by gcongr
  by_cases carry : n = 10^17
  · simp only [carry,if_true]
    refine ⟨le_rfl,by norm_num,?_⟩
    have same : ((10^16 : Nat) : ℚ) * 10^(x + 1 - 16) = (10^17 : Nat) * 10^(x - 16) := by
      rw [show x + 1 - 16 = x - 16 + 1 by ring,zpow_add_one₀ (by norm_num)]
      push_cast
      ring
    rw [same,← carry]
    exact error
  · simp only [carry,if_false]
    exact ⟨least,by omega,error⟩

/-- A whole part that no leading zero makes longer, and a zero only before a point or alone. -/
def Scientific.Plain (n : Scientific) : Prop :=
  ∃ d digits, n.whole = d::digits ∧ (d = 0 → digits = [] ∧ (n.fraction = none → n.exponent = none))

private theorem digits17_text (n : Nat) (least : 10^16 ≤ n) (most : n < 10^17) : ∃ d : Nat, ∃ digits : List Nat,
    showNat n = digitsText (d::digits) ∧ d ≠ 0 ∧ digits.length = 16 ∧ (∀ e ∈ d::digits, e < 10) ∧
      numeralValue 10 (d::digits) = n := by
  obtain ⟨digits,shown,nonempty,decimal,value,zero⟩ := showNat_text n
  have upper := (showNat_width n 17 (by decide)).mpr most
  have lower : ¬ (showNat n).length ≤ 16 := fun short => absurd ((showNat_width n 16 (by decide)).mp short) (by omega)
  rw [shown,digitsText,List.length_map] at upper lower
  obtain ⟨d,digits,rfl⟩ := List.exists_cons_of_ne_nil nonempty
  rw [List.length_cons] at upper lower
  refine ⟨d,digits,shown,?_,by omega,decimal,value⟩
  rintro rfl
  have alone := (List.cons.inj (zero rfl)).2
  rw [alone] at lower
  exact lower (by decide)

private theorem layout17_text (negative : Bool) (n : Nat) (x : Int) (least : 10^16 ≤ n) (most : n < 10^17) :
    ∃ s : Scientific, layout17 negative n x = s.text ∧ s.negative = negative ∧ s.magnitude = n * 10^(x - 16) ∧ s.Plain := by
  obtain ⟨d,digits,shown,lead,length,decimal,value⟩ := digits17_text n least most
  unfold layout17
  simp only
  rw [shown]
  by_cases scientific : x < -4 ∨ 17 ≤ x
  · rw [if_pos scientific]
    -- One digit, sixteen behind the point, and the exponent.
    obtain ⟨power,padded,some,tens,amount⟩ := showPadded_text 2 x.natAbs
    let e : Exponent := ⟨101,[if x < 0 then 45 else 43],power,.inl rfl,by split_ifs <;> simp,tens,some⟩
    have exponent : e.value = x := by
      simp only [e,Exponent.value,amount]
      by_cases below : x < 0
      · simp only [below,if_true]
        omega
      · simp only [below,if_false]
        rw [if_neg (by decide)]
        omega
    refine ⟨.strip negative [d] digits (.some e) (by simp) decimal,?_,rfl,?_,d,[],rfl,fun zero => (lead zero).elim⟩
    · rw [Scientific.strip_text,padded]
      simp [e,Exponent.text,digitsText]
    · rw [Scientific.strip_magnitude,List.singleton_append,value,length]
      simp only [Option.map_some,Option.getD_some,exponent,Nat.cast_ofNat]
  rw [if_neg scientific]
  by_cases small : x < 0
  · rw [if_pos small]
    have front : List.replicate (x.natAbs - 1) 48 ++ digitsText (d::digits) =
        digitsText (List.replicate (x.natAbs - 1) 0 ++ d::digits) := by
      rw [digitsText,digitsText,List.map_append,List.map_replicate]
      rfl
    have zeros : ∀ e ∈ [0] ++ (List.replicate (x.natAbs - 1) 0 ++ d::digits), e < 10 := by
      intro e member
      rcases List.mem_append.mp member with first | later
      · rw [List.mem_singleton.mp first]
        decide
      · rcases List.mem_append.mp later with zero | digit
        · rw [List.eq_of_mem_replicate zero]
          decide
        · exact decimal e digit
    have rest : stripped (List.replicate (x.natAbs - 1) 0 ++ d::digits) ≠ [] := by
      intro none
      have all := List.rdropWhile_eq_nil_iff.mp none
      exact lead (by simpa using all d (by simp))
    refine ⟨.strip negative [0] _ none (by simp) zeros,?_,rfl,?_,0,[],rfl,fun _ => ⟨rfl,fun _ => rfl⟩⟩
    · rw [Scientific.strip_text,front]
      simp [digitsText]
    · rw [Scientific.strip_magnitude,List.singleton_append,← List.cons_append,← List.replicate_succ,numeralValue_zeros,value]
      simp only [Option.map_none,Option.getD_none,List.length_append,List.length_replicate,List.length_cons,length]
      congr 2
      omega
  · rw [if_neg small]
    have split : (d::digits).take (x.toNat + 1) ++ (d::digits).drop (x.toNat + 1) = d::digits := List.take_append_drop _ _
    have some : (d::digits).take (x.toNat + 1) ≠ [] := by
      rw [List.take_succ_cons]
      exact List.cons_ne_nil _ _
    have all : ∀ e ∈ (d::digits).take (x.toNat + 1) ++ (d::digits).drop (x.toNat + 1), e < 10 := by rwa [split]
    refine ⟨.strip negative _ _ none some all,?_,rfl,?_,d,digits.take x.toNat,rfl,fun zero => (lead zero).elim⟩
    · rw [Scientific.strip_text]
      simp [digitsText]
    · rw [Scientific.strip_magnitude,split,value]
      simp only [Option.map_none,Option.getD_none,List.length_drop,List.length_cons,length]
      congr 2
      omega

private theorem showInt_text (n : Int) : ∃ s : Scientific, showInt n = s.text ∧ s.negative = decide (n < 0) ∧
    s.magnitude = n.natAbs ∧ s.Plain := by
  obtain ⟨digits,shown,nonempty,decimal,value,zero⟩ := showNat_text n.natAbs
  refine ⟨⟨decide (n < 0),digits,none,none,by simpa using decimal,by simpa using nonempty⟩,?_,rfl,?_,?_⟩
  · rw [showInt,shown,Scientific.text]
    simp only [Scientific.signText,Scientific.fractionText,Scientific.exponentText,List.append_nil,decide_eq_true_eq]
    split_ifs <;> rfl
  · simp [Scientific.magnitude,value]
  · obtain ⟨d,digits,rfl⟩ := List.exists_cons_of_ne_nil nonempty
    refine ⟨d,digits,rfl,?_⟩
    rintro rfl
    exact ⟨(List.cons.inj (zero rfl)).2,fun _ => rfl⟩

private theorem Scientific.abs_value (s : Scientific) : |s.value| = s.magnitude := by
  have positive : 0 ≤ s.magnitude := mul_nonneg (Nat.cast_nonneg _) (zpow_nonneg (by norm_num) _)
  unfold value
  split_ifs
  · rw [abs_neg,abs_of_nonneg positive]
  · exact abs_of_nonneg positive

private theorem Scientific.value_near (s : Scientific) (q : ℚ) (signed : s.negative = decide (q < 0)) :
    |s.value - q| = abs (s.magnitude - |q|) := by
  unfold value
  rw [signed]
  by_cases below : q < 0
  · have same : -s.magnitude - q = -(s.magnitude - -q) := by ring
    simp only [below,decide_true,if_true]
    rw [abs_of_neg below,same,abs_neg]
  · simp only [below,decide_false]
    rw [abs_of_nonneg (not_lt.mp below)]
    rfl

/-- What `%1.17g` prints is a numeral within half a unit of the seventeenth digit. -/
theorem showG17_text (q : ℚ) : ∃ s : Scientific, showG17 q = s.text ∧ s.Plain ∧ |s.value - q| * (2 * 10^16) ≤ |q| ∧
    (|s.value| = |q| ∨ |s.value| = (digits17 q).1 * 10^((digits17 q).2 - 16)) := by
  rw [showG17_layout]
  split_ifs with whole
  · obtain ⟨s,shown,negative,magnitude,plain⟩ := showInt_text q.num
    have same : s.magnitude = |q| := by
      rw [magnitude,Nat.cast_natAbs,Int.cast_abs,Rat.den_eq_one_iff q |>.mp whole.1]
    have signed : s.negative = decide (q < 0) := by rw [negative,decide_eq_decide,Rat.num_neg]
    refine ⟨s,shown,plain,?_,.inl (by rw [s.abs_value,same])⟩
    rw [s.value_near q signed,same,sub_self,abs_zero,zero_mul]
    exact abs_nonneg q
  · have nonzero : q ≠ 0 := by
      rintro rfl
      exact whole (by decide)
    obtain ⟨least,most,near⟩ := digits17_spec q nonzero
    obtain ⟨s,shown,signed,magnitude,plain⟩ := layout17_text (decide (q < 0)) _ (digits17 q).2 least most
    refine ⟨s,shown,plain,?_,.inr (by rw [s.abs_value,magnitude])⟩
    rwa [s.value_near q signed,magnitude]

def Double (x : ℚ) : Prop := Representable 53 (-1074) x ∧ |x| < 2^1024

/-- A double that is not subnormal. -/
def Normal (x : ℚ) : Prop := Double x ∧ (x = 0 ∨ 1 / 2^1022 ≤ |x|)

/-- Seventeen digits tell every double from its neighbours. -/
theorem roundDouble_digits (x y : ℚ) (double : Representable 53 (-1074) x) (near : |y - x| * (2 * 10^16) ≤ |x|) :
    roundDouble y = x := by
  by_cases zero : x = 0
  · have same : |y - x| = 0 := by
      rw [zero,abs_zero] at near
      have := abs_nonneg (y - x)
      rw [zero] at this ⊢
      linarith
    rw [abs_eq_zero,sub_eq_zero] at same
    rw [same]
    exact roundRat_fixed 53 (-1074) x (by decide) double
  · apply roundRat_near 53 (-1074) x y (by decide) double
    have some := abs_pos.mpr zero
    rcases (abs_nonneg (y - x)).eq_or_lt with none | apart
    · rw [← none,zero_mul]
      exact some
    · calc
        |y - x| * 2^(53 + 1) < |y - x| * (2 * 10^16) := by
          gcongr
          norm_num
        _ ≤ |x| := near

private theorem digits17_least (q : ℚ) (least : |q| = 1 / 2^1022) :
    (1 : ℚ) / 2^1022 ≤ (digits17 q).1 * 10^((digits17 q).2 - 16) := by
  have sizes : 10^307 < 2^1022 ∧ 2^1022 ≤ 10^308 ∧ 10^324 < 22250738585072014 * 2^1022 ∧
    2 * (22250738585072014 * 2^1022) < 2 * 10^324 + 2^1022 := by decide +kernel
  have cast : (10 : ℚ)^307 < 2^1022 ∧ (2 : ℚ)^1022 ≤ 10^308 ∧ (10 : ℚ)^324 < 22250738585072014 * 2^1022 ∧
    2 * (22250738585072014 * (2 : ℚ)^1022) < 2 * 10^324 + 2^1022 := by exact_mod_cast sizes
  have ten (k : Nat) : (10 : ℚ)^(-(k : Int)) = 1 / 10^k := by rw [zpow_neg,zpow_natCast,one_div]
  have two : (0 : ℚ) < 2^1022 := pow_pos (by norm_num) 1022
  obtain ⟨low,high,under,half⟩ := cast
  have log : Int.log 10 ((1 : ℚ) / 2^1022) = -308 := by
    have positive : (0 : ℚ) < 1 / 2^1022 := one_div_pos.mpr two
    have below : (((10 : Nat) : ℚ))^(-((308 : Nat) : Int)) ≤ 1 / 2^1022 := by
      rw [Nat.cast_ofNat,ten]
      exact one_div_le_one_div_of_le two high
    have above : (1 : ℚ) / 2^1022 < ((10 : Nat) : ℚ)^(-((307 : Nat) : Int)) := by
      rw [Nat.cast_ofNat,ten]
      exact one_div_lt_one_div_of_lt (pow_pos (by norm_num) 307) low
    have := (Int.zpow_le_iff_le_log (by norm_num) positive).mp below
    have := (Int.lt_zpow_iff_log_lt (by norm_num) positive).mp above
    omega
  have scale : (10 : ℚ)^((-308 : Int) - 16) = 1 / 10^324 := ten 324
  have round : roundHalfEven ((1 : ℚ) / 2^1022 / 10^((-308 : Int) - 16)) = 22250738585072014 := by
    apply roundHalfEven_near
    rw [scale]
    generalize (2 : ℚ)^1022 = a at *
    generalize (10 : ℚ)^324 = b at *
    have apart : 1 / a / (1 / b) - ((22250738585072014 : Int) : ℚ) = (b - 22250738585072014 * a) / a := by
      push_cast
      field_simp
    rw [apart,abs_div,abs_of_pos two,div_lt_iff₀ two,abs_lt]
    constructor <;> linarith only [under,half,two]
  have digits : digits17 q = (22250738585072014,-308) := by
    unfold digits17
    simp only [least,log,round]
    rfl
  rw [digits,scale,mul_one_div,div_le_div_iff₀ two (pow_pos (by norm_num) 324),one_mul,Nat.cast_ofNat]
  exact under.le

/-- No normal double is printed as a number below the normal ones. -/
theorem showG17_normal (x y : ℚ) (normal : Normal x) (nonzero : x ≠ 0) (near : |y - x| * (2 * 10^16) ≤ |x|)
    (digits : |y| = |x| ∨ |y| = (digits17 x).1 * 10^((digits17 x).2 - 16)) : 1 / 2^1022 ≤ |y| := by
  obtain ⟨⟨double,-⟩,zero | large⟩ := normal
  · exact (nonzero zero).elim
  rcases digits with same | rounded
  · rwa [same]
  rcases large.eq_or_lt with least | above
  · rw [rounded]
    exact digits17_least x least.symm
  · -- The next double is a 53-bit step away, much further than the digits can be.
    obtain ⟨k,a,fine,-,own⟩ := double
    obtain ⟨m,grid⟩ := finer_grid k a (-1074) fine
    have unit : (0 : ℚ) < 2^(-1074 : Int) := zpow_pos (by norm_num) _
    have floor : (1 : ℚ) / 2^1022 = 2^52 * 2^(-1074 : Int) := by
      rw [← zpow_natCast,← zpow_natCast,← zpow_add₀ (by norm_num),one_div,← zpow_neg]
      rfl
    have size : |x| = m.natAbs * 2^(-1074 : Int) := by
      rw [own,grid,abs_mul,abs_of_pos unit,Nat.cast_natAbs,Int.cast_abs]
    have next : (2 : ℚ)^52 + 1 ≤ m.natAbs := by
      rw [floor,size] at above
      have : ((2^52 : Nat) : ℚ) < m.natAbs := by
        push_cast
        exact lt_of_mul_lt_mul_right above unit.le
      have : 2^52 + 1 ≤ m.natAbs := Nat.cast_lt.mp this
      exact_mod_cast this
    have gap := abs_sub_abs_le_abs_sub x y
    rw [abs_sub_comm] at gap
    have short : ((2 : ℚ)^52 + 1) * 2^(-1074 : Int) ≤ |x| := by
      rw [size]
      gcongr
    rw [floor]
    generalize (2 : ℚ)^(-1074 : Int) = u at *
    linarith only [near,gap,short,unit]

private theorem double_size (x : ℚ) (double : Double x) (nonzero : x ≠ 0) : -999 ≤ Int.log 10 |x| ∧ Int.log 10 |x| < 998 := by
  have positive : 0 < |x| := abs_pos.mpr nonzero
  obtain ⟨⟨k,a,fine,-,own⟩,below⟩ := double
  constructor
  · obtain ⟨m,grid⟩ := finer_grid k a (-1074) fine
    have unit : (0 : ℚ) < 2^(-1074 : Int) := zpow_pos (by norm_num) _
    have some : 1 ≤ |m| := by
      apply Int.one_le_abs
      rintro rfl
      rw [own,grid,Int.cast_zero,zero_mul] at nonzero
      exact nonzero rfl
    have least : (2 : ℚ)^(-1074 : Int) ≤ |x| := by
      rw [own,grid,abs_mul,abs_of_pos unit,← Int.cast_abs]
      have : (1 : ℚ) ≤ (|m| : Int) := by exact_mod_cast some
      exact le_mul_of_one_le_left unit.le this
    have powers : (2 : ℚ)^1074 ≤ 10^999 := by
      have : 2^1074 ≤ 10^999 := by decide +kernel
      exact_mod_cast this
    have small : ((10 : Nat) : ℚ)^(-999 : Int) ≤ |x| := by
      have two : (2 : ℚ)^(-1074 : Int) = 1 / 2^1074 := by rw [one_div,← zpow_natCast,← zpow_neg]; rfl
      have ten : (10 : ℚ)^(-999 : Int) = 1 / 10^999 := by rw [one_div,← zpow_natCast,← zpow_neg]; rfl
      rw [two] at least
      rw [Nat.cast_ofNat,ten]
      exact le_trans (one_div_le_one_div_of_le (pow_pos two_pos 1074) powers) least
    exact (Int.zpow_le_iff_le_log (by norm_num) positive).mp small
  · have powers : (2 : ℚ)^1024 ≤ 10^998 := by
      have : 2^1024 ≤ 10^998 := by decide +kernel
      exact_mod_cast this
    have large : |x| < ((10 : Nat) : ℚ)^(998 : Int) := by
      rw [Nat.cast_ofNat]
      exact lt_of_lt_of_le below powers
    exact (Int.lt_zpow_iff_log_lt (by norm_num) positive).mp large

private theorem stripZeros_length (s : Bytes) : (stripZeros s).length ≤ s.length := by
  rw [stripZeros,List.length_reverse]
  have shorter := (List.dropWhile_suffix (l := s.reverse) (· == 48)).length_le
  rwa [List.length_reverse] at shorter

private theorem showFraction_length (s : Bytes) : (showFraction s).length ≤ s.length + 1 := by
  unfold showFraction
  split_ifs
  · exact Nat.zero_le _
  · exact Nat.succ_le_succ (stripZeros_length s)

private theorem layout17_length (negative : Bool) (n : Nat) (x : Int) (most : n < 10^17) (low : -999 ≤ x) (high : x ≤ 999) :
    (layout17 negative n x).length ≤ 24 := by
  have digits := (showNat_width n 17 (by decide)).mpr most
  have sign : (if negative then ([45] : Bytes) else []).length ≤ 1 := by cases negative <;> simp
  have places : (showPadded 2 x.natAbs).length ≤ 3 := by
    have := (showNat_width x.natAbs 3 (by decide)).mpr (by omega)
    rw [showPadded,padLeft,List.length_append,List.length_replicate]
    omega
  unfold layout17
  simp only
  by_cases scientific : x < -4 ∨ 17 ≤ x
  · have fraction := showFraction_length ((showNat n).drop 1)
    rw [if_pos scientific]
    simp only [List.length_append,List.length_take,List.length_drop,List.length_cons,List.length_nil] at fraction ⊢
    omega
  rw [if_neg scientific]
  by_cases small : x < 0
  · have fraction := showFraction_length (List.replicate (x.natAbs - 1) 48 ++ showNat n)
    rw [if_pos small]
    simp only [List.length_append,List.length_replicate,List.length_cons,List.length_nil] at fraction ⊢
    omega
  · have fraction := showFraction_length ((showNat n).drop (x.toNat + 1))
    rw [if_neg small]
    simp only [List.length_append,List.length_take,List.length_drop] at fraction ⊢
    omega

/-- Twenty-four characters at most. -/
theorem showG17_length (x : ℚ) (double : Double x) : (showG17 x).length ≤ 24 := by
  rw [showG17_layout]
  split_ifs with whole
  · have width := (showNat_width x.num.natAbs 17 (by decide)).mpr whole.2
    unfold showInt
    split_ifs
    · rw [List.length_cons]
      omega
    · omega
  · have nonzero : x ≠ 0 := by
      rintro rfl
      exact whole ⟨rfl,by decide⟩
    obtain ⟨-,most,-⟩ := digits17_spec x nonzero
    obtain ⟨low,high⟩ := double_size x double nonzero
    apply layout17_length _ _ _ most
    all_goals
      unfold digits17
      simp only
      split_ifs <;> simp only <;> omega

end CString
