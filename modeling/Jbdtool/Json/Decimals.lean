import Jbdtool.Base.Decimals
import Jbdtool.Json.RoundTrip

/-! Decimals with a fixed number of places, read as JSON numbers. -/
namespace Jbdtool
open CString Numbers
namespace Json

private theorem digit_letter (d : Nat) (small : d < 10) : tolower (UInt8.ofNat (48 + d)) ≠ 105 ∧
    tolower (UInt8.ofNat (48 + d)) ≠ 110 ∧ isdigit (UInt8.ofNat (48 + d)) = true := by
  interval_cases d <;> decide

private theorem isDecimal_fixed (digits : Nat) (q : ℚ) (places : 0 < digits) : isDecimal (showFixed digits q) = true := by
  obtain ⟨sign,d,s,shown,signed,small,zero⟩ := showFixed_front digits q places
  obtain ⟨-,minus,-,null⟩ := digit_byte d small
  rw [shown,signed]
  by_cases lead : d = 0
  · obtain ⟨t,rfl⟩ := zero lead
    subst lead
    split_ifs <;> rfl
  · have other : UInt8.ofNat (48 + d) ≠ 48 := fun same => lead (null.mp same)
    generalize UInt8.ofNat (48 + d) = c at minus other
    split_ifs <;> simp [isDecimal,minus,other]

private theorem notDecimal_fixed (digits : Nat) (q : ℚ) (places : 0 < digits) (rest : Bytes) :
    notDecimal (showFixed digits q ++ rest) = false := by
  obtain ⟨whole,shown,nonempty,decimal,-,zero⟩ := showNat_digits (fixedUnits digits q / 10^digits)
  obtain ⟨d,whole,rfl⟩ := List.exists_cons_of_ne_nil nonempty
  obtain ⟨lower,upper,-⟩ := digit_letter d (decimal d List.mem_cons_self)
  obtain ⟨-,-,-,null⟩ := digit_byte d (decimal d List.mem_cons_self)
  have point : UInt8.ofNat (48 + d) = 48 → whole = [] := fun lead =>
    (List.cons.inj (zero (congrArg some (null.mp lead))).2).2
  unfold notDecimal
  rw [(numeralSign_showFixed digits q places rest).1,shown,List.map_cons,List.cons_append]
  generalize UInt8.ofNat (48 + d) = c at lower upper point
  split
  · rename_i x t same
    obtain ⟨lead,same⟩ := List.cons.inj same
    rw [point lead] at same
    obtain ⟨rfl,-⟩ := List.cons.inj same
    rfl
  · rename_i a b e t _ same
    obtain ⟨rfl,-⟩ := List.cons.inj same
    simp [bytes,lower,upper]
  · rfl

private theorem ten_pow_le (k : Nat) : (10 : ℚ)^(3 * k) ≤ 2^(10 * k) := by
  rw [pow_mul,pow_mul]
  exact pow_le_pow_left₀ (by norm_num) (by norm_num) k

private theorem outOfRange_fixed (digits : Nat) (q : ℚ) (places : 0 < digits) (few : digits ≤ 300)
    (short : (showFixed digits q).length ≤ 256) : outOfRange (fixedValue digits q) = false := by
  have two : (1 : ℚ) < 2 := by norm_num
  have some : (1 : ℚ) ≤ 2^(10 * 86) := one_le_pow₀ two.le
  have twice (x : ℚ) (large : 1 ≤ x) : 2 * x + 1 ≤ x * 2^2 := by linarith
  have finite : |roundDouble (fixedValue digits q)| < 2^1024 := calc
    |roundDouble (fixedValue digits q)| ≤ 2 * |fixedValue digits q| + 2^(-1074 : Int) := abs_roundRat_le 53 _ _ (by decide)
    _ ≤ 2 * 10^(3 * 86) + 1 := by
      gcongr
      · exact (fixedValue_lt digits q places _ (by omega)).le
      · exact zpow_le_one_of_nonpos₀ (by norm_num) (by norm_num)
    _ ≤ 2 * 2^(10 * 86) + 1 := by
      gcongr
      exact ten_pow_le 86
    _ ≤ 2^(10 * 86) * 2^2 := twice _ some
    _ = 2^(10 * 86 + 2) := (pow_add 2 (10 * 86) 2).symm
    _ < 2^1024 := pow_lt_pow_right₀ two (by decide)
  have normal : |fixedValue digits q| < 1 / 2^1022 → roundDouble (fixedValue digits q) = fixedValue digits q := by
    intro tiny
    by_cases zero : fixedValue digits q = 0
    · rw [zero]
      rfl
    · refine absurd tiny (not_lt.mpr ?_)
      calc
        (1 : ℚ) / 2^1022 ≤ 1 / 10^(3 * 100) := one_div_le_one_div_of_le (by positivity)
          ((ten_pow_le 100).trans (pow_le_pow_right₀ two.le (by decide)))
        _ ≤ 1 / 10^digits := one_div_le_one_div_of_le (by positivity) (pow_le_pow_right₀ (by norm_num) few)
        _ ≤ |fixedValue digits q| := fixedValue_ge digits q zero
  simp only [outOfRange,Bool.or_eq_false_iff,Bool.and_eq_false_iff,decide_eq_false_iff_not,not_le,ne_eq,not_not]
  refine ⟨finite,?_⟩
  by_cases tiny : |fixedValue digits q| < 1 / 2^1022
  · exact .inr (normal tiny)
  · exact .inl tiny

/-- The parser reads the double next to the decimal that is printed. -/
private theorem parseNumber_fixed (digits : Nat) (q : ℚ) (places : 0 < digits) (few : digits ≤ 300)
    (short : (showFixed digits q).length ≤ 256) (rest : Bytes) (stops : Stops 10 rest)
    (plain : ∀ c s, rest = c::s → c ≠ 101 ∧ c ≠ 69) :
    parseNumber (showFixed digits q ++ rest) = some (.number (roundDouble (fixedValue digits q)),rest) := by
  have consumed : (showFixed digits q ++ rest).take ((showFixed digits q ++ rest).length - rest.length) =
      showFixed digits q := by simp
  simp only [parseNumber,strtod_showFixed digits q places rest stops plain,notDecimal_fixed digits q places rest,consumed,
    outOfRange_fixed digits q places few short,isDecimal_fixed digits q places]
  rfl

theorem showFixed_head (digits : Nat) (q : ℚ) (places : 0 < digits) : ∃ c s, showFixed digits q = c::s ∧
    (c = 45 ∨ isdigit c = true) := by
  obtain ⟨sign,d,s,shown,signed,small,-⟩ := showFixed_front digits q places
  rw [shown,signed]
  split_ifs
  · exact ⟨45,_,rfl,.inl rfl⟩
  · exact ⟨_,s,rfl,.inr (digit_letter d small).2.2⟩

theorem parseValue_fixed (fuel nesting digits : Nat) (q : ℚ) (depth : nesting ≤ 2048) (places : 0 < digits)
    (few : digits ≤ 300) (short : (showFixed digits q).length ≤ 256) (rest : Bytes) (stops : Stops 10 rest)
    (plain : ∀ c s, rest = c::s → c ≠ 101 ∧ c ≠ 69) :
    parseValue (fuel + 1) nesting (showFixed digits q ++ rest) =
      some (.number (roundDouble (fixedValue digits q)),rest) := by
  obtain ⟨c,s,shown,shape⟩ := showFixed_head digits q places
  obtain ⟨visible,brace,bracket,quote,letter⟩ := numeral_char c shape
  have read := parseNumber_fixed digits q places few short rest stops plain
  rw [shown,List.cons_append] at read ⊢
  rw [parseValue_scalar fuel nesting c _ depth visible ⟨brace,bracket⟩,if_neg quote,if_neg letter,if_pos shape,read]

end Json
end Jbdtool
