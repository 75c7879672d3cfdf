import Jbdtool.Base.Printf

/-! Decimals with a fixed number of places: what `%.nf` prints, and what strtod makes of it. -/
namespace CString
open Numbers

def fixedUnits (digits : Nat) (q : ℚ) : Nat := (roundHalfEven (|q| * 10^digits)).toNat

def fixedValue (digits : Nat) (q : ℚ) : ℚ :=
  if q < 0 then -((fixedUnits digits q : ℚ) / 10^digits) else (fixedUnits digits q : ℚ) / 10^digits

private theorem foldl_numeral (base n : Nat) (digits : List Nat) :
    digits.foldl (fun n d => n * base + d) n = n * base^digits.length + numeralValue base digits := by
  induction digits generalizing n with
  | nil => simp [numeralValue]
  | cons d digits ih =>
    have first : numeralValue base (d::digits) = d * base^digits.length + numeralValue base digits := by
      rw [numeralValue,List.foldl_cons,ih]
      simp
    rw [List.foldl_cons,ih,first,List.length_cons,pow_succ]
    ring

theorem numeralValue_append (base : Nat) (first second : List Nat) :
    numeralValue base (first ++ second) = numeralValue base first * base^second.length + numeralValue base second := by
  rw [numeralValue,List.foldl_append,foldl_numeral]
  rfl

private theorem showPadded_digits (width n : Nat) (some : 0 < width) (fits : n < 10^width) : ∃ digits : List Nat,
    showPadded width n = digits.map (fun d => UInt8.ofNat (48 + d)) ∧ digits.length = width ∧ (∀ d ∈ digits, d < 10) ∧
      numeralValue 10 digits = n := by
  obtain ⟨digits,shown,-,decimal,value,-⟩ := showNat_digits n
  have short := (showNat_width n width some).mpr fits
  have length : (showNat n).length = digits.length := by rw [shown,List.length_map]
  have zeros (k : Nat) : numeralValue 10 (List.replicate k 0) = 0 := by
    induction k with
    | zero => rfl
    | succ k ih => simpa [List.replicate_succ,numeralValue] using ih
  refine ⟨List.replicate (width - digits.length) 0 ++ digits,?_,?_,?_,?_⟩
  · rw [showPadded,padLeft,length,shown,List.map_append,List.map_replicate]
    rfl
  · rw [List.length_append,List.length_replicate]
    omega
  · intro d member
    rcases List.mem_append.mp member with zero | digit
    · rw [List.eq_of_mem_replicate zero]
      decide
    · exact decimal d digit
  · rw [numeralValue_append,zeros,value]
    omega

private theorem showFixed_parts (digits : Nat) (q : ℚ) (places : 0 < digits) : showFixed digits q =
    (if q < 0 then [45] else []) ++ showNat (fixedUnits digits q / 10^digits) ++
      46::showPadded digits (fixedUnits digits q % 10^digits) := by
  unfold showFixed
  simp only
  rw [if_neg (show ¬ digits = 0 by omega)]
  rfl

private theorem showFixed_length (digits : Nat) (q : ℚ) (places : 0 < digits) : (showFixed digits q).length =
    (if q < 0 then 1 else 0) + (showNat (fixedUnits digits q / 10^digits)).length + 1 + digits := by
  obtain ⟨padded,shown,length,-⟩ := showPadded_digits digits (fixedUnits digits q % 10^digits) places
    (Nat.mod_lt _ (by positivity))
  rw [showFixed_parts digits q places,shown]
  simp only [List.length_append,List.length_cons,List.length_map,length]
  split_ifs <;> simp <;> omega

/-- What is printed starts with a digit, or with a minus and a digit; a zero in front is
followed by the point. -/
theorem showFixed_front (digits : Nat) (q : ℚ) (places : 0 < digits) : ∃ (sign : Bytes) (d : Nat) (s : Bytes),
    showFixed digits q = sign ++ UInt8.ofNat (48 + d)::s ∧ sign = (if q < 0 then [45] else []) ∧ d < 10 ∧
      (d = 0 → ∃ t, s = 46::t) := by
  obtain ⟨whole,shown,nonempty,decimal,-,zero⟩ := showNat_digits (fixedUnits digits q / 10^digits)
  obtain ⟨d,whole,rfl⟩ := List.exists_cons_of_ne_nil nonempty
  refine ⟨_,d,whole.map (fun d => UInt8.ofNat (48 + d)) ++ 46::showPadded digits (fixedUnits digits q % 10^digits),?_,rfl,
    decimal d List.mem_cons_self,?_⟩
  · rw [showFixed_parts digits q places,shown]
    simp
  · rintro rfl
    obtain ⟨-,alone⟩ := zero rfl
    rw [(List.cons.inj alone).2]
    exact ⟨_,rfl⟩

theorem numeralSign_showFixed (digits : Nat) (q : ℚ) (places : 0 < digits) (rest : Bytes) :
    numeralSign (showFixed digits q ++ rest) = (decide (q < 0),showNat (fixedUnits digits q / 10^digits) ++
      46::(showPadded digits (fixedUnits digits q % 10^digits) ++ rest)) ∧
      (showFixed digits q ++ rest).dropWhile isspace = showFixed digits q ++ rest := by
  obtain ⟨whole,shown,nonempty,decimal,-⟩ := showNat_digits (fixedUnits digits q / 10^digits)
  obtain ⟨d,whole,rfl⟩ := List.exists_cons_of_ne_nil nonempty
  have first := decimal d List.mem_cons_self
  have space := (digit_byte d first).1
  rw [showFixed_parts digits q places]
  split_ifs with negative
  · rw [List.append_assoc,List.append_assoc,List.singleton_append,List.dropWhile_cons_of_neg (by decide)]
    simp [numeralSign,negative]
  · rw [shown,List.map_cons,List.nil_append,List.cons_append,List.cons_append,
      List.dropWhile_cons_of_neg (by rw [space]; decide),numeralSign_digit d _ first]
    simp [negative]

/-- strtod reads the decimal back, and stops behind it. -/
theorem strtod_showFixed (digits : Nat) (q : ℚ) (places : 0 < digits) (rest : Bytes) (stops : Stops 10 rest)
    (plain : ∀ c s, rest = c::s → c ≠ 101 ∧ c ≠ 69) :
    strtod (showFixed digits q ++ rest) = (fixedValue digits q,rest) := by
  obtain ⟨signed,spaces⟩ := numeralSign_showFixed digits q places rest
  have point : Stops 10 (46::(showPadded digits (fixedUnits digits q % 10^digits) ++ rest)) := by
    intro c s same
    obtain ⟨rfl,-⟩ := List.cons.inj same
    decide
  obtain ⟨whole,run,nonempty,value⟩ := takeDigits_showNat (fixedUnits digits q / 10^digits) _ point
  obtain ⟨padded,shown,length,decimal,units⟩ := showPadded_digits digits (fixedUnits digits q % 10^digits) places
    (Nat.mod_lt _ (by positivity))
  have fraction : takeDigits 10 (showPadded digits (fixedUnits digits q % 10^digits) ++ rest) = (padded,rest) := by
    rw [shown]
    exact takeDigits_append _ _ _ (fun d member => ⟨decimal d member,decimal d member⟩) stops
  have exponent : takeExponent rest = (0,rest) := by
    cases rest with
    | nil => rfl
    | cons c s =>
      obtain ⟨lower,upper⟩ := plain c s rfl
      simp [takeExponent,lower,upper]
  have together : numeralValue 10 (whole ++ padded) = fixedUnits digits q := by
    rw [numeralValue_append,value,units,length]
    exact Nat.div_add_mod' _ _
  have magnitude : (fixedUnits digits q : ℚ) * 10^((0 : Int) - digits) = fixedUnits digits q / 10^digits := by
    rw [zero_sub,zpow_neg,zpow_natCast,div_eq_mul_inv]
  simp only [strtod,spaces,signed,run,fraction,nonempty,false_and,if_false,exponent,together,length,magnitude]
  by_cases negative : q < 0 <;> simp [fixedValue,negative]

theorem showFixed_chars (digits : Nat) (q : ℚ) (places : 0 < digits) :
    ∀ c ∈ showFixed digits q, c = 45 ∨ c = 46 ∨ isdigit c = true := by
  obtain ⟨whole,shown,-,decimal,-⟩ := showNat_digits (fixedUnits digits q / 10^digits)
  obtain ⟨padded,filled,-,decimals,-⟩ := showPadded_digits digits (fixedUnits digits q % 10^digits) places
    (Nat.mod_lt _ (by positivity))
  have digit (run : List Nat) (small : ∀ d ∈ run, d < 10) : ∀ c ∈ run.map (fun d => UInt8.ofNat (48 + d)), isdigit c = true := by
    intro c member
    obtain ⟨d,inside,rfl⟩ := List.mem_map.mp member
    have bound := small d inside
    interval_cases d <;> decide
  intro c member
  rw [showFixed_parts digits q places,shown,filled,List.mem_append,List.mem_append,List.mem_cons] at member
  rcases member with (sign | front) | rfl | back
  · split_ifs at sign
    · exact .inl (List.mem_singleton.mp sign)
    · cases sign
  · exact .inr (.inr (digit whole decimal c front))
  · exact .inr (.inl rfl)
  · exact .inr (.inr (digit padded decimals c back))

private theorem abs_fixedValue (digits : Nat) (q : ℚ) : |fixedValue digits q| = (fixedUnits digits q : ℚ) / 10^digits := by
  have positive : (0 : ℚ) ≤ (fixedUnits digits q : ℚ) / 10^digits := by positivity
  unfold fixedValue
  split_ifs
  · rw [abs_neg,abs_of_nonneg positive]
  · exact abs_of_nonneg positive

theorem fixedValue_lt (digits : Nat) (q : ℚ) (places : 0 < digits) (width : Nat) (short : (showFixed digits q).length ≤ width) :
    |fixedValue digits q| < 10^width := by
  have length := showFixed_length digits q places
  have whole := (showNat_width (fixedUnits digits q / 10^digits) width (by omega)).mp (by omega)
  have units : fixedUnits digits q < 10^width * 10^digits := (Nat.div_lt_iff_lt_mul (by positivity)).mp whole
  rw [abs_fixedValue,div_lt_iff₀ (by positivity)]
  exact_mod_cast units

theorem fixedValue_ge (digits : Nat) (q : ℚ) (nonzero : fixedValue digits q ≠ 0) : 1 / 10^digits ≤ |fixedValue digits q| := by
  have some : fixedUnits digits q ≠ 0 := by
    intro none
    apply nonzero
    rw [← abs_eq_zero,abs_fixedValue,none]
    simp
  rw [abs_fixedValue]
  gcongr
  exact_mod_cast Nat.one_le_iff_ne_zero.mpr some

end CString
