import Mathlib.Data.Nat.Log
import Mathlib.Tactic.Ring
import Mathlib.Tactic.Linarith
import Mathlib.Tactic.FieldSimp
import Mathlib.Data.Rat.Floor

/-! Fixed-width number formats over the integers: two-byte big-endian words,
a wrapping 16-bit checksum, and rounding to a binary significand. -/
namespace Numbers

/-- The unsigned 16-bit word with these bytes, high byte first. -/
def beUnsigned (hi lo : UInt8) : Nat := (hi.toNat <<< 8 ||| lo.toNat) % 65536

/-- The same word read as two's complement. -/
def beSigned (hi lo : UInt8) : Int := ((hi.toNat <<< 8 ||| lo.toNat : Nat) : Int).bmod 65536

private theorem shifted_or (hi lo : UInt8) : hi.toNat <<< 8 ||| lo.toNat = hi.toNat * 256 + lo.toNat := by
  have small : lo.toNat < 2^8 := lo.toNat_lt
  rw [← Nat.shiftLeft_add_eq_or_of_lt small,Nat.shiftLeft_eq]

theorem beUnsigned_eq (hi lo : UInt8) : beUnsigned hi lo = hi.toNat * 256 + lo.toNat := by
  have := hi.toNat_lt
  have := lo.toNat_lt
  rw [beUnsigned,shifted_or]
  omega

theorem beSigned_eq (hi lo : UInt8) :
    beSigned hi lo = if hi.toNat < 128 then (hi.toNat * 256 + lo.toNat : Int)
      else hi.toNat * 256 + lo.toNat - 65536 := by
  have := hi.toNat_lt
  have := lo.toNat_lt
  unfold beSigned
  rw [shifted_or,Int.bmod_def]
  split_ifs <;> omega

theorem beSigned_word (hi lo : UInt8) :
    UInt16.ofInt (beSigned hi lo) = UInt16.ofNat (beUnsigned hi lo) := by
  rw [UInt16.ofInt,beSigned_eq,beUnsigned_eq]
  have := hi.toNat_lt
  have := lo.toNat_lt
  congr 1
  split_ifs <;> omega

def byteSum (bytes : List UInt8) : Nat := (bytes.map UInt8.toNat).sum

@[simp] theorem byteSum_nil : byteSum [] = 0 := rfl

@[simp] theorem byteSum_cons (b : UInt8) (bytes : List UInt8) :
    byteSum (b::bytes) = b.toNat + byteSum bytes := by simp [byteSum]

theorem foldl_sub (bytes : List UInt8) (start : UInt16) :
    bytes.foldl (fun crc b => crc - b.toUInt16) start = start - UInt16.ofNat (byteSum bytes) := by
  induction bytes generalizing start with
  | nil => simp
  | cons b bytes ih =>
    have word : b.toUInt16 = UInt16.ofNat b.toNat := by simp
    rw [List.foldl_cons,ih,byteSum_cons,UInt16.ofNat_add,word]
    grind

/-- Round to `p` significant bits, ties to even; exact below `2^p`. -/
def roundNat (p n : Nat) : Nat :=
  let shift := Nat.log2 n + 1 - p
  let kept := n / 2^shift
  let lost := n % 2^shift
  if 2 * lost > 2^shift ∨ (2 * lost = 2^shift ∧ kept % 2 = 1) then (kept + 1) * 2^shift else kept * 2^shift

private theorem roundNat_exact (p n : Nat) (bits : 0 < p) (small : n < 2^p) : roundNat p n = n := by
  have noShift : Nat.log2 n + 1 - p = 0 := by
    rcases Nat.eq_zero_or_pos n with rfl | positive
    · simp only [Nat.log2_zero]
      omega
    · have := (Nat.log2_lt (by omega)).mpr small
      omega
  simp [roundNat,noShift,Nat.mod_one]

/-- Sign and magnitude, as binary floating formats store an integer. -/
def roundInt (p : Nat) (n : Int) : Int := n.sign * roundNat p n.natAbs

theorem roundInt_exact (p : Nat) (n : Int) (bits : 0 < p) (small : n.natAbs < 2^p) :
    roundInt p n = n := by
  rw [roundInt,roundNat_exact p _ bits small,Int.sign_mul_natAbs]

/-- The integer part of the binary logarithm of `|q|`, for `q ≠ 0`. -/
def ratLog2 (q : ℚ) : Int :=
  let e : Int := (Nat.log2 q.num.natAbs : Int) - Nat.log2 q.den
  if (2 : ℚ)^e ≤ |q| then e else e - 1

def roundHalfEven (q : ℚ) : Int :=
  let below := ⌊q⌋
  let rest := q - below
  if rest > 1 / 2 ∨ (rest = 1 / 2 ∧ below % 2 = 1) then below + 1 else below

/-- Round to `p` significant bits, no finer than `2^emin`, ties to even. -/
def roundRat (p : Nat) (emin : Int) (q : ℚ) : ℚ :=
  if q = 0 then 0 else
  let ulp : ℚ := 2^(max (ratLog2 q - p + 1) emin)
  roundHalfEven (q / ulp) * ulp

def roundSingle (q : ℚ) : ℚ := roundRat 24 (-149) q

def roundDouble (q : ℚ) : ℚ := roundRat 53 (-1074) q

/-- Conversion to a 32-bit int: towards zero, and the value x86 gives when the
number does not fit. -/
def toInt32 (q : ℚ) : Int :=
  let n := if q < 0 then ⌈q⌉ else ⌊q⌋
  if -2147483648 ≤ n ∧ n < 2147483648 then n else -2147483648

@[simp] theorem roundHalfEven_int (n : Int) : roundHalfEven n = n := by
  simp [roundHalfEven]

theorem roundRat_int (p : Nat) (emin n : Int) (small : n.natAbs < 2^p) (fine : emin ≤ 0) :
    roundRat p emin n = n := by
  unfold roundRat
  split_ifs with zero
  · exact zero.symm
  have nonzero : n.natAbs ≠ 0 := by simpa using zero
  have width : (Nat.log2 n.natAbs : Int) - p + 1 ≤ 0 := by
    have := (Nat.log2_lt nonzero).mpr small
    omega
  have coarse : max (ratLog2 n - p + 1) emin ≤ 0 := by
    have top : ratLog2 n ≤ Nat.log2 n.natAbs := by
      unfold ratLog2
      simp only [Rat.num_intCast,Rat.den_intCast]
      split_ifs <;> omega
    omega
  obtain ⟨k,shift⟩ := Int.eq_ofNat_of_zero_le (by omega : 0 ≤ -max (ratLog2 n - p + 1) emin)
  have ulp : max (ratLog2 (n : ℚ) - p + 1) emin = -(k : Int) := by omega
  have scaled : (n : ℚ) / 2^(-(k : Int)) = ((n * 2^k : Int) : ℚ) := by
    rw [zpow_neg,zpow_natCast]
    push_cast
    field_simp
  simp only [ulp]
  rw [scaled,roundHalfEven_int,zpow_neg,zpow_natCast]
  push_cast
  field_simp

theorem two_zpow_ratLog2_le (q : ℚ) (nonzero : q ≠ 0) : (2 : ℚ)^ratLog2 q ≤ |q| := by
  unfold ratLog2
  simp only
  split_ifs with close
  · exact close
  have top : (2 : ℚ)^(Nat.log2 q.num.natAbs) ≤ (q.num.natAbs : ℚ) := by
    exact_mod_cast Nat.log2_self_le (by simpa using nonzero)
  have bottom : (q.den : ℚ) ≤ 2^(Nat.log2 q.den + 1) := by
    exact_mod_cast (Nat.lt_log2_self).le
  have den : (0 : ℚ) < q.den := by exact_mod_cast q.den_pos
  have size : |q| = (q.num.natAbs : ℚ) / q.den := by
    rw [Nat.cast_natAbs,Int.cast_abs,← abs_of_pos den,← abs_div,Rat.num_div_den]
  have split : ((Nat.log2 q.num.natAbs : Int) - Nat.log2 q.den - 1) = (Nat.log2 q.num.natAbs : Int) - (Nat.log2 q.den + 1 : Nat) := by
    push_cast
    ring
  rw [size,split,zpow_sub₀ (by norm_num),zpow_natCast,zpow_natCast]
  gcongr

private theorem abs_roundHalfEven_le (q : ℚ) : |(roundHalfEven q : ℚ)| ≤ |q| + 1 := by
  have low := Int.floor_le q
  have high := Int.lt_floor_add_one q
  have near : |(roundHalfEven q : ℚ) - q| ≤ 1 := by
    unfold roundHalfEven
    simp only
    split_ifs
    · push_cast
      rw [abs_le]
      constructor <;> linarith
    · rw [abs_le]
      constructor <;> linarith
  have triangle := abs_sub_abs_le_abs_sub (roundHalfEven q : ℚ) q
  linarith

/-- Rounding stays within twice the magnitude and the finest step. -/
theorem abs_roundRat_le (p : Nat) (emin : Int) (q : ℚ) (bits : 0 < p) : |roundRat p emin q| ≤ 2 * |q| + 2^emin := by
  have finest : (0 : ℚ) < 2^emin := zpow_pos (by norm_num) emin
  unfold roundRat
  split_ifs with zero
  · simp [zero,finest.le]
  have ulp : (2 : ℚ)^(max (ratLog2 q - p + 1) emin) ≤ |q| + 2^emin := by
    rcases max_choice (ratLog2 q - p + 1) emin with coarse | fine
    · rw [coarse]
      calc
        (2 : ℚ)^(ratLog2 q - p + 1) ≤ 2^ratLog2 q := zpow_le_zpow_right₀ (by norm_num) (by omega)
        _ ≤ |q| := two_zpow_ratLog2_le q zero
        _ ≤ |q| + 2^emin := by linarith
    · rw [fine]
      linarith [abs_nonneg q]
  have positive : (0 : ℚ) < 2^(max (ratLog2 q - p + 1) emin) := zpow_pos (by norm_num) _
  simp only
  generalize (2 : ℚ)^(max (ratLog2 q - p + 1) emin) = u at *
  calc
    |(roundHalfEven (q / u) : ℚ) * u| = |(roundHalfEven (q / u) : ℚ)| * u := by rw [abs_mul,abs_of_pos positive]
    _ ≤ (|q / u| + 1) * u := by gcongr; exact abs_roundHalfEven_le _
    _ = |q| + u := by
      rw [abs_div,abs_of_pos positive]
      field_simp
    _ ≤ 2 * |q| + 2^emin := by linarith

theorem toInt32_int (n : Int) (range : -2147483648 ≤ n ∧ n < 2147483648) : toInt32 n = n := by
  unfold toInt32
  simp only [Int.ceil_intCast,Int.floor_intCast,ite_self]
  exact if_pos range

end Numbers
