import Jbdtool.Base.Numbers
import Mathlib.Data.Int.Log

/-! The numbers with a `p`-bit significand, and what is close enough to one to be rounded to it. -/
namespace Numbers

theorem abs_roundHalfEven_sub (q : ℚ) : |(roundHalfEven q : ℚ) - q| ≤ 1 / 2 := by
  have low := Int.floor_le q
  have high := Int.lt_floor_add_one q
  unfold roundHalfEven
  simp only
  rw [abs_le]
  split_ifs with up
  · push_cast
    rcases up with above | ⟨half,-⟩ <;> constructor <;> linarith
  · have below : q - ⌊q⌋ ≤ 1 / 2 := not_lt.mp fun above => up (.inl above)
    constructor <;> linarith

theorem roundHalfEven_near (q : ℚ) (k : Int) (near : |q - k| < 1 / 2) : roundHalfEven q = k := by
  have half := abs_le.mp (abs_roundHalfEven_sub q)
  obtain ⟨low,high⟩ := abs_lt.mp near
  have above : ((roundHalfEven q : Int) : ℚ) < (k + 1 : Int) := by
    push_cast
    linarith
  have below : ((k - 1 : Int) : ℚ) < roundHalfEven q := by
    push_cast
    linarith
  have := Int.cast_lt.mp above
  have := Int.cast_lt.mp below
  omega

private theorem ratLog2_eq (q : ℚ) (nonzero : q ≠ 0) : ratLog2 q = Int.log 2 |q| := by
  have positive : 0 < |q| := abs_pos.mpr nonzero
  have low : ratLog2 q ≤ Int.log 2 |q| := by
    rw [← Int.zpow_le_iff_le_log (by norm_num) positive]
    exact_mod_cast two_zpow_ratLog2_le q nonzero
  apply le_antisymm low
  have top : (q.num.natAbs : ℚ) < 2^(Nat.log2 q.num.natAbs + 1) := by exact_mod_cast Nat.lt_log2_self
  have bottom : (2 : ℚ)^(Nat.log2 q.den) ≤ q.den := by exact_mod_cast Nat.log2_self_le q.den_ne_zero
  have den : (0 : ℚ) < q.den := by exact_mod_cast q.den_pos
  have size : |q| = (q.num.natAbs : ℚ) / q.den := by
    rw [Nat.cast_natAbs,Int.cast_abs,← abs_of_pos den,← abs_div,Rat.num_div_den]
  have below : |q| < 2^((Nat.log2 q.num.natAbs : Int) - Nat.log2 q.den + 1) := calc
    |q| = (q.num.natAbs : ℚ) / q.den := size
    _ < 2^(Nat.log2 q.num.natAbs + 1) / 2^(Nat.log2 q.den) := by gcongr
    _ = 2^((Nat.log2 q.num.natAbs : Int) - Nat.log2 q.den + 1) := by
      rw [← zpow_natCast,← zpow_natCast,← zpow_sub₀ (by norm_num)]
      congr 1
      push_cast
      ring
  have short (e : Int) (small : |q| < 2^(e + 1)) : Int.log 2 |q| ≤ e := by
    have := (Int.lt_zpow_iff_log_lt (b := 2) (by norm_num) positive).mp (by exact_mod_cast small)
    omega
  unfold ratLog2
  simp only
  split_ifs with close
  · exact short _ below
  · apply short
    rw [sub_add_cancel]
    exact not_le.mp close

private theorem lt_two_zpow_ratLog2 (q : ℚ) (nonzero : q ≠ 0) : |q| < 2^(ratLog2 q + 1) := by
  rw [ratLog2_eq q nonzero]
  exact_mod_cast Int.lt_zpow_succ_log_self (b := 2) (by norm_num) |q|

theorem le_ratLog2 (q : ℚ) (nonzero : q ≠ 0) (e : Int) (large : (2 : ℚ)^e ≤ |q|) : e ≤ ratLog2 q := by
  rw [ratLog2_eq q nonzero]
  exact (Int.zpow_le_iff_le_log (by norm_num) (abs_pos.mpr nonzero)).mp (by exact_mod_cast large)

private theorem ratLog2_lt (q : ℚ) (nonzero : q ≠ 0) (e : Int) (small : |q| < 2^e) : ratLog2 q < e := by
  rw [ratLog2_eq q nonzero]
  exact (Int.lt_zpow_iff_log_lt (by norm_num) (abs_pos.mpr nonzero)).mp (by exact_mod_cast small)

/-- The step between the numbers around `q` is two to this power. -/
def stepExponent (p : Nat) (emin : Int) (q : ℚ) : Int := max (ratLog2 q - p + 1) emin

private theorem roundRat_eq (p : Nat) (emin : Int) (q : ℚ) :
    roundRat p emin q = roundHalfEven (q / 2^stepExponent p emin q) * 2^stepExponent p emin q := by
  unfold roundRat
  split_ifs with zero
  · have none := roundHalfEven_int 0
    rw [zero,zero_div]
    rw [Int.cast_zero] at none
    simp [none]
  · rfl

def Representable (p : Nat) (emin : Int) (x : ℚ) : Prop :=
  ∃ k a : Int, emin ≤ a ∧ k.natAbs ≤ 2^p ∧ x = k * 2^a

private theorem abs_div_step (p : Nat) (emin : Int) (q : ℚ) (nonzero : q ≠ 0) : |q / 2^stepExponent p emin q| < 2^p := by
  have positive : (0 : ℚ) < 2^stepExponent p emin q := zpow_pos (by norm_num) _
  rw [abs_div,abs_of_pos positive,div_lt_iff₀ positive]
  calc
    |q| < 2^(ratLog2 q + 1) := lt_two_zpow_ratLog2 q nonzero
    _ ≤ 2^((p : Int) + stepExponent p emin q) := by
      apply zpow_le_zpow_right₀ (by norm_num)
      unfold stepExponent
      omega
    _ = 2^p * 2^stepExponent p emin q := by rw [zpow_add₀ (by norm_num),zpow_natCast]

theorem roundRat_representable (p : Nat) (emin : Int) (q : ℚ) : Representable p emin (roundRat p emin q) := by
  by_cases zero : q = 0
  · refine ⟨0,emin,le_rfl,by simp,?_⟩
    simp [roundRat,zero]
  refine ⟨_,_,le_max_right _ _,?_,roundRat_eq p emin q⟩
  have half := abs_le.mp (abs_roundHalfEven_sub (q / 2^stepExponent p emin q))
  obtain ⟨low,high⟩ := abs_lt.mp (abs_div_step p emin q zero)
  generalize roundHalfEven (q / 2^stepExponent p emin q) = k at half ⊢
  have above : (k : ℚ) < ((2^p + 1 : Nat) : Int) := by
    push_cast
    linarith
  have below : ((-(2^p + 1 : Nat) : Int) : ℚ) < k := by
    push_cast
    linarith
  have := Int.cast_lt.mp above
  have := Int.cast_lt.mp below
  omega

/-- The integers a representable number comes to on any grid that is not coarser than its own. -/
private theorem roundRat_multiple (p : Nat) (emin : Int) (y : ℚ) (m : Int) (x : ℚ)
    (grid : x = m * 2^stepExponent p emin y) (near : 2 * |y - x| < 2^stepExponent p emin y) : roundRat p emin y = x := by
  have positive : (0 : ℚ) < 2^stepExponent p emin y := zpow_pos (by norm_num) _
  have close : |y / 2^stepExponent p emin y - m| < 1 / 2 := by
    have scaled : y / 2^stepExponent p emin y - m = (y - x) / 2^stepExponent p emin y := by
      rw [grid]
      field_simp
    rw [scaled,abs_div,abs_of_pos positive,div_lt_iff₀ positive]
    linarith
  rw [roundRat_eq,roundHalfEven_near _ m close,grid]

theorem finer_grid (k a b : Int) (finer : b ≤ a) : ∃ m : Int, (k : ℚ) * 2^a = m * 2^b := by
  obtain ⟨n,shift⟩ := Int.eq_ofNat_of_zero_le (sub_nonneg.mpr finer)
  refine ⟨k * 2^n,?_⟩
  have split : a = n + b := by omega
  rw [split,zpow_add₀ (by norm_num),zpow_natCast]
  push_cast
  ring

theorem roundRat_fixed (p : Nat) (emin : Int) (x : ℚ) (bits : 0 < p) (representable : Representable p emin x) :
    roundRat p emin x = x := by
  obtain ⟨k,a,fine,small,rfl⟩ := representable
  by_cases zero : k = 0
  · simp [zero,roundRat]
  have two : (0 : ℚ) < 2^a := zpow_pos (by norm_num) a
  have nonzero : (k : ℚ) * 2^a ≠ 0 := mul_ne_zero (by exact_mod_cast zero) two.ne'
  have size : |(k : ℚ) * 2^a| = k.natAbs * 2^a := by
    rw [abs_mul,abs_of_pos two,Nat.cast_natAbs,Int.cast_abs]
  have exact (m : Int) (b : Int) (finer : ratLog2 (k * 2^a) - p + 1 ≤ b ∧ emin ≤ b) (grid : (k : ℚ) * 2^a = m * 2^b) :
      roundRat p emin (k * 2^a) = k * 2^a := by
    obtain ⟨n,step⟩ := finer_grid m b (stepExponent p emin (k * 2^a)) (max_le finer.1 finer.2)
    apply roundRat_multiple p emin _ n _ (grid.trans step)
    rw [sub_self,abs_zero,mul_zero]
    exact zpow_pos (by norm_num) _
  rcases Nat.lt_or_eq_of_le small with below | full
  · apply exact k a ⟨?_,fine⟩ rfl
    have short : ratLog2 (k * 2^a) < p + a := by
      apply ratLog2_lt _ nonzero
      rw [size,zpow_add₀ (by norm_num),zpow_natCast]
      gcongr
      exact_mod_cast below
    omega
  · -- A full significand is half of itself, one exponent up.
    obtain ⟨n,rfl⟩ : ∃ n, p = n + 1 := ⟨p - 1,by omega⟩
    have halved : ∃ m : Int, k = m * 2 := by
      refine ⟨k / 2,(Int.ediv_mul_cancel ?_).symm⟩
      rw [← Int.dvd_natAbs,full]
      exact ⟨2^n,by push_cast; ring⟩
    obtain ⟨m,rfl⟩ := halved
    apply exact m (a + 1) ⟨?_,by omega⟩
    · rw [zpow_add_one₀ (by norm_num)]
      push_cast
      ring
    · have short : ratLog2 ((m * 2 : Int) * 2^a) < (n + 1 : Nat) + a + 1 := by
        apply ratLog2_lt _ nonzero
        rw [size,full,zpow_add_one₀ (by norm_num),zpow_add₀ (by norm_num),zpow_natCast]
        push_cast
        linarith [mul_pos (pow_pos (by norm_num : (0 : ℚ) < 2) (n + 1)) two]
      omega

/-- A representable number is its significand times its own step. -/
private theorem significand (p : Nat) (emin : Int) (x : ℚ) (bits : 0 < p) (representable : Representable p emin x) :
    ∃ k : Int, x = k * 2^stepExponent p emin x :=
  ⟨_,(roundRat_fixed p emin x bits representable).symm.trans (roundRat_eq p emin x)⟩

section near
variable (p : Nat) (emin : Int) (x y : ℚ) (bits : 0 < p) (representable : Representable p emin x)
  (close : |y - x| * 2^(p + 1) < |x|)
include bits close

private theorem near_nonzero : x ≠ 0 ∧ y ≠ 0 ∧ |x| < 2 * |y| ∧ |y| < 2 * |x| := by
  have large : (2 : ℚ) ≤ 2^(p + 1) := by
    have : (2 : ℚ)^1 ≤ 2^(p + 1) := pow_le_pow_right₀ (by norm_num) (by omega)
    simpa using this
  have half : 2 * |y - x| ≤ |y - x| * 2^(p + 1) := by
    rw [mul_comm]
    gcongr
  have low := abs_sub_abs_le_abs_sub x y
  have high := abs_sub_abs_le_abs_sub y x
  rw [abs_sub_comm x y] at low
  have some : 0 < |x| := lt_of_le_of_lt (by positivity) close
  refine ⟨abs_pos.mp some,abs_pos.mp ?_,?_,?_⟩ <;> linarith

/-- With `2^(e-p)` for half a step at `x`, where `2^e` is the power of two below it. -/
private theorem near_scale : ∃ half : ℚ, 0 < half ∧ (2 : ℚ)^ratLog2 x = half * 2^p ∧ |x| < half * 2^(p + 1) ∧
    |y - x| < half ∧ (2 : ℚ)^(ratLog2 x - p + 1) = 2 * half := by
  obtain ⟨nonzero,-⟩ := near_nonzero p x y bits close
  have two : (2 : ℚ) ≠ 0 := by norm_num
  have size : (2 : ℚ)^ratLog2 x = 2^(ratLog2 x - p) * 2^p := by
    rw [← zpow_natCast,← zpow_add₀ two,sub_add_cancel]
  have top : |x| < 2^(ratLog2 x - p) * 2^(p + 1) := calc
    |x| < 2^(ratLog2 x + 1) := lt_two_zpow_ratLog2 x nonzero
    _ = 2^(ratLog2 x - p) * 2^(p + 1) := by
      rw [zpow_add_one₀ two,size]
      ring
  refine ⟨2^(ratLog2 x - p),zpow_pos (by norm_num) _,size,top,?_,?_⟩
  · have both : |y - x| * 2^(p + 1) < 2^(ratLog2 x - p) * 2^(p + 1) := close.trans top
    exact lt_of_mul_lt_mul_right both (by positivity)
  · rw [zpow_add_one₀ two]
    ring

include representable

private theorem near_finer : stepExponent p emin y ≤ stepExponent p emin x := by
  obtain ⟨nonzero,some,-,double⟩ := near_nonzero p x y bits close
  obtain ⟨half,positive,low,top,within,step⟩ := near_scale p x y bits close
  obtain ⟨k,grid⟩ := significand p emin x bits representable
  have next : ratLog2 y ≤ ratLog2 x + 1 := by
    have : ratLog2 y < ratLog2 x + 1 + 1 := by
      apply ratLog2_lt y some
      rw [zpow_add_one₀ (by norm_num)]
      have := lt_two_zpow_ratLog2 x nonzero
      linarith
    omega
  unfold stepExponent at grid ⊢
  by_cases tiny : ratLog2 x - p + 1 < emin
  · omega
  · have own : max (ratLog2 x - p + 1) emin = ratLog2 x - p + 1 := by omega
    rw [own] at grid ⊢
    -- A significand of `p` bits leaves half a step below the next power of two.
    have size : |x| = k.natAbs * (2 * half) := by
      rw [grid,step,abs_mul,abs_of_pos (by linarith : (0 : ℚ) < 2 * half),Nat.cast_natAbs,Int.cast_abs]
    have full : (k.natAbs : ℚ) ≤ 2^p - 1 := by
      have small : (k.natAbs : ℚ) < (2^p : Nat) := by
        rw [size,pow_succ] at top
        push_cast
        nlinarith only [top,positive]
      have : k.natAbs + 1 ≤ 2^p := Nat.cast_lt.mp small
      have : ((k.natAbs + 1 : Nat) : ℚ) ≤ (2^p : Nat) := by exact_mod_cast this
      push_cast at this
      linarith
    have below : |x| ≤ half * 2^(p + 1) - 2 * half := by
      rw [size,pow_succ]
      nlinarith only [full,positive]
    have short : ratLog2 y < ratLog2 x + 1 := by
      apply ratLog2_lt y some
      have := abs_sub_abs_le_abs_sub y x
      rw [zpow_add_one₀ (by norm_num),low,mul_assoc,← pow_succ]
      linarith
    omega

private theorem near_within : 2 * |y - x| < 2^stepExponent p emin y := by
  obtain ⟨nonzero,some,twice,-⟩ := near_nonzero p x y bits close
  obtain ⟨half,positive,low,top,within,step⟩ := near_scale p x y bits close
  obtain ⟨k,grid⟩ := significand p emin x bits representable
  have grows (a b : Int) (le : a ≤ b) : (2 : ℚ)^a ≤ 2^b := zpow_le_zpow_right₀ (by norm_num) le
  have enough (coarse : ratLog2 x - p + 1 ≤ stepExponent p emin y) : 2 * |y - x| < 2^stepExponent p emin y := by
    have := grows _ _ coarse
    linarith
  by_cases coarse : ratLog2 x - p + 1 ≤ stepExponent p emin y
  · exact enough coarse
  -- Only the power of two itself has a finer grid below it.
  have own : stepExponent p emin x = ratLog2 x - p + 1 := by
    unfold stepExponent at coarse ⊢
    omega
  have under : |y| < 2^ratLog2 x := by
    by_contra above
    have := le_ratLog2 y some (ratLog2 x) (not_lt.mp above)
    unfold stepExponent at coarse
    omega
  have size : |x| = k.natAbs * (2 * half) := by
    rw [grid,own,step,abs_mul,abs_of_pos (by linarith : (0 : ℚ) < 2 * half),Nat.cast_natAbs,Int.cast_abs]
  have power : |x| = 2^ratLog2 x := by
    apply le_antisymm _ (two_zpow_ratLog2_le x nonzero)
    obtain ⟨n,rfl⟩ : ∃ n, p = n + 1 := ⟨p - 1,by omega⟩
    have gap := abs_sub_abs_le_abs_sub x y
    rw [abs_sub_comm x y] at gap
    rw [low,pow_succ] at under ⊢
    have less : (k.natAbs : ℚ) < (2^n + 1 : Nat) := by
      rw [size] at gap
      push_cast
      nlinarith only [gap,under,within,positive]
    have : k.natAbs ≤ 2^n := Nat.lt_succ_iff.mp (Nat.cast_lt.mp less)
    have : (k.natAbs : ℚ) ≤ (2^n : Nat) := by exact_mod_cast this
    rw [size]
    push_cast at this
    nlinarith only [this,positive]
  have last : ratLog2 x - 1 ≤ ratLog2 y := by
    apply le_ratLog2 y some
    rw [zpow_sub_one₀ (by norm_num),← power]
    linarith
  have finer : |y - x| * 2 < half := by
    rw [power,low,pow_succ] at close
    have positive : (0 : ℚ) < 2^p := by positivity
    nlinarith only [close,positive]
  have := grows (ratLog2 x - p) (stepExponent p emin y) (by unfold stepExponent; omega)
  have : (2 : ℚ)^(ratLog2 x - p + 1) = 2^(ratLog2 x - p) * 2 := zpow_add_one₀ (by norm_num) _
  linarith

/-- What is within a `p + 1`-bit fraction of a representable number is rounded to it. -/
theorem roundRat_near : roundRat p emin y = x := by
  obtain ⟨k,grid⟩ := significand p emin x bits representable
  obtain ⟨m,finer⟩ := finer_grid k _ _ (near_finer p emin x y bits representable close)
  exact roundRat_multiple p emin y m x (grid.trans finer) (near_within p emin x y bits representable close)

end near

end Numbers
