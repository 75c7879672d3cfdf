import Jbdtool.Base.Numbers
import Mathlib.Data.Nat.Bitwise

/-! Words bit by bit: the mask of one bit of a 64-bit word, signed 16-bit words widened
to 64 bits, and the digits of the lowest bits. -/
namespace Numbers

private theorem and_mask (word : UInt64) (i : Nat) (inside : i < 64) :
    (word &&& (1 <<< UInt64.ofNat i)).toNat = (word.toNat.testBit i).toNat * 2^i := by
  have small : i % 2^64 % 64 = i := by rw [Nat.mod_eq_of_lt (by omega : i < 2^64),Nat.mod_eq_of_lt inside]
  have mask : ((1 : UInt64) <<< UInt64.ofNat i).toNat = 2^i := by
    have below : 2^i < 2^64 := Nat.pow_lt_pow_right (by omega) inside
    rw [UInt64.toNat_shiftLeft,UInt64.toNat_ofNat',small,UInt64.toNat_one,Nat.one_shiftLeft,Nat.mod_eq_of_lt below]
  rw [UInt64.toNat_and,mask,Nat.and_two_pow]

theorem masked (word : UInt64) (i : Nat) (inside : i < 64) :
    word &&& (1 <<< UInt64.ofNat i) ≠ 0 ↔ word.toNat.testBit i = true := by
  rw [ne_eq,← UInt64.toNat_inj,and_mask word i inside]
  cases word.toNat.testBit i <;> simp

private theorem toNat_ofInt (v : Int) : (UInt64.ofInt v).toNat = (v % 2^64).toNat := by
  rw [UInt64.ofInt,UInt64.toNat_ofNat',Nat.mod_eq_of_lt (by omega)]

/-- Widened to 64 bits, a signed word repeats its bit 15. -/
theorem signed_bit (hi lo : UInt8) (i : Nat) (inside : i < 64) :
    (UInt64.ofInt (beSigned hi lo)).toNat.testBit i = (beUnsigned hi lo).testBit (min i 15) := by
  have high := hi.toNat_lt
  have low := lo.toNat_lt
  have word : beUnsigned hi lo < 2^16 := by rw [beUnsigned_eq]; omega
  rw [toNat_ofInt]
  by_cases positive : hi.toNat < 128
  · have same : (beSigned hi lo % 2^64).toNat = beUnsigned hi lo := by
      rw [beSigned_eq,if_pos positive,beUnsigned_eq]
      omega
    have small : beUnsigned hi lo < 2^15 := by rw [beUnsigned_eq]; omega
    rw [same]
    rcases Nat.lt_or_ge i 15 with below | above
    · rw [Nat.min_eq_left below.le]
    · have beyond : beUnsigned hi lo < 2^i := small.trans_le (Nat.pow_le_pow_right (by omega) above)
      rw [Nat.min_eq_right above,Nat.testBit_lt_two_pow small,Nat.testBit_lt_two_pow beyond]
  · have ones : (beSigned hi lo % 2^64).toNat = 2^16 * (2^48 - 1) + beUnsigned hi lo := by
      rw [beSigned_eq,if_neg positive,beUnsigned_eq]
      omega
    have top : (beUnsigned hi lo).testBit 15 = true := by
      rw [Nat.testBit_eq_decide_div_mod_eq,beUnsigned_eq,decide_eq_true_iff]
      omega
    rw [ones,Nat.testBit_two_pow_mul_add _ word,Nat.testBit_two_pow_sub_one]
    split_ifs with below
    · rcases Nat.lt_or_ge i 15 with less | last
      · rw [Nat.min_eq_left less.le]
      · rw [show i = 15 by omega]
        rfl
    · rw [Nat.min_eq_right (by omega),top,decide_eq_true_iff]
      omega

theorem shifted_bit (v : Int) (i : Nat) (inside : i < 64) : (UInt64.ofInt (v * 65536)).toNat.testBit i =
    (decide (16 ≤ i) && (UInt64.ofInt v).toNat.testBit (i - 16)) := by
  have moved : (UInt64.ofInt (v * 65536)).toNat = (UInt64.ofInt v).toNat * 2^16 % 2^64 := by
    rw [toNat_ofInt,toNat_ofInt]
    omega
  rw [moved,Nat.testBit_mod_two_pow,Nat.testBit_mul_two_pow,decide_eq_true inside,Bool.true_and]

def bitDigits (bits n : Nat) : List UInt8 := (List.range n).map (fun i => if bits.testBit i then 49 else 48)

@[simp] theorem bitDigits_length (bits n : Nat) : (bitDigits bits n).length = n := by simp [bitDigits]

theorem bitDigits_one (bits n i : Nat) (inside : i < n) : (bitDigits bits n)[i]? = some 49 ↔ bits.testBit i = true := by
  rw [bitDigits,List.getElem?_map,List.getElem?_range inside]
  by_cases set : bits.testBit i = true <;> simp [set]

end Numbers
