import Mathlib.Logic.Function.Iterate
import Mathlib.Data.List.Basic
import Mathlib.Data.List.GetD
import Mathlib.Tactic.SplitIfs

/-! Checksums computed by a register of `w` bits that is shifted to the right, bit after
bit of a message. All is linear in exclusive or, so a damage to the message shows as the
register of the difference alone. -/
namespace ShiftRegister
variable {w : Nat}

/-- One shift; a bit that falls out is fed back through the polynomial. -/
def step (poly reg : BitVec w) : BitVec w := if reg.getLsbD 0 then reg >>> 1 ^^^ poly else reg >>> 1

def low (w : Nat) (b : Bool) : BitVec w := (BitVec.ofBool b).setWidth w

def feed (poly : BitVec w) : List Bool → BitVec w → BitVec w
  | [], reg => reg
  | b::bits, reg => feed poly bits (step poly (reg ^^^ low w b))

/-- Bits as a word, the first one the lowest. -/
def word (w : Nat) (bits : List Bool) : BitVec w := (BitVec.ofBoolListLE bits).setWidth w

section
variable {poly : BitVec w}

private theorem low_bit (b : Bool) (i : Nat) : (low w b).getLsbD i = (decide (i < w) && (decide (i = 0) && b)) := by
  rw [low,BitVec.getLsbD_setWidth,BitVec.getLsbD_ofBool]

@[simp] theorem low_false : low w false = 0#w := by
  apply BitVec.eq_of_getLsbD_eq
  intro i inside
  simp [low_bit]

private theorem low_xor (a b : Bool) : low w (a ^^ b) = low w a ^^^ low w b := by
  cases a <;> cases b <;> simp

theorem word_bit (bits : List Bool) (i : Nat) : (word w bits).getLsbD i = (decide (i < w) && bits.getD i false) := by
  rw [word,BitVec.getLsbD_setWidth,BitVec.getLsbD_ofBoolListLE]

private theorem xor_fours (a b c d : BitVec w) : a ^^^ b ^^^ (c ^^^ d) = a ^^^ c ^^^ (b ^^^ d) := by ac_rfl

private theorem step_xor (a b : BitVec w) : step poly (a ^^^ b) = step poly a ^^^ step poly b := by
  unfold step
  rw [BitVec.getLsbD_xor,BitVec.ushiftRight_xor_distrib]
  cases a.getLsbD 0 <;> cases b.getLsbD 0 <;> simp only [Bool.false_xor,Bool.xor_false,Bool.true_xor,Bool.not_true,
    Bool.false_eq_true,if_true,if_false]
  · ac_rfl
  · ac_rfl
  · rw [xor_fours,BitVec.xor_self,BitVec.xor_zero]

@[simp] theorem step_zero : step poly 0#w = 0#w := by
  simp [step]

private theorem steps_zero (n : Nat) : (step poly)^[n] 0#w = 0#w := Function.iterate_fixed step_zero n

/-- A polynomial with its highest bit set: the shift can be undone. -/
private theorem step_eq_zero (top : poly.getLsbD (w - 1) = true) (reg : BitVec w) (zero : step poly reg = 0#w) : reg = 0#w := by
  have wide : 0 < w := by
    by_contra none
    obtain rfl : w = 0 := by omega
    simp at top
  have bit (i : Nat) : (step poly reg).getLsbD i = false := by rw [zero]; simp
  have even : reg.getLsbD 0 = false := by
    by_contra odd
    have high := bit (w - 1)
    rw [step,if_pos (by simpa using odd),BitVec.getLsbD_xor,BitVec.getLsbD_ushiftRight,top,
      BitVec.getLsbD_of_ge _ _ (by omega)] at high
    simp at high
  apply BitVec.eq_of_getLsbD_eq
  intro i inside
  cases i with
  | zero => simpa using even
  | succ i =>
    have next := bit i
    rw [step,even,if_neg (by simp),BitVec.getLsbD_ushiftRight,Nat.add_comm] at next
    simpa using next

private theorem steps_eq_zero (top : poly.getLsbD (w - 1) = true) (n : Nat) (reg : BitVec w)
    (zero : (step poly)^[n] reg = 0#w) : reg = 0#w := by
  induction n generalizing reg with
  | zero => exact zero
  | succ n ih => exact step_eq_zero top reg (ih (step poly reg) zero)

theorem feed_append (first second : List Bool) (reg : BitVec w) :
    feed poly (first ++ second) reg = feed poly second (feed poly first reg) := by
  induction first generalizing reg with
  | nil => rfl
  | cons b first ih => exact ih _

private theorem feed_false (n : Nat) (reg : BitVec w) : feed poly (List.replicate n false) reg = (step poly)^[n] reg := by
  induction n generalizing reg with
  | zero => rfl
  | succ n ih => rw [List.replicate_succ,feed,ih,low_false,BitVec.xor_zero,Function.iterate_succ_apply]

/-- The registers of two messages differ by that of their difference. -/
theorem feed_xor (first second : List Bool) (same : first.length = second.length) (a b : BitVec w) :
    feed poly first a ^^^ feed poly second b = feed poly (List.zipWith xor first second) (a ^^^ b) := by
  induction first generalizing second a b with
  | nil =>
    obtain rfl := List.eq_nil_of_length_eq_zero same.symm
    rfl
  | cons c first ih =>
    obtain ⟨d,second,rfl⟩ := List.exists_cons_of_length_eq_add_one same.symm
    rw [feed,feed,ih second (Nat.succ.inj same),List.zipWith_cons_cons,feed,← step_xor,low_xor,xor_fours]

theorem eq_of_zipWith (first second : List Bool) (same : first.length = second.length)
    (none : true ∉ List.zipWith xor first second) : first = second := by
  induction first generalizing second with
  | nil => exact (List.eq_nil_of_length_eq_zero same.symm).symm
  | cons c first ih =>
    obtain ⟨d,second,rfl⟩ := List.exists_cons_of_length_eq_add_one same.symm
    rw [List.zipWith_cons_cons,List.mem_cons,not_or] at none
    have equal : c = d := by
      have here := none.1
      cases c <;> cases d <;> simp_all
    rw [equal,ih second (Nat.succ.inj same) none.2]

private theorem word_cons (b : Bool) (bits : List Bool) : word w (b::bits) = low w b ^^^ word w bits <<< 1 := by
  apply BitVec.eq_of_getLsbD_eq
  intro i inside
  rw [BitVec.getLsbD_xor,BitVec.getLsbD_shiftLeft,low_bit,word_bit,word_bit]
  cases i <;> simp [inside]
  omega

private theorem step_shifted (reg : BitVec w) (room : reg.getLsbD (w - 1) = false) : step poly (reg <<< 1) = reg := by
  have even : (reg <<< 1).getLsbD 0 = false := by simp
  apply BitVec.eq_of_getLsbD_eq
  intro i inside
  rw [step,even,if_neg (by simp),BitVec.getLsbD_ushiftRight,BitVec.getLsbD_shiftLeft]
  by_cases last : i = w - 1
  · rw [last,room]
    simp
    omega
  · rw [decide_eq_true (by omega),decide_eq_false (by omega)]
    simp

theorem feed_word (bits : List Bool) (short : bits.length ≤ w) (reg : BitVec w) :
    feed poly bits reg = (step poly)^[bits.length] (reg ^^^ word w bits) := by
  induction bits generalizing reg with
  | nil =>
    have none : word w [] = 0#w := by
      apply BitVec.eq_of_getLsbD_eq
      intro i inside
      simp [word_bit]
    rw [none,BitVec.xor_zero]
    rfl
  | cons b bits ih =>
    rw [List.length_cons] at short
    have room : (word w bits).getLsbD (w - 1) = false := by
      rw [word_bit,List.getD_eq_default _ _ (by omega),Bool.and_false]
    rw [feed,ih (by omega),List.length_cons,Function.iterate_succ_apply,word_cons,← BitVec.xor_assoc,
      step_xor _ (word w bits <<< 1),step_shifted _ room]

private theorem word_eq_zero (bits : List Bool) (short : bits.length ≤ w) (zero : word w bits = 0#w) :
    ∀ b ∈ bits, b = false := by
  intro b member
  obtain ⟨i,inside,rfl⟩ := List.mem_iff_getElem.mp member
  have bit := word_bit (w := w) bits i
  rw [zero,List.getD_eq_getElem _ _ inside] at bit
  simpa [show i < w by omega] using bit

/-- A difference inside one window as wide as the register is seen. -/
private theorem feed_window (top : poly.getLsbD (w - 1) = true) (front back : Nat) (window : List Bool)
    (short : window.length ≤ w) (some : true ∈ window) :
    feed poly (List.replicate front false ++ window ++ List.replicate back false) 0#w ≠ 0#w := by
  intro zero
  rw [feed_append,feed_append,feed_false,feed_false,steps_zero,feed_word _ short,← Function.iterate_add_apply,
    BitVec.zero_xor] at zero
  have none := word_eq_zero window short (steps_eq_zero top _ _ zero) true some
  cases none

private theorem replicate_of_false (bits : List Bool) (none : ∀ i : Nat, bits[i]? ≠ some true) :
    bits = List.replicate bits.length false := by
  refine List.eq_replicate_of_mem fun b member => ?_
  obtain ⟨i,there⟩ := List.mem_iff_getElem?.mp member
  cases b with
  | false => rfl
  | true => exact (none i there).elim

theorem feed_inWindow (top : poly.getLsbD (w - 1) = true) (bits : List Bool) (some : true ∈ bits) (k : Nat)
    (inside : ∀ i : Nat, bits[i]? = Option.some true → k ≤ i ∧ i < k + w) : feed poly bits 0#w ≠ 0#w := by
  have front : bits.take k = List.replicate (bits.take k).length false := by
    refine replicate_of_false _ fun i there => ?_
    rw [List.getElem?_take] at there
    split_ifs at there with before
    exact absurd (inside i there).1 (by omega)
  have back : (bits.drop k).drop w = List.replicate ((bits.drop k).drop w).length false := by
    refine replicate_of_false _ fun i there => ?_
    rw [List.getElem?_drop,List.getElem?_drop] at there
    exact absurd (inside _ there).2 (by omega)
  have whole : bits = List.replicate (bits.take k).length false ++ (bits.drop k).take w ++
      List.replicate ((bits.drop k).drop w).length false := by
    rw [← front,← back,List.append_assoc,List.take_append_drop,List.take_append_drop]
  rw [whole] at some ⊢
  refine feed_window top _ _ _ (List.length_take_le _ _) ?_
  rcases List.mem_append.mp some with ahead | behind
  · rcases List.mem_append.mp ahead with zeros | there
    · cases List.eq_of_mem_replicate zeros
    · exact there
  · cases List.eq_of_mem_replicate behind

end

def sumTo (f : Nat → Bool) : Nat → Bool
  | 0 => false
  | n + 1 => sumTo f n ^^ f n

def parity (reg : BitVec w) : Bool := sumTo reg.getLsbD w

private theorem sumTo_xor (f g : Nat → Bool) (n : Nat) : sumTo (fun i => f i ^^ g i) n = (sumTo f n ^^ sumTo g n) := by
  induction n with
  | zero => rfl
  | succ n ih =>
    rw [sumTo,ih,sumTo,sumTo]
    cases sumTo f n <;> cases sumTo g n <;> simp

private theorem sumTo_front (f : Nat → Bool) (n : Nat) : sumTo f (n + 1) = (f 0 ^^ sumTo (fun i => f (1 + i)) n) := by
  induction n with
  | zero => simp [sumTo]
  | succ n ih => rw [sumTo,ih,sumTo,Bool.xor_assoc,Nat.add_comm n 1]

private theorem parity_xor (a b : BitVec w) : parity (a ^^^ b) = (parity a ^^ parity b) := by
  have bits : (a ^^^ b).getLsbD = fun i => a.getLsbD i ^^ b.getLsbD i := funext fun _ => BitVec.getLsbD_xor
  rw [parity,bits]
  exact sumTo_xor _ _ _

private theorem parity_shifted (reg : BitVec w) : parity reg = (reg.getLsbD 0 ^^ parity (reg >>> 1)) := by
  have bits : (reg >>> 1).getLsbD = fun i => reg.getLsbD (1 + i) := funext fun _ => BitVec.getLsbD_ushiftRight _ _ _
  have beyond : sumTo reg.getLsbD (w + 1) = parity reg := by
    rw [sumTo,BitVec.getLsbD_of_ge reg w (Nat.le_refl w),Bool.xor_false]
    rfl
  rw [← beyond,sumTo_front,parity,bits]

section
variable {poly : BitVec w}

private theorem parity_step (odd : parity poly = true) (reg : BitVec w) : parity (step poly reg) = parity reg := by
  rw [parity_shifted reg,step]
  cases reg.getLsbD 0 with
  | false => simp
  | true => simp [parity_xor,odd]

private theorem parity_low (wide : 0 < w) (b : Bool) : parity (low w b) = b := by
  have bits (n : Nat) : sumTo (low w b).getLsbD (n + 1) = b := by
    induction n with
    | zero => rw [sumTo,sumTo,low_bit]; simp [wide]
    | succ n ih => rw [sumTo,ih,low_bit]; simp
  obtain ⟨n,rfl⟩ := Nat.exists_eq_add_of_lt wide
  rw [Nat.zero_add] at *
  exact bits n

private theorem parity_feed (odd : parity poly = true) (wide : 0 < w) (bits : List Bool) (reg : BitVec w) :
    parity (feed poly bits reg) = (parity reg ^^ decide (bits.count true % 2 = 1)) := by
  induction bits generalizing reg with
  | nil => simp [feed]
  | cons b bits ih =>
    rw [feed,ih,parity_step odd,parity_xor,parity_low wide,Bool.xor_assoc,List.count_cons]
    congr 1
    cases b with
    | false => simp
    | true =>
      rcases Nat.mod_two_eq_zero_or_one (bits.count true) with even | one
      · simp [even,Nat.add_mod]
      · simp [one,Nat.add_mod]

/-- A difference in an odd number of bits is seen. -/
theorem feed_odd (odd : parity poly = true) (wide : 0 < w) (bits : List Bool) (some : bits.count true % 2 = 1) :
    feed poly bits 0#w ≠ 0#w := by
  intro zero
  have sum := parity_feed odd wide bits 0#w
  have none : parity 0#w = false := by
    have kept := parity_low wide false
    rwa [low_false] at kept
  rw [zero,none,some] at sum
  simp at sum

private theorem split_true (bits : List Bool) (n : Nat) (some : bits.count true = n + 1) :
    ∃ front rest, bits = List.replicate front false ++ true::rest ∧ rest.count true = n := by
  induction bits with
  | nil => simp at some
  | cons b bits ih =>
    cases b with
    | true => exact ⟨0,bits,rfl,by simpa using some⟩
    | false =>
      obtain ⟨front,rest,rfl,count⟩ := ih (by simpa using some)
      exact ⟨front + 1,rest,rfl,count⟩

private theorem replicate_of_count (bits : List Bool) (none : bits.count true = 0) : bits = List.replicate bits.length false :=
  replicate_of_false bits fun _ there => List.count_eq_zero.mp none (List.mem_of_getElem? there)

/-- A difference in two bits is seen if no run of shifts shorter than the message takes
the lowest bit back to itself. -/
theorem feed_two (top : poly.getLsbD (w - 1) = true) (bits : List Bool) (two : bits.count true = 2)
    (order : ∀ n < bits.length, 0 < n → (step poly)^[n] (low w true) ≠ low w true) : feed poly bits 0#w ≠ 0#w := by
  obtain ⟨front,rest,rfl,one⟩ := split_true bits 1 two
  obtain ⟨gap,back,rfl,none⟩ := split_true rest 0 one
  rw [replicate_of_count back none]
  intro zero
  rw [feed_append,feed_false,steps_zero,feed,BitVec.zero_xor,feed_append,feed_false,← Function.iterate_succ_apply,feed,
    feed_false] at zero
  have returned := step_eq_zero top _ (steps_eq_zero top _ _ zero)
  refine order (gap + 1) ?_ (by omega) (BitVec.xor_eq_zero_iff.mp returned)
  simp
  omega

end
end ShiftRegister
