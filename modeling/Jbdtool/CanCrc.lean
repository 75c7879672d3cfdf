import Jbdtool.CanRetries
import Jbdtool.Base.ShiftRegister

/-! The CRC of a CAN frame as a shift register over the bits of the payload, and which
damages it shows. -/
namespace Jbdtool
open CString Numbers ShiftRegister
variable {τ : Type}

abbrev CanPayload := {payload : Bytes // payload.length = 6}

def byteBits (c : UInt8) : List Bool := (List.range 8).map c.toNat.testBit

def payloadBits (payload : Bytes) : List Bool := payload.flatMap byteBits

def damageBits (first second : Bytes) : List Bool := List.zipWith xor (payloadBits first) (payloadBits second)

def FewBits (first second : Bytes) : Prop := (damageBits first second).count true ≤ 3

def InWindow (first second : Bytes) : Prop :=
  ∃ k, ∀ i : Nat, (damageBits first second)[i]? = some true → k ≤ i ∧ i < k + 16

def crcPolynomial : BitVec 16 := 0xa001

private theorem crcPolynomial_top : crcPolynomial.getLsbD 15 = true := by decide

private theorem crcPolynomial_odd : parity crcPolynomial = true := by decide

/-- The order of the lowest bit is beyond the length of a payload. -/
private theorem crcPolynomial_order : ∀ n ∈ List.range 48, 0 < n → (step crcPolynomial)^[n] (low 16 true) ≠ low 16 true := by
  decide +kernel

private theorem low_and (c : UInt16) : c &&& 1 ≠ 0 ↔ c.toBitVec.getLsbD 0 = true := by
  have low : c.toBitVec.getLsbD 0 = decide (c.toNat % 2 = 1) := Nat.testBit_zero _
  rw [ne_eq,← UInt16.toNat_inj,UInt16.toNat_and,UInt16.toNat_one,Nat.and_one_is_mod,UInt16.toNat_zero,low,
    decide_eq_true_iff]
  omega

def crcShift (crc : UInt16) : UInt16 := if crc &&& 1 ≠ 0 then (crc >>> 1) ^^^ 0xa001 else crc >>> 1

def crcByte (crc : UInt16) (c : UInt8) : UInt16 := (List.range 8).foldl (fun crc _ => crcShift crc) (crc ^^^ c.toUInt16)

private theorem jbdCanCrc_bytes (data : Bytes) : jbdCanCrc data = (data.take 6).foldl crcByte 0xFFFF := rfl

private theorem crcShift_step (c : UInt16) : (crcShift c).toBitVec = step crcPolynomial c.toBitVec := by
  unfold crcShift step
  by_cases odd : c &&& 1 ≠ 0
  · rw [if_pos odd,if_pos ((low_and c).mp odd)]
    rfl
  · rw [if_neg odd,if_neg (mt (low_and c).mpr odd)]
    rfl

private theorem byteBits_word (c : UInt8) : word 16 (byteBits c) = c.toUInt16.toBitVec := by
  apply BitVec.eq_of_getLsbD_eq
  intro i inside
  have wide : c.toUInt16.toBitVec.getLsbD i = c.toNat.testBit i := rfl
  rw [word_bit,decide_eq_true inside,Bool.true_and,wide,byteBits,List.getD_eq_getElem?_getD,List.getElem?_map]
  by_cases small : i < 8
  · rw [List.getElem?_range small]
    rfl
  · have beyond : c.toNat.testBit i = false :=
      Nat.testBit_lt_two_pow (c.toNat_lt.trans_le (Nat.pow_le_pow_right (by omega) (by omega)))
    rw [List.getElem?_eq_none (by simpa using small),beyond]
    rfl

private theorem crcByte_feed (crc : UInt16) (c : UInt8) :
    (crcByte crc c).toBitVec = feed crcPolynomial (byteBits c) crc.toBitVec := by
  have shifts (list : List Nat) (crc : UInt16) : (list.foldl (fun crc _ => crcShift crc) crc).toBitVec =
      (step crcPolynomial)^[list.length] crc.toBitVec := by
    induction list generalizing crc with
    | nil => rfl
    | cons _ list ih => rw [List.foldl_cons,ih,crcShift_step,List.length_cons,Function.iterate_succ_apply]
  have eight : (byteBits c).length = (List.range 8).length := by simp [byteBits]
  rw [crcByte,shifts,feed_word _ (by rw [eight]; decide),eight,byteBits_word,UInt16.toBitVec_xor]

private theorem foldl_crcByte (list : Bytes) (crc : UInt16) :
    (list.foldl crcByte crc).toBitVec = feed crcPolynomial (payloadBits list) crc.toBitVec := by
  induction list generalizing crc with
  | nil => rfl
  | cons c list ih =>
    have bits : payloadBits (c::list) = byteBits c ++ payloadBits list := rfl
    rw [List.foldl_cons,ih,crcByte_feed,bits,feed_append]

private theorem jbdCanCrc_feed (payload : Bytes) :
    (jbdCanCrc payload).toBitVec = feed crcPolynomial (payloadBits (payload.take 6)) 0xFFFF := by
  rw [jbdCanCrc_bytes,foldl_crcByte]
  rfl

private theorem byteBits_length (c : UInt8) : (byteBits c).length = 8 := by simp [byteBits]

private theorem payloadBits_length (payload : Bytes) : (payloadBits payload).length = 8 * payload.length := by
  simp [payloadBits,List.length_flatMap,byteBits_length,Nat.mul_comm]

private theorem byteBits_inj (c d : UInt8) (same : byteBits c = byteBits d) : c = d := by
  have words := congrArg (word 16) same
  rw [byteBits_word,byteBits_word] at words
  have wide := congrArg BitVec.toNat words
  exact UInt8.toNat_inj.mp wide

private theorem payloadBits_inj (first second : Bytes) (size : first.length = second.length)
    (same : payloadBits first = payloadBits second) : first = second := by
  induction first generalizing second with
  | nil => exact (List.eq_nil_of_length_eq_zero size.symm).symm
  | cons c first ih =>
    obtain ⟨d,second,rfl⟩ := List.exists_cons_of_length_eq_add_one size.symm
    rw [payloadBits,payloadBits,List.flatMap_cons,List.flatMap_cons] at same
    obtain ⟨here,others⟩ := List.append_inj same (by rw [byteBits_length,byteBits_length])
    rw [byteBits_inj c d here,ih second (Nat.succ.inj size) others]

/-- No two payloads with one CRC differ in at most three bits, or only inside a window. -/
private theorem jbdCanCrc_differs (p q : CanPayload) (differ : p ≠ q) (damage : FewBits p.1 q.1 ∨ InWindow p.1 q.1) :
    jbdCanCrc p.1 ≠ jbdCanCrc q.1 := by
  intro same
  have size : (payloadBits p.1).length = (payloadBits q.1).length := by
    rw [payloadBits_length,payloadBits_length,p.2,q.2]
  have length : (damageBits p.1 q.1).length = 48 := by
    rw [damageBits,List.length_zipWith,← size,payloadBits_length,p.2]
    rfl
  have some : true ∈ damageBits p.1 q.1 := by
    by_contra none
    exact differ (Subtype.ext (payloadBits_inj p.1 q.1 (p.2.trans q.2.symm) (eq_of_zipWith _ _ size none)))
  have zero : feed crcPolynomial (damageBits p.1 q.1) 0#16 = 0#16 := by
    have equal := congrArg UInt16.toBitVec same
    rw [jbdCanCrc_feed,jbdCanCrc_feed,List.take_of_length_le p.2.le,List.take_of_length_le q.2.le,
      ← BitVec.xor_eq_zero_iff,feed_xor _ _ size,BitVec.xor_self] at equal
    exact equal
  rcases damage with few | ⟨k,inside⟩
  · have positive := List.count_pos_iff.mpr some
    unfold FewBits at few
    by_cases two : (damageBits p.1 q.1).count true = 2
    · refine feed_two crcPolynomial_top _ two (fun n below positive => ?_) zero
      rw [length] at below
      exact crcPolynomial_order n (List.mem_range.mpr below) positive
    · exact feed_odd crcPolynomial_odd (by decide) _ (by omega) zero
  · exact feed_inWindow crcPolynomial_top _ some k inside zero

private theorem jbdCanGet_intact (host : Host τ) (id : Nat) (w : World τ) (data : Bytes)
    (value : (jbdCanGet host id true w).value = (0,data)) : canIntact data = true := by
  obtain ⟨k,-,-,-,-,-,-,good⟩ := (jbdCanGet_zero host id w data).mp value
  exact good

/-- Payloads that differ in at most three bits, or only in a window of 16, have different
CRCs; and with the CRC field of the one, unless it is zero, the other is not accepted. -/
theorem jbdCanCrc_detects (p q : CanPayload) (differ : p ≠ q) (damage : FewBits p.1 q.1 ∨ InWindow p.1 q.1) :
    jbdCanCrc p.1 ≠ jbdCanCrc q.1 ∧ ∀ hi lo, UInt16.ofInt (getshort hi lo) = jbdCanCrc p.1 → jbdCanCrc p.1 ≠ 0 →
      ∀ {τ : Type} (host : Host τ) (id : Nat) (w : World τ), (jbdCanGet host id true w).value ≠ (0,q.1 ++ [hi,lo]) := by
  have unlike := jbdCanCrc_differs p q differ damage
  refine ⟨unlike,fun hi lo field nonzero τ host id w value => ?_⟩
  have good := jbdCanGet_intact host id w _ value
  have front : (q.1 ++ [hi,lo]).take 6 = q.1.take 6 := by
    rw [List.take_append_of_le_length q.2.ge]
  have crc : jbdCanCrc (q.1 ++ [hi,lo]) = jbdCanCrc q.1 := by
    rw [jbdCanCrc_bytes,front,← jbdCanCrc_bytes]
  have word : shortAt (q.1 ++ [hi,lo]) 6 = getshort hi lo := by
    have at6 : byteAt (q.1 ++ [hi,lo]) 6 = hi := by simp [byteAt,List.getD_eq_getElem?_getD,q.2]
    have at7 : byteAt (q.1 ++ [hi,lo]) 7 = lo := by simp [byteAt,List.getD_eq_getElem?_getD,q.2]
    rw [shortAt,at6,at7]
  rw [canIntact,word,crc,field,Bool.or_eq_true,beq_iff_eq,beq_iff_eq] at good
  exact good.elim nonzero unlike

theorem jbdCanCrc_detects_bit : jbdCanCrc (List.replicate 6 0) ≠ jbdCanCrc [1,0,0,0,0,0] ∧
    (jbdCanGet (canScripted fun _ => .bytes [1,0,0,0,0,0,27,0] (by decide)) 0x100 true (World.start 0)).value ≠
      (0,[1,0,0,0,0,0,27,0]) := by
  have few : FewBits (List.replicate 6 0) [1,0,0,0,0,0] := by
    unfold FewBits
    decide +kernel
  obtain ⟨unlike,refused⟩ := jbdCanCrc_detects ⟨List.replicate 6 0,rfl⟩ ⟨[1,0,0,0,0,0],rfl⟩ (by decide) (.inl few)
  exact ⟨unlike,refused 27 0 (by decide +kernel) (by decide +kernel) _ _ _⟩

end Jbdtool
