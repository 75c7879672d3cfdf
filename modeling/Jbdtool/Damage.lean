import Jbdtool.Frame

/-! What jbd_verify notices of a frame that was damaged on its way. -/
namespace Jbdtool
open Numbers

/-- The bytes that the checksum covers, apart from the length. -/
def covered (len : Nat) (buf : Mem UInt8) : List UInt8 := buf 2::Mem.slice buf 4 (len - 7)

private theorem byteSum_le (bytes : List UInt8) : byteSum bytes ≤ 255 * bytes.length := by
  induction bytes with
  | nil => simp
  | cons b bytes ih =>
    have := b.toNat_lt
    rw [byteSum_cons,List.length_cons]
    omega

/-- The word that the checksum bytes have to be. -/
def expected (len : Nat) (buf : Mem UInt8) : UInt16 := -UInt16.ofNat (byteSum (Mem.slice buf 2 (len - 5)))

private theorem summed_covered (len : Nat) (buf : Mem UInt8) (enough : 7 ≤ len) :
    byteSum (Mem.slice buf 2 (len - 5)) = (buf 3).toNat + byteSum (covered len buf) := by
  have total : len - 5 = len - 7 + 2 := by omega
  rw [total,summed_slice,covered,byteSum_cons]
  omega

/-- A frame is too short for the sum to wrap. -/
private theorem expected_injective (len : Nat) (buf buf' : Mem UInt8) (enough : 7 ≤ len) (size : (buf 3).toNat = len - 7)
    (same : buf' 3 = buf 3) (equal : expected len buf' = expected len buf) :
    byteSum (covered len buf') = byteSum (covered len buf) := by
  have wide (mem : Mem UInt8) : byteSum (Mem.slice mem 2 (len - 5)) < 65536 := by
    have most := byteSum_le (Mem.slice mem 2 (len - 5))
    have := (buf 3).toNat_lt
    rw [Mem.slice_length] at most
    omega
  have sums := congrArg UInt16.toNat equal
  unfold expected at sums
  simp only [UInt16.toNat_neg,UInt16.toNat_ofNat',UInt16.size] at sums
  have first := wide buf
  have second := wide buf'
  have left := summed_covered len buf enough
  have right := summed_covered len buf' enough
  rw [same] at right
  omega

private theorem jbdVerify_sum (len : Nat) (reg : UInt8) (buf buf' : Mem UInt8) (accepted : (jbdVerify len reg buf).value = 0)
    (kept : ∀ i < len, i ≠ 2 → ¬ (4 ≤ i ∧ i < len - 3) → buf' i = buf i)
    (differs : byteSum (covered len buf') ≠ byteSum (covered len buf)) : (jbdVerify len reg buf').value ≠ 0 := by
  intro passed
  obtain ⟨enough,-,-,size,crc,-⟩ := (jbdVerify_checks len reg buf).mp accepted
  obtain ⟨-,-,-,-,crc',-⟩ := (jbdVerify_checks len reg buf').mp passed
  have length := kept 3 (by omega) (by omega) (by omega)
  have high := kept (len - 3) (by omega) (by omega) (by omega)
  have low := kept (len - 2) (by omega) (by omega) (by omega)
  rw [high,low,← crc] at crc'
  exact differs (expected_injective len buf buf' enough size length crc')

private theorem jbdVerify_length (len len' : Nat) (reg : UInt8) (buf buf' : Mem UInt8)
    (accepted : (jbdVerify len reg buf).value = 0) (other : len' ≠ len) (kept : ∀ i < min len len', buf' i = buf i) :
    (jbdVerify len' reg buf').value ≠ 0 := by
  intro passed
  obtain ⟨enough,-,-,size,-⟩ := (jbdVerify_checks len reg buf).mp accepted
  obtain ⟨enough',-,-,size',-⟩ := (jbdVerify_checks len' reg buf').mp passed
  rw [kept 3 (by omega),size] at size'
  omega

private theorem word_inj {hi lo hi' lo' : UInt8}
    (same : UInt16.ofNat (beUnsigned hi lo) = UInt16.ofNat (beUnsigned hi' lo')) : hi = hi' ∧ lo = lo' := by
  have words := congrArg UInt16.toNat same
  have := hi.toNat_lt
  have := lo.toNat_lt
  have := hi'.toNat_lt
  have := lo'.toNat_lt
  simp only [UInt16.toNat_ofNat',beUnsigned_eq] at words
  constructor <;> apply UInt8.toNat_inj.mp <;> omega

private theorem overlay_byte (buf : Mem UInt8) (i j : Nat) (v : UInt8) :
    Mem.overlay buf i [v] j = if j = i then v else buf j := by
  split_ifs with hit
  · rw [hit]
    exact Mem.overlay_inside buf i [v] 0 (by simp)
  · apply Mem.overlay_outside
    simp only [List.length_singleton]
    omega

private theorem covered_byte (len : Nat) (buf : Mem UInt8) (i : Nat) (v : UInt8) (differs : v ≠ buf i)
    (inside : i = 2 ∨ (4 ≤ i ∧ i < len - 3)) :
    byteSum (covered len (Mem.overlay buf i [v])) ≠ byteSum (covered len buf) := by
  have number : v.toNat ≠ (buf i).toNat := fun same => differs (UInt8.toNat_inj.mp same)
  unfold covered
  rcases inside with rfl | ⟨behind,before⟩
  · have payload : Mem.slice (Mem.overlay buf 2 [v]) 4 (len - 7) = Mem.slice buf 4 (len - 7) := by
      apply Mem.slice_congr
      intro j _
      rw [overlay_byte,if_neg (by omega)]
    rw [payload,overlay_byte,if_pos rfl,byteSum_cons,byteSum_cons]
    omega
  · obtain ⟨k,rfl⟩ := Nat.exists_eq_add_of_le behind
    have parts : len - 7 = k + (1 + (len - 8 - k)) := by omega
    have front : Mem.slice (Mem.overlay buf (4 + k) [v]) 4 k = Mem.slice buf 4 k := by
      apply Mem.slice_congr
      intro j _
      rw [overlay_byte,if_neg (by omega)]
    have back : Mem.slice (Mem.overlay buf (4 + k) [v]) (4 + k + 1) (len - 8 - k) =
        Mem.slice buf (4 + k + 1) (len - 8 - k) := by
      apply Mem.slice_congr
      intro j _
      rw [overlay_byte,if_neg (by omega)]
    have sum (first second : List UInt8) : byteSum (first ++ second) = byteSum first + byteSum second := by
      simp [byteSum]
    have one (mem : Mem UInt8) : Mem.slice mem (4 + k) 1 = [mem (4 + k)] := by
      simp [Mem.slice]
    rw [parts,Mem.slice_append,Mem.slice_append,Mem.slice_append,Mem.slice_append,front,back,one,one,overlay_byte,
      overlay_byte,if_pos rfl,if_neg (by omega)]
    simp only [byteSum_cons,sum,byteSum_nil]
    omega

private theorem jbdVerify_byte (len : Nat) (reg : UInt8) (buf : Mem UInt8) (accepted : (jbdVerify len reg buf).value = 0)
    (i : Nat) (inside : i < len) (v : UInt8) (differs : v ≠ buf i) :
    (jbdVerify len reg (Mem.overlay buf i [v])).value ≠ 0 := by
  by_cases summed : i = 2 ∨ (4 ≤ i ∧ i < len - 3)
  · refine jbdVerify_sum len reg buf _ accepted (fun j _ status payload => ?_) (covered_byte len buf i v differs summed)
    rw [overlay_byte,if_neg (by omega)]
  intro passed
  obtain ⟨enough,start,register,size,crc,stop⟩ := (jbdVerify_checks len reg buf).mp accepted
  obtain ⟨-,start',register',size',crc',stop'⟩ := (jbdVerify_checks len reg _).mp passed
  simp only [overlay_byte] at start' register' size' stop' crc'
  have place : i = 0 ∨ i = 1 ∨ i = 3 ∨ i = len - 1 ∨ i = len - 3 ∨ i = len - 2 := by omega
  rcases place with rfl | rfl | rfl | rfl | check
  · exact differs (start'.trans start.symm)
  · exact differs (register'.trans register.symm)
  · exact differs (UInt8.toNat_inj.mp (size'.trans size.symm))
  · rw [if_pos rfl] at stop'
    exact differs (stop'.trans stop.symm)
  -- One of the two checksum bytes, over the same sum.
  have sum : Mem.slice (Mem.overlay buf i [v]) 2 (len - 5) = Mem.slice buf 2 (len - 5) := by
    apply Mem.slice_congr
    intro j _
    rw [overlay_byte,if_neg (by omega)]
  rw [sum,crc] at crc'
  obtain ⟨high,low⟩ := word_inj crc'
  rcases check with rfl | rfl
  · rw [if_pos rfl] at high
    exact differs high.symm
  · rw [if_pos rfl] at low
    exact differs low.symm

/-- What is done to an accepted frame is noticed: one byte replaced, bytes dropped or added
at the end, or status and payload changed to another sum. -/
theorem jbdVerify_detects (len : Nat) (reg : UInt8) (buf : Mem UInt8) (accepted : (jbdVerify len reg buf).value = 0) :
    (∀ i < len, ∀ v, v ≠ buf i → (jbdVerify len reg (Mem.overlay buf i [v])).value ≠ 0) ∧
    (∀ len' buf', len' ≠ len → (∀ i < min len len', buf' i = buf i) → (jbdVerify len' reg buf').value ≠ 0) ∧
    ∀ buf', (∀ i < len, i ≠ 2 → ¬ (4 ≤ i ∧ i < len - 3) → buf' i = buf i) →
      byteSum (covered len buf') ≠ byteSum (covered len buf) → (jbdVerify len reg buf').value ≠ 0 :=
  ⟨fun i inside v differs => jbdVerify_byte len reg buf accepted i inside v differs,
    fun len' buf' other kept => jbdVerify_length len len' reg buf buf' accepted other kept,
    fun buf' kept differs => jbdVerify_sum len reg buf buf' accepted kept differs⟩

/-- The reply of the device to a read of register 3 with the payload 1, 2, and the same with
a byte replaced, a byte missing, and the payload 1, 3. -/
theorem jbdVerify_detects_reply :
    (jbdVerify 9 3 (Mem.overlay (Mem.overlay (fun _ => 0) 0 (frame 3 0 [1,2])) 5 [7])).value ≠ 0 ∧
    (jbdVerify 8 3 (Mem.overlay (fun _ => 0) 0 (frame 3 0 [1,2]))).value ≠ 0 ∧
    (jbdVerify 9 3 (Mem.overlay (Mem.overlay (fun _ => 0) 0 (frame 3 0 [1,2])) 5 [3])).value ≠ 0 := by
  have accepted : (jbdVerify 9 3 (Mem.overlay (fun _ => 0) 0 (frame 3 0 [1,2]))).value = 0 := by decide
  obtain ⟨replaced,missing,changed⟩ := jbdVerify_detects 9 3 _ accepted
  refine ⟨replaced 5 (by decide) 7 (by decide),missing 8 _ (by decide) (fun _ _ => rfl),changed _ ?_ (by decide)⟩
  intro i _ _ outside
  rw [overlay_byte,if_neg (by omega)]

end Jbdtool
