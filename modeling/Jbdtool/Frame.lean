import Jbdtool.Base.Memory
import Jbdtool.Base.Numbers

/-! The register frame of jbd.c: checksum, acceptance of a reply and building of
a request. Buffers are memories with an index log, so that the bounds of the
256-byte arrays are theorems about the log and not part of the types. -/
namespace Jbdtool
open Numbers

def jbdPktStart : UInt8 := 0xDD
def jbdPktEnd : UInt8 := 0x77
def jbdCmdRead : UInt8 := 0xA5
def jbdCmdWrite : UInt8 := 0x5A

/-- `_getushort`, `_getshort` -/
def getushort (p0 p1 : UInt8) : Nat := beUnsigned p0 p1
def getshort (p0 p1 : UInt8) : Int := beSigned p0 p1

/-- `(int)(float)v` for an int v: 24 significant bits, and the value x86 gives
when the rounded float no longer fits an int. -/
def floatDetour (v : Int) : Int :=
  let tmp := roundInt 24 v
  if -2147483648 ≤ tmp ∧ tmp < 2147483648 then tmp else -2147483648

/-- `_putshort`: the bytes stored at p and p+1. -/
def putshort (v : Int) : UInt8 × UInt8 :=
  (UInt8.ofInt (floatDetour v >>> (8 : Nat)),UInt8.ofInt (floatDetour v))

/-- `jbd_crc(&mem[base],len)` -/
def jbdCrc (base len : Nat) : Traced (Mem UInt8) Access UInt16 :=
  (List.range len).foldlM (fun crc i => do return crc - (← Mem.load (base + i)).toUInt16) 0

def jbdVerify (len : Nat) (reg : UInt8) : Traced (Mem UInt8) Access Int := do
  if len < 7 then return 1
  if (← Mem.load 0) ≠ jbdPktStart then return 1
  if (← Mem.load 1) ≠ reg then return 1
  -- Byte 2 is the status; the test on it is commented out in the source.
  let data_length := (← Mem.load 3).toNat
  if data_length ≠ len - 7 then return 1
  let my_crc ← jbdCrc 2 (data_length + 2)
  let i := 4 + data_length
  let pkt_crc := UInt16.ofInt (getshort (← Mem.load i) (← Mem.load (i + 1)))
  if my_crc ≠ pkt_crc then return 1
  if (← Mem.load (i + 2)) ≠ jbdPktEnd then return 1
  return 0

/-- A READ request carries no data. -/
def requestData (action : Int) (data : List UInt8) : List UInt8 :=
  if action = jbdCmdRead.toNat then [] else data

def jbdCmd (pkt_size : Nat) (action : Int) (reg : UInt8) (data : List UInt8) :
    Traced (Mem UInt8) Access Int := do
  let data := requestData action data
  Mem.storeBlock 0 (List.replicate pkt_size 0)
  Mem.store 0 jbdPktStart
  Mem.store 1 (UInt8.ofInt action)
  Mem.store 2 reg
  Mem.store 3 (UInt8.ofNat data.length)
  let idx := 4
  if idx + data.length > pkt_size then return -1
  Mem.storeBlock idx data
  let crc ← jbdCrc 2 (data.length + 2)
  let idx := idx + data.length
  Mem.store idx (putshort crc.toNat).1
  Mem.store (idx + 1) (putshort crc.toNat).2
  Mem.store (idx + 2) jbdPktEnd
  return (idx + 3 : Nat)

/-- The word that makes a byte sum vanish modulo 2^16. -/
def checksum (total : Nat) : Nat := ((-(total : Int)) % 65536).toNat

def frame (reg status : UInt8) (payload : List UInt8) : List UInt8 :=
  let c := checksum (status.toNat + payload.length + byteSum payload)
  jbdPktStart::reg::status::UInt8.ofNat payload.length::
    (payload ++ [UInt8.ofNat (c / 256),UInt8.ofNat c,jbdPktEnd])

theorem frame_length (reg status : UInt8) (payload : List UInt8) :
    (frame reg status payload).length = payload.length + 7 := by
  simp [frame]

theorem putshort_word (v : Nat) (word : v < 65536) :
    putshort v = (UInt8.ofNat (v / 256),UInt8.ofNat v) := by
  have exact : roundInt 24 (v : Int) = v := roundInt_exact 24 v (by omega) (by omega)
  have kept : floatDetour (v : Int) = v := by
    unfold floatDetour
    rw [exact]
    exact if_pos (by omega)
  unfold putshort
  rw [kept]
  have high : (v : Int) >>> (8 : Nat) = ((v / 256 : Nat) : Int) := by
    rw [Int.shiftRight_eq_div_pow]
    simp
  have byte (n : Nat) : UInt8.ofInt (n : Int) = UInt8.ofNat n := by
    apply UInt8.toNat_inj.mp
    simp only [UInt8.ofInt,UInt8.toNat_ofNat']
    omega
  rw [high,byte,byte]

private theorem crc_fold (indices : List Nat) (base : Nat) (crc : UInt16) (mem : Mem UInt8) :
    (indices.foldlM (fun crc i => do return crc - (← Mem.load (base + i)).toUInt16) crc :
        Traced (Mem UInt8) Access UInt16) mem =
      ⟨(indices.map (fun i => mem (base + i))).foldl (fun crc b => crc - b.toUInt16) crc,mem,
        indices.map (fun i => .load (base + i))⟩ := by
  induction indices generalizing crc with
  | nil => rfl
  | cons i indices ih =>
    rw [List.foldlM_cons]
    have next := ih (crc - (mem (base + i)).toUInt16)
    exact congrArg (fun o => o.after [Access.load (base + i)]) next

private theorem jbdCrc_run (base len : Nat) (mem : Mem UInt8) :
    jbdCrc base len mem = ⟨-UInt16.ofNat (byteSum (Mem.slice mem base len)),mem,
      (List.range len).map (fun i => .load (base + i))⟩ := by
  rw [jbdCrc,crc_fold,foldl_sub]
  simp [Mem.slice]

@[simp] theorem jbdCrc_bind {α : Type} (base len : Nat) (k : UInt16 → Traced (Mem UInt8) Access α)
    (mem : Mem UInt8) :
    (jbdCrc base len >>= k) mem = (k (-UInt16.ofNat (byteSum (Mem.slice mem base len))) mem).after
      ((List.range len).map (fun i => .load (base + i))) :=
  Traced.bind_of_run (jbdCrc_run base len mem) k

theorem jbdVerify_checks (len : Nat) (reg : UInt8) (buf : Mem UInt8) :
    (jbdVerify len reg buf).value = 0 ↔ 7 ≤ len ∧ buf 0 = jbdPktStart ∧ buf 1 = reg ∧
      (buf 3).toNat = len - 7 ∧
      -UInt16.ofNat (byteSum (Mem.slice buf 2 (len - 5))) =
        UInt16.ofNat (beUnsigned (buf (len - 3)) (buf (len - 2))) ∧
      buf (len - 1) = jbdPktEnd := by
  unfold jbdVerify getshort
  by_cases short : len < 7
  · simp [short]
  have enough : 7 ≤ len := by omega
  by_cases start : buf 0 = jbdPktStart
  case neg => simp [short,start]
  by_cases register : buf 1 = reg
  case neg => simp [short,start,register]
  by_cases size : (buf 3).toNat = len - 7
  case neg => simp [short,start,register,size]
  have covered : len - 7 + 2 = len - 5 := by omega
  have high : 4 + (len - 7) = len - 3 := by omega
  have low : len - 3 + 1 = len - 2 := by omega
  have last : len - 3 + 2 = len - 1 := by omega
  simp only [short,start,register,size,Mem.load_bind,Traced.ite_run,Outcome.after_value,
    ne_eq,not_true_eq_false,if_false,jbdCrc_bind,covered,high,low,last,beSigned_word]
  split_ifs with crc stop
  · simp [crc,stop,enough]
  · simp [stop]
  · simp [crc]

private theorem jbdVerify_below (len : Nat) (reg : UInt8) (buf : Mem UInt8) :
    Mem.Below len (jbdVerify len reg buf).events := by
  simp only [jbdVerify,Mem.load_bind,Traced.ite_run,jbdCrc_bind]
  have long (h : ¬ len < 7) : 7 ≤ len := by omega
  split_ifs with short start register size
  · simp
  · simp
    omega
  · simp
    omega
  · simp
    omega
  all_goals
    have enough := long short
    have covered : (buf 3).toNat = len - 7 := by simpa using size
    have summed := Mem.below_loads 2 (len - 7 + 2) len (by omega)
    have header : 0 < len ∧ 1 < len ∧ 3 < len := by omega
    have tail : 4 + (len - 7) < len ∧ 4 + (len - 7) + 1 < len ∧ 4 + (len - 7) + 2 < len := by omega
    simp [covered,header,tail,summed]

private theorem slice_split (buf : Mem UInt8) (n : Nat) :
    Mem.slice buf 0 (n + 7) = buf 0::buf 1::buf 2::buf 3::
      (Mem.slice buf 4 n ++ [buf (n + 4),buf (n + 5),buf (n + 6)]) := by
  have order : n + 7 = n + 3 + 1 + 1 + 1 + 1 := by omega
  have tail : Mem.slice buf (4 + n) 3 = [buf (n + 4),buf (n + 5),buf (n + 6)] := by
    simp [Mem.slice,List.range_succ,Nat.add_comm,Nat.add_left_comm]
  rw [order,Mem.slice_succ,Mem.slice_succ,Mem.slice_succ,Mem.slice_succ,Mem.slice_append]
  simp only [Nat.zero_add,Nat.reduceAdd,tail]

private theorem checksum_iff (total : Nat) (hi lo : UInt8) :
    -UInt16.ofNat total = UInt16.ofNat (beUnsigned hi lo) ↔
      hi = UInt8.ofNat (checksum total / 256) ∧ lo = UInt8.ofNat (checksum total) := by
  rw [beUnsigned_eq,← UInt16.toNat_inj,← UInt8.toNat_inj,← UInt8.toNat_inj]
  have := hi.toNat_lt
  have := lo.toNat_lt
  simp only [UInt16.toNat_neg,UInt16.toNat_ofNat',UInt8.toNat_ofNat',checksum,UInt16.size]
  omega

theorem summed_slice (buf : Mem UInt8) (n : Nat) :
    byteSum (Mem.slice buf 2 (n + 2)) = (buf 2).toNat + (buf 3).toNat + byteSum (Mem.slice buf 4 n) := by
  rw [Mem.slice_succ,Mem.slice_succ,byteSum_cons,byteSum_cons]
  simp only [Nat.reduceAdd]
  omega

theorem jbdVerify_iff (buf : Mem UInt8) (len : Nat) (reg : UInt8) (small : len ≤ 256) :
    (jbdVerify len reg buf).value = 0 ↔
      ∃ status payload, payload.length + 7 = len ∧ Mem.slice buf 0 len = frame reg status payload := by
  rw [jbdVerify_checks]
  constructor
  · rintro ⟨enough,start,register,size,crc,stop⟩
    obtain ⟨n,rfl⟩ := Nat.exists_eq_add_of_le' enough
    refine ⟨buf 2,Mem.slice buf 4 n,by simp,?_⟩
    have total : n + 7 - 5 = n + 2 := by omega
    have count : n + 7 - 7 = n := by omega
    rw [total,summed_slice,checksum_iff,size,count] at crc
    have number : buf 3 = UInt8.ofNat n := by
      apply UInt8.toNat_inj.mp
      rw [size,UInt8.toNat_ofNat']
      omega
    obtain ⟨high,low⟩ := crc
    simp only [Nat.reduceSubDiff] at high low stop
    simp [slice_split,frame,start,register,number,high,low,stop]
  · rintro ⟨status,payload,rfl,same⟩
    rw [slice_split,frame] at same
    injection same with start same
    injection same with register same
    injection same with state same
    injection same with number same
    obtain ⟨data,tail⟩ := List.append_inj same (by simp)
    injection tail with high tail
    injection tail with low tail
    injection tail with stop
    have size : (buf 3).toNat = payload.length := by
      rw [number,UInt8.toNat_ofNat']
      omega
    have total : payload.length + 7 - 5 = payload.length + 2 := by omega
    refine ⟨by omega,start,register,by omega,?_,stop⟩
    rw [total,summed_slice,checksum_iff,state,size,data]
    exact ⟨high,low⟩

private theorem neg_word (total : Nat) : (-UInt16.ofNat total).toNat = checksum total := by
  simp only [UInt16.toNat_neg,UInt16.toNat_ofNat',checksum,UInt16.size]
  omega

private theorem crc_bytes (total : Nat) :
    putshort ((-UInt16.ofNat total).toNat : Nat) =
      (UInt8.ofNat (checksum total / 256),UInt8.ofNat (checksum total)) := by
  rw [neg_word]
  exact putshort_word _ (by unfold checksum; omega)

theorem jbdCmd_run (pkt_size : Nat) (action : Int) (reg : UInt8) (data : List UInt8) (pkt : Mem UInt8)
    (fits : (requestData action data).length + 4 ≤ pkt_size) (short : (requestData action data).length < 256) :
    (jbdCmd pkt_size action reg data pkt).value = (requestData action data).length + 7 ∧
      Mem.slice (jbdCmd pkt_size action reg data pkt).state 0 ((requestData action data).length + 7) =
        frame (UInt8.ofInt action) reg (requestData action data) := by
  unfold jbdCmd
  generalize requestData action data = data at *
  have room : ¬ 4 + data.length > pkt_size := by omega
  generalize clear : Mem.overlay pkt 0 (List.replicate pkt_size 0) = start
  let header := [jbdPktStart,UInt8.ofInt action,reg,UInt8.ofNat data.length]
  have loaded : Mem.overlay (Mem.overlay (Mem.overlay (Mem.overlay (Mem.overlay start 0 [jbdPktStart])
      1 [UInt8.ofInt action]) 2 [reg]) 3 [UInt8.ofNat data.length]) 4 data =
      Mem.overlay start 0 (header ++ data) := by
    rw [Mem.overlay_next start 0 1,Mem.overlay_next start 0 2,Mem.overlay_next start 0 3,
      Mem.overlay_next start 0 4] <;> rfl
  have body : Mem.slice (Mem.overlay start 0 (header ++ data)) 2 (data.length + 2) =
      reg::UInt8.ofNat data.length::data := by
    have split : header ++ data = [jbdPktStart,UInt8.ofInt action] ++ (reg::UInt8.ofNat data.length::data) := rfl
    rw [split]
    exact Mem.slice_overlay_append start 0 [jbdPktStart,UInt8.ofInt action] (reg::UInt8.ofNat data.length::data)
  have total : byteSum (reg::UInt8.ofNat data.length::data) = reg.toNat + data.length + byteSum data := by
    have count : (UInt8.ofNat data.length).toNat = data.length := UInt8.toNat_ofNat_of_lt' short
    rw [byteSum_cons,byteSum_cons,count]
    omega
  simp only [if_false,Mem.storeBlock_bind,Mem.store_bind,room,jbdCrc_bind,
    Traced.pure_run,Outcome.after_value,Outcome.after_state,clear,loaded,body,total,crc_bytes]
  refine ⟨by omega,?_⟩
  have length : header.length = 4 := rfl
  rw [Mem.overlay_next start 0 (4 + data.length) _ _ (by simp [length]),
    Mem.overlay_next start 0 (4 + data.length + 1) _ _ (by simp [length]; omega),
    Mem.overlay_next start 0 (4 + data.length + 2) _ _ (by simp [length]; omega)]
  have whole := Mem.slice_overlay start 0 (frame (UInt8.ofInt action) reg data)
  rw [frame_length] at whole
  rw [← whole]
  simp only [header,frame,List.append_assoc,List.cons_append,List.nil_append]

theorem jbdCmd_refused (pkt_size : Nat) (action : Int) (reg : UInt8) (data : List UInt8) (pkt : Mem UInt8)
    (full : pkt_size < (requestData action data).length + 4) : (jbdCmd pkt_size action reg data pkt).value = -1 := by
  have room : 4 + (requestData action data).length > pkt_size := by omega
  unfold jbdCmd
  simp only [room,if_true,Mem.storeBlock_bind,Mem.store_bind,Traced.pure_run,Outcome.after_value]

/-- Acceptance is membership in the frame language, no byte past the length is
looked at, and what `jbdCmd` builds is accepted for the action it names. -/
theorem jbdVerify_frames (buf pkt : Mem UInt8) (len : Nat) (reg second : UInt8) (action : Int)
    (payload : List UInt8) (small : len ≤ 256) (write : action ≠ jbdCmdRead.toNat)
    (fits : payload.length ≤ 249) :
    ((jbdVerify len reg buf).value = 0 ↔
      ∃ status data, data.length + 7 = len ∧ Mem.slice buf 0 len = frame reg status data) ∧
    Mem.Below len (jbdVerify len reg buf).events ∧
    (jbdCmd 256 action second payload pkt).value = payload.length + 7 ∧
    (jbdVerify (payload.length + 7) (UInt8.ofInt action) (jbdCmd 256 action second payload pkt).state).value
      = 0 := by
  have request : requestData action payload = payload := by simp [requestData,write]
  have built := jbdCmd_run 256 action second payload pkt (by rw [request]; omega) (by rw [request]; omega)
  rw [request] at built
  refine ⟨jbdVerify_iff buf len reg small,jbdVerify_below len reg buf,built.1,?_⟩
  rw [jbdVerify_iff _ _ _ (by omega)]
  exact ⟨second,payload,rfl,built.2⟩

/-- The write of the two-byte value 3 to register E1, seen as a reply. -/
theorem jbdVerify_frames_mosfet :
    Mem.Below 9 (jbdVerify 9 0x5A (fun _ => 0)).events ∧
    (jbdVerify 9 0x5A (jbdCmd 256 jbdCmdWrite.toNat 0xE1 [0,3] (fun _ => 0)).state).value = 0 := by
  obtain ⟨-,below,-,accepted⟩ := jbdVerify_frames (fun _ => 0) (fun _ => 0) 9 0x5A 0xE1 jbdCmdWrite.toNat
    [0,3] (by decide) (by decide) (by decide)
  exact ⟨below,accepted⟩

end Jbdtool
