import Jbdtool.Write

/-! What one exchange hands to the transport. -/
namespace Jbdtool
open Numbers CString
variable {τ : Type}

private theorem exchange_sends (host : Host τ) (packet : Bytes) (len : Int) (reg : UInt8) (retries : Nat) (line : τ) :
    ∃ n, transmitted (exchange host packet len reg (retries + 1) line).events = List.replicate (n + 1) (packet,len) := by
  induction retries generalizing line with
  | zero =>
    refine ⟨0,?_⟩
    unfold exchange
    simp only [Outcome.after_events]
    split
    · rfl
    · split
      · rfl
      · rfl
  | succ retries ih =>
    unfold exchange
    simp only [Outcome.after_events]
    split
    · exact ⟨0,rfl⟩
    · split
      · exact ⟨0,rfl⟩
      · obtain ⟨n,sent⟩ := ih (host.read (host.write line packet len).2).2
        refine ⟨n + 1,?_⟩
        rw [List.replicate_succ,← sent]
        rfl

private theorem jbdRw_sends (host : Host τ) (action reg : UInt8) (data : Bytes) (w : World τ) :
    ∃ n, transmitted (jbdRw host action reg data w).events = List.replicate (n + 1) (request action reg data) := by
  simp only [jbdRw_run,transmitted_rwEvents]
  exact exchange_sends host _ _ reg 4 w.line

private theorem below_stores (base count size : Nat) :
    Mem.Below size ((List.range count).map (fun i => .store (base + i))) ↔ count = 0 ∨ base + count ≤ size := by
  constructor
  · intro below
    by_cases none : count = 0
    · exact .inl none
    · have last := below (.store (base + (count - 1))) (List.mem_map.mpr ⟨count - 1,List.mem_range.mpr (by omega),rfl⟩)
      simp only [Access.store_index] at last
      omega
  · intro fits access member
    obtain ⟨i,inside,rfl⟩ := List.mem_map.mp member
    have := List.mem_range.mp inside
    simp only [Access.store_index]
    omega

/-- The check of jbd_cmd leaves the three bytes behind the data out. -/
private theorem jbdCmd_below (action : Int) (reg : UInt8) (data : Bytes) (pkt : Mem UInt8) :
    Mem.Below 256 (jbdCmd 256 action reg data pkt).events ↔
      (requestData action data).length ≤ 249 ∨ 252 < (requestData action data).length := by
  unfold jbdCmd
  generalize requestData action data = data
  by_cases room : 4 + data.length > 256
  · simp only [Mem.storeBlock_bind,Mem.store_bind,room,if_true,Outcome.after_events,Traced.pure_run,
      Mem.below_append,Mem.below_cons,Mem.below_nil,and_true,below_stores,Access.store_index,List.length_replicate]
    omega
  · have loads := Mem.below_loads 2 (data.length + 2) 256 (by omega)
    simp only [Mem.storeBlock_bind,Mem.store_bind,room,if_false,jbdCrc_bind,Outcome.after_events,Traced.pure_run,
      Mem.below_append,Mem.below_cons,Mem.below_nil,and_true,true_and,below_stores,loads,Access.store_index,List.length_replicate]
    omega

/-- Every frame of the exchange was built inside `cmd` and has the length of its request, and a
request too long for `cmd` fails without a call on the transport. -/
def WellFormed (host : Host τ) (action reg : UInt8) (data : Bytes) (w : World τ) : Prop :=
  let size := (requestData action.toNat data).length + 7
  let out := jbdRw host action reg data w
  (∀ sent ∈ transmitted out.events, Mem.Below 256 (jbdCmd 256 action.toNat reg data (fun _ => 0)).events ∧
    sent.1.length = size ∧ sent.2 = size) ∧
  (256 < size → out.value.1 = -1 ∧ ∀ e ∈ out.events, e.onWire = false)

private theorem transmitted_quiet (events : List Event) (quiet : ∀ e ∈ events, e.onWire = false) : transmitted events = [] := by
  rw [transmitted,List.filterMap_eq_nil_iff]
  intro e member
  have silent := quiet e member
  cases e <;> simp_all [Event.onWire]

private theorem requestData_length (action : UInt8) (data : Bytes) :
    (requestData action.toNat data).length ≤ 249 ↔ action = jbdCmdRead ∨ data.length ≤ 249 := by
  have read : (action.toNat : Int) = jbdCmdRead.toNat ↔ action = jbdCmdRead := by
    rw [Int.natCast_inj,UInt8.toNat_inj]
  unfold requestData
  by_cases isRead : action = jbdCmdRead
  · simp [isRead]
  · simp [isRead,read]

/-- jbd_rw keeps to its buffer exactly for what leaves room for the end of the frame. -/
theorem jbdRw_wellFormed_iff (host : Host τ) (action reg : UInt8) (data : Bytes) (w : World τ) :
    WellFormed host action reg data w ↔ action = jbdCmdRead ∨ data.length ≤ 249 := by
  obtain ⟨n,sent⟩ := jbdRw_sends host action reg data w
  rw [← requestData_length]
  unfold WellFormed
  simp only
  constructor
  · rintro ⟨-,refused⟩
    by_contra long
    have none := transmitted_quiet _ (refused (by omega)).2
    rw [sent] at none
    simp at none
  · intro short
    refine ⟨?_,fun long => absurd short (by omega)⟩
    rw [sent]
    intro s member
    rw [List.eq_of_mem_replicate member,request_frame action reg data (by omega)]
    exact ⟨(jbdCmd_below action.toNat reg data _).mpr (.inl short),frame_length _ _ _,rfl⟩

def unanswered : Host Nat := scripted (fun _ => .error) (fun _ _ => 0) (fun _ _ => 0)

/-- A WRITE of 250 bytes over a transport that does not answer: the last byte of the frame goes
behind the buffer. -/
theorem jbdRw_overflow :
    ¬ WellFormed unanswered jbdCmdWrite 0xA2 (List.replicate 250 65)
        (World.start 0) ∧
      ¬ Mem.Below 256 (jbdCmd 256 jbdCmdWrite.toNat 0xA2 (List.replicate 250 65) (fun _ => 0)).events := by
  have data : requestData jbdCmdWrite.toNat (List.replicate 250 65) = List.replicate 250 65 := if_neg (by decide)
  have beyond : ¬ Mem.Below 256 (jbdCmd 256 jbdCmdWrite.toNat 0xA2 (List.replicate 250 65) (fun _ => 0)).events := by
    rw [jbdCmd_below,data,List.length_replicate]
    decide
  refine ⟨fun formed => ?_,beyond⟩
  obtain ⟨n,sent⟩ := jbdRw_sends unanswered jbdCmdWrite 0xA2
    (List.replicate 250 65) (World.start 0)
  have member : request jbdCmdWrite 0xA2 (List.replicate 250 65) ∈
      List.replicate (n + 1) (request jbdCmdWrite 0xA2 (List.replicate 250 65)) := List.mem_replicate.mpr ⟨by omega,rfl⟩
  rw [← sent] at member
  exact beyond (formed.1 _ member).1

def writeFrames (events : List Event) : List Bytes :=
  ((transmitted events).map Prod.fst).filter (fun packet => packet.getD 1 0 == jbdCmdWrite)

@[simp] theorem writeFrames_nil : writeFrames [] = [] := rfl

@[simp] theorem writeFrames_append (first second : List Event) :
    writeFrames (first ++ second) = writeFrames first ++ writeFrames second := by
  simp [writeFrames,transmitted]

theorem writeFrames_write (host : Host τ) (reg : UInt8) (data : Bytes) (w : World τ) (fits : data.length ≤ 249) :
    ∃ n, writeFrames (jbdRw host jbdCmdWrite reg data w).events =
      List.replicate (n + 1) (frame jbdCmdWrite reg data) := by
  obtain ⟨n,sent⟩ := jbdRw_sends host jbdCmdWrite reg data w
  have payload : requestData jbdCmdWrite.toNat data = data := if_neg (by decide)
  have packet := request_frame jbdCmdWrite reg data (by rw [payload]; omega)
  rw [payload] at packet
  refine ⟨n,?_⟩
  rw [writeFrames,sent,packet,List.map_replicate,List.filter_replicate]
  exact if_pos rfl

theorem writeFrames_read (host : Host τ) (reg : UInt8) (data : Bytes) (w : World τ) :
    writeFrames (jbdRw host jbdCmdRead reg data w).events = [] := by
  obtain ⟨n,sent⟩ := jbdRw_sends host jbdCmdRead reg data w
  rw [writeFrames,sent,request_read,List.map_replicate,List.filter_replicate]
  exact if_neg Bool.false_ne_true

theorem writeFrames_sendParm (host : Host τ) (reg : UInt8) (data : Mem UInt8) (payload : Bytes) (w : World τ)
    (fits : payload.length ≤ 249) : ∃ n, writeFrames (sendParm host reg (Mem.overlay data 0 payload) payload.length w).events =
      List.replicate (n + 1) (frame jbdCmdWrite reg payload) := by
  rw [sendParm_events,Mem.slice_overlay]
  exact writeFrames_write host reg payload w fits

theorem writeParm_events (host : Host τ) (pp : JbdParams) (value : Bytes) (w : World τ) :
    (writeParm host pp value w).events =
      (writeParmFrom host (host.parmData w.parmCalls) pp value {w with parmCalls := w.parmCalls + 1}).events := by
  simp only [writeParm,Traced.get_bind,Traced.modify_bind]

private theorem shortPayload_bytes (v : Nat) (word : v < 65536) : shortPayload v = [UInt8.ofNat (v / 256),UInt8.ofNat v] := by
  rw [shortPayload,putshort_word v word]

theorem frame_inj {action reg : UInt8} {first second : Bytes} (size : first.length = second.length)
    (same : frame action reg first = frame action reg second) : first = second := by
  unfold frame at same
  simp only [List.cons.injEq,true_and] at same
  exact (List.append_inj same.2 size).1

theorem shortPayload_inj {a b : UInt16} (same : shortPayload a.toNat = shortPayload b.toNat) : a = b := by
  have := a.toNat_lt
  have := b.toNat_lt
  rw [shortPayload_bytes _ (by omega),shortPayload_bytes _ (by omega)] at same
  injection same with high tail
  injection tail with low
  have upper := congrArg UInt8.toNat high
  have lower := congrArg UInt8.toNat low
  rw [UInt8.toNat_ofNat',UInt8.toNat_ofNat'] at upper lower
  apply UInt16.toNat_inj.mp
  omega

end Jbdtool
