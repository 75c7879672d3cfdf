import Jbdtool.Requests
import Mathlib.Data.List.GetD

/-! Read-modify-write: a row that stands for one byte of its register. -/
namespace Jbdtool
open CString Numbers
variable {τ : Type}

/-- The rows that address one byte, and which. -/
def Half (pp : JbdParams) (index : Nat) : Prop := (pp.dt = .b0 ∧ index = 0) ∨ (pp.dt = .b1 ∧ index = 1)

def readBack (host : Host τ) (pp : JbdParams) (w : World τ) : Outcome (World τ) Event (Int × Bytes) :=
  jbdRw host jbdCmdRead pp.reg (List.replicate 128 0) {w with parmCalls := w.parmCalls + 1}

/-- The two bytes sent, from the reply and the byte asked for. -/
def halfPayload (index : Nat) (reply : Bytes) (b : UInt8) : Bytes :=
  if index = 0 then [b,reply.getD 1 0] else [reply.getD 0 0,b]

private theorem slice_half (data : Mem UInt8) (reply : Bytes) (index : Nat) (b : UInt8) (whole : reply.length = 128)
    (half : index < 2) : Mem.slice (Mem.overlay (Mem.overlay data 0 reply) index [b]) 0 2 = halfPayload index reply b := by
  have words (mem : Mem UInt8) : Mem.slice mem 0 2 = [mem 0,mem 1] := by simp [Mem.slice,List.range_succ]
  have byte (i : Nat) (bound : i < 2) : Mem.overlay data 0 reply i = reply.getD i 0 := by
    have inside := Mem.overlay_inside data 0 reply i (by omega)
    rw [Nat.zero_add] at inside
    rw [inside,List.getD_eq_getElem _ _ (by omega)]
  have first := byte 0 (by omega)
  have second := byte 1 (by omega)
  rw [words]
  obtain rfl | rfl : index = 0 ∨ index = 1 := by omega
  · rw [halfPayload,if_pos rfl,← second]
    simp [Mem.overlay]
  · rw [halfPayload,if_neg (by omega),← first]
    simp [Mem.overlay]

/-- A failed or empty READ ends write_parm; otherwise it goes on with one WRITE. -/
theorem writeParm_half {pp : JbdParams} {index : Nat} (half : Half pp index) (host : Host τ) (value : Bytes) (w : World τ) :
    ((readBack host pp w).value.1 < 1 → (writeParm host pp value w).value = -1 ∧
      (writeParm host pp value w).events = (readBack host pp w).events) ∧
    (¬ (readBack host pp w).value.1 < 1 → ∃ rest n, (writeParm host pp value w).events = (readBack host pp w).events ++ rest ∧
      writeFrames rest = List.replicate (n + 1) (frame jbdCmdWrite pp.reg
        (halfPayload index (readBack host pp w).value.2 (UInt8.ofInt (atoi value))))) := by
  have run (data : Mem UInt8) : writeParmFrom host data pp value = writeByte host pp data value index := by
    rcases half with ⟨kind,rfl⟩ | ⟨kind,rfl⟩ <;> simp only [writeParmFrom,kind]
  have small : index < 2 := by
    rcases half with ⟨-,rfl⟩ | ⟨-,rfl⟩ <;> omega
  have same := jbdRw_read_congr host pp.reg (Mem.slice (host.parmData w.parmCalls) 0 128) (List.replicate 128 0) (by simp)
  have whole : (readBack host pp w).value.2.length = 128 := by
    unfold readBack
    simp only [jbdRw_run,List.length_replicate]
    exact settle_length 128 _
  have step : writeParm host pp value w = ((if (readBack host pp w).value.1 < 1 then return -1
      else sendParm host pp.reg (Mem.overlay (Mem.overlay (host.parmData w.parmCalls) 0 (readBack host pp w).value.2) index
        [UInt8.ofInt (atoi value)]) 2 : Program τ Int) (readBack host pp w).state).after (readBack host pp w).events := by
    simp only [writeParm,Traced.get_bind,Traced.modify_bind,run]
    unfold writeByte
    rw [same]
    rfl
  rw [step]
  constructor
  · intro failed
    rw [if_pos failed]
    exact ⟨rfl,List.append_nil _⟩
  · intro read
    rw [if_neg read,Outcome.after_events,sendParm_events,slice_half _ _ _ _ whole small]
    obtain ⟨n,sent⟩ := writeFrames_write host pp.reg
      (halfPayload index (readBack host pp w).value.2 (UInt8.ofInt (atoi value))) (readBack host pp w).state
      (by unfold halfPayload; split_ifs <;> simp)
    exact ⟨_,n,rfl,sent⟩

private theorem exchange_reply (host : Host τ) (packet : Bytes) (len : Int) (reg : UInt8) (retries : Nat) (line : τ)
    (payload : Bytes) :
    (exchange host packet len reg retries line).value = some payload ↔ ∃ status fits,
      Event.received (.bytes (frame reg status payload) fits) ∈ (exchange host packet len reg retries line).events := by
  induction retries generalizing line with
  | zero => simp [exchange]
  | succ retries ih =>
    unfold exchange
    simp only [Outcome.after_value,Outcome.after_events]
    cases got : (host.read (host.write line packet len).2).1 with
    | error => simp
    | bytes content fits =>
      simp only
      -- The reply just read is the frame of the payload, or it is no frame at all.
      have here (p : Bytes) : payloadOf reg content = some p ↔ ∃ status, content = frame reg status p :=
        payloadOf_iff reg content p fits
      cases found : payloadOf reg content with
      | some other =>
        simp only [List.append_nil,Option.some.injEq,List.mem_cons,reduceCtorEq,Event.received.injEq,
          ReadResult.bytes.injEq,List.not_mem_nil,false_or,or_false]
        constructor
        · rintro rfl
          obtain ⟨status,rfl⟩ := (here other).mp found
          exact ⟨status,fits,rfl⟩
        · rintro ⟨status,-,same⟩
          have again := (here payload).mpr ⟨status,same.symm⟩
          rw [found] at again
          exact Option.some.inj again
      | none =>
        rw [ih]
        constructor
        · rintro ⟨status,size,member⟩
          exact ⟨status,size,List.mem_append_right _ member⟩
        · rintro ⟨status,size,member⟩
          rcases List.mem_append.mp member with first | later
          · simp only [List.mem_cons,reduceCtorEq,Event.received.injEq,ReadResult.bytes.injEq,List.not_mem_nil,
              false_or,or_false] at first
            rw [(here payload).mpr ⟨status,first.symm⟩] at found
            cases found
          · exact ⟨status,size,later⟩

private theorem received_rwEvents (action reg : UInt8) (datasz : Nat) (o : Outcome τ Event (Option Bytes))
    (r : ReadResult 256) :
    Event.received r ∈ rwEvents action reg datasz o ↔ Event.received r ∈ o.events := by
  have cleared (events : List Event) : Event.received r ∈ withClearing datasz events ↔ Event.received r ∈ events := by
    unfold withClearing
    rw [List.mem_flatMap]
    constructor
    · rintro ⟨e,member,inside⟩
      cases e <;> simp_all
    · exact fun member => ⟨_,member,List.mem_singleton_self _⟩
  have copied : Event.received r ∉ copyTouch datasz o.value := by
    cases o.value <;> simp [copyTouch]
  simp [rwEvents,cleared,copied]

private theorem readBack_reply (host : Host τ) (pp : JbdParams) (w : World τ) : ∃ reply,
    (readBack host pp w).value = settle 128 reply ∧ ∀ payload, reply = some payload ↔ ∃ status fits,
      Event.received (.bytes (frame pp.reg status payload) fits) ∈ (readBack host pp w).events := by
  unfold readBack
  simp only [jbdRw_run,List.length_replicate]
  refine ⟨_,rfl,fun payload => ?_⟩
  simp only [received_rwEvents]
  exact exchange_reply host _ _ pp.reg 5 w.line payload

/-- The WRITE comes behind the READ, and its other byte is one that the READ received. -/
structure KeepsOther (host : Host τ) (pp : JbdParams) (index : Nat) (value : Bytes) (w : World τ) : Prop where
  behind : ∃ rest, (writeParm host pp value w).events = (readBack host pp w).events ++ rest
  silent : writeFrames (readBack host pp w).events = []
  kept : ∀ packet ∈ writeFrames (writeParm host pp value w).events, ∃ status payload fits,
    Event.received (.bytes (frame pp.reg status payload) fits) ∈ (readBack host pp w).events ∧
      1 - index < payload.length ∧ packet.getD (4 + (1 - index)) 0 = payload.getD (1 - index) 0

private theorem settle_byte (datasz : Nat) (payload : Bytes) (i : Nat) (bound : i < datasz) :
    (settle datasz (some payload)).2.getD i 0 = payload.getD i 0 := by
  simp only [settle,copyInto,List.length_replicate,List.drop_replicate,List.getD_eq_getElem?_getD,List.getElem?_take,
    bound,if_true]
  rcases Nat.lt_or_ge i payload.length with inside | past
  · rw [List.getElem?_append_left inside]
  · rw [List.getElem?_append_right past,List.getElem?_eq_none past,List.getElem?_replicate]
    split_ifs <;> rfl

private theorem keepsOther_short {pp : JbdParams} (half : Half pp 0) (host : Host τ) (value : Bytes) (w : World τ)
    (short : (readBack host pp w).value.1 = 1) : ¬ KeepsOther host pp 0 value w := by
  intro keeps
  obtain ⟨rest,n,events,sent⟩ := (writeParm_half half host value w).2 (by omega)
  obtain ⟨status,payload,fits,member,long,-⟩ := keeps.kept _ (by
    rw [events,writeFrames_append,sent]
    exact List.mem_append_right _ (List.mem_replicate.mpr ⟨by omega,rfl⟩))
  obtain ⟨reply,result,received⟩ := readBack_reply host pp w
  obtain rfl := (received payload).mpr ⟨status,fits,member⟩
  rw [result,settle_some_value] at short
  omega

/-- The other byte is kept unless it is the second one and the reply was one byte long. -/
theorem writeParm_keepsOther_iff {pp : JbdParams} {index : Nat} (half : Half pp index) (host : Host τ) (value : Bytes)
    (w : World τ) : KeepsOther host pp index value w ↔ pp.dt = .b1 ∨ (readBack host pp w).value.1 ≠ 1 := by
  constructor
  · intro keeps
    by_contra lost
    obtain ⟨kind,one⟩ : pp.dt ≠ .b1 ∧ (readBack host pp w).value.1 = 1 := by simpa using lost
    obtain ⟨-,rfl⟩ := half.resolve_right fun other => kind other.1
    exact keepsOther_short half host value w one keeps
  intro fine
  obtain ⟨stopped,went⟩ := writeParm_half half host value w
  obtain ⟨reply,result,received⟩ := readBack_reply host pp w
  have silent : writeFrames (readBack host pp w).events = [] := writeFrames_read host pp.reg _ _
  by_cases failed : (readBack host pp w).value.1 < 1
  · obtain ⟨-,events⟩ := stopped failed
    refine ⟨⟨[],by rw [events,List.append_nil]⟩,silent,?_⟩
    rw [events,silent]
    simp
  obtain ⟨rest,n,events,sent⟩ := went failed
  cases reply with
  | none =>
    rw [result] at failed
    exact absurd (by decide : (-1 : Int) < 1) failed
  | some payload =>
    obtain ⟨status,fits,member⟩ := (received payload).mp rfl
    rw [result,settle_some_value] at failed fine
    refine ⟨⟨rest,events⟩,silent,fun packet inside => ⟨status,payload,fits,member,?_⟩⟩
    rw [events,writeFrames_append,silent,sent,result,List.nil_append] at inside
    rw [List.eq_of_mem_replicate inside]
    rcases half with ⟨kind,rfl⟩ | ⟨kind,rfl⟩
    · have long : payload.length ≠ 1 := by
        rcases fine with other | other
        · rw [kind] at other
          cases other
        · omega
      refine ⟨by omega,?_⟩
      rw [← settle_byte 128 payload 1 (by omega)]
      generalize (settle 128 (some payload)).2 = read
      rfl
    · refine ⟨by omega,?_⟩
      rw [← settle_byte 128 payload 0 (by omega)]
      generalize (settle 128 (some payload)).2 = read
      rfl

def repeating (content : Bytes) (fits : content.length ≤ 256) : Host Nat :=
  scripted (fun _ => .bytes content fits) (fun _ _ => 0) (fun _ _ => 0)

def cellUVDelay : JbdParams := ⟨0x3D,bytes "CellUVDelay",.b0⟩

theorem writeParm_keepsOther_two :
    KeepsOther (repeating (frame 0x3D 0 [7,9]) (by decide)) cellUVDelay 0 (bytes "5") (World.start 0) := by
  have half : Half cellUVDelay 0 := .inl ⟨rfl,rfl⟩
  exact (writeParm_keepsOther_iff half _ (bytes "5") (World.start 0)).mpr (.inr (by decide +kernel))

/-- One byte read: the second one sent back is the zero that the buffer was cleared to. -/
theorem writeParm_keepsOther_one :
    ¬ KeepsOther (repeating (frame 0x3D 0 [7]) (by decide)) cellUVDelay 0 (bytes "5") (World.start 0) :=
  keepsOther_short (.inl ⟨rfl,rfl⟩) _ _ _ (by decide +kernel)

end Jbdtool
