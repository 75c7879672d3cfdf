import Jbdtool.Host
import Mathlib.Tactic.IntervalCases

/-! One request and its reply. `jbdRw` is the code, with its retry counter and
the buffer that keeps bytes of earlier attempts; `exchange` says what it is for. -/
namespace Jbdtool
open Numbers CString
variable {τ : Type}

def emitTouch (region : Region) (first count : Nat) : Program τ Unit :=
  Traced.emit (.touch region first count)

def tpWrite (host : Host τ) (packet : Bytes) (len : Int) : Program τ Int := do
  let w ← Traced.get
  let (r,line) := host.write w.line packet len
  Traced.modify (fun w => {w with line := line})
  Traced.emit (.wrote packet len)
  return r

def tpRead (host : Host τ) : Program τ (ReadResult 256) := do
  let w ← Traced.get
  let (r,line) := host.read w.line
  Traced.modify (fun w => {w with line := line})
  Traced.emit (.received r)
  return r

@[simp] theorem emitTouch_bind {α : Type} (region : Region) (first count : Nat)
    (k : Unit → Program τ α) (w : World τ) :
    (emitTouch region first count >>= k) w = (k () w).after [.touch region first count] := rfl

@[simp] theorem tpWrite_bind {α : Type} (host : Host τ) (packet : Bytes) (len : Int)
    (k : Int → Program τ α) (w : World τ) :
    (tpWrite host packet len >>= k) w = (k (host.write w.line packet len).1
      {w with line := (host.write w.line packet len).2}).after [.wrote packet len] := rfl

@[simp] theorem tpRead_bind {α : Type} (host : Host τ) (k : ReadResult 256 → Program τ α) (w : World τ) :
    (tpRead host >>= k) w = (k (host.read w.line).1
      {w with line := (host.read w.line).2}).after [.received (host.read w.line).1] := rfl

/-- `memcpy(data,src,…)` into a caller's buffer; bytes past its end are not kept. -/
def copyInto (src data : Bytes) : Bytes := (src ++ data.drop src.length).take data.length

/-- The `while(1)` of jbd_rw with `retries` attempts left. -/
def jbdRwLoop (host : Host τ) (reg : UInt8) (cmd : Bytes) (cmdlen : Int) :
    Nat → Mem UInt8 → Bytes → Program τ (Int × Bytes)
  | 0, _, data => return (-1,data)
  | retries + 1, buf, data => do
    let _ ← tpWrite host cmd cmdlen
    emitTouch (.data data.length) 0 data.length
    let data := List.replicate data.length 0
    match ← tpRead host with
    | .error => return (-1,data)
    | .bytes content _ =>
      let buf := Mem.overlay buf 0 content
      if (jbdVerify content.length reg buf).value = 0 then
        let n := (buf 3).toNat
        emitTouch (.data data.length) 0 n
        return (n,copyInto (Mem.slice buf 4 n) data)
      else jbdRwLoop host reg cmd cmdlen retries buf data

/-- The payload bytes after `_putshort(payload,v)`. -/
def shortPayload (v : Int) : Bytes := [(putshort v).1,(putshort v).2]

/-- The bytes of `cmd` handed to the transport and their number; the memset in
jbd_cmd makes the bytes that were in `cmd` before irrelevant. -/
def request (action reg : UInt8) (data : Bytes) : Bytes × Int :=
  let built := jbdCmd 256 action.toNat reg data (fun _ => 0)
  (Mem.slice built.state 0 built.value.toNat,built.value)

/-- The result and the caller's buffer afterwards; `data` is that buffer before. -/
def jbdRw (host : Host τ) (action reg : UInt8) (data : Bytes) : Program τ (Int × Bytes) := do
  let w ← Traced.get
  Traced.modify (fun w => {w with rwCalls := w.rwCalls + 1})
  Traced.emit (.rwCall action reg)
  let r ← jbdRwLoop host reg (request action reg data).1 (request action reg data).2 5
    (host.rwBuf w.rwCalls) data
  Traced.emit (.rwReturn action reg r.1)
  return r

theorem request_frame (action reg : UInt8) (data : Bytes)
    (fits : (requestData action.toNat data).length ≤ 252) :
    request action reg data = (frame action reg (requestData action.toNat data),
      (((requestData action.toNat data).length + 7 : Nat) : Int)) := by
  obtain ⟨count,content⟩ := jbdCmd_run 256 action.toNat reg data (fun _ => 0) (by omega) (by omega)
  have byte : UInt8.ofInt (action.toNat : Int) = action := by
    apply UInt8.toNat_inj.mp
    have := action.toNat_lt
    simp [UInt8.ofInt]
    omega
  have whole : ((requestData action.toNat data).length + 7 : Int).toNat =
      (requestData action.toNat data).length + 7 := by omega
  rw [byte] at content
  simp only [request,count,whole,content]
  push_cast
  rfl

/-- Data that leaves no room in the packet is refused, and nothing is built. -/
theorem request_refused (action reg : UInt8) (data : Bytes)
    (long : 252 < (requestData action.toNat data).length) : request action reg data = ([],-1) := by
  simp only [request,jbdCmd_refused 256 action.toNat reg data _ (by omega)]
  rfl

theorem request_read (reg : UInt8) (data : Bytes) : request jbdCmdRead reg data = (frame jbdCmdRead reg [],7) :=
  request_frame jbdCmdRead reg data (by simp [requestData])

/-- The payload of an acceptable reply. -/
def payloadOf (reg : UInt8) (content : Bytes) : Option Bytes :=
  if (jbdVerify content.length reg (Mem.overlay (fun _ => 0) 0 content)).value = 0 then
    some ((content.drop 4).take (content.length - 7))
  else none

private theorem overlay_whole (buf : Mem UInt8) (content : Bytes) :
    Mem.slice (Mem.overlay buf 0 content) 0 content.length = content :=
  Mem.slice_overlay buf 0 content

private theorem payload_frame (reg status : UInt8) (payload : Bytes) :
    ((frame reg status payload).drop 4).take payload.length = payload := by
  simp [frame]

theorem payloadOf_iff (reg : UInt8) (content payload : Bytes) (fits : content.length ≤ 256) :
    payloadOf reg content = some payload ↔ ∃ status, content = frame reg status payload := by
  unfold payloadOf
  have language := jbdVerify_iff (Mem.overlay (fun _ => 0) 0 content) content.length reg fits
  rw [overlay_whole] at language
  constructor
  · intro found
    split_ifs at found with accepted
    obtain ⟨status,data,size,rfl⟩ := language.mp accepted
    have count : (frame reg status data).length - 7 = data.length := by rw [frame_length]; omega
    rw [count,payload_frame] at found
    exact ⟨status,by rw [Option.some.inj found]⟩
  · rintro ⟨status,rfl⟩
    rw [if_pos (language.mpr ⟨status,payload,(frame_length reg status payload).symm,rfl⟩)]
    have count : (frame reg status payload).length - 7 = payload.length := by rw [frame_length]; omega
    rw [count,payload_frame]

private theorem payloadOf_length (reg : UInt8) (content payload : Bytes) (fits : content.length ≤ 256)
    (found : payloadOf reg content = some payload) : payload.length ≤ 249 := by
  obtain ⟨status,rfl⟩ := (payloadOf_iff reg content payload fits).mp found
  rw [frame_length] at fits
  omega

/-- Bytes left in the buffer from before play no part in the acceptance. -/
private theorem jbdVerify_stale (reg : UInt8) (buf : Mem UInt8) (content : Bytes) (fits : content.length ≤ 256) :
    (jbdVerify content.length reg (Mem.overlay buf 0 content)).value = 0 ↔
      ∃ payload, payloadOf reg content = some payload := by
  rw [jbdVerify_iff _ _ _ fits,overlay_whole]
  simp only [payloadOf_iff _ _ _ fits]
  constructor
  · rintro ⟨status,payload,-,same⟩
    exact ⟨payload,status,same⟩
  · rintro ⟨payload,status,same⟩
    exact ⟨status,payload,by rw [same,frame_length],same⟩

private theorem accepted_payload (reg : UInt8) (buf : Mem UInt8) (content payload : Bytes)
    (fits : content.length ≤ 256) (found : payloadOf reg content = some payload) :
    (Mem.overlay buf 0 content 3).toNat = payload.length ∧
      Mem.slice (Mem.overlay buf 0 content) 4 payload.length = payload := by
  have short := payloadOf_length reg content payload fits found
  obtain ⟨status,rfl⟩ := (payloadOf_iff reg content payload fits).mp found
  constructor
  · have third := Mem.overlay_inside buf 0 (frame reg status payload) 3 (by rw [frame_length]; omega)
    rw [Nat.zero_add] at third
    rw [third]
    simp [frame,UInt8.toNat_ofNat']
    omega
  · have whole := Mem.slice_overlay_append buf 0 [jbdPktStart,reg,status,UInt8.ofNat payload.length]
      (payload ++ [UInt8.ofNat (checksum (status.toNat + payload.length + byteSum payload) / 256),
        UInt8.ofNat (checksum (status.toNat + payload.length + byteSum payload)),jbdPktEnd])
    rw [List.length_append,Mem.slice_append] at whole
    exact (List.append_inj whole (by simp)).1

/-- At most `retries` rounds of a write and a read, up to the first accepted
reply or the first read error. -/
def exchange (host : Host τ) (packet : Bytes) (len : Int) (reg : UInt8) :
    Nat → Traced τ Event (Option Bytes)
  | 0 => return none
  | retries + 1 => fun line =>
    let sent := (host.write line packet len).2
    let got := host.read sent
    let rest : Outcome τ Event (Option Bytes) := match got.1 with
      | .error => ⟨none,got.2,[]⟩
      | .bytes content _ => match payloadOf reg content with
        | some payload => ⟨some payload,got.2,[]⟩
        | none => exchange host packet len reg retries got.2
    rest.after [.wrote packet len,.received got.1]

/-- Result and buffer that a reply leaves to the caller. -/
def settle (datasz : Nat) : Option Bytes → Int × Bytes
  | none => (-1,List.replicate datasz 0)
  | some payload => (payload.length,copyInto payload (List.replicate datasz 0))

@[simp] theorem settle_none_value (datasz : Nat) : (settle datasz none).1 = -1 := rfl

@[simp] theorem settle_some_value (datasz : Nat) (payload : Bytes) :
    (settle datasz (some payload)).1 = payload.length := rfl

/-- The caller's buffer is cleared after every write. -/
def withClearing (datasz : Nat) (events : List Event) : List Event :=
  events.flatMap fun
    | .wrote packet len => [.wrote packet len,.touch (.data datasz) 0 datasz]
    | e => [e]

def copyTouch (datasz : Nat) : Option Bytes → List Event
  | none => []
  | some payload => [.touch (.data datasz) 0 payload.length]

private theorem jbdRwLoop_run (host : Host τ) (reg : UInt8) (packet : Bytes) (len : Int) (retries : Nat)
    (buf : Mem UInt8) (data : Bytes) (w : World τ)
    (cleared : retries = 0 → data = List.replicate data.length 0) :
    let o := exchange host packet len reg retries w.line
    jbdRwLoop host reg packet len retries buf data w = ⟨settle data.length o.value,
      {w with line := o.state},withClearing data.length o.events ++ copyTouch data.length o.value⟩ := by
  induction retries generalizing buf data w with
  | zero =>
    simp only [jbdRwLoop,exchange,Traced.pure_run,settle,copyTouch,withClearing,List.flatMap_nil]
    rw [← cleared rfl]
    rfl
  | succ retries ih =>
    simp only [jbdRwLoop,exchange,tpWrite_bind,emitTouch_bind,tpRead_bind]
    generalize host.read (host.write w.line packet len).2 = outcome
    obtain ⟨result,line⟩ := outcome
    cases result with
    | error => rfl
    | bytes content fits =>
      simp only
      cases found : payloadOf reg content with
      | some payload =>
        have accepted := (jbdVerify_stale reg buf content fits).mpr ⟨payload,found⟩
        obtain ⟨count,copied⟩ := accepted_payload reg buf content payload fits found
        simp only [accepted,if_true,count,copied,emitTouch_bind,Traced.pure_run,List.length_replicate]
        rfl
      | none =>
        have rejected : (jbdVerify content.length reg (Mem.overlay buf 0 content)).value ≠ 0 := by
          intro accepted
          obtain ⟨payload,some⟩ := (jbdVerify_stale reg buf content fits).mp accepted
          simp [found] at some
        simp only [rejected,if_false]
        rw [ih _ _ _ (by simp)]
        simp only [List.length_replicate,Outcome.after_value,Outcome.after_state,Outcome.after_events]
        rfl

def rwEvents (action reg : UInt8) (datasz : Nat) (o : Outcome τ Event (Option Bytes)) : List Event :=
  .rwCall action reg::(withClearing datasz o.events ++ copyTouch datasz o.value ++
    [.rwReturn action reg (settle datasz o.value).1])

theorem jbdRw_run (host : Host τ) (action reg : UInt8) (data : Bytes) (w : World τ) :
    let sent := request action reg data
    let o := exchange host sent.1 sent.2 reg 5 w.line
    jbdRw host action reg data w = ⟨settle data.length o.value,
      {w with line := o.state,rwCalls := w.rwCalls + 1},rwEvents action reg data.length o⟩ := by
  simp only [jbdRw,Traced.get_bind,Traced.modify_bind,Traced.emit_bind]
  rw [Traced.bind_of_run (jbdRwLoop_run host reg _ _ 5 _ data _ (by omega))]
  simp [Outcome.after,rwEvents]

@[simp] theorem jbdRw_bind {α : Type} (host : Host τ) (action reg : UInt8) (data : Bytes)
    (k : Int × Bytes → Program τ α) (w : World τ) :
    let o := exchange host (request action reg data).1 (request action reg data).2 reg 5 w.line
    (jbdRw host action reg data >>= k) w = (k (settle data.length o.value)
      {w with line := o.state,rwCalls := w.rwCalls + 1}).after (rwEvents action reg data.length o) :=
  Traced.bind_of_run (jbdRw_run host action reg data w) k

theorem settle_length (datasz : Nat) (reply : Option Bytes) : (settle datasz reply).2.length = datasz := by
  cases reply with
  | none => simp [settle]
  | some payload =>
    simp [settle,copyInto]
    omega

theorem settle_fits (datasz : Nat) (payload : Bytes) (fits : payload.length ≤ datasz) :
    settle datasz (some payload) =
      ((payload.length : Int),payload ++ List.replicate (datasz - payload.length) 0) := by
  have whole : (payload ++ List.replicate (datasz - payload.length) 0).length ≤ datasz := by
    simp
    omega
  simp [settle,copyInto,List.take_of_length_le whole]

private theorem settle_nonneg (datasz : Nat) (reply : Option Bytes) (n : Nat) :
    (settle datasz reply).1 = n ↔ ∃ payload, reply = some payload ∧ payload.length = n := by
  cases reply with
  | none => simp [settle]
  | some payload => simp [settle]

theorem rwEvents_inBounds (action reg : UInt8) (datasz : Nat) (o : Outcome τ Event (Option Bytes)) :
    (∀ e ∈ rwEvents action reg datasz o, e.InBounds) ↔
      (∀ e ∈ o.events, e.InBounds) ∧ ∀ payload, o.value = some payload → payload.length ≤ datasz := by
  have cleared (events : List Event) :
      (∀ e ∈ withClearing datasz events, e.InBounds) ↔ ∀ e ∈ events, e.InBounds := by
    induction events with
    | nil => simp [withClearing]
    | cons e events ih =>
      simp only [withClearing,List.flatMap_cons,List.forall_mem_append,List.forall_mem_cons] at ih ⊢
      rw [ih]
      cases e <;> simp [Region.size]
  have copied : (∀ e ∈ copyTouch datasz o.value, e.InBounds) ↔
      ∀ payload, o.value = some payload → payload.length ≤ datasz := by
    cases o.value <;> simp [copyTouch,Region.size]
  simp only [rwEvents,List.forall_mem_cons,List.forall_mem_append,cleared,copied]
  simp

def Event.onWire : Event → Bool
  | .wrote _ _ => true
  | .received _ => true
  | _ => false

theorem exchange_onWire (host : Host τ) (packet : Bytes) (len : Int) (reg : UInt8) (retries : Nat)
    (line : τ) : ∀ e ∈ (exchange host packet len reg retries line).events, e.onWire = true := by
  induction retries generalizing line with
  | zero => simp [exchange]
  | succ retries ih =>
    simp only [exchange,Outcome.after_events,List.forall_mem_append]
    refine ⟨by simp [Event.onWire],?_⟩
    split
    · simp
    · split
      · simp
      · exact ih _

theorem exchange_packet (host : Host τ) (packet : Bytes) (len : Int) (reg : UInt8) (retries : Nat) (line : τ) :
    ∀ e ∈ (exchange host packet len reg retries line).events, e = .wrote packet len ∨ ∃ r, e = .received r := by
  induction retries generalizing line with
  | zero => simp [exchange]
  | succ retries ih =>
    simp only [exchange,Outcome.after_events,List.forall_mem_append]
    refine ⟨by simp,?_⟩
    split
    · simp
    · split
      · simp
      · exact ih _

theorem exchange_inBounds (host : Host τ) (packet : Bytes) (len : Int) (reg : UInt8) (retries : Nat)
    (line : τ) : ∀ e ∈ (exchange host packet len reg retries line).events, e.InBounds := by
  intro e member
  have wire := exchange_onWire host packet len reg retries line e member
  cases e <;> simp [Event.onWire] at wire ⊢

/-- Every event of jbd_rw is its call, its return, one on the wire or one in the buffer. -/
theorem rwEvents_elim (action reg : UInt8) (datasz : Nat) (o : Outcome τ Event (Option Bytes)) (p : Event → Prop)
    (call : p (.rwCall action reg)) (result : p (.rwReturn action reg (settle datasz o.value).1))
    (wire : ∀ e ∈ o.events, p e) (touch : ∀ region first count, p (.touch region first count)) :
    ∀ e ∈ rwEvents action reg datasz o, p e := by
  intro e member
  rcases List.mem_cons.mp member with rfl | member
  · exact call
  rcases List.mem_append.mp member with member | member
  · rcases List.mem_append.mp member with member | member
    · obtain ⟨source,inside,made⟩ := List.mem_flatMap.mp member
      have fine := wire source inside
      cases source
      case wrote packet len =>
        simp only [List.mem_cons,List.not_mem_nil,or_false] at made
        rcases made with rfl | rfl
        · exact fine
        · exact touch _ _ _
      all_goals
        rw [List.mem_singleton.mp made]
        exact fine
    · unfold copyTouch at member
      split at member
      · cases member
      · obtain rfl := List.mem_singleton.mp member
        exact touch _ _ _
  · obtain rfl := List.mem_singleton.mp member
    exact result

/-- What the read result gives the exchange for `reg`. -/
def accepted (reg : UInt8) : ReadResult 256 → Option Bytes
  | .error => none
  | .bytes content _ => payloadOf reg content

theorem exchange_length (host : Host τ) (packet : Bytes) (len : Int) (reg : UInt8) (retries : Nat)
    (line : τ) (payload : Bytes) (found : (exchange host packet len reg retries line).value = some payload) :
    payload.length ≤ 249 := by
  induction retries generalizing line with
  | zero => cases found
  | succ retries ih =>
    simp only [exchange,Outcome.after_value] at found
    split at found
    · cases found
    · rename_i content fits _
      split at found
      · rename_i kept reply
        cases found
        exact payloadOf_length reg content payload fits reply
      · exact ih _ found

/-- A transport that answers the n-th read with `script n`, whatever is written. -/
def scripted (script : Nat → ReadResult 256) (rwBuf parmData : Nat → Mem UInt8) : Host Nat where
  can := false
  opens n := (0,n)
  closes n := (0,n)
  write n _ len := (len,n)
  read n := (script n,n + 1)
  canWrite n _ := (0,n)
  canRead n _ := (.error,n)
  single := roundSingle
  double := roundDouble
  infoText := []
  lineBuf := fun _ => 0
  rwBuf := rwBuf
  parmData := parmData

/-- Read `start + i` is accepted with `payload`; those from `start` up to it are
neither accepted nor errors. -/
def FirstAccepted (script : Nat → ReadResult 256) (reg : UInt8) (start i : Nat) (payload : Bytes) : Prop :=
  accepted reg (script (start + i)) = some payload ∧
    ∀ j < i, accepted reg (script (start + j)) = none ∧ script (start + j) ≠ .error

section
variable (script : Nat → ReadResult 256) (rwBuf parmData : Nat → Mem UInt8) (packet : Bytes) (len : Int)
  (reg : UInt8)

private theorem firstAccepted_zero (start : Nat) (payload : Bytes) :
    FirstAccepted script reg start 0 payload ↔ accepted reg (script start) = some payload := by
  simp [FirstAccepted]

private theorem firstAccepted_succ (start i : Nat) (payload : Bytes) :
    FirstAccepted script reg start (i + 1) payload ↔
      (accepted reg (script start) = none ∧ script start ≠ .error) ∧
        FirstAccepted script reg (start + 1) i payload := by
  have shift (j : Nat) : start + 1 + j = start + (j + 1) := by omega
  simp only [FirstAccepted,shift,Nat.forall_lt_succ_left]
  simp only [Nat.add_zero]
  tauto

theorem exchange_first (retries start : Nat) (payload : Bytes) :
    (exchange (scripted script rwBuf parmData) packet len reg retries start).value = some payload ↔
      ∃ i < retries, FirstAccepted script reg start i payload := by
  induction retries generalizing start with
  | zero => simp [exchange]
  | succ retries ih =>
    simp only [Nat.exists_lt_succ_left,firstAccepted_zero,firstAccepted_succ]
    simp only [exchange,scripted,Outcome.after_value]
    cases result : script start with
    | error => simp [accepted]
    | bytes content fits =>
      cases found : payloadOf reg content with
      | some kept => simp [accepted,found]
      | none =>
        have next := ih (start + 1)
        simp only [scripted] at next
        simp [accepted,found,next]

/-- The reply that `retries` reads from read `start` on give for `reg`, and the first
read not made. -/
def takeReply : Nat → Nat → Option Bytes × Nat
  | 0, start => (none,start)
  | retries + 1, start => match script start with
    | .error => (none,start + 1)
    | .bytes content _ => match payloadOf reg content with
      | some payload => (some payload,start + 1)
      | none => takeReply retries (start + 1)

theorem exchange_takeReply (retries start : Nat) :
    (exchange (scripted script rwBuf parmData) packet len reg retries start).value =
        (takeReply script reg retries start).1 ∧
      (exchange (scripted script rwBuf parmData) packet len reg retries start).state =
        (takeReply script reg retries start).2 := by
  induction retries generalizing start with
  | zero => exact ⟨rfl,rfl⟩
  | succ retries ih =>
    simp only [exchange,takeReply,scripted,Outcome.after_value,Outcome.after_state] at ih ⊢
    cases script start with
    | error => exact ⟨rfl,rfl⟩
    | bytes content fits =>
      cases found : payloadOf reg content with
      | some kept => simp [found]
      | none => simpa [found] using ih (start + 1)

private theorem exchange_rounds (retries start : Nat) :
    ∃ k ≤ retries, (exchange (scripted script rwBuf parmData) packet len reg retries start).events =
      (List.range k).flatMap (fun i => [.wrote packet len,.received (script (start + i))]) := by
  induction retries generalizing start with
  | zero => exact ⟨0,by omega,rfl⟩
  | succ retries ih =>
    have once : ∃ k ≤ retries + 1, [Event.wrote packet len,.received (script start)] =
        (List.range k).flatMap (fun i => [.wrote packet len,.received (script (start + i))]) :=
      ⟨1,by omega,by simp⟩
    simp only [exchange,scripted,Outcome.after_events]
    cases result : script start with
    | error => simpa [result] using once
    | bytes content fits =>
      cases found : payloadOf reg content with
      | some kept => simpa [result,found] using once
      | none =>
        obtain ⟨k,bound,rounds⟩ := ih (start + 1)
        have shift (i : Nat) : start + 1 + i = start + (i + 1) := by omega
        simp only [scripted,shift] at rounds
        refine ⟨k + 1,by omega,?_⟩
        simp only [found,rounds,List.range_succ_eq_map,List.flatMap_cons,List.flatMap_map]
        simp [result]

end

private theorem wire_rwEvents (action reg : UInt8) (datasz : Nat) (o : Outcome τ Event (Option Bytes)) :
    (rwEvents action reg datasz o).filter Event.onWire = o.events.filter Event.onWire := by
  have cleared (events : List Event) :
      (withClearing datasz events).filter Event.onWire = events.filter Event.onWire := by
    induction events with
    | nil => rfl
    | cons e events ih =>
      simp only [withClearing,List.flatMap_cons,List.filter_append] at ih ⊢
      rw [ih]
      cases e <;> rfl
  have copied : (copyTouch datasz o.value).filter Event.onWire = [] := by
    cases o.value <;> rfl
  simp [rwEvents,cleared,copied,Event.onWire]

private theorem wire_rounds (rounds : Nat) (packet : Bytes) (len : Int) (results : Nat → ReadResult 256) :
    ((List.range rounds).flatMap (fun i => [.wrote packet len,.received (results i)])).filter Event.onWire =
      (List.range rounds).flatMap (fun i => [.wrote packet len,.received (results i)]) := by
  rw [List.filter_flatMap]
  rfl

/-- The retry protocol: one frame, sent at most five times, each time followed by
one read; the first accepted reply decides unless a read error comes before it. -/
theorem jbdRw_protocol (script : Nat → ReadResult 256) (rwBuf parmData : Nat → Mem UInt8)
    (action reg : UInt8) (data : Bytes) (w : World Nat)
    (fits : (requestData action.toNat data).length ≤ 249) :
    let o := jbdRw (scripted script rwBuf parmData) action reg data w
    let payload := requestData action.toNat data
    (∃ k ≤ 5, o.events.filter Event.onWire = (List.range k).flatMap (fun i =>
      [.wrote (frame action reg payload) (payload.length + 7 : Nat),.received (script (w.line + i))])) ∧
    (∀ n : Nat, o.value.1 = n ↔
      ∃ i < 5, ∃ reply, FirstAccepted script reg w.line i reply ∧ reply.length = n) ∧
    (∀ i < 5, ∀ reply, FirstAccepted script reg w.line i reply → reply.length ≤ data.length →
      o.value.2 = reply ++ List.replicate (data.length - reply.length) 0) ∧
    ((¬ ∃ i < 5, ∃ reply, FirstAccepted script reg w.line i reply) →
      o.value = (-1,List.replicate data.length 0)) := by
  intro o payload
  have sent := request_frame action reg data (by omega)
  have run := jbdRw_run (scripted script rwBuf parmData) action reg data w
  rw [sent] at run
  simp only at run
  have first := exchange_first script rwBuf parmData (frame action reg payload) (payload.length + 7 : Nat)
    reg 5 w.line
  obtain ⟨k,bound,rounds⟩ := exchange_rounds script rwBuf parmData (frame action reg payload)
    (payload.length + 7 : Nat) reg 5 w.line
  refine ⟨⟨k,bound,?_⟩,fun n => ?_,fun i five reply found short => ?_,fun never => ?_⟩
  · simp only [o,run,wire_rwEvents]
    rw [rounds]
    exact wire_rounds k _ _ (fun i => script (w.line + i))
  · simp only [o,run]
    rw [settle_nonneg]
    constructor
    · rintro ⟨reply,known,count⟩
      obtain ⟨i,five,found⟩ := (first reply).mp known
      exact ⟨i,five,reply,found,count⟩
    · rintro ⟨i,five,reply,found,count⟩
      exact ⟨reply,(first reply).mpr ⟨i,five,found⟩,count⟩
  · simp only [o,run]
    rw [(first reply).mpr ⟨i,five,found⟩,settle_fits _ _ short]
  · simp only [o,run]
    have silent : (exchange (scripted script rwBuf parmData) (frame action reg payload)
        (payload.length + 7 : Nat) reg 5 w.line).value = none := by
      by_contra some
      obtain ⟨reply,known⟩ := Option.ne_none_iff_exists'.mp some
      obtain ⟨i,five,found⟩ := (first reply).mp known
      exact never ⟨i,five,reply,found⟩
    rw [silent]
    rfl

/-- Two empty reads, then two bytes for register 10. -/
def lateReply (n : Nat) : ReadResult 256 :=
  if n = 2 then .bytes (frame 0x10 0 [7,208]) (by decide) else .bytes [] (by decide)

theorem jbdRw_protocol_late :
    (jbdRw (scripted lateReply (fun _ _ => 0xFF) (fun _ _ => 0)) jbdCmdRead 0x10 [1,2,3] (World.start 0)).value.2 =
      [7,208,0] := by
  have first : FirstAccepted lateReply 0x10 0 2 [7,208] := by
    refine ⟨by decide,fun j before => ?_⟩
    interval_cases j <;> exact ⟨by decide,by decide⟩
  exact (jbdRw_protocol lateReply (fun _ _ => 0xFF) (fun _ _ => 0) jbdCmdRead 0x10 [1,2,3] (World.start 0)
    (by decide)).2.2.1 2 (by decide) [7,208] first (by decide)

end Jbdtool
