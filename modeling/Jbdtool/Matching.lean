import Jbdtool.Exchange
import Mathlib.Logic.Function.Basic

/-! jbd_rw against a BMS behind a FIFO line that loses messages and delivers some of
them late. Replies carry nothing but the register, so whatever is left over from an
earlier call can be taken for the answer to this one. -/
namespace Jbdtool.Matching
open CString Numbers

/-- What fits one frame. -/
abbrev Payload := {content : Bytes // content.length ≤ 249}

structure Message where
  serial : Nat
  packet : Bytes

structure Reply where
  reg : UInt8
  payload : Payload

def Reply.packet (reply : Reply) : Bytes := frame reply.reg 0 reply.payload

private theorem Reply.packet_length (reply : Reply) : reply.packet.length ≤ 256 := by
  have := reply.payload.property
  rw [packet,frame_length]
  omega

inductive Move where
  | serve
  | loseRequest (index : Nat)
  | loseReply (index : Nat)
deriving DecidableEq, Repr

/-- The moves before one call into the transport, and whether a read gives up all
the same. -/
structure Turn where
  moves : List Move
  late : Bool
deriving DecidableEq, Repr

/-- Both directions of the line, the register file of the BMS and those it had
before, the number of frames sent and the serials of those received. -/
structure Net where
  requests : List Message
  replies : List Reply
  registers : UInt8 → Payload
  past : List (UInt8 → Payload)
  sent : Nat
  received : List Nat
  plan : List Turn

def Net.start (registers : UInt8 → Payload) : Net := ⟨[],[],registers,[],0,[],[]⟩

/-- The action, the register and the data of a well-formed packet. -/
def opened (packet : Bytes) : Option (UInt8 × UInt8 × Payload) :=
  match packet with
  | _::action::reg::n::rest =>
    if fits : (rest.take n.toNat).length ≤ 249 then
      if frame action reg (rest.take n.toNat) = packet then some (action,reg,⟨rest.take n.toNat,fits⟩) else none
    else none
  | _ => none

theorem opened_frame (action reg : UInt8) (data : Payload) : opened (frame action reg data) = some (action,reg,data) := by
  obtain ⟨data,fits⟩ := data
  have count : (UInt8.ofNat data.length).toNat = data.length := UInt8.toNat_ofNat_of_lt' (by change data.length < 256; omega)
  simp [opened,frame,count,fits]

private theorem opened_some (packet : Bytes) (action reg : UInt8) (data : Payload)
    (known : opened packet = some (action,reg,data)) : packet = frame action reg data := by
  unfold opened at known
  split at known
  · split_ifs at known with fits same
    obtain ⟨rfl,rfl,rfl⟩ : _ = action ∧ _ = reg ∧ _ = data := by simpa using known
    exact same.symm
  · cases known

private theorem request_opened (action reg : UInt8) (data : Bytes) (a r : UInt8) (d : Payload)
    (known : opened (request action reg data).1 = some (a,r,d)) : a = action ∧ r = reg := by
  have whole := opened_some _ a r d known
  by_cases fits : (requestData action.toNat data).length ≤ 252
  · rw [request_frame action reg data fits] at whole
    simp only [frame,List.cons.injEq] at whole
    exact ⟨whole.2.1.symm,whole.2.2.1.symm⟩
  · rw [request_refused action reg data (by omega)] at whole
    cases whole

private theorem payloadOf_reply (reg : UInt8) (reply : Reply) :
    payloadOf reg reply.packet = if reply.reg = reg then some reply.payload.val else none := by
  split_ifs with same
  · exact (payloadOf_iff reg _ _ reply.packet_length).mpr ⟨0,by rw [← same]; rfl⟩
  · cases found : payloadOf reg reply.packet with
    | none => rfl
    | some payload =>
      obtain ⟨status,whole⟩ := (payloadOf_iff reg _ _ reply.packet_length).mp found
      simp only [Reply.packet,frame,List.cons.injEq] at whole
      exact (same whole.2.1).elim

private theorem payloadOf_nil (reg : UInt8) : payloadOf reg [] = none := by
  cases found : payloadOf reg [] with
  | none => rfl
  | some payload =>
    obtain ⟨status,whole⟩ := (payloadOf_iff reg [] payload (by simp)).mp found
    cases whole

section
-- `ack` is what the BMS puts into its answer to a frame that is no READ.
variable (ack : UInt8 → Payload → Payload)

/-- The BMS applies a WRITE and answers every frame for the same register. -/
def Net.answer (net : Net) (serial : Nat) (action reg : UInt8) (data : Payload) : Net :=
  {net with
    replies := net.replies ++ [⟨reg,if action = jbdCmdRead then net.registers reg else ack reg data⟩]
    registers := if action = jbdCmdWrite then Function.update net.registers reg data else net.registers
    past := net.past ++ [net.registers]
    received := net.received ++ [serial]}

/-- The BMS takes the oldest request. -/
def Net.serve (net : Net) : Net :=
  match net.requests with
  | [] => net
  | m::rest => match opened m.packet with
    | none => {net with requests := rest}
    | some (action,reg,data) => {net with requests := rest}.answer ack m.serial action reg data

def Net.move (net : Net) : Move → Net
  | .serve => net.serve ack
  | .loseRequest index => {net with requests := net.requests.eraseIdx index}
  | .loseReply index => {net with replies := net.replies.eraseIdx index}

def Net.turn (net : Net) : Net × Bool :=
  match net.plan with
  | [] => (net,false)
  | turn::plan => (turn.moves.foldl (Net.move ack) {net with plan := plan},turn.late)

def Net.send (net : Net) (packet : Bytes) : Net :=
  {net with requests := net.requests ++ [⟨net.sent,packet⟩],sent := net.sent + 1}

/-- A read that finds nothing, like one that gives up, returns no bytes. -/
def Net.deliver (net : Net) : ReadResult 256 × Net :=
  match net.replies with
  | [] => (.bytes [] (by simp),net)
  | reply::rest => (.bytes reply.packet reply.packet_length,{net with replies := rest})

def fifo (rwBuf parmData : Nat → Mem UInt8) : Host Net where
  can := false
  opens net := (0,net)
  closes net := (0,net)
  write net packet len := (len,(net.turn ack).1.send packet)
  read net := if (net.turn ack).2 then (.bytes [] (by simp),(net.turn ack).1) else (net.turn ack).1.deliver
  canWrite net _ := (0,net)
  canRead net _ := (.error,net)
  single := roundSingle
  double := roundDouble
  rwBuf := rwBuf
  parmData := parmData
  infoText := []
  lineBuf := fun _ => 0

private theorem serve_elim (net : Net) (inv : Net → Prop) (idle : inv net)
    (ignored : ∀ m rest, net.requests = m::rest → inv {net with requests := rest})
    (answered : ∀ m rest action reg data, net.requests = m::rest → opened m.packet = some (action,reg,data) →
      inv ({net with requests := rest}.answer ack m.serial action reg data)) : inv (net.serve ack) := by
  unfold Net.serve
  split
  · exact idle
  · rename_i m rest queued
    split
    · exact ignored m rest queued
    · rename_i action reg data known
      exact answered m rest action reg data queued known

section
variable (rwBuf parmData : Nat → Mem UInt8) (net : Net)

theorem fifo_write (packet : Bytes) (len : Int) :
    (fifo ack rwBuf parmData).write net packet len = (len,(net.turn ack).1.send packet) := rfl

theorem fifo_read : (fifo ack rwBuf parmData).read net =
    if (net.turn ack).2 then (.bytes [] (by simp),(net.turn ack).1) else (net.turn ack).1.deliver := rfl
end

/-- What moves of the line, a frame sent and a reply taken all keep. -/
structure Kept (packet : Bytes) (inv : Net → Prop) : Prop where
  move : ∀ net move, inv net → inv (net.move ack move)
  plan : ∀ net plan, inv net → inv {net with plan := plan}
  send : ∀ net, inv net → inv (net.send packet)
  take : ∀ net reply rest, net.replies = reply::rest → inv net → inv {net with replies := rest}

variable {ack}

private theorem Kept.turn {packet : Bytes} {inv : Net → Prop} (kept : Kept ack packet inv) (net : Net) (holds : inv net) :
    inv (net.turn ack).1 := by
  unfold Net.turn
  split
  · exact holds
  · rename_i turn plan _
    have start := kept.plan net plan holds
    generalize {net with plan := plan} = net at start
    induction turn.moves generalizing net with
    | nil => exact start
    | cons move moves ih => exact ih _ (kept.move net move start)

/-- An exchange keeps the invariant, and what it accepts was the oldest reply of a
state that satisfied it. -/
private theorem exchange_kept (rwBuf parmData : Nat → Mem UInt8) {packet : Bytes} {inv : Net → Prop}
    (kept : Kept ack packet inv) (len : Int) (reg : UInt8) (retries : Nat) (net : Net) (holds : inv net) :
    let o := exchange (fifo ack rwBuf parmData) packet len reg retries net
    inv o.state ∧ ∀ payload, o.value = some payload → ∃ last reply rest, inv last ∧ last.replies = reply::rest ∧
      reply.reg = reg ∧ reply.payload.val = payload ∧ o.state = {last with replies := rest} := by
  induction retries generalizing net with
  | zero => exact ⟨holds,fun payload found => by cases found⟩
  | succ retries ih =>
    simp only [exchange,fifo_write,fifo_read,Outcome.after_value,Outcome.after_state]
    have sent := kept.send _ (kept.turn net holds)
    generalize (net.turn ack).1.send packet = net at sent
    have turned := kept.turn net sent
    split_ifs with late
    · simpa [payloadOf_nil] using ih _ turned
    · generalize (net.turn ack).1 = net at turned
      unfold Net.deliver
      cases queued : net.replies with
      | nil => simpa [payloadOf_nil] using ih _ turned
      | cons reply rest =>
        have taken := kept.take net reply rest queued turned
        simp only [payloadOf_reply]
        by_cases same : reply.reg = reg
        · rw [if_pos same]
          exact ⟨taken,fun payload found => ⟨net,reply,rest,turned,queued,same,Option.some.inj found,rfl⟩⟩
        · rw [if_neg same]
          exact ih _ taken

end

inductive Item where
  | call (action reg : UInt8) (data : Bytes) (plan : List Turn)
  | pass (move : Move)

section
variable (ack : UInt8 → Payload → Payload) (rwBuf parmData : Nat → Mem UInt8)

def call (action reg : UInt8) (data : Bytes) (plan : List Turn) (w : World Net) :
    Outcome (World Net) Event (Int × Bytes) :=
  jbdRw (fifo ack rwBuf parmData) action reg data {w with line := {w.line with plan := plan}}

def perform (w : World Net) : Item → World Net
  | .call action reg data plan => (call ack rwBuf parmData action reg data plan w).state
  | .pass move => {w with line := w.line.move ack move}

end

/-- The register files of the BMS from `before` to `after`. -/
def held (before after : Net) : List (UInt8 → Payload) :=
  after.past.drop before.past.length ++ [after.registers]

/-- The serials received from `before` to `after`. -/
def arrived (before after : Net) : List Nat := after.received.drop before.received.length

/-- A WRITE acknowledged has been received, in a frame of this call; a READ answered
gives what the register held during it. -/
def Matched (before after : Net) (action reg : UInt8) (datasz : Nat) (result : Int × Bytes) : Prop :=
  (action = jbdCmdWrite → 0 ≤ result.1 → ∃ serial ∈ arrived before after, before.sent ≤ serial) ∧
    (action = jbdCmdRead → 0 ≤ result.1 → ∃ registers ∈ held before after,
      result = settle datasz (some (registers reg)))

/-- Nothing on the line can be taken for the answer to a WRITE; nothing on it can be
taken for the answer to a READ unless it says what the register holds. -/
def Fresh (ack : UInt8 → Payload → Payload) (net : Net) (action reg : UInt8) : Prop :=
  (action = jbdCmdWrite → (∀ m ∈ net.requests, ∀ a d, opened m.packet ≠ some (a,reg,d)) ∧
    ∀ reply ∈ net.replies, reply.reg ≠ reg) ∧
  (action = jbdCmdRead →
    (∀ m ∈ net.requests, ∀ a d, opened m.packet = some (a,reg,d) → a ≠ jbdCmdRead →
      ack reg d = net.registers reg ∨ a = jbdCmdWrite ∧ ack reg d = d) ∧
    ∀ reply ∈ net.replies, reply.reg = reg → reply.payload = net.registers reg)

section
variable {ack : UInt8 → Payload → Payload}

/-- What holds during a WRITE that started fresh: all that concerns the register was
sent by it. -/
structure Writing (before : Net) (reg : UInt8) (net : Net) : Prop where
  received : before.received.length ≤ net.received.length
  sent : before.sent ≤ net.sent
  requests : ∀ m ∈ net.requests, ∀ a d, opened m.packet = some (a,reg,d) → before.sent ≤ m.serial
  replies : ∀ reply ∈ net.replies, reply.reg = reg → ∃ serial ∈ arrived before net, before.sent ≤ serial

private theorem writing_kept (before : Net) (reg : UInt8) (packet : Bytes) : Kept ack packet (Writing before reg) where
  move net move writing := by
    obtain ⟨received,sent,requests,replies⟩ := writing
    cases move with
    | serve =>
      refine serve_elim ack net (Writing before reg) ⟨received,sent,requests,replies⟩ ?_ ?_
      · intro m rest queued
        exact ⟨received,sent,fun other member => requests other (queued ▸ List.mem_cons_of_mem _ member),replies⟩
      · intro m rest action reg' data queued known
        have grown : arrived before ({net with requests := rest}.answer ack m.serial action reg' data) =
            arrived before net ++ [m.serial] := List.drop_append_of_le_length received
        refine ⟨?_,sent,fun other member => requests other (queued ▸ List.mem_cons_of_mem _ member),?_⟩
        · exact received.trans (by simp [Net.answer])
        · rw [grown]
          intro reply member same
          rcases List.mem_append.mp member with old | new
          · obtain ⟨serial,inside,own⟩ := replies reply old same
            exact ⟨serial,List.mem_append_left _ inside,own⟩
          · obtain rfl := List.mem_singleton.mp new
            obtain rfl : reg' = reg := same
            exact ⟨m.serial,by simp,requests m (queued ▸ List.mem_cons_self) action data known⟩
    | loseRequest index =>
      exact ⟨received,sent,fun m member => requests m (List.mem_of_mem_eraseIdx member),replies⟩
    | loseReply index =>
      exact ⟨received,sent,requests,fun reply member => replies reply (List.mem_of_mem_eraseIdx member)⟩
  plan net plan writing := ⟨writing.received,writing.sent,writing.requests,writing.replies⟩
  send net writing := by
    refine ⟨writing.received,Nat.le_succ_of_le writing.sent,fun m member a d known => ?_,writing.replies⟩
    rcases List.mem_append.mp member with old | new
    · exact writing.requests m old a d known
    · obtain rfl := List.mem_singleton.mp new
      exact writing.sent
  take net reply rest queued writing :=
    ⟨writing.received,writing.sent,writing.requests,fun other member same =>
      writing.replies other (queued ▸ List.mem_cons_of_mem _ member) same⟩

/-- What holds during a READ that started fresh: every answer for the register is one
of its values since then. -/
structure Reading (ack : UInt8 → Payload → Payload) (before : Net) (reg : UInt8) (net : Net) : Prop where
  past : before.past.length ≤ net.past.length
  start : before.registers ∈ held before net
  requests : ∀ m ∈ net.requests, ∀ a d, opened m.packet = some (a,reg,d) → a ≠ jbdCmdRead →
    ack reg d = before.registers reg ∨ a = jbdCmdWrite ∧ ack reg d = d
  replies : ∀ reply ∈ net.replies, reply.reg = reg →
    ∃ registers ∈ held before net, reply.payload = registers reg

private theorem reading_kept (before : Net) (reg : UInt8) (data : Bytes) :
    Kept ack (request jbdCmdRead reg data).1 (Reading ack before reg) where
  move net move reading := by
    obtain ⟨past,start,requests,replies⟩ := reading
    cases move with
    | serve =>
      refine serve_elim ack net (Reading ack before reg) ⟨past,start,requests,replies⟩ ?_ ?_
      · intro m rest queued
        exact ⟨past,start,fun other member => requests other (queued ▸ List.mem_cons_of_mem _ member),replies⟩
      · intro m rest action reg' data queued known
        have grown : held before ({net with requests := rest}.answer ack m.serial action reg' data) =
            held before net ++ [({net with requests := rest}.answer ack m.serial action reg' data).registers] := by
          simp only [held,Net.answer,List.drop_append_of_le_length past]
        refine ⟨?_,?_,fun other member => requests other (queued ▸ List.mem_cons_of_mem _ member),?_⟩
        · exact past.trans (by simp [Net.answer])
        · rw [grown]
          exact List.mem_append_left _ start
        · rw [grown]
          intro reply member same
          rcases List.mem_append.mp member with old | new
          · obtain ⟨registers,inside,value⟩ := replies reply old same
            exact ⟨registers,List.mem_append_left _ inside,value⟩
          · obtain rfl := List.mem_singleton.mp new
            obtain rfl : reg' = reg := same
            by_cases read : action = jbdCmdRead
            · exact ⟨net.registers,by simp [held],by simp [read]⟩
            · rcases requests m (queued ▸ List.mem_cons_self) action data known read with kept | ⟨write,value⟩
              · exact ⟨before.registers,List.mem_append_left _ start,by simp [read,kept]⟩
              · refine ⟨_,List.mem_append_right _ (List.mem_singleton_self _),?_⟩
                change (if action = jbdCmdRead then _ else ack reg' data) = _
                rw [if_neg read,value]
                simp [Net.answer,write]
    | loseRequest index =>
      exact ⟨past,start,fun m member => requests m (List.mem_of_mem_eraseIdx member),replies⟩
    | loseReply index =>
      exact ⟨past,start,requests,fun reply member => replies reply (List.mem_of_mem_eraseIdx member)⟩
  plan net plan reading := ⟨reading.past,reading.start,reading.requests,reading.replies⟩
  send net reading := by
    refine ⟨reading.past,reading.start,fun m member a d known other => ?_,reading.replies⟩
    rcases List.mem_append.mp member with old | new
    · exact reading.requests m old a d known other
    · obtain rfl := List.mem_singleton.mp new
      exact (other (request_opened jbdCmdRead reg data a reg d known).1).elim
  take net reply rest queued reading :=
    ⟨reading.past,reading.start,reading.requests,fun other member same =>
      reading.replies other (queued ▸ List.mem_cons_of_mem _ member) same⟩

private theorem writing_start (net : Net) (reg : UInt8) (plan : List Turn) (fresh : Fresh ack net jbdCmdWrite reg) :
    Writing net reg {net with plan := plan} := by
  obtain ⟨requests,replies⟩ := fresh.1 rfl
  exact ⟨Nat.le_refl _,Nat.le_refl _,fun m member a d known => (requests m member a d known).elim,
    fun reply member same => (replies reply member same).elim⟩

private theorem reading_start (net : Net) (reg : UInt8) (plan : List Turn) (fresh : Fresh ack net jbdCmdRead reg) :
    Reading ack net reg {net with plan := plan} := by
  obtain ⟨requests,replies⟩ := fresh.2 rfl
  have window : held net {net with plan := plan} = [net.registers] := by simp [held]
  refine ⟨Nat.le_refl _,by simp [window],requests,fun reply member same => ?_⟩
  rw [window]
  exact ⟨net.registers,List.mem_singleton_self _,replies reply member same⟩

private theorem settle_accepted (datasz : Nat) (reply : Option Bytes) (accepted : 0 ≤ (settle datasz reply).1) :
    ∃ payload, reply = some payload := by
  cases reply with
  | none => simp at accepted
  | some payload => exact ⟨payload,rfl⟩

/-- A call that starts fresh is matched, whatever the line does during it. -/
private theorem call_matched (rwBuf parmData : Nat → Mem UInt8) (action reg : UInt8) (data : Bytes) (plan : List Turn)
    (w : World Net) (fresh : Fresh ack w.line action reg) :
    let o := call ack rwBuf parmData action reg data plan w
    Matched w.line o.state.line action reg data.length o.value := by
  simp only [call,jbdRw_run]
  constructor
  · rintro rfl accepted
    obtain ⟨payload,found⟩ := settle_accepted _ _ accepted
    obtain ⟨-,taken⟩ := exchange_kept rwBuf parmData (writing_kept w.line reg (request jbdCmdWrite reg data).1)
      (request jbdCmdWrite reg data).2 reg 5 _ (writing_start w.line reg plan fresh)
    obtain ⟨last,reply,rest,writing,queued,same,-,state⟩ := taken payload found
    rw [state]
    exact writing.replies reply (queued ▸ List.mem_cons_self) same
  · rintro rfl accepted
    obtain ⟨payload,found⟩ := settle_accepted _ _ accepted
    obtain ⟨-,taken⟩ := exchange_kept rwBuf parmData (reading_kept w.line reg data)
      (request jbdCmdRead reg data).2 reg 5 _ (reading_start w.line reg plan fresh)
    obtain ⟨last,reply,rest,reading,queued,same,content,state⟩ := taken payload found
    obtain ⟨registers,inside,value⟩ := reading.replies reply (queued ▸ List.mem_cons_self) same
    rw [state,found]
    exact ⟨registers,inside,by rw [← content,value]⟩

private theorem lose_replies (count : Nat) (net : Net) :
    (List.replicate count (.loseReply 0)).foldl (Net.move ack) net = {net with replies := net.replies.drop count} := by
  induction count generalizing net with
  | zero => rfl
  | succ count ih =>
    rw [List.replicate_succ,List.foldl_cons,ih]
    cases queued : net.replies <;> simp [Net.move,queued]

private theorem lose_requests (count : Nat) (net : Net) :
    (List.replicate count (.loseRequest 0)).foldl (Net.move ack) net =
      {net with requests := net.requests.drop count} := by
  induction count generalizing net with
  | zero => rfl
  | succ count ih =>
    rw [List.replicate_succ,List.foldl_cons,ih]
    cases queued : net.requests <;> simp [Net.move,queued]

/-- Everything before an old reply is lost, and it comes first. -/
def replyFirst (count : Nat) : List Turn := [⟨List.replicate count (.loseReply 0),false⟩,⟨[],false⟩]

/-- Everything before an old request is lost, and its answer comes first. -/
def requestFirst (replies count : Nat) : List Turn :=
  [⟨List.replicate replies (.loseReply 0) ++ List.replicate count (.loseRequest 0),false⟩,⟨[.serve],false⟩]

section
variable (ack) (rwBuf parmData : Nat → Mem UInt8) (packet : Bytes) (len : Int) (net : Net)

private theorem exchange_replyFirst (before after : List Reply) (reply : Reply)
    (queued : net.replies = before ++ reply::after) :
    let o := exchange (fifo ack rwBuf parmData) packet len reply.reg 5 {net with plan := replyFirst before.length}
    o.value = some reply.payload.val ∧ held net o.state = [net.registers] ∧ arrived net o.state = [] := by
  have turned : ({net with plan := replyFirst before.length}.turn ack) =
      ({net with plan := [⟨[],false⟩],replies := reply::after},false) := by
    simp [Net.turn,replyFirst,lose_replies,queued]
  simp only [exchange,fifo_write,fifo_read,turned,Outcome.after_value,Outcome.after_state]
  simp [Net.turn,Net.send,Net.deliver,payloadOf_reply,held,arrived]

private theorem exchange_requestFirst (before after : List Message) (m : Message) (action reg : UInt8) (data : Payload)
    (queued : net.requests = before ++ m::after) (known : opened m.packet = some (action,reg,data)) :
    let o := exchange (fifo ack rwBuf parmData) packet len reg 5
      {net with plan := requestFirst net.replies.length before.length}
    o.value = some (if action = jbdCmdRead then net.registers reg else ack reg data).val ∧
      held net o.state = [net.registers,
        if action = jbdCmdWrite then Function.update net.registers reg data else net.registers] ∧
      arrived net o.state = [m.serial] := by
  have turned : ({net with plan := requestFirst net.replies.length before.length}.turn ack) =
      ({net with plan := [⟨[.serve],false⟩],replies := [],requests := m::after},false) := by
    simp [Net.turn,requestFirst,lose_replies,lose_requests,queued]
  simp only [exchange,fifo_write,fifo_read,turned,Outcome.after_value,Outcome.after_state]
  simp [Net.turn,Net.send,Net.deliver,Net.move,Net.serve,Net.answer,known,payloadOf_reply,held,arrived]

end

private theorem settle_inj (datasz : Nat) (first second : Payload) (roomy : 249 ≤ datasz)
    (same : settle datasz (some first.val) = settle datasz (some second.val)) : first = second := by
  have fits (payload : Payload) : payload.val.length ≤ datasz := payload.property.trans roomy
  rw [settle_fits datasz _ (fits first),settle_fits datasz _ (fits second)] at same
  obtain ⟨count,content⟩ := Prod.mk.inj same
  exact Subtype.ext (List.append_inj content (by exact_mod_cast count)).1

/-- Only a fresh call is matched whatever the line does, if a READ has room for any payload. -/
private theorem matched_fresh (rwBuf parmData : Nat → Mem UInt8) (action reg : UInt8) (data : Bytes) (w : World Net)
    (numbered : ∀ m ∈ w.line.requests, m.serial < w.line.sent) (roomy : action = jbdCmdRead → 249 ≤ data.length)
    (matched : ∀ plan, let o := call ack rwBuf parmData action reg data plan w
      Matched w.line o.state.line action reg data.length o.value) : Fresh ack w.line action reg := by
  simp only [call,jbdRw_run] at matched
  refine ⟨?_,?_⟩
  · rintro rfl
    refine ⟨fun m member a d known => ?_,fun reply member same => ?_⟩
    · obtain ⟨before,after,queued⟩ := List.append_of_mem member
      obtain ⟨value,-,serials⟩ := exchange_requestFirst ack rwBuf parmData
        (request jbdCmdWrite reg data).1 (request jbdCmdWrite reg data).2 w.line before after m a reg d queued known
      obtain ⟨serial,inside,own⟩ := (matched (requestFirst w.line.replies.length before.length)).1 rfl (by simp [value])
      rw [serials] at inside
      obtain rfl := List.mem_singleton.mp inside
      have old := numbered m member
      omega
    · subst same
      obtain ⟨before,after,queued⟩ := List.append_of_mem member
      obtain ⟨value,-,serials⟩ := exchange_replyFirst ack rwBuf parmData
        (request jbdCmdWrite reply.reg data).1 (request jbdCmdWrite reply.reg data).2 w.line before after reply queued
      obtain ⟨serial,inside,-⟩ := (matched (replyFirst before.length)).1 rfl (by simp [value])
      rw [serials] at inside
      cases inside
  · rintro rfl
    refine ⟨fun m member a d known other => ?_,fun reply member same => ?_⟩
    · obtain ⟨before,after,queued⟩ := List.append_of_mem member
      obtain ⟨value,window,-⟩ := exchange_requestFirst ack rwBuf parmData
        (request jbdCmdRead reg data).1 (request jbdCmdRead reg data).2 w.line before after m a reg d queued known
      obtain ⟨registers,inside,result⟩ :=
        (matched (requestFirst w.line.replies.length before.length)).2 rfl (by simp [value])
      rw [value,if_neg other] at result
      rw [window] at inside
      have content := settle_inj _ _ _ (roomy rfl) result
      rcases List.mem_pair.mp inside with rfl | rfl
      · exact .inl content
      · by_cases write : a = jbdCmdWrite
        · exact .inr ⟨write,by simpa [write] using content⟩
        · exact .inl (by simpa [write] using content)
    · subst same
      obtain ⟨before,after,queued⟩ := List.append_of_mem member
      obtain ⟨value,window,-⟩ := exchange_replyFirst ack rwBuf parmData
        (request jbdCmdRead reply.reg data).1 (request jbdCmdRead reply.reg data).2 w.line before after reply queued
      obtain ⟨registers,inside,result⟩ := (matched (replyFirst before.length)).2 rfl (by simp [value])
      rw [value] at result
      rw [window] at inside
      obtain rfl := List.mem_singleton.mp inside
      exact settle_inj _ _ _ (roomy rfl) result

def Numbered (net : Net) : Prop := ∀ m ∈ net.requests, m.serial < net.sent

private theorem numbered_kept (packet : Bytes) : Kept ack packet Numbered where
  move net move numbered := by
    cases move with
    | serve =>
      refine serve_elim ack net Numbered numbered ?_ ?_
      · intro m rest queued other member
        exact numbered other (queued ▸ List.mem_cons_of_mem _ member)
      · intro m rest action reg data queued known other member
        exact numbered other (queued ▸ List.mem_cons_of_mem _ member)
    | loseRequest index => exact fun m member => numbered m (List.mem_of_mem_eraseIdx member)
    | loseReply index => exact numbered
  plan net plan numbered := numbered
  send net numbered m member := by
    rcases List.mem_append.mp member with old | new
    · exact Nat.lt_succ_of_lt (numbered m old)
    · obtain rfl := List.mem_singleton.mp new
      exact Nat.lt_succ_self _
  take net reply rest queued numbered := numbered

private theorem perform_numbered (rwBuf parmData : Nat → Mem UInt8) (items : List Item) (w : World Net)
    (numbered : Numbered w.line) : Numbered (items.foldl (perform ack rwBuf parmData) w).line := by
  induction items generalizing w with
  | nil => exact numbered
  | cons item items ih =>
    refine ih _ ?_
    cases item with
    | call action reg data plan =>
      simp only [perform,call,jbdRw_run]
      exact (exchange_kept rwBuf parmData (numbered_kept _) _ reg 5 {w.line with plan := plan} numbered).1
    | pass move => exact (numbered_kept []).move _ move numbered

end

/-- After any calls, the next one is matched whatever the line does during it exactly
when it starts fresh. -/
theorem jbdRw_matched (ack : UInt8 → Payload → Payload) (rwBuf parmData : Nat → Mem UInt8)
    (registers : UInt8 → Payload) (items : List Item) :
    let w := items.foldl (perform ack rwBuf parmData) (World.start (Net.start registers))
    (∀ action reg data plan, Fresh ack w.line action reg →
      let o := call ack rwBuf parmData action reg data plan w
      Matched w.line o.state.line action reg data.length o.value) ∧
    (∀ action reg (data : Bytes), (action = jbdCmdRead → 249 ≤ data.length) →
      (∀ plan, let o := call ack rwBuf parmData action reg data plan w
        Matched w.line o.state.line action reg data.length o.value) → Fresh ack w.line action reg) :=
  ⟨fun action reg data plan fresh => call_matched rwBuf parmData action reg data plan _ fresh,
  fun action reg data roomy matched => matched_fresh rwBuf parmData action reg data _
    (perform_numbered rwBuf parmData items _ (by simp [Numbered,World.start,Net.start])) roomy matched⟩

/-- The first write is sent twice and answered twice, the second one is lost. -/
def secondWriteLost : World Net :=
  perform (fun _ _ => ⟨[],by simp⟩) (fun _ _ => 0) (fun _ _ => 0)
    (World.start (Net.start (fun _ => ⟨[0,0],by simp⟩)))
    (.call jbdCmdWrite 0x24 [0x0B,0xB8] [⟨[],false⟩,⟨[.serve],true⟩,⟨[],false⟩,⟨[.serve],false⟩])

theorem secondWriteLost_acknowledged :
    let o := call (fun _ _ => ⟨[],by simp⟩) (fun _ _ => 0) (fun _ _ => 0) jbdCmdWrite 0x24 [0x0F,0xA0]
      [⟨[],false⟩,⟨[.loseRequest 0],false⟩] secondWriteLost
    ¬ Matched secondWriteLost.line o.state.line jbdCmdWrite 0x24 2 o.value := by
  intro o matched
  have acknowledged : o.value.1 = 0 := by decide +kernel
  have nothing : arrived secondWriteLost.line o.state.line = [] := by decide +kernel
  obtain ⟨serial,inside,-⟩ := matched.1 rfl (by omega)
  rw [nothing] at inside
  cases inside

end Jbdtool.Matching
