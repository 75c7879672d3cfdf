import Jbdtool.Status
import Jbdtool.EepromExact

/-! The word that `-g` and `-G` write to the MOSFET register, and the status it is
built from. -/
namespace Jbdtool
open CString Numbers Traced
variable {τ α β : Type}

def mosfetWrite (packet : Bytes) : Bool := byteAt packet 1 = jbdCmdWrite && byteAt packet 2 = jbdRegMosfet

def fetWord (packet : Bytes) : UInt16 := UInt16.ofNat (getushort (byteAt packet 4) (byteAt packet 5))

def switching (inside : Bool) : Event → Bool
  | .enter .jbdSetMosfet => true
  | .leave .jbdSetMosfet _ => false
  | _ => inside

/-- What jbd_set_mosfet writes to the register, retransmissions included. -/
def fetFrames : Bool → List Event → List Bytes
  | _, [] => []
  | inside, e::events => match e with
    | .wrote packet _ =>
      if inside && mosfetWrite packet then packet::fetFrames inside events else fetFrames inside events
    | e => fetFrames (switching inside e) events

/-- One FET: a set bit is off. Not named, it is left as the reply has it, which has to
reach that far. -/
def fetKept (setting : Int) (mask word : UInt16) (hwinfo : Option Bytes) : Bool :=
  if 0 ≤ setting then decide (word &&& mask ≠ 0 ↔ setting = 0)
  else hwinfo.any fun payload =>
    21 ≤ payload.length && decide (word &&& mask ≠ 0 ↔ (byteAt payload 20).toUInt16 &&& mask = 0)

def fetsKept (s : Settings) (hwinfo : Option Bytes) (word : UInt16) : Bool :=
  fetKept s.charge jbdMosCharge word hwinfo && fetKept s.discharge jbdMosDischarge word hwinfo

private theorem fetFrames_append (inside : Bool) (first second : List Event) : fetFrames inside (first ++ second) =
    fetFrames inside first ++ fetFrames (first.foldl switching inside) second := by
  induction first generalizing inside with
  | nil => rfl
  | cons e first ih =>
    cases e
    case wrote packet len =>
      simp only [List.cons_append,fetFrames,List.foldl_cons,switching,ih]
      split_ifs <;> rfl
    all_goals exact ih _

private theorem inside_fixed (inside : Bool) (events : List Event) (unmoved : ∀ e ∈ events, switching inside e = inside) :
    events.foldl switching inside = inside := by
  induction events with
  | nil => rfl
  | cons e events ih =>
    obtain ⟨here,later⟩ := List.forall_mem_cons.mp unmoved
    rw [List.foldl_cons,here]
    exact ih later

/-- Neither the start nor the end of jbd_set_mosfet, nor inside it a frame for the register. -/
def Event.Still (inside : Bool) : Event → Prop
  | .enter .jbdSetMosfet => False
  | .leave .jbdSetMosfet _ => False
  | .wrote packet _ => inside = true → mosfetWrite packet = false
  | _ => True

private theorem fetFrames_still (inside : Bool) (events : List Event) (still : ∀ e ∈ events, e.Still inside) :
    fetFrames inside events = [] ∧ events.foldl switching inside = inside := by
  induction events with
  | nil => exact ⟨rfl,rfl⟩
  | cons e events ih =>
    obtain ⟨here,later⟩ := List.forall_mem_cons.mp still
    obtain ⟨none,same⟩ := ih later
    have unmoved : switching inside e = inside := by
      unfold switching
      split
      · exact here.elim
      · exact here.elim
      · rfl
    rw [List.foldl_cons,unmoved]
    refine ⟨?_,same⟩
    cases e
    case wrote packet len =>
      have other : ¬ (inside && mosfetWrite packet) = true := by
        cases inside
        · simp
        · simp [here rfl]
      rw [fetFrames,if_neg other,none]
    all_goals
      rw [fetFrames,unmoved,none]
      intro packet len same
      cases same

/-- With jbd_set_mosfet running or not before and after, these frames. -/
def Sends (inside : Bool) (m : Program τ α) (w : World τ) (packets : List Bytes) (inside' : Bool) : Prop :=
  fetFrames inside (m w).events = packets ∧ (m w).events.foldl switching inside = inside'

section
variable {inside mid inside' : Bool} {w : World τ} {packets packets' : List Bytes}

private theorem sends_still {m : Program τ α} (still : Emits (Event.Still inside) m) : Sends inside m w [] inside :=
  fetFrames_still inside _ (still w)

private theorem sends_bind {m : Program τ α} {next : α → Program τ β} (first : Sends inside m w packets mid)
    (rest : Sends mid (next (m w).value) (m w).state packets' inside') :
    Sends inside (m >>= next) w (packets ++ packets') inside' := by
  obtain ⟨sent,outside⟩ := first
  constructor
  · rw [bind_run,Outcome.after_events,fetFrames_append,sent,outside,rest.1]
  · rw [bind_run,Outcome.after_events,List.foldl_append,outside,rest.2]

private theorem sends_silent {m : Program τ α} {next : α → Program τ β} (first : Sends inside m w [] mid)
    (rest : Sends mid (next (m w).value) (m w).state packets inside') : Sends inside (m >>= next) w packets inside' :=
  sends_bind first rest

private theorem sends_then {m : Program τ α} {next : α → Program τ β} (first : Sends inside m w packets mid)
    (rest : ∀ a w, Sends mid (next a) w [] inside') : Sends inside (m >>= next) w packets inside' := by
  have both := sends_bind first (rest (m w).value (m w).state)
  rwa [List.append_nil] at both

private theorem sends_next {m : Main τ α} {next : α → Main τ β} {a : α} (value : (m.run w).value = .ok a)
    (first : Sends inside m.run w [] mid) (rest : Sends mid (next a).run (m.run w).state packets inside') :
    Sends inside (m >>= next).run w packets inside' := by
  have continued : Sends mid (ExceptT.bindCont next (m.run w).value) (m.run w).state packets inside' := by rwa [value]
  exact sends_bind first continued

private theorem sends_part {m : Main τ α} {next : α → Main τ β} (first : Sends inside m.run w packets mid)
    (rest : ∀ a, Emits (Event.Still mid) (next a).run) : Sends inside (m >>= next).run w packets mid := by
  refine sends_then first fun r w => sends_still ?_
  cases r with
  | ok a => exact rest a
  | error code => exact emits_pure _

private theorem sends_lift {m : Program τ α} (known : Sends inside m w packets mid) :
    Sends inside (liftM m : Main τ α).run w packets mid :=
  sends_then known fun _ _ => sends_still (emits_pure _)

end

instance : Routine (Event.Still false) where
  plain e known := by
    cases e
    case wrote packet len => exact fun absurd => by cases absurd
    case enter fn => exact known.elim
    case leave fn r => exact known.elim
    all_goals trivial

instance (host : Host τ) : Ordinary host (Event.Still false) (fun _ => True) where
  rw _ _ _ _ := emits_rw trivial fun _ => trivial

private theorem bracket_still {host : Host τ} {inside : Bool} {fn : Fn} {reg : UInt8} {data : Bytes}
    (other : fn ≠ .jbdSetMosfet) (still : Emits (Event.Still inside) (jbdRw host jbdCmdWrite reg data)) :
    Emits (Event.Still inside) (do
      Traced.emit (.enter fn)
      let r ← jbdRw host jbdCmdWrite reg data
      Traced.emit (.leave fn r.1)
      return r.1) := by
  have entered : (Event.enter fn).Still inside := by cases fn <;> trivial
  have left (r : Int) : (Event.leave fn r).Still inside := by cases fn <;> trivial
  exact emits_bind (emits_emit entered) fun _ => emits_bind still fun r => emits_bind (emits_emit (left r.1)) fun _ =>
    emits_pure _

instance (host : Host τ) : Outer host (Event.Still false) where
  starts := bracket_still (by decide) (calls_rw trivial)
  ends := bracket_still (by decide) (calls_rw trivial)
  opens := emits_bind emits_get fun _ => emits_bind (emits_modify _) fun _ => emits_bind (emits_emit trivial) fun _ =>
    emits_pure _
  closes := emits_bind (emits_modify _) fun _ => emits_emit trivial

private theorem rw_still (host : Host τ) (reg : UInt8) (data : Bytes) (other : reg ≠ jbdRegMosfet) (short : data.length ≤ 252) :
    Emits (Event.Still true) (jbdRw host jbdCmdWrite reg data) := by
  intro w
  have fits : (requestData jbdCmdWrite.toNat data).length ≤ 252 := by
    unfold requestData
    split_ifs
    · simp
    · exact short
  rw [jbdRw_run]
  refine rwEvents_elim _ _ _ _ _ trivial trivial (fun e member => ?_) fun _ _ _ => trivial
  rcases exchange_packet _ _ _ _ _ _ e member with rfl | ⟨r,rfl⟩
  · rw [request_frame _ _ _ fits]
    intro _
    simp [mosfetWrite,frame,byteAt,other]
  · trivial

private theorem exchange_frames (host : Host τ) (packet : Bytes) (len : Int) (reg : UInt8) (retries : Nat) (line : τ)
    (counted : mosfetWrite packet = true) : ∃ n, (0 < retries → 0 < n) ∧
      fetFrames true (exchange host packet len reg retries line).events = List.replicate n packet := by
  induction retries generalizing line with
  | zero => exact ⟨0,by simp,rfl⟩
  | succ retries ih =>
    have once : ∃ n, (0 < retries + 1 → 0 < n) ∧ [packet] = List.replicate n packet := ⟨1,by simp,rfl⟩
    simp only [exchange,Outcome.after_events,fetFrames_append]
    simp only [fetFrames,counted,Bool.and_true,if_true,List.foldl_cons,List.foldl_nil,switching]
    split
    · exact once
    · split
      · exact once
      · obtain ⟨n,-,same⟩ := ih (host.read (host.write line packet len).2).2
        exact ⟨n + 1,by simp,by rw [same]; rfl⟩

private theorem rwEvents_frames (action reg : UInt8) (datasz : Nat) (o : Outcome τ Event (Option Bytes))
    (wire : ∀ e ∈ o.events, e.onWire = true) :
    fetFrames true (rwEvents action reg datasz o) = fetFrames true o.events := by
  have outside (events : List Event) (wire : ∀ e ∈ events, e.onWire = true) :
      events.foldl switching true = true ∧ (withClearing datasz events).foldl switching true = true ∧
      fetFrames true (withClearing datasz events) = fetFrames true events := by
    induction events with
    | nil => exact ⟨rfl,rfl,rfl⟩
    | cons e events ih =>
      obtain ⟨here,later⟩ := List.forall_mem_cons.mp wire
      obtain ⟨state,state',same⟩ := ih later
      cases e
      case wrote packet len =>
        refine ⟨state,state',?_⟩
        change fetFrames true (.wrote packet len::.touch (.data datasz) 0 datasz::withClearing datasz events) = _
        simp only [fetFrames,switching,same]
      case received r => exact ⟨state,state',same⟩
      all_goals cases here
  obtain ⟨-,state,same⟩ := outside o.events wire
  have last : fetFrames true (copyTouch datasz o.value ++ [.rwReturn action reg (settle datasz o.value).1]) = [] := by
    cases o.value <;> rfl
  change fetFrames true (withClearing datasz o.events ++ copyTouch datasz o.value ++
    [.rwReturn action reg (settle datasz o.value).1]) = _
  rw [List.append_assoc,fetFrames_append,state,same,last,List.append_nil]

private theorem rwEvents_inside (inside : Bool) (action reg : UInt8) (datasz : Nat) (o : Outcome τ Event (Option Bytes))
    (wire : ∀ e ∈ o.events, e.onWire = true) : (rwEvents action reg datasz o).foldl switching inside = inside := by
  have unmoved : ∀ e ∈ rwEvents action reg datasz o, switching inside e = inside := by
    refine rwEvents_elim _ _ _ _ _ rfl rfl (fun e member => ?_) fun _ _ _ => rfl
    have known := wire e member
    cases e <;> first | rfl | cases known
  exact inside_fixed inside _ unmoved

private theorem request_word (reg : UInt8) (v : Int) :
    request jbdCmdWrite reg (shortPayload v) = (frame jbdCmdWrite reg (shortPayload v),9) := by
  have kept : requestData jbdCmdWrite.toNat (shortPayload v) = shortPayload v := if_neg (by decide)
  rw [request_frame _ _ _ (by rw [kept]; exact Nat.le_of_ble_eq_true rfl),kept]
  rfl

/-- The register is written once the start has been answered, and not otherwise. -/
private theorem jbdSetMosfet_sends (host : Host τ) (v : Int) (w : World τ) :
    let start := exchange host (frame jbdCmdWrite jbdRegEeprom [0x56,0x78]) 9 jbdRegEeprom 5 w.line
    (start.value = none → Sends false (jbdSetMosfet host v) w [] false) ∧ (start.value ≠ none → ∃ n, 0 < n ∧
      Sends false (jbdSetMosfet host v) w (List.replicate n (frame jbdCmdWrite jbdRegMosfet (shortPayload v))) false) := by
  intro start
  have entered : Sends false (Traced.emit (.enter .jbdSetMosfet) : Program τ Unit) w [] true := ⟨rfl,rfl⟩
  have left (r : Int) (w : World τ) : Sends true
      (do Traced.emit (.leave .jbdSetMosfet r); return r : Program τ Int) w [] false := ⟨rfl,rfl⟩
  have starts : Emits (Event.Still true) (jbdEepromStart host) :=
    bracket_still (by decide) (rw_still host _ _ (by decide) (by decide))
  have ends : Emits (Event.Still true) (jbdEepromEnd host) :=
    bracket_still (by decide) (rw_still host _ _ (by decide) (by decide))
  have result : (jbdEepromStart host w).value = (settle 2 start.value).1 := by
    unfold jbdEepromStart
    rw [Traced.emit_bind,jbdRw_bind,request_frame _ _ _ (by decide)]
    rfl
  constructor
  · intro unanswered
    refine sends_silent entered (sends_silent (sends_still starts) ?_)
    change Sends true (if (jbdEepromStart host w).value < 0 then _ else _) _ [] false
    rw [result,unanswered,settle_none_value,if_pos (by decide)]
    exact left 1 _
  · intro answered
    obtain ⟨payload,known⟩ := Option.ne_none_iff_exists'.mp answered
    have counted : mosfetWrite (frame jbdCmdWrite jbdRegMosfet (shortPayload v)) = true := by
      simp [mosfetWrite,frame,byteAt,shortPayload]
    obtain ⟨n,positive,frames⟩ := exchange_frames host (frame jbdCmdWrite jbdRegMosfet (shortPayload v)) 9 jbdRegMosfet 5
      (jbdEepromStart host w).state.line counted
    refine ⟨n,positive (by decide),?_⟩
    refine sends_silent entered (sends_silent (sends_still starts) ?_)
    change Sends true (if (jbdEepromStart host w).value < 0 then _ else _) _ _ false
    rw [result,known,settle_some_value,if_neg (by omega)]
    refine sends_then ?_ fun r w => sends_silent (sends_still ends) ?_
    · have wire := exchange_onWire host (frame jbdCmdWrite jbdRegMosfet (shortPayload v)) 9 jbdRegMosfet 5
        (jbdEepromStart host w).state.line
      rw [Sends,jbdRw_run,request_word]
      refine ⟨?_,rwEvents_inside _ _ _ _ _ wire⟩
      exact (rwEvents_frames _ _ _ _ wire).trans frames
    · split_ifs <;> exact left _ _

section
variable (script : Nat → ReadResult 256) (rwBuf parmData : Nat → Mem UInt8)

/-- The replies that a status and the start behind it take from read `n` on. -/
def hwinfoReply (n : Nat) : Option Bytes × Nat := takeReply script jbdCmdHwinfo 5 n
def cellinfoReply (n : Nat) : Option Bytes × Nat := takeReply script jbdCmdCellinfo 5 (hwinfoReply script n).2
def hwverReply (n : Nat) : Option Bytes × Nat := takeReply script jbdCmdHwver 5 (cellinfoReply script n).2
def startReply (n : Nat) : Option Bytes × Nat := takeReply script jbdRegEeprom 5 (hwverReply script n).2

def FetsWritten (env : Env) (s : Settings) (n : Nat) : Prop :=
  env.loads ∧ env.locks (lockfile s.target) !s.dontWait ∧ (s.charge ≥ 0 ∨ s.discharge ≥ 0) ∧
    (hwinfoReply script n).1 ≠ none ∧ (cellinfoReply script n).1 ≠ none ∧ (hwverReply script n).1 ≠ none ∧
    (startReply script n).1 ≠ none

private theorem jbdGetInfo_fetstate (info : JbdInfo) (w : World Nat) :
    let o := jbdGetInfo (scripted script rwBuf parmData) info w
    (o.value.1 = 0 ↔ (hwinfoReply script w.line).1 ≠ none ∧ (cellinfoReply script w.line).1 ≠ none ∧
      (hwverReply script w.line).1 ≠ none) ∧
    (o.value.1 = 0 → o.state.line = (hwverReply script w.line).2 ∧ ∀ payload,
      (hwinfoReply script w.line).1 = some payload → o.value.2.fetstate = (byteAt payload 20).toUInt16) := by
  intro o
  have taken (reg : UInt8) (start : Nat) :=
    exchange_takeReply script rwBuf parmData (frame jbdCmdRead reg []) 7 reg 5 start
  obtain ⟨same,kept⟩ := jbdGetInfo_std (scripted script rwBuf parmData) info w rfl
  have replies := jbdStdGetInfo_replies (scripted script rwBuf parmData) info w
  simp only [taken] at replies
  obtain ⟨all,decoded⟩ := replies
  refine ⟨same.trans all,fun ok => ?_⟩
  obtain ⟨state,-,-,fetstate⟩ := kept (same.mp ok)
  obtain ⟨line,known⟩ := decoded (same.mp ok)
  refine ⟨(congrArg World.line state).trans line,fun payload reply => ?_⟩
  exact fetstate.trans (known payload reply).2.2

private theorem setFets_sends (s : Settings) (w : World Nat) :
    let replied := (hwinfoReply script w.line).1 ≠ none ∧ (cellinfoReply script w.line).1 ≠ none ∧
      (hwverReply script w.line).1 ≠ none ∧ (startReply script w.line).1 ≠ none
    (¬ replied → Sends false (setFets (scripted script rwBuf parmData) s .zero).run w [] false) ∧
    (replied → ∃ n payload, 0 < n ∧ (hwinfoReply script w.line).1 = some payload ∧
      Sends false (setFets (scripted script rwBuf parmData) s .zero).run w (List.replicate n (frame jbdCmdWrite
        jbdRegMosfet (shortPayload (fetBits s (byteAt payload 20).toUInt16).toNat))) false) := by
  intro replied
  obtain ⟨zero,decoded⟩ := jbdGetInfo_fetstate script rwBuf parmData .zero w
  generalize opened : scripted script rwBuf parmData = host at *
  have state : ((openOrReturn host).run w).state = w := by rw [← opened]; rfl
  have value : ((openOrReturn host).run w).value = .ok () := by rw [← opened]; rfl
  have closes (info : JbdInfo) : Emits (Event.Still false) (do
      (packClose host : Program Nat Unit)
      return info : Main Nat JbdInfo).run :=
    emits_next (emits_lift Outer.closes) fun _ => emits_same
  have read : Emits (Event.Still false) (jbdGetInfo host .zero) := calls_getInfo trivial trivial trivial
  have begins {packets : List Bytes} (rest : Sends false (do
      if (jbdGetInfo host .zero w).value.1 = 0 then
        let i ← jbdSetMosfet host (fetBits s (jbdGetInfo host .zero w).value.2.fetstate).toNat
        if i = 0 then
          (printFet (bytes "charging") s.charge : Program Nat Unit)
          (printFet (bytes "discharging") s.discharge : Program Nat Unit)
      (packClose host : Program Nat Unit)
      return (jbdGetInfo host .zero w).value.2 : Main Nat JbdInfo).run (jbdGetInfo host .zero w).state packets false) :
      Sends false (setFets host s .zero).run w packets false := by
    refine sends_next value (sends_still (outer_open _)) ?_
    rw [state]
    exact sends_next rfl (sends_lift (sends_still read)) rest
  by_cases ok : (jbdGetInfo host .zero w).value.1 = 0
  · obtain ⟨line,fetstate⟩ := decoded ok
    have printed (what : Bytes) (setting : Int) : Emits (Event.Still false) (printFet what setting : Program Nat Unit) :=
      emits_ite (fun _ => calls_print) fun _ => emits_pure _
    have behind (r : Int) : Emits (Event.Still false) (do
        if r = 0 then
          (printFet (bytes "charging") s.charge : Program Nat Unit)
          (printFet (bytes "discharging") s.discharge : Program Nat Unit)
        (packClose host : Program Nat Unit)
        return (jbdGetInfo host .zero w).value.2 : Main Nat JbdInfo).run :=
      emits_choice (emits_next (emits_lift (printed _ _)) fun _ => emits_next (emits_lift (printed _ _)) fun _ =>
        closes _) (closes _)
    obtain ⟨unanswered,answered⟩ := jbdSetMosfet_sends host (fetBits s (jbdGetInfo host .zero w).value.2.fetstate).toNat
      (jbdGetInfo host .zero w).state
    have start := (exchange_takeReply script rwBuf parmData (frame jbdCmdWrite jbdRegEeprom [0x56,0x78]) 9 jbdRegEeprom
      5 (hwverReply script w.line).2).1
    rw [opened] at start
    rw [line,start] at unanswered answered
    have switched {packets : List Bytes} (sent : Sends false (jbdSetMosfet host
        (fetBits s (jbdGetInfo host .zero w).value.2.fetstate).toNat) (jbdGetInfo host .zero w).state packets false) :
        Sends false (setFets host s .zero).run w packets false := by
      refine begins ?_
      rw [if_pos ok]
      exact sends_part (sends_lift sent) behind
    constructor
    · intro missing
      refine switched (unanswered ?_)
      by_contra started
      exact missing ⟨(zero.mp ok).1,(zero.mp ok).2.1,(zero.mp ok).2.2,started⟩
    · rintro ⟨hwinfo,-,-,started⟩
      obtain ⟨payload,reply⟩ := Option.ne_none_iff_exists'.mp hwinfo
      obtain ⟨n,positive,sent⟩ := answered started
      refine ⟨n,payload,positive,reply,?_⟩
      rw [← fetstate payload reply]
      exact switched sent
  · constructor
    · intro _
      refine begins ?_
      rw [if_neg ok]
      exact sends_still (closes _)
    · rintro ⟨hwinfo,cells,ver,-⟩
      exact (ok (zero.mpr ⟨hwinfo,cells,ver⟩)).elim

private theorem main_sends (env : Env) (args : List Bytes) (s : Settings) (operands : List Bytes) (w : World Nat)
    (read : readOptions args = .ok (s,operands)) :
    (¬ FetsWritten script env s w.line → Sends false (main (scripted script rwBuf parmData) env args) w [] false) ∧
    (FetsWritten script env s w.line → ∃ n payload, 0 < n ∧ (hwinfoReply script w.line).1 = some payload ∧
      Sends false (main (scripted script rwBuf parmData) env args) w (List.replicate n (frame jbdCmdWrite
        jbdRegMosfet (shortPayload (fetBits s (byteAt payload 20).toUInt16).toNat))) false) := by
  obtain ⟨missing,replied⟩ := setFets_sends script rwBuf parmData s w
  generalize scripted script rwBuf parmData = host at *
  have whole {packets : List Bytes} (sent : Sends false (mainBody host env s operands).run w packets false) :
      Sends false (main host env args) w packets false := by
    unfold main
    rw [read]
    refine sends_then sent fun r w => sends_still ?_
    cases r <;> exact emits_pure _
  have rest (info : JbdInfo) := @outer_rest _ host (Event.Still false) _ env s operands info
  by_cases loads : env.loads = true
  · by_cases locks : env.locks (lockfile s.target) (!s.dontWait) = true
    · have begins {packets : List Bytes} (sent : Sends false (do
          let info ← if s.charge ≥ 0 ∨ s.discharge ≥ 0 then setFets host s .zero else pure .zero
          if s.reset then resetBms host
          openOutput env s
          if s.dump then dumpAll host
          runAction host env s.output operands info
          (printDocument s.output : Program Nat Unit) : Main Nat Unit).run w packets false) :
          Sends false (main host env args) w packets false := by
        refine whole ?_
        unfold mainBody
        rw [if_neg (by simp [loads]),if_neg (by simp [locks])]
        exact sent
      by_cases named : s.charge ≥ 0 ∨ s.discharge ≥ 0
      · rw [if_pos named] at begins
        constructor
        · intro skipped
          refine begins (sends_part (missing ?_) rest)
          rintro ⟨hwinfo,cells,ver,started⟩
          exact skipped ⟨loads,locks,named,hwinfo,cells,ver,started⟩
        · rintro ⟨-,-,-,hwinfo,cells,ver,started⟩
          obtain ⟨n,payload,positive,reply,sent⟩ := replied ⟨hwinfo,cells,ver,started⟩
          exact ⟨n,payload,positive,reply,begins (sends_part sent rest)⟩
      · rw [if_neg named] at begins
        refine ⟨fun _ => begins (sends_part (sends_still emits_same) rest),?_⟩
        rintro ⟨-,-,other,-⟩
        exact (named other).elim
    · refine ⟨fun _ => whole ?_,fun ⟨_,other,_⟩ => (locks other).elim⟩
      unfold mainBody
      rw [if_neg (by simp [loads]),if_pos (by simp [locks])]
      exact ⟨rfl,rfl⟩
  · refine ⟨fun _ => whole ?_,fun ⟨other,_⟩ => (loads other).elim⟩
    unfold mainBody
    rw [if_pos (by simp [loads])]
    exact ⟨rfl,rfl⟩

end

def fetOff (setting : Int) (mask fetstate : UInt16) : Prop := setting = 0 ∨ setting ≠ 1 ∧ fetstate &&& mask = 0

instance (setting : Int) (mask fetstate : UInt16) : Decidable (fetOff setting mask fetstate) :=
  inferInstanceAs (Decidable (_ ∨ _))

private theorem fetBits_off (s : Settings) (fetstate : UInt16) : fetBits s fetstate =
    (if fetOff s.charge jbdMosCharge fetstate then jbdMosCharge else 0) |||
      (if fetOff s.discharge jbdMosDischarge fetstate then jbdMosDischarge else 0) := by
  unfold fetBits fetOff
  by_cases on : s.charge = 1 <;> by_cases on' : s.discharge = 1 <;> simp only [on,on']
  all_goals split_ifs <;> simp_all <;> rfl

private theorem fetBits_charge (s : Settings) (fetstate : UInt16) :
    fetBits s fetstate &&& jbdMosCharge ≠ 0 ↔ fetOff s.charge jbdMosCharge fetstate := by
  rw [fetBits_off]
  split_ifs with off off' <;> simp only [off,iff_true,iff_false] <;> decide

private theorem fetBits_discharge (s : Settings) (fetstate : UInt16) :
    fetBits s fetstate &&& jbdMosDischarge ≠ 0 ↔ fetOff s.discharge jbdMosDischarge fetstate := by
  rw [fetBits_off]
  split_ifs with off off' <;> simp only [*,iff_true,iff_false] <;> decide

private theorem fetWord_frame (s : Settings) (fetstate : UInt16) :
    fetWord (frame jbdCmdWrite jbdRegMosfet (shortPayload (fetBits s fetstate).toNat)) = fetBits s fetstate := by
  rw [fetBits_off]
  split_ifs <;> decide +kernel

private theorem fetState_setting (what optarg : Bytes) (state : Int) (set : fetState what optarg = .ok state) :
    state ∈ [-1,0,1] := by
  unfold fetState at set
  split_ifs at set <;> cases set <;> decide

private theorem setOption_fets (s s' : Settings) (option : Char) (optarg : Bytes) (set : setOption s option optarg = .ok s')
    (before : s.charge ∈ [-1,0,1] ∧ s.discharge ∈ [-1,0,1]) : s'.charge ∈ [-1,0,1] ∧ s'.discharge ∈ [-1,0,1] := by
  unfold setOption at set
  split at set
  case h_5 =>
    cases state : fetState (bytes "charge") optarg with
    | error e => rw [state] at set; cases set
    | ok charge =>
      rw [state] at set
      cases set
      exact ⟨fetState_setting _ _ _ state,before.2⟩
  case h_6 =>
    cases state : fetState (bytes "discharge") optarg with
    | error e => rw [state] at set; cases set
    | ok discharge =>
      rw [state] at set
      cases set
      exact ⟨before.1,fetState_setting _ _ _ state⟩
  case h_13 =>
    split_ifs at set
    cases set
    exact before
  all_goals first | cases set; exact before | cases set

private theorem setOptions_fets (options : List (Char × Bytes)) (s s' : Settings) (set : setOptions options s = .ok s')
    (before : s.charge ∈ [-1,0,1] ∧ s.discharge ∈ [-1,0,1]) : s'.charge ∈ [-1,0,1] ∧ s'.discharge ∈ [-1,0,1] := by
  induction options generalizing s with
  | nil =>
    cases set
    exact before
  | cons option options ih =>
    obtain ⟨letter,optarg⟩ := option
    unfold setOptions at set
    cases next : setOption s letter optarg with
    | error e => rw [next] at set; cases set
    | ok s'' =>
      rw [next] at set
      exact ih s'' set (setOption_fets s s'' letter optarg next before)

private theorem readOptions_fets (args : List Bytes) (s : Settings) (operands : List Bytes)
    (read : readOptions args = .ok (s,operands)) : s.charge ∈ [-1,0,1] ∧ s.discharge ∈ [-1,0,1] := by
  refine setOptions_fets (getopt args).1 .initial s ?_ (by decide)
  unfold readOptions at read
  cases set : setOptions (getopt args).1 .initial with
  | error e =>
    rw [set] at read
    cases read
  | ok s' =>
    rw [set] at read
    simp only [bind,Except.bind] at read
    split_ifs at read
    all_goals cases read
    rfl

private theorem fetKept_reported (setting : Int) (mask word : UInt16) (payload : Bytes) (known : setting ∈ [-1,0,1])
    (off : word &&& mask ≠ 0 ↔ fetOff setting mask (byteAt payload 20).toUInt16) :
    fetKept setting mask word (some payload) = true ↔ 0 ≤ setting ∨ 21 ≤ payload.length := by
  unfold fetKept
  simp only [Option.any_some,off,fetOff]
  simp only [List.mem_cons,List.not_mem_nil,or_false] at known
  rcases known with rfl | rfl | rfl <;> simp

private theorem fetsKept_reported (args : List Bytes) (s : Settings) (payload : Bytes) (operands : List Bytes)
    (read : readOptions args = .ok (s,operands)) :
    fetsKept s (some payload) (fetBits s (byteAt payload 20).toUInt16) = true ↔
      0 ≤ s.charge ∧ 0 ≤ s.discharge ∨ 21 ≤ payload.length := by
  obtain ⟨charge,discharge⟩ := readOptions_fets args s operands read
  unfold fetsKept
  rw [Bool.and_eq_true,fetKept_reported _ _ _ _ charge (fetBits_charge s _),
    fetKept_reported _ _ _ _ discharge (fetBits_discharge s _)]
  exact and_or_right.symm

/-- What `-g` and `-G` write is as asked for and otherwise as the pack was, exactly where
they name both FETs or the reply to the status, if the write comes about, has the byte. -/
theorem main_fets (script : Nat → ReadResult 256) (rwBuf parmData : Nat → Mem UInt8) (env : Env) (args : List Bytes)
    (w : World Nat) :
    (∀ s operands, readOptions args = .ok (s,operands) →
      ∀ packet ∈ fetFrames false (main (scripted script rwBuf parmData) env args w).events,
        fetsKept s (hwinfoReply script w.line).1 (fetWord packet)) ↔
    ∀ s operands, readOptions args = .ok (s,operands) → FetsWritten script env s w.line →
      0 ≤ s.charge ∧ 0 ≤ s.discharge ∨ ∃ payload, (hwinfoReply script w.line).1 = some payload ∧ 21 ≤ payload.length := by
  refine forall_congr' fun s => forall_congr' fun operands => forall_congr' fun read => ?_
  obtain ⟨missing,written⟩ := main_sends script rwBuf parmData env args s operands w read
  by_cases reached : FetsWritten script env s w.line
  · obtain ⟨n,payload,positive,reply,sent,-⟩ := written reached
    rw [sent,reply]
    have kept := fetsKept_reported args s payload operands read
    constructor
    · intro all _
      have one := all _ (List.mem_replicate.mpr ⟨by omega,rfl⟩)
      rw [fetWord_frame] at one
      exact (kept.mp one).imp_right fun long => ⟨payload,rfl,long⟩
    · intro condition packet member
      obtain ⟨-,rfl⟩ := List.mem_replicate.mp member
      rw [fetWord_frame]
      refine kept.mpr ((condition reached).imp_right ?_)
      rintro ⟨payload',same,long⟩
      rwa [Option.some.inj same]
  · rw [(missing reached).1]
    exact ⟨fun _ absurd => (reached absurd).elim,fun _ packet member => by cases member⟩

/-- Error replies without payload to the status, then answers to the start. -/
def emptyStatus (n : Nat) : ReadResult 256 :=
  if n < 3 then .bytes (frame (UInt8.ofNat (3 + n)) 0x80 []) (error_fits n) else .bytes (frame 0 0 []) (by simp [frame])

def chargeOn : List Bytes := [bytes "-t",bytes "serial:x",bytes "-g",bytes "on"]

/-- The discharge FET is switched off. -/
theorem chargeOn_discharge : ¬ ∀ s operands, readOptions chargeOn = .ok (s,operands) →
    ∀ packet ∈ fetFrames false
        (main (scripted emptyStatus (fun _ _ => 0) (fun _ _ => 0)) plainEnv chargeOn (World.start 0)).events,
      fetsKept s (hwinfoReply emptyStatus 0).1 (fetWord packet) := by
  intro kept
  have read : readOptions chargeOn = .ok ({Settings.initial with
      charge := 1
      transport := some (bytes "serial")
      target := bytes "x"},[]) := rfl
  have switched := kept _ _ read
  revert switched
  decide +kernel

end Jbdtool
