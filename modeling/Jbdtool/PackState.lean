import Jbdtool.CanRetries
import Jbdtool.Base.Runs
import Mathlib.Data.Nat.Bitwise

/-! The state word of a pack over many reads, on either kind of transport: which of its
bits follow the last FET status received. -/
namespace Jbdtool
open CString Numbers Traced Runs
variable {τ : Type}

private theorem mask_iff (word v : UInt16) (k : Nat) (one : v.toNat = 2^k) :
    word &&& v ≠ 0 ↔ word.toNat.testBit k = true := by
  rw [ne_eq,← UInt16.toNat_inj,UInt16.toNat_and,one,Nat.and_two_pow]
  cases word.toNat.testBit k <;> simp

def flagged (state v : UInt16) (on : Bool) : UInt16 :=
  if on then mybmmSetState state v else mybmmClearState state v

private theorem flagged_bit (state v : UInt16) (on : Bool) (k i : Nat) (one : v.toNat = 2^k) :
    (flagged state v on).toNat.testBit i = if i = k then on else state.toNat.testBit i := by
  have single : v.toNat.testBit i = decide (i = k) := by
    rw [one,Nat.testBit_two_pow,decide_eq_decide]
    exact eq_comm
  cases on with
  | true =>
    change (state ||| v).toNat.testBit i = _
    rw [UInt16.toNat_or,Nat.testBit_or,single]
    by_cases here : i = k <;> simp [here]
  | false =>
    have inverse : (~~~v).toNat = 2^16 - (v.toNat + 1) := by
      rw [UInt16.toNat_not,UInt16.size]
      omega
    change (state &&& ~~~v).toNat.testBit i = _
    rw [UInt16.toNat_and,Nat.testBit_and,inverse,Nat.testBit_two_pow_sub_succ v.toNat_lt,single]
    rcases Nat.lt_or_ge i 16 with below | above
    · by_cases here : i = k <;> simp [here,below]
    · have none : state.toNat.testBit i = false :=
        Nat.testBit_lt_two_pow (state.toNat_lt.trans_le (Nat.pow_le_pow_right (by omega) above))
      simp [none]

def charging (fet : UInt16) : Bool := fet &&& jbdMosCharge ≠ 0

def discharging (fet : UInt16) : Bool := fet &&& jbdMosDischarge ≠ 0

/-- The bits of the state word that a read sets or clears. -/
def followedBits : UInt16 := mybmmPackStateCharging ||| mybmmPackStateDischarging ||| mybmmPackStateBalancing

def stateAfter (can balancing : Bool) (fet state : UInt16) : UInt16 :=
  flagged (flagged (flagged state mybmmPackStateCharging (charging fet))
    mybmmPackStateDischarging (!can || discharging fet)) mybmmPackStateBalancing balancing

theorem stateAfter_bit (can balancing : Bool) (fet state : UInt16) (i : Nat) :
    (stateAfter can balancing fet state).toNat.testBit i = if i = 3 then balancing else
      if i = 2 then !can || discharging fet else if i = 1 then charging fet else state.toNat.testBit i := by
  unfold stateAfter
  rw [flagged_bit _ _ _ 3 i rfl,flagged_bit _ _ _ 2 i rfl,flagged_bit _ _ _ 1 i rfl]

section
variable (can balancing : Bool) (fet state : UInt16)

private theorem stateAfter_charging :
    stateAfter can balancing fet state &&& mybmmPackStateCharging ≠ 0 ↔ fet &&& jbdMosCharge ≠ 0 := by
  have taken : (fet &&& jbdMosCharge ≠ 0) ↔ charging fet = true := decide_eq_true_iff.symm
  rw [mask_iff _ _ 1 rfl,stateAfter_bit,taken]
  rfl

theorem stateAfter_discharging : stateAfter can balancing fet state &&& mybmmPackStateDischarging ≠ 0 ↔
    can = false ∨ fet &&& jbdMosDischarge ≠ 0 := by
  have taken : (fet &&& jbdMosDischarge ≠ 0) ↔ discharging fet = true := decide_eq_true_iff.symm
  rw [mask_iff _ _ 2 rfl,stateAfter_bit,taken]
  cases can <;> simp

private theorem stateAfter_balancing :
    stateAfter can balancing fet state &&& mybmmPackStateBalancing ≠ 0 ↔ balancing = true := by
  rw [mask_iff _ _ 3 rfl,stateAfter_bit]
  rfl

end

private theorem stateAfter_others (can balancing : Bool) (fet state : UInt16) :
    stateAfter can balancing fet state &&& ~~~followedBits = state &&& ~~~followedBits := by
  apply UInt16.toNat_inj.mp
  apply Nat.eq_of_testBit_eq
  intro i
  rw [UInt16.toNat_and,UInt16.toNat_and,Nat.testBit_and,Nat.testBit_and,stateAfter_bit]
  split_ifs with three two one
  · rw [three,show (~~~followedBits).toNat.testBit 3 = false by decide,Bool.and_false,Bool.and_false]
  · rw [two,show (~~~followedBits).toNat.testBit 2 = false by decide,Bool.and_false,Bool.and_false]
  · rw [one,show (~~~followedBits).toNat.testBit 1 = false by decide,Bool.and_false,Bool.and_false]
  · rfl

/-- A read of the pack: the transport and its state, and whether the pack is balancing. -/
structure ReadCall (τ : Type) where
  host : Host τ
  world : World τ
  balancing : Bool

/-- The bytes of the first frame that passes the check, where only failed frames come before it. -/
def intactContent : List Attempt → Option Bytes
  | .frame content _::rest => if canIntact (padded content) then some content else intactContent rest
  | _ => none

namespace ReadCall

def fetAttempts (call : ReadCall τ) : List Attempt :=
  attempts call.host 0x103 4 (jbdCanGet call.host 0x102 true call.world).state.line

def hwinfo (call : ReadCall τ) : Option Bytes :=
  (exchange call.host (frame jbdCmdRead jbdCmdHwinfo []) 7 jbdCmdHwinfo 5 call.world.line).value

/-- The FET status that arrives: byte 20 of the HWINFO reply or the first word of frame
0x103, if they are that long. -/
def fetReceived (call : ReadCall τ) : Option UInt16 :=
  if call.host.can then (intactContent call.fetAttempts).bind fun content =>
    if 2 ≤ content.length then some (UInt16.ofInt (shortAt content 0)) else none
  else call.hwinfo.bind fun payload => payload[20]?.map UInt8.toUInt16

/-- The FET status the call works with: past its end a reply reads as zero. -/
def fetTaken (call : ReadCall τ) : UInt16 :=
  if call.host.can then UInt16.ofInt (shortAt ((intactContent call.fetAttempts).getD []) 0)
  else (byteAt (call.hwinfo.getD []) 20).toUInt16

end ReadCall

private theorem cleared_byte (n : Nat) (content : Bytes) (i : Nat) (inside : i < n) :
    byteAt (copyInto content (List.replicate n 0)) i = byteAt content i := by
  unfold byteAt copyInto
  rw [List.length_replicate,List.drop_replicate,List.getD_eq_getElem?_getD,List.getD_eq_getElem?_getD,
    List.getElem?_take_of_lt inside]
  rcases Nat.lt_or_ge i content.length with early | late
  · rw [List.getElem?_append_left early]
  · rw [List.getElem?_append_right late,List.getElem?_eq_none late,List.getElem?_replicate]
    split_ifs <;> rfl

private theorem cut_word (hi : UInt8) : charging (UInt16.ofInt (getshort hi 0)) = false ∧
    discharging (UInt16.ofInt (getshort hi 0)) = false := by
  have word : (UInt16.ofInt (getshort hi 0)).toNat = hi.toNat * 2^8 := by
    have low := hi.toNat_lt
    rw [getshort,beSigned_word,beUnsigned_eq,UInt16.toNat_ofNat']
    change (hi.toNat * 256 + 0) % 2^16 = _
    omega
  have clear (k : Nat) (below : k < 8) : ¬ (UInt16.ofInt (getshort hi 0)).toNat.testBit k = true := by
    rw [word,Nat.testBit_mul_two_pow,decide_eq_false (by omega),Bool.false_and]
    exact Bool.false_ne_true
  exact ⟨decide_eq_false fun set => clear 0 (by omega) ((mask_iff _ _ 0 rfl).mp set),
    decide_eq_false fun set => clear 1 (by omega) ((mask_iff _ _ 1 rfl).mp set)⟩

private theorem fetTaken_received (call : ReadCall τ) (fet : UInt16) (received : call.fetReceived = some fet) :
    call.fetTaken = fet := by
  unfold ReadCall.fetReceived at received
  unfold ReadCall.fetTaken
  split_ifs at received ⊢
  · obtain ⟨content,found,word⟩ := Option.bind_eq_some_iff.mp received
    split_ifs at word
    rw [found,Option.getD_some]
    exact Option.some.inj word
  · obtain ⟨payload,found,byte⟩ := Option.bind_eq_some_iff.mp received
    obtain ⟨b,there,rfl⟩ := Option.map_eq_some_iff.mp byte
    rw [found,Option.getD_some,byteAt,List.getD_eq_getElem?_getD,there,Option.getD_some]

private theorem fetTaken_missing (call : ReadCall τ) (missing : call.fetReceived = none) :
    charging call.fetTaken = false ∧ discharging call.fetTaken = false := by
  unfold ReadCall.fetReceived at missing
  unfold ReadCall.fetTaken
  split_ifs at missing ⊢
  · have cut : byteAt ((intactContent call.fetAttempts).getD []) 1 = 0 := by
      cases found : intactContent call.fetAttempts with
      | none => rfl
      | some content =>
        rw [found,Option.bind_some,ite_eq_right_iff] at missing
        have short : content.length < 2 := by
          by_contra long
          exact Option.some_ne_none _ (missing (by omega))
        rw [Option.getD_some,byteAt,List.getD_eq_getElem?_getD,List.getElem?_eq_none (by omega),Option.getD_none]
    rw [shortAt,cut]
    exact cut_word _
  · have zero : charging 0 = false ∧ discharging 0 = false := by decide
    cases found : call.hwinfo with
    | none => exact zero
    | some payload =>
      rw [found,Option.bind_some,Option.map_eq_none_iff] at missing
      rw [Option.getD_some,byteAt,List.getD_eq_getElem?_getD,missing,Option.getD_none]
      exact zero

def Decoded (call : ReadCall τ) (state : UInt16) (r : Int × Pack) : Prop :=
  r.1 = 0 → r.2.state = stateAfter call.host.can call.balancing call.fetTaken state

private theorem decoded_failed (call : ReadCall τ) (state : UInt16) (pp : Pack) : Decoded call state (1,pp) := fun ok => by
  simp at ok

private theorem flagged_mask (fet v state w : UInt16) : flagged state w (fet &&& v ≠ 0) =
    if fet &&& v ≠ 0 then mybmmSetState state w else mybmmClearState state w := by
  unfold flagged
  simp only [decide_eq_true_eq]

theorem stateAfter_can (balancing : Bool) (fet state : UInt16) : stateAfter true balancing fet state =
    let state := if fet &&& jbdMosCharge ≠ 0 then mybmmSetState state mybmmPackStateCharging
      else mybmmClearState state mybmmPackStateCharging
    let state := if fet &&& jbdMosDischarge ≠ 0 then mybmmSetState state mybmmPackStateDischarging
      else mybmmClearState state mybmmPackStateDischarging
    if balancing then mybmmSetState state mybmmPackStateBalancing
    else mybmmClearState state mybmmPackStateBalancing := by
  dsimp only
  rw [← flagged_mask,← flagged_mask]
  rfl

theorem stateAfter_serial (balancing : Bool) (fet state : UInt16) : stateAfter false balancing fet state =
    let state := if fet &&& jbdMosCharge ≠ 0 then mybmmSetState state mybmmPackStateCharging
      else mybmmClearState state mybmmPackStateCharging
    let state := if fet &&& jbdMosDischarge ≠ 0 then mybmmSetState state mybmmPackStateDischarging
      else mybmmSetState state mybmmPackStateDischarging
    if balancing then mybmmSetState state mybmmPackStateBalancing
    else mybmmClearState state mybmmPackStateBalancing := by
  dsimp only
  rw [← flagged_mask,ite_self]
  rfl

private theorem jbdGetPack_decoded (call : ReadCall τ) (serial : call.host.can = false) (pp : Pack) :
    Decoded call pp.state (jbdGetPack call.host call.balancing pp call.world).value := by
  have taken : call.fetTaken = (byteAt (call.hwinfo.getD []) 20).toUInt16 := by
    rw [ReadCall.fetTaken,serial]
    rfl
  unfold ReadCall.hwinfo at taken
  unfold jbdGetPack
  rw [readReply,jbdRw_bind,request_read,List.length_replicate]
  generalize exchange call.host (frame jbdCmdRead jbdCmdHwinfo []) 7 jbdCmdHwinfo 5 call.world.line = reply at *
  cases first : reply.value with
  | none =>
    have failed : (settle 128 none).1 < 0 := by simp [settle]
    rw [if_pos failed]
    exact decoded_failed _ _ _
  | some payload =>
    have byte : byteAt (settle 128 (some payload)).2 20 = byteAt payload 20 := by
      simp only [settle]
      exact cleared_byte 128 payload 20 (by omega)
    rw [first,Option.getD_some,← byte] at taken
    rw [if_neg (settle_received 128 payload),Outcome.after_value]
    refine (results_bind fun temps => results_bind fun volts => ?_ : Results (Decoded call pp.state) _) _
    refine results_ite (fun _ => results_pure (decoded_failed _ _ _)) fun _ => ?_
    refine results_bind fun cells => results_pure fun _ => ?_
    change (decodePack call.host call.balancing (settle 128 (some payload)).2 pp).state = _
    rw [serial,taken]
    exact (stateAfter_serial _ _ _).symm

private theorem firstIntact_content (list : List Attempt) (k : Nat) (data : Bytes) (first : firstIntact list = some (k,data)) :
    ∃ content, intactContent list = some content ∧ data = padded content := by
  induction list generalizing k with
  | nil => cases first
  | cons a list ih =>
    cases a with
    | unsent => cases first
    | unread => cases first
    | frame content fits =>
      rw [firstIntact] at first
      rw [intactContent]
      split_ifs at first ⊢
      · obtain ⟨-,rfl⟩ := Prod.mk.inj (Option.some.inj first)
        exact ⟨content,rfl,rfl⟩
      · obtain ⟨r,later,same⟩ := Option.map_eq_some_iff.mp first
        obtain ⟨-,rfl⟩ := Prod.mk.inj same
        exact ih r.1 later

private theorem jbdCanGet_content (host : Host τ) (id : Nat) (w : World τ) (ok : (jbdCanGet host id true w).value.1 = 0) :
    ∃ content, intactContent (attempts host id 4 w.line) = some content ∧
      (jbdCanGet host id true w).value.2 = padded content := by
  obtain ⟨k,-,accepted⟩ := (jbdCanGet_zero host id w _).mp (Prod.ext ok rfl)
  exact firstIntact_content _ k _ ((firstIntact_iff _ k _).mpr accepted)

private theorem decoded_frame (call : ReadCall τ) (state : UInt16) (id : Nat) (pp : Pack)
    (k : Int × Bytes → Program τ (Int × Pack)) (w : World τ)
    (rest : (jbdCanGet call.host id true w).value.1 = 0 → Decoded call state
      (k (jbdCanGet call.host id true w).value (jbdCanGet call.host id true w).state).value) :
    Decoded call state ((do
      let r ← jbdCanGet call.host id true
      if r.1 ≠ 0 then return (1,pp)
      k r) w).value := by
  rw [bind_run,Outcome.after_value]
  split_ifs with missing
  · exact decoded_failed _ _ _
  · exact rest (not_not.mp missing)

private theorem jbdCanGetPack_decoded (call : ReadCall τ) (bus : call.host.can = true) (pp : Pack) :
    Decoded call pp.state (jbdCanGetPack call.host call.balancing pp call.world).value := by
  have failed (pp' : Pack) : Results (Decoded call pp.state) (pure (1,pp') : Program τ _) := results_pure (decoded_failed _ _ _)
  unfold jbdCanGetPack
  refine decoded_frame call _ _ _ _ _ fun _ => decoded_frame call _ _ _ _ _ fun ok => ?_
  obtain ⟨content,found,bytes⟩ := jbdCanGet_content call.host 0x103 _ ok
  have taken : call.fetTaken = UInt16.ofInt (shortAt (padded content) 0) := by
    have here : intactContent call.fetAttempts = some content := found
    unfold shortAt
    rw [ReadCall.fetTaken,if_pos bus,here,padded,cleared_byte _ _ _ (by omega),cleared_byte _ _ _ (by omega)]
    rfl
  rw [bytes]
  refine decoded_frame call _ _ _ _ _ fun _ => ?_
  refine (results_bind fun temps => results_ite (fun _ => failed _) fun _ => ?_ : Results (Decoded call pp.state) _) _
  refine results_bind fun cells => results_ite (fun _ => failed _) fun _ => results_pure fun _ => ?_
  rw [bus,taken]
  exact (stateAfter_can _ _ _).symm

private theorem jbdRead_decoded (call : ReadCall τ) (pp : Pack) :
    Decoded call pp.state (jbdRead call.host call.balancing pp call.world).value := by
  unfold jbdRead
  split_ifs with kind
  · exact jbdCanGetPack_decoded call kind pp
  · exact jbdGetPack_decoded call (Bool.eq_false_of_not_eq_true kind) pp

/-- The pack after some reads, the last FET status received and the last balancing flag. -/
structure PackRun where
  pack : Pack
  last : Option UInt16
  balancing : Bool

namespace PackRun

def start (prior : Pack) : PackRun where
  pack := prior
  last := none
  balancing := false

/-- A read that succeeds, with counts inside the arrays of the pack. -/
def read (s : PackRun) (call : ReadCall τ) : Option PackRun :=
  let r := (jbdRead call.host call.balancing s.pack call.world).value
  if r.1 = 0 ∧ r.2.cells ≤ Region.packCells.size ∧ r.2.ntemps ≤ Region.packTemps.size then
    some ⟨r.2,call.fetReceived.or s.last,call.balancing⟩
  else none

/-- The state word says what the last reply said, and is otherwise the prior one. -/
structure Follows (prior : Pack) (s : PackRun) : Prop where
  charging : ∀ fet, s.last = some fet →
    (s.pack.state &&& mybmmPackStateCharging ≠ 0 ↔ fet &&& jbdMosCharge ≠ 0)
  discharging : ∀ fet, s.last = some fet →
    (s.pack.state &&& mybmmPackStateDischarging ≠ 0 ↔ fet &&& jbdMosDischarge ≠ 0)
  balancing : s.pack.state &&& mybmmPackStateBalancing ≠ 0 ↔ s.balancing = true
  others : s.pack.state &&& ~~~followedBits = prior.state &&& ~~~followedBits

/-- Over a serial transport the status received allows discharging; a reply too short to
have one agrees with the status before it. -/
def Refreshed (s : PackRun) (call : ReadCall τ) : Prop :=
  match call.fetReceived with
  | some fet => call.host.can = true ∨ fet &&& jbdMosDischarge ≠ 0
  | none => ∀ fet, s.last = some fet →
    fet &&& jbdMosCharge = 0 ∧ (fet &&& jbdMosDischarge ≠ 0 ↔ call.host.can = false)

variable {prior : Pack} {s t : PackRun} {call : ReadCall τ}

private theorem refreshed_set {fet : UInt16} (received : call.fetReceived = some fet) (set : fet &&& jbdMosDischarge ≠ 0) :
    Refreshed s call := by
  rw [Refreshed,received]
  exact .inr set

private theorem read_state (enabled : s.read call = some t) :
    t.pack.state = stateAfter call.host.can call.balancing call.fetTaken s.pack.state ∧
      t.last = call.fetReceived.or s.last ∧ t.balancing = call.balancing := by
  simp only [read] at enabled
  split_ifs at enabled with accepted
  obtain rfl := Option.some.inj enabled
  exact ⟨jbdRead_decoded call s.pack accepted.1,rfl,rfl⟩

private theorem read_others (enabled : s.read call = some t) :
    t.pack.state &&& ~~~followedBits = s.pack.state &&& ~~~followedBits := by
  rw [(read_state enabled).1]
  exact stateAfter_others _ _ _ _

private theorem read_follows (kept : s.pack.state &&& ~~~followedBits = prior.state &&& ~~~followedBits)
    (enabled : s.read call = some t) : Follows prior t ↔ Refreshed s call := by
  have others := (read_others enabled).trans kept
  obtain ⟨word,last,flag⟩ := read_state enabled
  have balancing : t.pack.state &&& mybmmPackStateBalancing ≠ 0 ↔ t.balancing = true := by
    rw [word,flag]
    exact stateAfter_balancing _ _ _ _
  have bits : Follows prior t ↔ ∀ fet, t.last = some fet →
      (call.fetTaken &&& jbdMosCharge ≠ 0 ↔ fet &&& jbdMosCharge ≠ 0) ∧
        ((call.host.can = false ∨ call.fetTaken &&& jbdMosDischarge ≠ 0) ↔ fet &&& jbdMosDischarge ≠ 0) := by
    rw [← stateAfter_charging call.host.can call.balancing call.fetTaken s.pack.state,
      ← stateAfter_discharging call.host.can call.balancing call.fetTaken s.pack.state,← word]
    exact ⟨fun follows fet seen => ⟨follows.charging fet seen,follows.discharging fet seen⟩,
      fun both => ⟨fun fet seen => (both fet seen).1,fun fet seen => (both fet seen).2,balancing,others⟩⟩
  rw [bits,last,Refreshed]
  cases received : call.fetReceived with
  | some fet =>
    rw [fetTaken_received call fet received,Option.some_or]
    constructor
    · intro both
      have same := (both fet rfl).2
      by_cases kind : call.host.can = true
      · exact .inl kind
      · exact .inr (same.mp (.inl (Bool.eq_false_of_not_eq_true kind)))
    · rintro allowed fet' seen
      obtain rfl := Option.some.inj seen
      refine ⟨Iff.rfl,⟨fun either => ?_,.inr⟩⟩
      rcases either with serial | set
      · exact allowed.resolve_left (by simp [serial])
      · exact set
  | none =>
    obtain ⟨charge,discharge⟩ := fetTaken_missing call received
    have charge : ¬ call.fetTaken &&& jbdMosCharge ≠ 0 := of_decide_eq_false charge
    have discharge : ¬ call.fetTaken &&& jbdMosDischarge ≠ 0 := of_decide_eq_false discharge
    rw [Option.none_or]
    refine forall_congr' fun fet => imp_congr_right fun _ => ?_
    rw [iff_false_left charge,not_not,or_iff_left discharge]
    exact and_congr_right fun _ => iff_comm

end PackRun

/-- The state word follows the last reply in every run of reads whose serial replies
allow discharging, and in no other. -/
theorem jbdRead_follows_iff (prior : Pack) (calls : List (ReadCall τ)) (t : PackRun)
    (succeeded : run PackRun.read (.start prior) calls = some t) :
    After PackRun.read (PackRun.Follows prior) (.start prior) calls ↔
      Meets PackRun.read PackRun.Refreshed (.start prior) calls :=
  after_iff (fun s => s.pack.state &&& ~~~followedBits = prior.state &&& ~~~followedBits) _
    (fun _ _ _ kept enabled => PackRun.read_follows kept enabled)
    (fun _ _ _ kept _ enabled => (PackRun.read_others enabled).trans kept) _ t calls rfl succeeded

def emptyPack : Pack where
  voltage := 0
  current := 0
  capacity := 0
  balancebits := 0
  state := 0
  cells := 0
  ntemps := 0
  temps := fun _ => 0
  cellvolt := fun _ => 0

def replyOf (content : Bytes) : ReadResult 256 := if fits : content.length ≤ 256 then .bytes content fits else .error

/-- A battery without cells and probes, with this FET status. -/
def serialCall (fet : UInt8) (balancing : Bool) : ReadCall Nat where
  host := scripted (fun n => replyOf (if n = 0 then frame jbdCmdHwinfo 0 (List.replicate 20 0 ++ [fet,0,0])
    else frame jbdCmdCellinfo 0 [])) (fun _ _ => 0) (fun _ _ => 0)
  world := World.start 0
  balancing := balancing

theorem jbdRead_follows_twice : After PackRun.read (PackRun.Follows emptyPack) (.start emptyPack)
    [serialCall 3 true,serialCall 2 false] := by
  have ran : (run PackRun.read (.start emptyPack) [serialCall 3 true,serialCall 2 false]).isSome = true := by
    decide +kernel
  obtain ⟨t,succeeded⟩ := Option.isSome_iff_exists.mp ran
  have first : (serialCall 3 true).fetReceived = some 3 := by decide +kernel
  have second : (serialCall 2 false).fetReceived = some 2 := by decide +kernel
  rw [jbdRead_follows_iff emptyPack [serialCall 3 true,serialCall 2 false] t succeeded]
  apply meets_everywhere
  intro call member s
  rcases List.mem_pair.mp member with here | here
  · rw [← here] at first
    exact PackRun.refreshed_set first (by decide)
  · rw [← here] at second
    exact PackRun.refreshed_set second (by decide)

theorem jbdRead_follows_undischarged : ∃ t, run PackRun.read (.start emptyPack) [serialCall 1 false] = some t ∧
    ¬ After PackRun.read (PackRun.Follows emptyPack) (.start emptyPack) [serialCall 1 false] := by
  have ran : (PackRun.read (.start emptyPack) (serialCall 1 false)).map
      (fun t => (t.last,t.pack.state &&& mybmmPackStateDischarging)) = some (some 1,4) := by
    decide +kernel
  obtain ⟨t,enabled,seen⟩ := Option.map_eq_some_iff.mp ran
  obtain ⟨last,bit⟩ := Prod.mk.inj seen
  have reached : run PackRun.read (.start emptyPack) [serialCall 1 false] = some t := by
    rw [run_cons _ t _ _ enabled,run]
  refine ⟨t,reached,fun after => ?_⟩
  rw [After,Meets] at after
  have follows := after.1 t enabled
  have set : t.pack.state &&& mybmmPackStateDischarging ≠ 0 := by
    rw [bit]
    decide
  exact (follows.discharging 1 last).mp set rfl

end Jbdtool
