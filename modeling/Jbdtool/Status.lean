import Jbdtool.Info
import Mathlib.Data.List.GetD

/-! What reading and showing a status needs of the replies: how long they must be
for the values to have been received, and how large their counts may be for the
arrays to hold them. -/
namespace Jbdtool
open CString Numbers
variable {τ : Type}

def wordTouches (region : Region) (datasz offset : Nat) : Nat → Nat → List Event
  | 0, _ => []
  | count + 1, i => .touch (.buffer datasz) (offset + 2 * i) 2::.touch region i 1::
      wordTouches region datasz offset count (i + 1)

def decodedWords (offset : Nat) (data : Bytes) (f : Bytes → Nat → ℚ) : Nat → Nat → Mem ℚ → Mem ℚ
  | 0, _, array => array
  | count + 1, i, array =>
    decodedWords offset data f count (i + 1) (Mem.overlay array i [f data (offset + 2 * i)])

private theorem decodeWords_run (region : Region) (datasz offset : Nat) (data : Bytes) (f : Bytes → Nat → ℚ)
    (count i : Nat) (array : Mem ℚ) (w : World τ) :
    decodeWords region datasz offset data f count i array w =
      ⟨decodedWords offset data f count i array,w,wordTouches region datasz offset count i⟩ := by
  induction count generalizing i array with
  | zero => rfl
  | succ count ih =>
    simp only [decodeWords,emitTouch_bind,ih,decodedWords,wordTouches]
    rfl

@[simp] theorem decodeWords_bind {α : Type} (region : Region) (datasz offset : Nat) (data : Bytes)
    (f : Bytes → Nat → ℚ) (count i : Nat) (array : Mem ℚ) (k : Mem ℚ → Program τ α) (w : World τ) :
    (decodeWords region datasz offset data f count i array >>= k) w =
      (k (decodedWords offset data f count i array) w).after (wordTouches region datasz offset count i) :=
  Traced.bind_of_run (decodeWords_run region datasz offset data f count i array w) k

private theorem scanCells_state (host : Host τ) (cellvolt : Mem ℚ) (count i : Nat) (stats : CellStats) (w : World τ) :
    (scanCells host cellvolt count i stats w).state = w := by
  induction count generalizing i stats with
  | zero => rfl
  | succ count ih => simp only [scanCells,emitTouch_bind,Outcome.after_state,ih]

theorem settle_getD (datasz : Nat) (payload : Bytes) (i : Nat) (fits : payload.length ≤ datasz) :
    byteAt (settle datasz (some payload)).2 i = byteAt payload i := by
  rw [settle_fits datasz payload fits]
  unfold byteAt
  rcases Nat.lt_or_ge i payload.length with inside | past
  · rw [List.getD_append _ _ _ _ inside]
  · rw [List.getD_append_right _ _ _ _ past,List.getD_eq_default _ _ past]
    simp [List.getD_eq_getElem?_getD,List.getElem?_replicate]
    split <;> rfl

/-- The three reads of jbd_std_get_info decide its result; the counts and the FET state
it keeps are three bytes of the first reply. -/
theorem jbdStdGetInfo_replies (host : Host τ) (info : JbdInfo) (w : World τ) :
    let read (reg : UInt8) (line : τ) := exchange host (frame jbdCmdRead reg []) 7 reg 5 line
    let hw := read jbdCmdHwinfo w.line
    let cells := read jbdCmdCellinfo hw.state
    let ver := read jbdCmdHwver cells.state
    let o := jbdStdGetInfo host info w
    (o.value.1 = 0 ↔ hw.value ≠ none ∧ cells.value ≠ none ∧ ver.value ≠ none) ∧
      (o.value.1 = 0 → o.state.line = ver.state ∧ ∀ payload, hw.value = some payload →
        o.value.2.strings = (byteAt payload 21).toNat ∧ o.value.2.probes = (byteAt payload 22).toNat ∧
        o.value.2.fetstate = (byteAt payload 20).toUInt16) := by
  have negative (datasz : Nat) (reply : Option Bytes) : (settle datasz reply).1 < 0 ↔ reply = none := by
    cases reply with
    | none => simp [settle]
    | some payload => simp only [settle,reduceCtorEq,iff_false]; omega
  have short := exchange_length host (frame jbdCmdRead jbdCmdHwinfo []) 7 jbdCmdHwinfo 5 w.line
  simp only [jbdStdGetInfo,readReply,jbdRw_bind,request_read,Traced.ite_run,negative,decodeWords_bind,
    emitTouch_bind,List.length_replicate,Mem.slice_length]
  generalize exchange host (frame jbdCmdRead jbdCmdHwinfo []) 7 jbdCmdHwinfo 5 w.line = hw at short ⊢
  generalize exchange host (frame jbdCmdRead jbdCmdCellinfo []) 7 jbdCmdCellinfo 5 hw.state = cells
  generalize exchange host (frame jbdCmdRead jbdCmdHwver []) 7 jbdCmdHwver 5 cells.state = ver
  cases first : hw.value with
  | none => simp
  | some payload =>
    have fits := short payload first
    cases cells.value with
    | none => simp
    | some content =>
      cases ver.value with
      | none => simp
      | some name =>
        simp [decodeHwinfo,settle_getD 256 payload _ (by omega)]

theorem jbdGetInfo_std (host : Host τ) (info : JbdInfo) (w : World τ) (std : host.can = false) :
    let s := jbdStdGetInfo host info w
    let r := jbdGetInfo host info w
    (r.value.1 = 0 ↔ s.value.1 = 0) ∧ (s.value.1 = 0 → r.state = s.state ∧ r.value.2.strings = s.value.2.strings ∧
      r.value.2.probes = s.value.2.probes ∧ r.value.2.fetstate = s.value.2.fetstate) := by
  simp only [jbdGetInfo,std,Bool.false_eq_true,if_false,Traced.bind_run (jbdStdGetInfo host info)]
  generalize jbdStdGetInfo host info w = o
  by_cases failed : o.value.1 = 0
  · simp [failed,Traced.bind_run (scanCells _ _ _ _ _),JbdInfo.setStats,scanCells_state]
  · simp [failed]

/-- A status is reported only from bytes received, exactly when one of the three
replies is missing or the first two are as long as their own counts require. -/
theorem jbdGetInfo_received (script : Nat → ReadResult 256) (rwBuf parmData : Nat → Mem UInt8)
    (info : JbdInfo) (w : World Nat) :
    let hw := takeReply script jbdCmdHwinfo 5 w.line
    let cells := takeReply script jbdCmdCellinfo 5 hw.2
    let ver := takeReply script jbdCmdHwver 5 cells.2
    let r := (jbdGetInfo (scripted script rwBuf parmData) info w).value
    (r.1 = 0 → ∃ status volts, hw.1 = some status ∧ cells.1 = some volts ∧
      23 + 2 * r.2.probes ≤ status.length ∧ 2 * r.2.strings ≤ volts.length) ↔
    (hw.1 = none ∨ cells.1 = none ∨ ver.1 = none ∨ ∃ status volts, hw.1 = some status ∧ cells.1 = some volts ∧
      23 + 2 * (byteAt status 22).toNat ≤ status.length ∧ 2 * (byteAt status 21).toNat ≤ volts.length) := by
  intro hw cells ver r
  have taken (reg : UInt8) (start : Nat) :=
    exchange_takeReply script rwBuf parmData (frame jbdCmdRead reg []) 7 reg 5 start
  obtain ⟨same,counts⟩ := jbdGetInfo_std (scripted script rwBuf parmData) info w rfl
  have replies := jbdStdGetInfo_replies (scripted script rwBuf parmData) info w
  simp only [taken] at replies
  obtain ⟨all,decoded⟩ := replies
  have zero : r.1 = 0 ↔ hw.1 ≠ none ∧ cells.1 ≠ none ∧ ver.1 ≠ none := same.trans all
  have kept (ok : r.1 = 0) (status : Bytes) (known : hw.1 = some status) :
      r.2.strings = (byteAt status 21).toNat ∧ r.2.probes = (byteAt status 22).toNat := by
    obtain ⟨-,strings,probes,-⟩ := counts (same.mp ok)
    obtain ⟨strings',probes',-⟩ := (decoded (same.mp ok)).2 status known
    exact ⟨strings.trans strings',probes.trans probes'⟩
  constructor
  · intro received
    by_cases ok : r.1 = 0
    · obtain ⟨status,volts,known,knownVolts,long,longVolts⟩ := received ok
      obtain ⟨strings,probes⟩ := kept ok status known
      rw [probes] at long
      rw [strings] at longVolts
      exact .inr (.inr (.inr ⟨status,volts,known,knownVolts,long,longVolts⟩))
    · by_cases noStatus : hw.1 = none
      · exact .inl noStatus
      by_cases noVolts : cells.1 = none
      · exact .inr (.inl noVolts)
      by_cases noModel : ver.1 = none
      · exact .inr (.inr (.inl noModel))
      exact (ok (zero.mpr ⟨noStatus,noVolts,noModel⟩)).elim
  · intro condition ok
    obtain ⟨some1,some2,some3⟩ := zero.mp ok
    rcases condition with missing | missing | missing | ⟨status,volts,known,knownVolts,long,longVolts⟩
    · exact (some1 missing).elim
    · exact (some2 missing).elim
    · exact (some3 missing).elim
    · obtain ⟨strings,probes⟩ := kept ok status known
      exact ⟨status,volts,known,knownVolts,by rw [probes]; exact long,by rw [strings]; exact longVolts⟩

theorem error_fits (n : Nat) : (frame (UInt8.ofNat (3 + n)) 0x80 []).length ≤ 256 := by
  simp [frame]

def errorReplies (n : Nat) : ReadResult 256 := .bytes (frame (UInt8.ofNat (3 + n)) 0x80 []) (error_fits n)

theorem jbdGetInfo_unreceived :
    let hw := takeReply errorReplies jbdCmdHwinfo 5 0
    let cells := takeReply errorReplies jbdCmdCellinfo 5 hw.2
    let r := (jbdGetInfo (scripted errorReplies (fun _ _ => 0) (fun _ _ => 0)) JbdInfo.zero (World.start 0)).value
    ¬ (r.1 = 0 → ∃ status volts, hw.1 = some status ∧ cells.1 = some volts ∧
      23 + 2 * r.2.probes ≤ status.length ∧ 2 * r.2.strings ≤ volts.length) := by
  intro hw cells r received
  have empty : hw.1 = some [] := by decide
  obtain ⟨status,volts,known,-,long,-⟩ := received (by decide +kernel)
  rw [empty] at known
  obtain rfl := Option.some.inj known
  simp at long

end Jbdtool
