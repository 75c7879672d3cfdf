import Jbdtool.Status

/-! The arrays that a status passes through, and the counts they can hold. -/
namespace Jbdtool
open CString Numbers
variable {τ : Type}

def Bounded {α : Type} (m : Program τ α) (w : World τ) : Prop := (m w).Always Event.InBounds

theorem bounded_pure {α : Type} (a : α) (w : World τ) : Bounded (pure a) w := by
  simp [Bounded,Outcome.Always]

theorem bounded_bind {α β : Type} (m : Program τ α) (k : α → Program τ β) (w : World τ) :
    Bounded (m >>= k) w ↔ Bounded m w ∧ Bounded (k (m w).value) (m w).state :=
  Traced.always_bind Event.InBounds m k w

theorem bounded_touch (region : Region) (first count : Nat) (w : World τ) :
    Bounded (emitTouch region first count) w ↔ first + count ≤ region.size := by
  simp [Bounded,Outcome.Always,emitTouch]

private theorem bounded_output (fmt : Fmt) (label text : Bytes) (value : Option Json) (w : World τ) :
    Bounded (output fmt label value text) w := by
  unfold output Bounded
  split_ifs <;> simp [setRoot,Outcome.Always]

private theorem scanCells_bounded (host : Host τ) (cellvolt : Mem ℚ) (count i : Nat) (stats : CellStats) (w : World τ) :
    Bounded (scanCells host cellvolt count i stats) w ↔ count = 0 ∨ i + count ≤ 32 := by
  induction count generalizing i stats with
  | zero => simp [scanCells,bounded_pure]
  | succ count ih =>
    rw [scanCells,bounded_bind,bounded_touch]
    change _ ∧ Bounded (scanCells host cellvolt count (i + 1) _) w ↔ _
    rw [ih]
    simp only [Region.size]
    omega

private theorem displayFlat_bounded (fmt : Fmt) (region : Region) (key : Bytes) (digits : Nat) (array : Mem ℚ)
    (count i : Nat) (w : World τ) :
    Bounded (displayFlat fmt region key digits array count i) w ↔ count = 0 ∨ i + count ≤ region.size := by
  induction count generalizing i w with
  | zero => simp [displayFlat,bounded_pure]
  | succ count ih =>
    rw [displayFlat,bounded_bind,bounded_touch,bounded_bind,ih]
    simp only [dfloat,bounded_output,true_and]
    omega

private theorem joinElements_bounded (region : Region) (sep : UInt8) (digits : Nat) (array : Mem ℚ) (count i : Nat)
    (text : Bytes) (w : World τ) :
    Bounded (joinElements region sep digits array count i text) w ↔ count = 0 ∨ i + count ≤ region.size := by
  induction count generalizing i text w with
  | zero => simp [joinElements,bounded_pure]
  | succ count ih =>
    rw [joinElements,bounded_bind,bounded_touch,ih]
    omega

private theorem displayList_bounded (fmt : Fmt) (region : Region) (label : Bytes) (digits : Nat) (array : Mem ℚ)
    (count : Nat) (temp : Bytes) (w : World τ) :
    Bounded (displayList fmt region label digits array count temp) w ↔ count ≤ region.size := by
  unfold displayList
  by_cases json : fmt.outfmt = .json
  · have root (text : Bytes) (w : World τ) : Bounded (setRoot label (Json.parseString (text ++ bytes " ]"))) w := by
      simp [Bounded,setRoot,Outcome.Always]
    simp only [json,if_true,bounded_bind,joinElements_bounded,root,bounded_pure,and_true]
    omega
  · simp only [json,if_false,bounded_bind,joinElements_bounded,dstr,bounded_output,bounded_pure,and_true]
    omega

private theorem displayLists_bounded (host : Host τ) (fmt : Fmt) (info : JbdInfo) (w : World τ) :
    Bounded (displayLists host fmt info) w ↔ info.probes ≤ 6 ∧ info.strings ≤ 32 := by
  unfold displayLists
  split_ifs
  · rw [bounded_bind,displayFlat_bounded,displayFlat_bounded]
    simp only [Region.size]
    omega
  · rw [bounded_bind,displayList_bounded,bounded_bind,displayList_bounded]
    simp only [Region.size,bounded_pure,and_true]

/-- The loop stops after `strings` bits, or after the first when there are none. -/
private theorem balanceBits_bounded (bits : UInt64) (strings fuel i : Nat) (text : Bytes) (w : World τ)
    (few : strings < 40) (inside : i < max strings 1) (index : text.length = i) :
    Bounded (balanceBits bits strings fuel i text) w ∧
      (balanceBits bits strings fuel i text w).value.length < 40 := by
  induction fuel generalizing i text w with
  | zero => exact ⟨bounded_pure _ _,by simp only [balanceBits,Traced.pure_run]; omega⟩
  | succ fuel ih =>
    have touched : Bounded (emitTouch .balance i 1) w := (bounded_touch _ _ _ _).mpr (by simp only [Region.size]; omega)
    rw [balanceBits,bounded_bind,emitTouch_bind,Outcome.after_value]
    by_cases last : i + 1 ≥ strings
    · simp only [last,if_true]
      exact ⟨⟨touched,bounded_pure _ _⟩,by simp only [Traced.pure_run,List.length_append,List.length_singleton]; omega⟩
    · simp only [last,if_false]
      obtain ⟨bounded,short⟩ := ih (i + 1) (text ++ [if bits &&& (1 <<< UInt64.ofNat i) ≠ 0 then 49 else 48]) w
        (by omega) (by simp [index])
      exact ⟨⟨touched,bounded⟩,short⟩

private theorem displayBalance_bounded (fmt : Fmt) (info : JbdInfo) (w : World τ) (few : info.strings < 40) :
    Bounded (displayBalance fmt info) w := by
  obtain ⟨bounded,short⟩ := balanceBits_bounded info.balancebits info.strings 64 0 [] w few (by omega) rfl
  rw [displayBalance,bounded_bind,bounded_bind,bounded_touch]
  exact ⟨bounded,by simp only [Region.size]; omega,bounded_output _ _ _ _ _⟩

private theorem displayModel_bounded (fmt : Fmt) (model : Mem UInt8) (w : World τ) :
    Bounded (displayModel fmt model) w ↔ (Json.cstr (Mem.slice model 0 32)).length < 32 := by
  rw [displayModel,bounded_bind,bounded_touch]
  simp only [dstr,bounded_output,and_true,Region.size]
  omega

/-- Showing a status stays inside the arrays exactly when its counts fit them and
its model name ends. -/
private theorem displayInfo_bounded (host : Host τ) (fmt : Fmt) (info : JbdInfo) (w : World τ) :
    Bounded (displayInfo host fmt info) w ↔
      info.probes ≤ 6 ∧ info.strings ≤ 32 ∧ (Json.cstr (Mem.slice info.model 0 32)).length < 32 := by
  have name (w : World τ) : Bounded (displayName fmt info.name) w := by
    unfold displayName
    split_ifs
    · exact bounded_output _ _ _ _ _
    · exact bounded_pure _ _
  have avg (w : World τ) : Bounded (displayAvg fmt info.cellAvg) w := by
    cases info.cellAvg <;> exact bounded_output _ _ _ _ _
  have fet (w : World τ) : Bounded (displayFet fmt info.fetstate) w := by
    unfold displayFet
    split_ifs <;> exact bounded_output _ _ _ _ _
  have balance (w : World τ) (few : info.strings ≤ 32) : Bounded (displayBalance fmt info) w :=
    displayBalance_bounded fmt info w (by omega)
  simp only [displayInfo,bounded_bind,dfloat,duint,dstr,bounded_output,name,avg,fet,displayLists_bounded,
    displayModel_bounded,true_and,and_true]
  constructor
  · rintro ⟨counts,-,model⟩
    exact ⟨counts.1,counts.2,model⟩
  · rintro ⟨probes,strings,model⟩
    exact ⟨⟨probes,strings⟩,balance _ strings,model⟩

/-- What the scan and the display add to the reading of a status. -/
theorem showInfo_bounded (host : Host τ) (fmt : Fmt) (info : JbdInfo) (w : World τ) :
    let raw := if host.can then jbdCanGetInfo host info else jbdStdGetInfo host info
    Bounded (showInfo host fmt info) w ↔ Bounded raw w ∧ ((raw w).value.1 = 0 →
      (raw w).value.2.probes ≤ 6 ∧ (raw w).value.2.strings ≤ 32 ∧
        (Json.cstr (Mem.slice (raw w).value.2.model 0 32)).length < 32) := by
  intro raw
  have whole : jbdGetInfo host info = raw >>= fun r => if r.1 ≠ 0 then pure r else
      scanCells host r.2.cellvolt r.2.strings 0 ⟨host.single (42 / 10),0,0⟩ >>= fun stats =>
        pure (0,r.2.setStats host stats) := by
    unfold jbdGetInfo raw
    cases host.can <;> rfl
  rw [showInfo,whole,bind_assoc,bounded_bind]
  refine and_congr_right fun _ => ?_
  generalize (raw w).value = r
  by_cases failed : r.1 = 0
  · rw [if_neg (not_not.mpr failed)]
    simp only [failed,true_implies]
    rw [bind_assoc,bounded_bind,scanCells_bounded]
    simp only [pure_bind,if_true,displayInfo_bounded,JbdInfo.setStats]
    omega
  · simp [failed,bounded_pure]

private theorem wordTouches_inBounds (region : Region) (datasz offset count i : Nat) :
    (∀ e ∈ wordTouches region datasz offset count i, e.InBounds) ↔
      count = 0 ∨ (offset + 2 * (i + count) ≤ datasz ∧ i + count ≤ region.size) := by
  induction count generalizing i with
  | zero => simp [wordTouches]
  | succ count ih =>
    simp only [wordTouches,List.forall_mem_cons,Event.inBounds_touch,ih]
    simp only [Region.size]
    omega

private theorem bounded_after {α : Type} (m : Program τ α) (w : World τ) (o : Outcome (World τ) Event α)
    (events : List Event) (run : m w = o.after events) :
    Bounded m w ↔ (∀ e ∈ events, e.InBounds) ∧ o.Always Event.InBounds := by
  rw [Bounded,run,Outcome.always_after]

private theorem bounded_words {α : Type} (region : Region) (datasz offset : Nat) (data : Bytes) (f : Bytes → Nat → ℚ)
    (count : Nat) (array : Mem ℚ) (k : Mem ℚ → Program τ α) (w : World τ) :
    Bounded (decodeWords region datasz offset data f count 0 array >>= k) w ↔
      (count = 0 ∨ (offset + 2 * count ≤ datasz ∧ count ≤ region.size)) ∧
        Bounded (k (decodedWords offset data f count 0 array)) w := by
  rw [bounded_after _ _ _ _ (decodeWords_bind region datasz offset data f count 0 array k w),
    wordTouches_inBounds,Nat.zero_add]
  rfl

section
variable (script : Nat → ReadResult 256) (rwBuf parmData : Nat → Mem UInt8)

/-- A read that fails ends in a step that touches nothing; one that is answered must
fit the buffer, and the rest must be bounded after it. -/
private theorem bounded_read {α : Type} (reg : UInt8) (data : Bytes) (k : Int × Bytes → Program Nat α) (w : World Nat)
    (failed : ∀ data w, Bounded (k (-1,data)) w) :
    Bounded (jbdRw (scripted script rwBuf parmData) jbdCmdRead reg data >>= k) w ↔
      ∀ payload, (takeReply script reg 5 w.line).1 = some payload → payload.length ≤ data.length ∧
        Bounded (k (settle data.length (some payload)))
          {w with line := (takeReply script reg 5 w.line).2,rwCalls := w.rwCalls + 1} := by
  rw [bounded_after _ _ _ _ (jbdRw_bind _ _ _ _ _ _),rwEvents_inBounds,request_read]
  obtain ⟨value,state⟩ := exchange_takeReply script rwBuf parmData (frame jbdCmdRead reg []) 7 reg 5 w.line
  rw [value,state]
  have inside := exchange_inBounds (scripted script rwBuf parmData) (frame jbdCmdRead reg []) 7 reg 5 w.line
  rw [iff_true_intro inside,true_and]
  cases (takeReply script reg 5 w.line).1 with
  | none => simpa [Bounded,settle] using failed _ _
  | some payload => simp [Bounded]

/-- The probes and strings of a status, the cells that are read next and the length
of the model name fit jbd_info. -/
def StatusFits (start : Nat) : Prop :=
  let hw := takeReply script jbdCmdHwinfo 5 start
  let cells := takeReply script jbdCmdCellinfo 5 hw.2
  let ver := takeReply script jbdCmdHwver 5 cells.2
  ∀ status, hw.1 = some status → (byteAt status 22).toNat ≤ 6 ∧
    ∀ volts, cells.1 = some volts → (byteAt status 21).toNat ≤ 32 ∧
      ∀ name, ver.1 = some name → name.length < 32

private theorem takeReply_length (reg : UInt8) (retries start : Nat) (payload : Bytes)
    (found : (takeReply script reg retries start).1 = some payload) : payload.length ≤ 249 := by
  rw [← (exchange_takeReply script (fun _ _ => 0) (fun _ _ => 0) [] 0 reg retries start).1] at found
  exact exchange_length _ _ _ _ _ _ _ found

theorem settle_received (datasz : Nat) (payload : Bytes) : ¬ (settle datasz (some payload)).1 < 0 := by
  simp

private theorem jbdStdGetInfo_bounded (info : JbdInfo) (w : World Nat) :
    Bounded (jbdStdGetInfo (scripted script rwBuf parmData) info) w ↔ StatusFits script w.line := by
  unfold jbdStdGetInfo readReply StatusFits
  rw [bounded_read _ _ _ _ _ _ _ (fun _ _ => by simp [bounded_pure])]
  refine forall_congr' fun status => forall_congr' fun hw => ?_
  have short := takeReply_length script _ _ _ _ hw
  have probes : (decodeHwinfo (scripted script rwBuf parmData) (settle 256 (some status)).2 info).probes =
      (byteAt status 22).toNat := by simp [decodeHwinfo,settle_getD 256 status _ (by omega)]
  have strings : (decodeHwinfo (scripted script rwBuf parmData) (settle 256 (some status)).2 info).strings =
      (byteAt status 21).toNat := by simp [decodeHwinfo,settle_getD 256 status _ (by omega)]
  simp only [List.length_replicate]
  generalize decodeHwinfo (scripted script rwBuf parmData) (settle 256 (some status)).2 info = info at probes strings ⊢
  rw [if_neg (settle_received 256 status),bounded_words,bounded_read _ _ _ _ _ _ _ (fun _ _ => by simp [bounded_pure]),
    ← and_assoc]
  generalize decodedWords 23 _ _ _ _ info.temps = temps
  refine and_congr (by simp only [Region.size]; omega) (forall_congr' fun volts => forall_congr' fun cells => ?_)
  have shortVolts := takeReply_length script _ _ _ _ cells
  rw [List.length_replicate,if_neg (settle_received _ volts),bounded_words,
    bounded_read _ _ _ _ _ _ _ (fun _ _ => by simp [bounded_pure]),← and_assoc]
  generalize decodedWords 0 _ _ _ _ (info.setTemps temps).cellvolt = volts
  refine and_congr (by simp only [Region.size,JbdInfo.setTemps_strings]; omega)
    (forall_congr' fun name => forall_congr' fun ver => ?_)
  rw [if_neg (settle_received _ name),bounded_bind,bounded_touch]
  simp only [bounded_pure,and_true,Region.size,Mem.slice_length,settle,Int.toNat_natCast]
  omega

private theorem jbdStdGetInfo_model (host : Host τ) (info : JbdInfo) (w : World τ) :
    let read (reg : UInt8) (line : τ) := exchange host (frame jbdCmdRead reg []) 7 reg 5 line
    let hw := read jbdCmdHwinfo w.line
    let cells := read jbdCmdCellinfo hw.state
    let ver := read jbdCmdHwver cells.state
    let r := (jbdStdGetInfo host info w).value
    r.1 = 0 → ∃ name, ver.value = some name ∧ r.2.model name.length = 0 := by
  have received (n : Nat) : ¬ (n : Int) < 0 := by omega
  simp only [jbdStdGetInfo,readReply,jbdRw_bind,request_read,Traced.ite_run,decodeWords_bind,
    emitTouch_bind,List.length_replicate,Mem.slice_length]
  generalize exchange host (frame jbdCmdRead jbdCmdHwinfo []) 7 jbdCmdHwinfo 5 w.line = hw
  generalize exchange host (frame jbdCmdRead jbdCmdCellinfo []) 7 jbdCmdCellinfo 5 hw.state = cells
  generalize exchange host (frame jbdCmdRead jbdCmdHwver []) 7 jbdCmdHwver 5 cells.state = ver
  cases hw.value with
  | none => simp
  | some status =>
    cases cells.value with
    | none => simp [received]
    | some volts =>
      cases ver.value with
      | none => simp [received]
      | some name => simp [received,Mem.overlay]

theorem cstr_ended (s : Bytes) : (Json.cstr s).length < s.length ↔ 0 ∈ s := by
  induction s with
  | nil => simp [Json.cstr]
  | cons c s ih =>
    unfold Json.cstr at ih ⊢
    by_cases zero : c = 0
    · simp [zero]
    · have other : (0 : UInt8) ≠ c := fun same => zero same.symm
      rw [List.takeWhile_cons_of_pos (by simpa using zero)]
      simp [other,← ih]

private theorem slice_mem {α : Type} (mem : Mem α) (base len : Nat) (a : α) :
    a ∈ Mem.slice mem base len ↔ ∃ i < len, mem (base + i) = a := by
  simp [Mem.slice]

theorem showInfo_std_bounded (fmt : Fmt) (info : JbdInfo) (w : World Nat) :
    Bounded (showInfo (scripted script rwBuf parmData) fmt info) w ↔ StatusFits script w.line := by
  refine (showInfo_bounded _ fmt info w).trans ?_
  have std : (scripted script rwBuf parmData).can = false := rfl
  simp only [std,Bool.false_eq_true,if_false,jbdStdGetInfo_bounded]
  refine and_iff_left_of_imp fun fits read => ?_
  have taken (reg : UInt8) (start : Nat) :=
    exchange_takeReply script rwBuf parmData (frame jbdCmdRead reg []) 7 reg 5 start
  have replies := jbdStdGetInfo_replies (scripted script rwBuf parmData) info w
  have model := jbdStdGetInfo_model (scripted script rwBuf parmData) info w
  simp only [taken] at replies model
  obtain ⟨all,counts⟩ := replies
  obtain ⟨name,ver,ended⟩ := model read
  obtain ⟨some1,some2,-⟩ := all.mp read
  obtain ⟨status,hw⟩ := Option.ne_none_iff_exists'.mp some1
  obtain ⟨volts,cells⟩ := Option.ne_none_iff_exists'.mp some2
  obtain ⟨strings,probes,-⟩ := (counts read).2 status hw
  obtain ⟨few,rest⟩ := fits status hw
  obtain ⟨fewCells,rest⟩ := rest volts cells
  have short := rest name ver
  refine ⟨probes.trans_le few,strings.trans_le fewCells,?_⟩
  have zero : (0 : UInt8) ∈ Mem.slice (jbdStdGetInfo (scripted script rwBuf parmData) info w).value.2.model 0 32 :=
    (slice_mem _ _ _ _).mpr ⟨name.length,short,by rw [Nat.zero_add]; exact ended⟩
  simpa using (cstr_ended _).mpr zero

/-- The replies fit the 128 bytes that jbd_get_pack reads into and its counts the
arrays of the pack. -/
def PackFits (start : Nat) : Prop :=
  let hw := takeReply script jbdCmdHwinfo 5 start
  let cells := takeReply script jbdCmdCellinfo 5 hw.2
  ∀ status, hw.1 = some status → status.length ≤ 128 ∧ (byteAt status 22).toNat ≤ 8 ∧
    ∀ volts, cells.1 = some volts → volts.length ≤ 128 ∧ (byteAt status 21).toNat ≤ 32

theorem jbdGetPack_bounded (balancing : Bool) (pp : Pack) (w : World Nat) :
    Bounded (jbdGetPack (scripted script rwBuf parmData) balancing pp) w ↔ PackFits script w.line := by
  unfold jbdGetPack readReply PackFits
  rw [bounded_read _ _ _ _ _ _ _ (fun _ _ => by simp [bounded_pure])]
  refine forall_congr' fun status => forall_congr' fun hw => ?_
  simp only [List.length_replicate]
  rw [if_neg (settle_received 128 status)]
  refine and_congr_right fun short => ?_
  have ntemps : (decodePack (scripted script rwBuf parmData) balancing (settle 128 (some status)).2 pp).ntemps =
      (byteAt status 22).toNat := by simp [decodePack,settle_getD 128 status _ short]
  have strings : (decodePack (scripted script rwBuf parmData) balancing (settle 128 (some status)).2 pp).cells =
      (byteAt status 21).toNat := by simp [decodePack,settle_getD 128 status _ short]
  generalize decodePack (scripted script rwBuf parmData) balancing (settle 128 (some status)).2 pp = pack
    at ntemps strings ⊢
  rw [bounded_words,bounded_read _ _ _ _ _ _ _ (fun _ _ => by simp [bounded_pure])]
  generalize decodedWords 23 _ _ _ _ pack.temps = temps
  refine and_congr (by simp only [Region.size]; omega) (forall_congr' fun volts => forall_congr' fun cells => ?_)
  rw [List.length_replicate,if_neg (settle_received 128 volts),bounded_words]
  simp only [bounded_pure,and_true,Region.size,Pack.setTemps_cells]
  omega

end

end Jbdtool
