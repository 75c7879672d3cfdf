import Jbdtool.Agreement
import Jbdtool.PackState

/-! The pack that other programs read, from one battery on a serial line and on the CAN bus. -/
namespace Jbdtool
open CString Numbers Traced
variable {τ σ : Type}

def Pack.visible (pp : Pack) : Pack :=
  {pp with
    cellvolt := fun i => if i < pp.cells then pp.cellvolt i else 0
    temps := fun i => if i < pp.ntemps then pp.temps i else 0}

/-- The pack after a read: the bus tells nothing of voltage, current and capacity. -/
def Battery.pack (b : Battery) (host : Host τ) (can balancing : Bool) (pp : Pack) : Pack where
  voltage := if can then pp.voltage else scaled host b.voltage.toNat 100
  current := if can then pp.current else scaled host (signed b.current) 100
  capacity := if can then pp.capacity else scaled host b.fullcap.toNat 100
  balancebits := UInt32.ofInt (signed b.balanceLow) ||| UInt32.ofInt (signed b.balanceHigh * 65536)
  state := stateAfter can balancing b.fetstate.toUInt16 pp.state
  cells := b.cells.length
  ntemps := b.temps.length
  cellvolt := fun i => if i < b.cells.length then cellVolt host (b.cells.getD i 0).toNat else 0
  temps := fun i => if i < b.temps.length then ctemp host (signed (b.temps.getD i 0)) else 0

private theorem pack_congr {r s : Pack} (rest : {r with cellvolt := s.cellvolt,temps := s.temps} = s)
    (cells : ∀ i < s.cells, r.cellvolt i = s.cellvolt i) (temps : ∀ i < s.ntemps, r.temps i = s.temps i) :
    r.visible = s.visible := by
  have strings := congrArg Pack.cells rest
  have probes := congrArg Pack.ntemps rest
  change r.cells = s.cells at strings
  change r.ntemps = s.ntemps at probes
  have cells' : (fun i => if i < r.cells then r.cellvolt i else 0) = fun i => if i < s.cells then s.cellvolt i else 0 := by
    funext i
    rw [strings]
    exact ite_congr rfl (cells i) fun _ => rfl
  have temps' : (fun i => if i < r.ntemps then r.temps i else 0) = fun i => if i < s.ntemps then s.temps i else 0 := by
    funext i
    rw [probes]
    exact ite_congr rfl (temps i) fun _ => rfl
  have split : r.visible = {({r with cellvolt := s.cellvolt,temps := s.temps} : Pack) with
    cellvolt := fun i => if i < r.cells then r.cellvolt i else 0
    temps := fun i => if i < r.ntemps then r.temps i else 0} := rfl
  rw [split,rest,cells',temps']
  rfl

private theorem pack_visible (b : Battery) (host : Host τ) (can balancing : Bool) (pp : Pack) :
    (b.pack host can balancing pp).visible = b.pack host can balancing pp := by
  have array (n : Nat) (values : Mem ℚ) : (fun i => if i < n then (if i < n then values i else 0) else 0) =
      fun i => if i < n then values i else 0 := by
    funext i
    split_ifs <;> rfl
  change {b.pack host can balancing pp with
    cellvolt := fun i => if i < b.cells.length then
      (if i < b.cells.length then cellVolt host (b.cells.getD i 0).toNat else 0) else 0
    temps := fun i => if i < b.temps.length then
      (if i < b.temps.length then ctemp host (signed (b.temps.getD i 0)) else 0) else 0} = _
  rw [array,array]
  rfl

section
variable {host : Host τ} {b : Battery}

private theorem ushortAt_congr {data data' : Bytes} (same : byteAt data = byteAt data') (i : Nat) :
    ushortAt data i = ushortAt data' i := by
  rw [ushortAt,ushortAt,same]

private theorem decodePack_congr {data data' : Bytes} (same : byteAt data = byteAt data') (balancing : Bool) (pp : Pack) :
    decodePack host balancing data pp = decodePack host balancing data' pp := by
  simp only [decodePack,ushortAt,shortAt,same]

private theorem decodePack_pack (balancing : Bool) (pp : Pack) : decodePack host balancing (b.payload jbdCmdHwinfo) pp =
    ((b.pack host false balancing pp).setTemps pp.temps).setCells pp.cellvolt := by
  have bytes (i : Nat) (inside : i < 5) := counted_byte b i inside
  have cells := b.fewCells
  have temps := b.fewTemps
  unfold decodePack
  rw [leading_ushort b 0 (by omega),leading_short b 1 (by omega),leading_ushort b 3 (by omega),leading_short b 6 (by omega),
    leading_short b 7 (by omega),bytes 2 (by omega),bytes 3 (by omega),bytes 4 (by omega)]
  have strings : (byteAt b.counted 3).toNat = b.cells.length := count_byte (by omega)
  have probes : (byteAt b.counted 4).toNat = b.temps.length := count_byte (by omega)
  rw [strings,probes,Battery.pack,stateAfter_serial]
  rfl

/-- What the replies of the battery leave in a pack. -/
private theorem jbdGetPack_pack (replies : RepliesOf host b) (balancing : Bool) (pp : Pack) (w : World τ) :
    Reports (fun r => r.visible = b.pack host false balancing pp) (jbdGetPack host balancing pp w) := by
  have fits (reg : UInt8) : (b.payload reg).length ≤ 128 := (payload_length b reg).trans (by decide)
  unfold jbdGetPack readReply
  refine reports_reply replies (fun w => ?_) w
  rw [List.length_replicate]
  have word := byteAt_settle b jbdCmdHwinfo 128 (fits _)
  generalize (settle 128 (some (b.payload jbdCmdHwinfo))).2 = data at word
  rw [decodePack_congr word,decodePack_pack]
  refine reports_words (fun w => ?_) w
  refine reports_reply replies (fun w => ?_) w
  refine reports_words (fun w => ?_) w
  have word' := byteAt_settle b jbdCmdCellinfo 128 (fits _)
  rw [List.length_replicate]
  generalize (settle 128 (some (b.payload jbdCmdCellinfo))).2 = cellData at word'
  intro _
  refine (pack_congr (s := b.pack host false balancing pp) rfl (fun i inside => ?_) (fun i inside => ?_)).trans
    (pack_visible b host false balancing pp)
  · have there := decodedWords_get 0 cellData (fun data i => cellVolt host (ushortAt data i)) b.cells.length 0 pp.cellvolt i inside
    have word : ushortAt cellData (0 + 2 * i) = (b.cells.getD i 0).toNat := by
      rw [Nat.zero_add,ushortAt_congr word']
      exact ushortAt_words b.cells i
    rw [Nat.zero_add,word] at there
    exact there.trans (if_pos inside).symm
  · have there := decodedWords_get 23 data (fun data i => ctemp host (shortAt data i)) b.temps.length 0 pp.temps i inside
    rw [Nat.zero_add,shortAt_congr word,temp_short] at there
    exact there.trans (if_pos inside).symm

private theorem frames_pack {f : Nat → CanFrame} (frames : FramesOf f b) (balancing : Bool) (pp : Pack) :
    {pp with
      balancebits := UInt32.ofInt (shortAt (f 0x102).1 0) ||| UInt32.ofInt (shortAt (f 0x102).1 2 * 65536)
      state := stateAfter true balancing (UInt16.ofInt (shortAt (f 0x103).1 0)) pp.state
      cells := (byteAt (f 0x104).1 0).toNat
      ntemps := (byteAt (f 0x104).1 1).toNat} =
    ((b.pack host true balancing pp).setTemps pp.temps).setCells pp.cellvolt := by
  have cells := b.fewCells
  have temps := b.fewTemps
  have length : (b.content 0x104).length = 2 := rfl
  have strings : byteAt (f 0x104).1 0 = UInt8.ofNat b.cells.length := frame_byte frames (by rw [length]; omega)
  have probes : byteAt (f 0x104).1 1 = UInt8.ofNat b.temps.length := frame_byte frames (by rw [length]; omega)
  have short (id i : Nat) (inside : i < 3) (u v w : UInt16) (content : b.content id = [u,v,w].flatMap wordBytes) :
      shortAt (f id).1 (2 * i) = signed ([u,v,w].getD i 0) := frame_short frames content inside
  have fet : shortAt (f 0x103).1 0 = signed b.fetstate.toUInt16 := short 0x103 0 (by omega) _ _ _ rfl
  rw [short 0x102 0 (by omega) _ _ _ rfl,short 0x102 1 (by omega) _ _ _ rfl,fet,strings,probes,ofInt_signed,count_byte (by omega),
    count_byte (by omega)]
  rfl

/-- What the frames of the battery leave in a pack. -/
private theorem jbdCanGetPack_pack {f : Nat → CanFrame} (answers : Answers host f) (frames : FramesOf f b)
    (balancing : Bool) (pp : Pack)
    (w : World τ) : CanReads (fun _ => True) (fun r => r.visible = b.pack host true balancing pp) (jbdCanGetPack host balancing pp w) := by
  have few := b.fewCells
  have few' := b.fewTemps
  have arrays (w : World τ) : CanReads (fun _ => True) (fun r => r.visible = b.pack host true balancing pp) ((do
      let pp := ((b.pack host true balancing pp).setTemps pp.temps).setCells pp.cellvolt
      let temps ← decodeFrames host .packTemps pp.ntemps (fun data i => ctemp host (shortAt data i)) canTempIds 0 pp.temps
      let pp := pp.setTemps temps.2
      if !temps.1 then return (1,pp)
      let cells ← decodeFrames host .packCells pp.cells (fun data i => cellVolt host (ushortAt data i)) canCellIds 0 pp.cellvolt
      let pp := pp.setCells cells.2
      if !cells.1 then return (1,pp)
      return (0,pp) : Program τ (Int × Pack)) w) := by
    refine canReads_frames answers (fun _ _ _ _ => trivial) (fun w temps temps' => ?_) w
    refine canReads_frames answers (fun _ _ _ _ => trivial) (fun w cells cells' => canReads_pure _ ?_) w
    refine (pack_congr (s := b.pack host true balancing pp) rfl (fun i inside => ?_) (fun i inside => ?_)).trans
      (pack_visible b host true balancing pp)
    · change i < b.cells.length at inside
      exact (stored_cell frames cells' inside).trans (if_pos inside).symm
    · change i < b.temps.length at inside
      exact (stored_temp frames temps' inside).trans (if_pos inside).symm
  unfold jbdCanGetPack
  refine canReads_frame answers trivial (fun w => ?_) w
  refine canReads_frame answers trivial (fun w => ?_) w
  refine canReads_frame answers trivial (fun w => ?_) w
  rw [← frames_pack frames,stateAfter_can] at arrays
  exact arrays w

private theorem jbdRead_line (std : host.can = false) (replies : RepliesOf host b) (balancing : Bool) (pp : Pack)
    (w : World τ) :
    Reports (fun r => r.visible = b.pack host false balancing pp) (jbdRead host balancing pp w) := by
  rw [jbdRead,std]
  exact jbdGetPack_pack replies balancing pp w

private theorem jbdRead_bus (can : host.can = true) {f : Nat → CanFrame} (answers : Answers host f)
    (frames : FramesOf f b) (balancing : Bool)
    (pp : Pack) (w : World τ) : Reports (fun r => r.visible = b.pack host true balancing pp) (jbdRead host balancing pp w) := by
  rw [jbdRead,can]
  exact fun zero => (jbdCanGetPack_pack answers frames balancing pp w zero).1

end

private theorem pack_host {serial : Host τ} {bus : Host σ} (single : bus.single = serial.single)
    (double : bus.double = serial.double)
    (b : Battery) (can balancing : Bool) (pp : Pack) : b.pack bus can balancing pp = b.pack serial can balancing pp := by
  simp only [Battery.pack,scaled,ctemp,cellVolt,single,double]

private theorem stateAfter_agree (balancing : Bool) (fet state : UInt16) :
    stateAfter false balancing fet state = stateAfter true balancing fet state ↔ fet &&& jbdMosDischarge ≠ 0 := by
  constructor
  · intro same
    have flag := stateAfter_discharging true balancing fet state
    rw [← same,stateAfter_discharging] at flag
    simpa using flag
  · intro on
    have discharging : discharging fet = true := decide_eq_true on
    rw [stateAfter,stateAfter,discharging]
    rfl

private theorem stateAfter_rest (balancing : Bool) (fet state : UInt16) :
    stateAfter false balancing fet state &&& ~~~mybmmPackStateDischarging =
      stateAfter true balancing fet state &&& ~~~mybmmPackStateDischarging := by
  apply UInt16.toNat_inj.mp
  apply Nat.eq_of_testBit_eq
  intro i
  rw [UInt16.toNat_and,UInt16.toNat_and,Nat.testBit_and,Nat.testBit_and,stateAfter_bit,stateAfter_bit]
  by_cases two : i = 2
  · have cleared : (~~~mybmmPackStateDischarging).toNat.testBit 2 = false := by decide
    rw [two,cleared,Bool.and_false,Bool.and_false]
  · rw [if_neg two,if_neg two]

/-- One battery read as a pack over both transports: the bus leaves voltage, current and
capacity as they were, the line reports discharging even with its FET off, and all else is the same. -/
theorem jbdRead_agree {serial : Host τ} {bus : Host σ} {b : Battery} {f : Nat → CanFrame} (std : serial.can = false)
    (can : bus.can = true) (single : bus.single = serial.single) (double : bus.double = serial.double)
    (replies : RepliesOf serial b) (answers : Answers bus f) (frames : FramesOf f b) (balancing : Bool) (pp : Pack) (v : World τ)
    (w : World σ) (line : (jbdRead serial balancing pp v).value.1 = 0) (frame : (jbdRead bus balancing pp w).value.1 = 0) :
    let r := (jbdRead serial balancing pp v).value.2
    let s := (jbdRead bus balancing pp w).value.2
    s.visible = {r.visible with voltage := pp.voltage,current := pp.current,capacity := pp.capacity,state := s.state} ∧
      (r.state = s.state ↔ b.fetstate.toUInt16 &&& jbdMosDischarge ≠ 0) ∧
      r.state &&& ~~~mybmmPackStateDischarging = s.state &&& ~~~mybmmPackStateDischarging := by
  intro r s
  have first : r.visible = _ := jbdRead_line std replies balancing pp v line
  have second : s.visible = _ := jbdRead_bus can answers frames balancing pp w frame
  rw [pack_host single double] at second
  have state : r.state = stateAfter false balancing b.fetstate.toUInt16 pp.state := congrArg Pack.state first
  have state' : s.state = stateAfter true balancing b.fetstate.toUInt16 pp.state := congrArg Pack.state second
  refine ⟨?_,?_,?_⟩
  · rw [first,second,state']
    rfl
  · rw [state,state']
    exact stateAfter_agree _ _ _
  · rw [state,state']
    exact stateAfter_rest _ _ _

theorem jbdRead_agree_two :
    let r := (jbdRead twoCellBattery.serial false emptyPack (World.start 0)).value.2
    let s := (jbdRead (canAnswering twoCellBattery.frames) false emptyPack (World.start 0)).value.2
    s.visible = {r.visible with voltage := 0,current := 0,capacity := 0,state := s.state} ∧ r.state = s.state := by
  have line : (jbdRead twoCellBattery.serial false emptyPack (World.start 0)).value.1 = 0 := by decide +kernel
  have frame : (jbdRead (canAnswering twoCellBattery.frames) false emptyPack (World.start 0)).value.1 = 0 := by decide +kernel
  have std : twoCellBattery.serial.can = false := rfl
  have can : (canAnswering twoCellBattery.frames).can = true := rfl
  obtain ⟨rest,state,-⟩ := jbdRead_agree std can rfl rfl (serial_replies _) (canAnswering_answers _) (frames_framesOf _) false emptyPack
    (World.start 0) (World.start 0) line frame
  exact ⟨rest,state.mpr (by decide)⟩

end Jbdtool
