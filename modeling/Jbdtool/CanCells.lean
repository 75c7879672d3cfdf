import Jbdtool.CanRetries

/-! The cell voltages of a status and of a pack on the CAN bus: ten frames of three words
each, so at most 30 cells. -/
namespace Jbdtool
open CString Numbers Traced
variable {τ : Type}

abbrev CanFrame := {content : Bytes // content.length = 8}

def Answers (host : Host τ) (f : Nat → CanFrame) : Prop :=
  ∀ line id content fits, (host.canRead line id).1 = .bytes content fits → content = (f id).1

def cellCount (f : Nat → CanFrame) : Nat := (byteAt (f 0x104).1 0).toNat

def cellWord (f : Nat → CanFrame) (i : Nat) : Nat := ushortAt (f (0x107 + i / 3)).1 (2 * (i % 3))

def Event.Asks (ids : Nat → Prop) : Event → Prop
  | .canWrote id => ids id
  | _ => True

/-- Identifiers of frames with cells that are there, of other frames named, or of those in front. -/
def CellIds (f : Nat → CanFrame) (others : List Nat) (id : Nat) : Prop :=
  0x107 ≤ id → (∃ i < cellCount f, id = 0x107 + i / 3) ∨ id ∈ others

/-- Every cell has the word that its frame has for it, and beyond the temperatures no frame
is requested but those of the cells and the others named. -/
structure EveryCell (host : Host τ) (f : Nat → CanFrame) (others : List Nat) (cellvolt : Mem ℚ) (events : List Event) :
    Prop where
  cells : ∀ i < cellCount f, cellvolt i = cellVolt host (cellWord f i)
  asked : ∀ e ∈ events, e.Asks (CellIds f others)

section
variable {host : Host τ} {f : Nat → CanFrame}

theorem padded_frame (frame : CanFrame) : padded frame.1 = frame.1 := by
  have size := frame.2
  simp [padded,copyInto,size]

private theorem attempts_frame (answers : Answers host f) (id n : Nat) (line : τ) (content : Bytes) (fits : content.length ≤ 8)
    (member : .frame content fits ∈ attempts host id n line) : content = (f id).1 := by
  induction n generalizing line with
  | zero => cases member
  | succ n ih =>
    rcases List.mem_cons.mp member with here | behind
    · unfold attempt at here
      dsimp only at here
      split_ifs at here
      generalize read : host.canRead (host.canWrite line id).2 id = result at here
      obtain ⟨_ | ⟨content',fits'⟩,next⟩ := result
      · cases here
      · obtain ⟨rfl⟩ := Attempt.frame.inj here
        exact answers _ _ content fits (congrArg Prod.fst read)
    · exact ih _ behind

private theorem jbdCanGet_frame (answers : Answers host f) (id : Nat) (w : World τ)
    (read : (jbdCanGet host id true w).value.1 = 0) :
    (jbdCanGet host id true w).value = (0,(f id).1) := by
  have whole : (jbdCanGet host id true w).value = (0,(jbdCanGet host id true w).value.2) := Prod.ext read rfl
  obtain ⟨k,-,-,content,fits,there,same,-⟩ := (jbdCanGet_zero host id w _).mp whole
  have sent := attempts_frame answers id 4 w.line content fits (List.mem_of_getElem? there)
  rw [whole,same,sent,padded_frame]

private theorem asks_canGetLoop {ids : Nat → Prop} {id : Nat} (known : ids id) {datalen rounds : Nat} {chk : Bool}
    {data : Bytes} :
    Emits (Event.Asks ids) (jbdCanGetLoop host id datalen chk rounds data) :=
  canGetLoop_emits known (fun _ => trivial) (fun _ => trivial) _ _ _ _

private theorem asks_touch {ids : Nat → Prop} {region : Region} {first count : Nat} :
    Emits (Event.Asks ids) (emitTouch region first count : Program τ Unit) :=
  emits_emit trivial

private theorem asks_decodeFrames {ids : Nat → Prop} {region : Region} {limit : Nat} {g : Bytes → Nat → ℚ} {list : List Nat}
    {i : Nat} {array : Mem ℚ} (known : ∀ k id, list[k]? = some id → i + 3 * k < limit ∨ k = 0 → ids id) :
    Emits (Event.Asks ids) (decodeFrames host region limit g list i array) := by
  induction list generalizing i array with
  | nil => exact emits_pure _
  | cons id list ih =>
    refine emits_bind (asks_canGetLoop (known 0 id rfl (.inr rfl))) fun _ => emits_ite (fun _ => emits_pure _) fun _ => ?_
    refine emits_bind asks_touch fun _ => emits_ite (fun _ => emits_pure _) fun _ => ?_
    refine emits_bind asks_touch fun _ => emits_ite (fun _ => emits_pure _) fun _ => ?_
    refine emits_bind asks_touch fun _ => emits_ite (fun _ => emits_pure _) fun more => ih fun k id there wanted => ?_
    exact known (k + 1) id there (.inl (by omega))

private theorem asks_canModel {ids : Nat → Prop} {frames : List (Nat × Nat)} {model : Mem UInt8}
    (known : ∀ frame ∈ frames, ids frame.1) :
    Emits (Event.Asks ids) (canModel host frames model) := by
  induction frames generalizing model with
  | nil => exact emits_pure _
  | cons frame frames ih =>
    obtain ⟨here,others⟩ := List.forall_mem_cons.mp known
    refine emits_bind (asks_canGetLoop here) fun _ => emits_ite (fun _ => emits_pure _) fun _ => ?_
    exact emits_bind asks_touch fun _ => ih others

def frameWords (g : Bytes → Nat → ℚ) (f : Nat → CanFrame) (id : Nat) : List ℚ := [g (f id).1 0,g (f id).1 2,g (f id).1 4]

private theorem decodeFrames_words (answers : Answers host f) {region : Region} {limit : Nat} {g : Bytes → Nat → ℚ}
    {list : List Nat} {i : Nat} {array : Mem ℚ} {w : World τ} (room : i < limit)
    (read : (decodeFrames host region limit g list i array w).value.1 = true) :
    (decodeFrames host region limit g list i array w).value.2 =
      Mem.overlay array i ((list.flatMap (frameWords g f)).take (limit - i)) := by
  induction list generalizing i array w with
  | nil =>
    funext j
    simp [decodeFrames,Mem.overlay]
  | cons id list ih =>
    rw [decodeFrames,bind_run,Outcome.after_value] at read ⊢
    by_cases failed : (jbdCanGet host id true w).value.1 ≠ 0
    · rw [if_pos failed] at read
      cases read
    rw [if_neg failed] at read ⊢
    rw [jbdCanGet_frame answers id w (not_not.mp failed)] at read ⊢
    simp only [emitTouch_bind,Outcome.after_value,ite_run,pure_run] at read ⊢
    have two (a b : ℚ) : Mem.overlay (Mem.overlay array i [a]) (i + 1) [b] = Mem.overlay array i [a,b] :=
      Mem.overlay_next array i (i + 1) [a] [b] rfl
    have three (a b c : ℚ) : Mem.overlay (Mem.overlay array i [a,b]) (i + 2) [c] = Mem.overlay array i [a,b,c] :=
      Mem.overlay_next array i (i + 2) [a,b] [c] rfl
    rw [List.flatMap_cons,frameWords]
    split_ifs at read ⊢ with one both all
    · obtain ⟨rfl⟩ : limit = i + 1 := by omega
      simp
    · obtain ⟨rfl⟩ : limit = i + 2 := by omega
      simp [two]
    · obtain ⟨rfl⟩ : limit = i + 3 := by omega
      simp [two,three]
    · simp only [Outcome.after_value] at read ⊢
      have four (a b c : ℚ) (rest : List ℚ) :
          Mem.overlay (Mem.overlay array i [a,b,c]) (i + 3) rest = Mem.overlay array i (a::b::c::rest) :=
        Mem.overlay_next array i (i + 3) [a,b,c] rest rfl
      have more : limit - i = limit - (i + 3) + 3 := by omega
      rw [ih (by omega) read,two,three,four,more]
      rfl

theorem flatMap_words (g : Bytes → Nat → ℚ) (list : List Nat) (i : Nat) :
    (list.flatMap (frameWords g f))[i]? = (list[i / 3]?).map (fun id => g (f id).1 (2 * (i % 3))) := by
  induction list generalizing i with
  | nil => rfl
  | cons id list ih =>
    rw [List.flatMap_cons]
    match i with
    | 0 | 1 | 2 => rfl
    | i + 3 =>
      have next : (frameWords g f id ++ list.flatMap (frameWords g f))[i + 3]? = (list.flatMap (frameWords g f))[i]? := rfl
      rw [next,ih,Nat.add_div_right _ (by omega),Nat.add_mod_right]
      rfl

/-- Success gives a result that satisfies `post`, with requests for these identifiers only. -/
def CanReads {β : Type} (ids : Nat → Prop) (post : β → Prop) (o : Outcome (World τ) Event (Int × β)) : Prop :=
  o.value.1 = 0 → post o.value.2 ∧ o.Always (Event.Asks ids)

section
variable {β : Type} {ids : Nat → Prop} {post : β → Prop}

theorem canReads_pure {result : β} (w : World τ) (holds : post result) : CanReads ids post ((pure (0,result) : Program τ (Int × β)) w) :=
  fun _ => ⟨holds,by simp [Outcome.Always]⟩

private theorem canReads_after {o : Outcome (World τ) Event (Int × β)} {events : List Event} (asked : ∀ e ∈ events, e.Asks ids)
    (rest : CanReads ids post o) : CanReads ids post (o.after events) := by
  intro zero
  obtain ⟨holds,always⟩ := rest zero
  exact ⟨holds,(Outcome.always_after o events _).mpr ⟨asked,always⟩⟩

theorem canReads_frame (answers : Answers host f) {id : Nat} (known : ids id) {result : β}
    {k : Int × Bytes → Program τ (Int × β)} (rest : ∀ w, CanReads ids post (k (0,(f id).1) w)) (w : World τ) :
    CanReads ids post ((do
      let r ← jbdCanGet host id true
      if r.1 ≠ 0 then return (1,result)
      k r) w) := by
  rw [bind_run]
  refine canReads_after (asks_canGetLoop known w) ?_
  split_ifs with failed
  · exact fun zero => by cases zero
  · rw [jbdCanGet_frame answers id w (not_not.mp failed)]
    exact rest _

theorem canReads_frames (answers : Answers host f) {region : Region} {limit : Nat} {g : Bytes → Nat → ℚ} {list : List Nat}
    {array : Mem ℚ} (known : ∀ k id, list[k]? = some id → 3 * k < limit ∨ k = 0 → ids id) {result : Mem ℚ → β}
    {k : Bool × Mem ℚ → Program τ (Int × β)}
    (rest : ∀ w array', (0 < limit → array' = Mem.overlay array 0 ((list.flatMap (frameWords g f)).take limit)) →
      CanReads ids post (k (true,array') w)) (w : World τ) :
    CanReads ids post ((do
      let r ← decodeFrames host region limit g list 0 array
      if !r.1 then return (1,result r.2)
      k r) w) := by
  rw [bind_run]
  refine canReads_after (asks_decodeFrames (fun k id there wanted => known k id there (by simpa using wanted)) w) ?_
  split_ifs with failed
  · exact fun zero => by cases zero
  · have came : (decodeFrames host region limit g list 0 array w).value.1 = true := by simpa using failed
    have whole : (decodeFrames host region limit g list 0 array w).value =
      (true,(decodeFrames host region limit g list 0 array w).value.2) := Prod.ext came rfl
    rw [whole]
    exact rest _ _ fun room => decodeFrames_words answers room came

end

/-- The cell voltages stored for a count that is not zero: the words of the ten frames, as many
as there are cells. -/
def CellsStored (host : Host τ) (f : Nat → CanFrame) (before after : Mem ℚ) : Prop :=
  0 < cellCount f → after = Mem.overlay before 0
    ((canCellIds.flatMap (frameWords (fun data i => cellVolt host (ushortAt data i)) f)).take (cellCount f))

private theorem tempIds_known (others : List Nat) (limit k id : Nat) (there : canTempIds[k]? = some id)
    (_ : 3 * k < limit ∨ k = 0) : CellIds f others id := by
  intro late
  have member := List.mem_of_getElem? there
  simp only [canTempIds,List.mem_cons,List.not_mem_nil,or_false] at member
  omega

private theorem cellIds_known (others : List Nat) (some : 1 ≤ cellCount f) (k id : Nat)
    (there : canCellIds[k]? = Option.some id) (wanted : 3 * k < cellCount f ∨ k = 0) : CellIds f others id := by
  intro _
  rw [canCellIds,List.getElem?_map,Option.map_eq_some_iff] at there
  obtain ⟨j,there,rfl⟩ := there
  have same : j = k := by simpa [eq_comm] using (List.getElem?_eq_some_iff.mp there).2
  subst same
  refine .inl ⟨3 * j,?_,by omega⟩
  omega

private theorem modelIds_known : ∀ frame ∈ canModelFrames, CellIds f [0x111,0x112,0x113,0x114] frame.1 := by
  intro frame member _
  exact .inr (List.mem_map_of_mem member : frame.1 ∈ canModelFrames.map Prod.fst)

private theorem canGetArrays_reads (answers : Answers host f) (some : 1 ≤ cellCount f) (info : JbdInfo)
    (count : info.strings = cellCount f) (w : World τ) :
    CanReads (CellIds f [0x111,0x112,0x113,0x114]) (fun r => CellsStored host f info.cellvolt r.cellvolt)
      (canGetArrays host info w) := by
  unfold canGetArrays CellsStored
  rw [← count]
  refine canReads_frames answers (tempIds_known _ _) (fun w temps _ => ?_) w
  refine canReads_frames answers (fun k id there wanted => ?_) (fun w cells stored => ?_) w
  · rw [JbdInfo.setTemps_strings,count] at wanted
    exact cellIds_known _ some k id there wanted
  rw [bind_run]
  refine canReads_after (asks_canModel modelIds_known w) ?_
  split_ifs
  · exact fun zero => by cases zero
  · exact canReads_pure _ stored

private theorem jbdCanGetInfo_reads (answers : Answers host f) (some : 1 ≤ cellCount f) (info : JbdInfo) (w : World τ) :
    CanReads (CellIds f [0x111,0x112,0x113,0x114]) (fun r => CellsStored host f info.cellvolt r.cellvolt)
      (jbdCanGetInfo host info w) := by
  have early (id : Nat) (small : id < 0x107) : CellIds f [0x111,0x112,0x113,0x114] id := fun late => by omega
  unfold jbdCanGetInfo
  refine canReads_frame answers (early _ (by omega)) (fun w => ?_) w
  refine canReads_frame answers (early _ (by omega)) (fun w => ?_) w
  refine canReads_frame answers (early _ (by omega)) (fun w => ?_) w
  refine canReads_frame answers (early _ (by omega)) (fun w => ?_) w
  refine canReads_frame answers (early _ (by omega)) (fun w => ?_) w
  exact canGetArrays_reads answers some _ rfl w

private theorem jbdCanGetPack_reads (answers : Answers host f) (some : 1 ≤ cellCount f) (balancing : Bool) (pp : Pack)
    (w : World τ) :
    CanReads (CellIds f []) (fun r => CellsStored host f pp.cellvolt r.cellvolt) (jbdCanGetPack host balancing pp w) := by
  have early (id : Nat) (small : id < 0x107) : CellIds f [] id := fun late => by omega
  -- The arrays of a pack whose counts have been read.
  have arrays (pp' : Pack) (count : pp'.cells = cellCount f) (kept : pp'.cellvolt = pp.cellvolt) (w : World τ) :
      CanReads (CellIds f []) (fun r => CellsStored host f pp.cellvolt r.cellvolt) ((do
        let temps ← decodeFrames host .packTemps pp'.ntemps (fun data i => ctemp host (shortAt data i)) canTempIds 0 pp'.temps
        let pp' := pp'.setTemps temps.2
        if !temps.1 then return (1,pp')
        let cells ← decodeFrames host .packCells pp'.cells (fun data i => cellVolt host (ushortAt data i)) canCellIds 0
          pp'.cellvolt
        let pp' := pp'.setCells cells.2
        if !cells.1 then return (1,pp')
        return (0,pp') : Program τ (Int × Pack)) w) := by
    unfold CellsStored
    rw [← count,← kept]
    refine canReads_frames answers (tempIds_known _ _) (fun w temps _ => ?_) w
    refine canReads_frames answers (fun k id there wanted => ?_) (fun w cells stored => canReads_pure _ stored) w
    rw [Pack.setTemps_cells,count] at wanted
    exact cellIds_known _ some k id there wanted
  unfold jbdCanGetPack
  refine canReads_frame answers (early _ (by omega)) (fun w => ?_) w
  refine canReads_frame answers (early _ (by omega)) (fun w => ?_) w
  refine canReads_frame answers (early _ (by omega)) (fun w => ?_) w
  refine arrays _ ?_ ?_ w <;> rfl

private theorem canCellIds_length : canCellIds.length = 10 := rfl

private theorem cells_flat (g : Bytes → Nat → ℚ) (list : List Nat) :
    (list.flatMap (frameWords g f)).length = 3 * list.length := by
  simp [List.length_flatMap,frameWords,Nat.mul_comm]

/-- What is stored is right for the first 30 cells; behind them is what was there before. -/
private theorem cellsStored_iff (some : 0 < cellCount f) {before after : Mem ℚ} (stored : CellsStored host f before after) :
    (∀ i < cellCount f, after i = cellVolt host (cellWord f i)) ↔
      ∀ i, 30 ≤ i → i < cellCount f → before i = cellVolt host (cellWord f i) := by
  have size := cells_flat (f := f) (fun data i => cellVolt host (ushortAt data i)) canCellIds
  rw [canCellIds_length] at size
  have early (i : Nat) (small : i < 30) (inside : i < cellCount f) : after i = cellVolt host (cellWord f i) := by
    have word := flatMap_words (f := f) (fun data i => cellVolt host (ushortAt data i)) canCellIds i
    have id : canCellIds[i / 3]? = Option.some (0x107 + i / 3) := by
      rw [canCellIds,List.getElem?_map,List.getElem?_range (by omega)]
      rfl
    rw [id,Option.map_some,← List.getElem?_take_of_lt inside] at word
    obtain ⟨bound,entry⟩ := List.getElem?_eq_some_iff.mp word
    have there := Mem.overlay_inside before 0 _ i bound
    rw [Nat.zero_add,← stored some] at there
    exact there.trans entry
  have late (i : Nat) (large : 30 ≤ i) : after i = before i := by
    rw [stored some]
    refine Mem.overlay_outside _ _ _ _ (.inr ?_)
    rw [List.length_take]
    omega
  constructor
  · intro right i large inside
    rw [← late i large,right i inside]
  · intro beyond i inside
    rcases Nat.lt_or_ge i 30 with small | large
    · exact early i small inside
    · rw [late i large,beyond i large inside]

/-- Every cell is read, into a status and into a pack, exactly up to 30 cells or where the
array had the words of the others before. -/
theorem everyCell_iff (answers : Answers host f) (some : 1 ≤ cellCount f) :
    (∀ (info : JbdInfo) (w : World τ), (jbdCanGetInfo host info w).value.1 = 0 →
      (EveryCell host f [0x111,0x112,0x113,0x114] (jbdCanGetInfo host info w).value.2.cellvolt
          (jbdCanGetInfo host info w).events ↔
        ∀ i, 30 ≤ i → i < cellCount f → info.cellvolt i = cellVolt host (cellWord f i))) ∧
    ∀ (balancing : Bool) (pp : Pack) (w : World τ), (jbdCanGetPack host balancing pp w).value.1 = 0 →
      (EveryCell host f [] (jbdCanGetPack host balancing pp w).value.2.cellvolt
          (jbdCanGetPack host balancing pp w).events ↔
        ∀ i, 30 ≤ i → i < cellCount f → pp.cellvolt i = cellVolt host (cellWord f i)) := by
  refine ⟨fun info w read => ?_,fun balancing pp w read => ?_⟩
  · obtain ⟨stored,asked⟩ := jbdCanGetInfo_reads answers some info w read
    rw [← cellsStored_iff some stored]
    exact ⟨fun every => every.cells,fun cells => ⟨cells,asked⟩⟩
  · obtain ⟨stored,asked⟩ := jbdCanGetPack_reads answers some balancing pp w read
    rw [← cellsStored_iff some stored]
    exact ⟨fun every => every.cells,fun cells => ⟨cells,asked⟩⟩

end

def canAnswering (f : Nat → CanFrame) : Host Nat :=
  {canScripted (fun _ => .error) with canRead := fun n id => (.bytes (f id).1 (f id).2.le,n)}

theorem canAnswering_answers (f : Nat → CanFrame) : Answers (canAnswering f) f := by
  intro line id content fits same
  cases same
  rfl

def twoCells (id : Nat) : CanFrame :=
  if id = 0x104 then ⟨[2,0,0,0,0,0,0,0],rfl⟩ else if id = 0x107 then ⟨[0x0C,0xE4,0x0D,0x48,0,0,0,0],rfl⟩
  else ⟨List.replicate 8 0,rfl⟩

theorem everyCell_two : EveryCell (canAnswering twoCells) twoCells [0x111,0x112,0x113,0x114]
    (jbdCanGetInfo (canAnswering twoCells) .zero (World.start 0)).value.2.cellvolt
    (jbdCanGetInfo (canAnswering twoCells) .zero (World.start 0)).events := by
  have count : cellCount twoCells = 2 := by decide
  refine ((everyCell_iff (canAnswering_answers twoCells) (by omega)).1 .zero (World.start 0) (by decide +kernel)).mpr ?_
  intro i large inside
  omega

def thirtyOneCells (id : Nat) : CanFrame :=
  if id = 0x104 then ⟨[31,0,0,0,0,0,0,0],rfl⟩ else if id = 0x111 then ⟨[0x0C,0xE4,0,0,0,0,0,0],rfl⟩
  else ⟨List.replicate 8 0,rfl⟩

theorem everyCell_thirtyOne : (jbdCanGetInfo (canAnswering thirtyOneCells) .zero (World.start 0)).value.1 = 0 ∧
    ¬ EveryCell (canAnswering thirtyOneCells) thirtyOneCells [0x111,0x112,0x113,0x114]
      (jbdCanGetInfo (canAnswering thirtyOneCells) .zero (World.start 0)).value.2.cellvolt
      (jbdCanGetInfo (canAnswering thirtyOneCells) .zero (World.start 0)).events := by
  refine ⟨by decide +kernel,fun every => ?_⟩
  have last := every.cells 30 (by decide +kernel)
  revert last
  decide +kernel

end Jbdtool
