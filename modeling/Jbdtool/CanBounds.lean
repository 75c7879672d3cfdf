import Jbdtool.Bounds

/-! The arrays of a status and of a pack when both come from CAN frames. -/
namespace Jbdtool
open CString Numbers
variable {τ : Type}

/-- A CAN bus on which the n-th read gives `script n`. -/
def canScripted (script : Nat → ReadResult 8) : Host Nat :=
  {scripted (fun _ => .error) (fun _ _ => 0) (fun _ _ => 0) with
    can := true
    canRead := fun n _ => (script n,n + 1)}

section
variable (script : Nat → ReadResult 8) (chk : Bool)

/-- The frame that `rounds` reads from read `start` on give, and the first read not made. -/
def takeFrame : Nat → Nat → Option Bytes × Nat
  | 0, start => (none,start)
  | rounds + 1, start => match script start with
    | .error => (none,start + 1)
    | .bytes content _ =>
      if !chk || canIntact (copyInto content (List.replicate 8 0)) then
        (some (copyInto content (List.replicate 8 0)),start + 1)
      else takeFrame rounds (start + 1)

/-- That many frames in a row, four rounds for each. -/
def takeFrames : Nat → Nat → Option (List Bytes) × Nat
  | 0, start => (some [],start)
  | count + 1, start => match takeFrame script chk 4 start with
    | (none,next) => (none,next)
    | (some data,next) => ((takeFrames count next).1.map (data::·),(takeFrames count next).2)

/-- The frames read for the words from `i` up to `limit`, three words a frame. -/
def framesNeeded (limit : Nat) : Nat → Nat → Nat
  | 0, _ => 0
  | frames + 1, i => if limit ≤ i + 3 then 1 else framesNeeded limit frames (i + 3) + 1

end

/-- The run stays inside the arrays and ends in a result and a state that satisfy `post`. -/
def BoundedTo {α : Type} (m : Program τ α) (w : World τ) (post : α → World τ → Prop) : Prop :=
  Bounded m w ∧ post (m w).value (m w).state

private theorem boundedTo_pure {α : Type} (a : α) (w : World τ) (post : α → World τ → Prop) :
    BoundedTo (pure a) w post ↔ post a w := by
  simp [BoundedTo,bounded_pure]

private theorem boundedTo_bind {α β : Type} (m : Program τ α) (k : α → Program τ β) (w : World τ)
    (post : β → World τ → Prop) :
    BoundedTo (m >>= k) w post ↔ Bounded m w ∧ BoundedTo (k (m w).value) (m w).state post := by
  simp only [BoundedTo,bounded_bind,and_assoc]
  rfl

private theorem boundedTo_touch {α : Type} (region : Region) (first count : Nat) (k : Unit → Program τ α) (w : World τ)
    (post : α → World τ → Prop) :
    BoundedTo (emitTouch region first count >>= k) w post ↔
      first + count ≤ region.size ∧ BoundedTo (k ()) w post := by
  rw [boundedTo_bind,bounded_touch]
  rfl

section
variable (script : Nat → ReadResult 8)

private theorem jbdCanGetLoop_run (id : Nat) (chk : Bool) (rounds : Nat) (data : Bytes) (w : World Nat) :
    let o := jbdCanGetLoop (canScripted script) id 8 chk rounds data w
    let t := takeFrame script chk rounds w.line
    o.Always Event.InBounds ∧ o.state = {w with line := t.2} ∧
      (t.1 = none → ∃ kept, o.value = (1,kept)) ∧ ∀ frame, t.1 = some frame → o.value = (0,frame) := by
  induction rounds generalizing data w with
  | zero => simp [jbdCanGetLoop,takeFrame,Outcome.Always]
  | succ rounds ih =>
    have write (n : Nat) : (canScripted script).canWrite n id = (0,n) := rfl
    have read (n : Nat) : (canScripted script).canRead n id = (script n,n + 1) := rfl
    simp only [jbdCanGetLoop,canWrite_bind,takeFrame,write,lt_irrefl,if_false,canRead_bind,read]
    cases script w.line with
    | error => simp [Outcome.Always]
    | bytes content fits =>
      have rest := ih (copyInto content (List.replicate 8 0)) {w with line := w.line + 1}
      by_cases good : (!chk || canIntact (copyInto content (List.replicate 8 0))) = true
      · simp only [if_pos good]
        split_ifs <;> simp [Outcome.Always]
      · simp only [if_neg good]
        simpa [Outcome.Always] using rest

private theorem boundedTo_frame {α : Type} (id : Nat) (chk : Bool) (k : Int × Bytes → Program Nat α) (w : World Nat)
    (post : α → World Nat → Prop)
    (failed : (takeFrame script chk 4 w.line).1 = none →
      ∀ data, BoundedTo (k (1,data)) {w with line := (takeFrame script chk 4 w.line).2} post) :
    BoundedTo (jbdCanGet (canScripted script) id chk >>= k) w post ↔
      ∀ frame, (takeFrame script chk 4 w.line).1 = some frame →
        BoundedTo (k (0,frame)) {w with line := (takeFrame script chk 4 w.line).2} post := by
  obtain ⟨bounded,state,missing,found⟩ := jbdCanGetLoop_run script id chk 4 (List.replicate 8 0) w
  change Bounded (jbdCanGet (canScripted script) id chk) w at bounded
  change (jbdCanGet (canScripted script) id chk w).state = _ at state
  rw [boundedTo_bind,state,iff_true_intro bounded,true_and]
  cases taken : (takeFrame script chk 4 w.line).1 with
  | none =>
    obtain ⟨kept,value⟩ := missing taken
    change (jbdCanGet (canScripted script) id chk w).value = _ at value
    simpa [value] using failed taken kept
  | some frame =>
    have value : (jbdCanGet (canScripted script) id chk w).value = (0,frame) := found frame taken
    simp [value]

private theorem takeFrames_missing (chk : Bool) (count start : Nat) (missing : (takeFrame script chk 4 start).1 = none) :
    takeFrames script chk (count + 1) start = (none,(takeFrame script chk 4 start).2) := by
  unfold takeFrames
  generalize takeFrame script chk 4 start = taken at missing
  obtain ⟨value,next⟩ := taken
  cases missing
  rfl

private theorem takeFrames_found (chk : Bool) (count start : Nat) (data : Bytes)
    (found : (takeFrame script chk 4 start).1 = some data) :
    takeFrames script chk (count + 1) start =
      ((takeFrames script chk count (takeFrame script chk 4 start).2).1.map (data::·),
        (takeFrames script chk count (takeFrame script chk 4 start).2).2) := by
  conv_lhs => unfold takeFrames
  generalize takeFrame script chk 4 start = taken at found
  obtain ⟨value,next⟩ := taken
  cases found
  rfl

/-- Three words a frame never pass the room for three words an id. -/
private theorem decodeFrames_run (region : Region) (limit : Nat) (f : Bytes → Nat → ℚ) (ids : List Nat) (i : Nat)
    (array : Mem ℚ) (w : World Nat) (fits : i + 3 * ids.length ≤ region.size) :
    BoundedTo (decodeFrames (canScripted script) region limit f ids i array) w (fun r s =>
      r.1 = (takeFrames script true (framesNeeded limit ids.length i) w.line).1.isSome ∧
        s = {w with line := (takeFrames script true (framesNeeded limit ids.length i) w.line).2}) := by
  induction ids generalizing i array w with
  | nil => simp [decodeFrames,framesNeeded,takeFrames,boundedTo_pure]
  | cons id ids ih =>
    rw [List.length_cons] at fits
    have needed : framesNeeded limit (id::ids).length i =
      (if limit ≤ i + 3 then 0 else framesNeeded limit ids.length (i + 3)) + 1 := by
      rw [List.length_cons,framesNeeded]
      split_ifs <;> rfl
    rw [decodeFrames,needed,boundedTo_frame]
    · intro frame taken
      rw [takeFrames_found script true _ _ frame taken,if_neg (by omega),boundedTo_touch]
      refine ⟨by omega,?_⟩
      by_cases one : i + 1 ≥ limit
      · rw [if_pos one,if_pos (by omega),boundedTo_pure]
        simp [takeFrames]
      rw [if_neg one,boundedTo_touch]
      refine ⟨by omega,?_⟩
      by_cases two : i + 2 ≥ limit
      · rw [if_pos two,if_pos (by omega),boundedTo_pure]
        simp [takeFrames]
      rw [if_neg two,boundedTo_touch]
      refine ⟨by omega,?_⟩
      by_cases three : i + 3 ≥ limit
      · rw [if_pos three,if_pos three,boundedTo_pure]
        simp [takeFrames]
      rw [if_neg three,if_neg three]
      simpa using ih (i + 3) _ _ (by omega)
    · intro missing data
      rw [takeFrames_missing script true _ _ missing,if_pos (by simp),boundedTo_pure]
      simp

private theorem boundedTo_frames {α : Type} (region : Region) (limit : Nat) (f : Bytes → Nat → ℚ) (ids : List Nat)
    (array : Mem ℚ) (k : Bool × Mem ℚ → Program Nat α) (w : World Nat) (post : α → World Nat → Prop)
    (fits : 3 * ids.length ≤ region.size) (failed : ∀ array w, BoundedTo (k (false,array)) w post) :
    let t := takeFrames script true (framesNeeded limit ids.length 0) w.line
    let array' := (decodeFrames (canScripted script) region limit f ids 0 array w).value.2
    BoundedTo (decodeFrames (canScripted script) region limit f ids 0 array >>= k) w post ↔
      (t.1 ≠ none → BoundedTo (k (true,array')) {w with line := t.2} post) := by
  intro t array'
  obtain ⟨bounded,value,state⟩ := decodeFrames_run script region limit f ids 0 array w (by omega)
  rw [boundedTo_bind,iff_true_intro bounded,true_and,state]
  have whole : (decodeFrames (canScripted script) region limit f ids 0 array w).value = (t.1.isSome,array') :=
    Prod.ext value rfl
  rw [whole]
  change BoundedTo _ {w with line := t.2} post ↔ _
  cases t.1 with
  | none => simpa using failed _ _
  | some frames => simp

private theorem takeFrame_length (chk : Bool) (rounds start : Nat) (data : Bytes)
    (found : (takeFrame script chk rounds start).1 = some data) : data.length = 8 := by
  induction rounds generalizing start with
  | zero => cases found
  | succ rounds ih =>
    unfold takeFrame at found
    split at found
    · cases found
    · split at found
      · obtain rfl := Option.some.inj found
        simp [copyInto]
        omega
      · exact ih _ found

private theorem takeFrames_length (chk : Bool) (count start : Nat) (frames : List Bytes)
    (found : (takeFrames script chk count start).1 = some frames) : frames.flatten.length = 8 * count := by
  induction count generalizing start frames with
  | zero =>
    cases found
    rfl
  | succ count ih =>
    cases first : (takeFrame script chk 4 start).1 with
    | none =>
      rw [takeFrames_missing script chk count start first] at found
      cases found
    | some data =>
      rw [takeFrames_found script chk count start data first] at found
      obtain ⟨rest,taken,rfl⟩ := Option.map_eq_some_iff.mp found
      rw [List.flatten_cons,List.length_append,takeFrame_length script chk 4 start data first,ih _ rest taken]
      omega

/-- Frames stored one after the other, eight bytes each. -/
private theorem canModel_run (frames : List (Nat × Nat)) (base : Nat) (model : Mem UInt8) (w : World Nat)
    (placed : ∀ j (inside : j < frames.length), frames[j].2 = base + 8 * j)
    (fits : base + 8 * frames.length ≤ 32) :
    let t := takeFrames script false frames.length w.line
    BoundedTo (canModel (canScripted script) frames model) w (fun r _ =>
      r.1 = t.1.isSome ∧ ∀ text, t.1 = some text → r.2 = Mem.overlay model base text.flatten) := by
  induction frames generalizing base model w with
  | nil =>
    simp [canModel,takeFrames,boundedTo_pure]
    funext i
    simp [Mem.overlay]
  | cons first frames ih =>
    obtain ⟨id,start⟩ := first
    have here : start = base := placed 0 (Nat.succ_pos _)
    subst here
    rw [List.length_cons] at fits
    rw [canModel,boundedTo_frame]
    · intro frame taken
      rw [if_neg (by omega),boundedTo_touch]
      refine ⟨by simp only [Region.size]; omega,?_⟩
      have rest := ih (start + 8) (Mem.overlay model start frame)
        {w with line := (takeFrame script false 4 w.line).2} (fun j inside => by
          have next := placed (j + 1) (by simpa using inside)
          simp only [List.getElem_cons_succ] at next
          omega) (by omega)
      rw [List.length_cons,takeFrames_found script false _ _ frame taken]
      refine ⟨rest.1,?_⟩
      obtain ⟨-,value,text⟩ := rest
      refine ⟨by simpa using value,fun frames found => ?_⟩
      obtain ⟨others,known,rfl⟩ := Option.map_eq_some_iff.mp found
      rw [text others known,List.flatten_cons]
      exact Mem.overlay_next _ _ _ _ _ (by rw [takeFrame_length script false 4 _ frame taken])
    · intro missing data
      rw [List.length_cons,takeFrames_missing script false _ _ missing,if_pos (by simp),boundedTo_pure]
      simp

private theorem boundedTo_model {α : Type} (model : Mem UInt8) (k : Bool × Mem UInt8 → Program Nat α) (w : World Nat)
    (post : α → World Nat → Prop) (failed : ∀ model w, BoundedTo (k (false,model)) w post) :
    BoundedTo (canModel (canScripted script) canModelFrames model >>= k) w post ↔
      ∀ text, (takeFrames script false 4 w.line).1 = some text →
        BoundedTo (k (true,Mem.overlay model 0 text.flatten))
          (canModel (canScripted script) canModelFrames model w).state post := by
  obtain ⟨bounded,came,stored⟩ := canModel_run script canModelFrames 0 model w (by decide) (by decide)
  change _ = (takeFrames script false 4 w.line).1.isSome at came
  change ∀ text, (takeFrames script false 4 w.line).1 = some text → _ at stored
  rw [boundedTo_bind,iff_true_intro bounded,true_and]
  generalize canModel (canScripted script) canModelFrames model w = o at came stored
  obtain ⟨⟨whole,content⟩,state,events⟩ := o
  subst came
  cases taken : (takeFrames script false 4 w.line).1 with
  | none => simpa [taken] using failed _ _
  | some text =>
    obtain rfl := stored text taken
    simp

/-- The counts of the fifth frame fit jbd_info and the model name ends, if the frames
for the temperatures, the cells and the name all come. -/
def CountsFit (counts : Bytes) (start : Nat) : Prop :=
  let temps := takeFrames script true (framesNeeded (byteAt counts 1).toNat 2 0) start
  let cells := takeFrames script true (framesNeeded (byteAt counts 0).toNat 10 0) temps.2
  let model := takeFrames script false 4 cells.2
  temps.1 ≠ none → cells.1 ≠ none → ∀ text, model.1 = some text →
    (byteAt counts 1).toNat ≤ 6 ∧ (byteAt counts 0).toNat ≤ 32 ∧ 0 ∈ text.flatten

/-- The condition at the fifth frame, `seen` and the next `count` frames counted. -/
def HeadFits (seen : List Bytes) (count start : Nat) : Prop :=
  let head := takeFrames script true count start
  ∀ frames, head.1 = some frames → CountsFit script ((seen ++ frames).getD 4 []) head.2

def CanStatusFits (start : Nat) : Prop := HeadFits script [] 5 start

private theorem boundedTo_head {α : Type} (seen : List Bytes) (count id : Nat) (k : Int × Bytes → Program Nat α)
    (w : World Nat) (post : α → World Nat → Prop) (failed : ∀ data w, BoundedTo (k (1,data)) w post)
    (next : ∀ data w, BoundedTo (k (0,data)) w post ↔ HeadFits script (seen ++ [data]) count w.line) :
    BoundedTo (jbdCanGet (canScripted script) id true >>= k) w post ↔ HeadFits script seen (count + 1) w.line := by
  rw [boundedTo_frame _ _ _ _ _ _ (fun _ _ => failed _ _)]
  unfold HeadFits
  cases first : (takeFrame script true 4 w.line).1 with
  | none => simp [takeFrames_missing script true count w.line first]
  | some data =>
    simp only [takeFrames_found script true count w.line data first,next,HeadFits,Option.some.injEq,forall_eq',
      List.append_assoc,List.singleton_append,Option.map_eq_some_iff]
    constructor
    · rintro rest frames ⟨others,taken,rfl⟩
      exact rest others taken
    · intro rest others taken
      exact rest (data::others) ⟨others,taken,rfl⟩

private theorem canGetArrays_bounded (info : JbdInfo) (counts : Bytes) (w : World Nat)
    (strings : info.strings = (byteAt counts 0).toNat) (probes : info.probes = (byteAt counts 1).toNat) :
    BoundedTo (canGetArrays (canScripted script) info) w (fun r _ => r.1 = 0 →
      r.2.probes ≤ 6 ∧ r.2.strings ≤ 32 ∧ (Json.cstr (Mem.slice r.2.model 0 32)).length < 32) ↔
    CountsFit script counts w.line := by
  have failed (info : JbdInfo) (w : World Nat) : BoundedTo (pure ((1 : Int),info)) w (fun r _ => r.1 = 0 →
      r.2.probes ≤ 6 ∧ r.2.strings ≤ 32 ∧ (Json.cstr (Mem.slice r.2.model 0 32)).length < 32) := by
    simp [boundedTo_pure]
  unfold canGetArrays CountsFit
  simp only [← strings,← probes]
  refine (boundedTo_frames script _ _ _ _ _ _ _ _ (by decide)
    fun _ _ => by rw [if_pos (by simp)]; exact failed _ _).trans (forall_congr' fun temps => ?_)
  rw [if_neg (by simp)]
  refine (boundedTo_frames script _ _ _ _ _ _ _ _ (by decide)
    fun _ _ => by rw [if_pos (by simp)]; exact failed _ _).trans (forall_congr' fun cells => ?_)
  rw [if_neg (by simp)]
  generalize (decodeFrames _ Region.infoTemps _ _ _ _ _ _).value.2 = array
  generalize (decodeFrames _ Region.infoCells _ _ _ _ _ _).value.2 = array'
  simp only [JbdInfo.setTemps_strings]
  refine (boundedTo_model script _ _ _ _ fun _ _ => by rw [if_pos (by simp)]; exact failed _ _).trans
    (forall_congr' fun text => forall_congr' fun taken => ?_)
  have size := takeFrames_length script false 4 _ text taken
  have name : Mem.slice (Mem.overlay info.model 0 text.flatten) 0 32 = text.flatten := by
    have whole := Mem.slice_overlay info.model 0 text.flatten
    rwa [size] at whole
  rw [if_neg (by simp),boundedTo_pure]
  have ended := cstr_ended text.flatten
  rw [size] at ended
  simp [JbdInfo.setModel,JbdInfo.setCells,JbdInfo.setTemps,name,ended]

private theorem jbdCanGetInfo_bounded (info : JbdInfo) (w : World Nat) :
    BoundedTo (jbdCanGetInfo (canScripted script) info) w (fun r _ => r.1 = 0 →
      r.2.probes ≤ 6 ∧ r.2.strings ≤ 32 ∧ (Json.cstr (Mem.slice r.2.model 0 32)).length < 32) ↔
    CanStatusFits script w.line := by
  have failed (info : JbdInfo) (w : World Nat) : BoundedTo (pure ((1 : Int),info)) w (fun r _ => r.1 = 0 →
      r.2.probes ≤ 6 ∧ r.2.strings ≤ 32 ∧ (Json.cstr (Mem.slice r.2.model 0 32)).length < 32) := by
    simp [boundedTo_pure]
  unfold jbdCanGetInfo
  refine boundedTo_head script [] 4 _ _ _ _ (fun _ _ => failed _ _) fun d0 w => ?_
  refine boundedTo_head script [d0] 3 _ _ _ _ (fun _ _ => failed _ _) fun d1 w => ?_
  refine boundedTo_head script [d0,d1] 2 _ _ _ _ (fun _ _ => failed _ _) fun d2 w => ?_
  refine boundedTo_head script [d0,d1,d2] 1 _ _ _ _ (fun _ _ => failed _ _) fun d3 w => ?_
  refine boundedTo_head script [d0,d1,d2,d3] 0 _ _ _ _ (fun _ _ => failed _ _) fun counts w => ?_
  have last : HeadFits script ([d0,d1,d2,d3] ++ [counts]) 0 w.line ↔ CountsFit script counts w.line := by
    simp [HeadFits,takeFrames]
  rw [last,if_neg (by omega)]
  exact canGetArrays_bounded script _ counts w rfl rfl

private theorem showInfo_can_bounded (fmt : Fmt) (info : JbdInfo) (w : World Nat) :
    Bounded (showInfo (canScripted script) fmt info) w ↔ CanStatusFits script w.line :=
  (showInfo_bounded _ fmt info w).trans (jbdCanGetInfo_bounded script info w)

/-- The ids alone bound what jbd_can_get_pack stores. -/
private theorem jbdCanGetPack_bounded (balancing : Bool) (pp : Pack) (w : World Nat) :
    Bounded (jbdCanGetPack (canScripted script) balancing pp) w := by
  have done {α : Type} (a : α) (w : World Nat) : BoundedTo (pure a) w (fun _ _ => True) :=
    (boundedTo_pure _ _ _).mpr trivial
  suffices BoundedTo (jbdCanGetPack (canScripted script) balancing pp) w (fun _ _ => True) from this.1
  unfold jbdCanGetPack
  refine (boundedTo_frame script _ _ _ _ _ fun _ _ => by exact done _ _).mpr fun d2 _ => ?_
  rw [if_neg (by omega)]
  refine (boundedTo_frame script _ _ _ _ _ fun _ _ => by exact done _ _).mpr fun d3 _ => ?_
  rw [if_neg (by omega)]
  refine (boundedTo_frame script _ _ _ _ _ fun _ _ => by exact done _ _).mpr fun d4 _ => ?_
  rw [if_neg (by omega)]
  refine (boundedTo_frames script _ _ _ _ _ _ _ _ (by decide)
    fun _ _ => by rw [if_pos (by simp)]; exact done _ _).mpr fun _ => ?_
  rw [if_neg (by simp)]
  refine (boundedTo_frames script _ _ _ _ _ _ _ _ (by decide)
    fun _ _ => by rw [if_pos (by simp)]; exact done _ _).mpr fun _ => ?_
  rw [if_neg (by simp)]
  exact done _ _

end

/-- Reading and showing a status, and reading a pack, stay inside the arrays exactly
when the counts and lengths received fit them; a pack read from CAN always does. -/
theorem status_inBounds (script : Nat → ReadResult 256) (frames : Nat → ReadResult 8)
    (rwBuf parmData : Nat → Mem UInt8) (fmt : Fmt) (info : JbdInfo) (balancing : Bool) (pp : Pack) (w : World Nat) :
    (Bounded (showInfo (scripted script rwBuf parmData) fmt info) w ↔ StatusFits script w.line) ∧
    (Bounded (jbdRead (scripted script rwBuf parmData) balancing pp) w ↔ PackFits script w.line) ∧
    (Bounded (showInfo (canScripted frames) fmt info) w ↔ CanStatusFits frames w.line) ∧
    Bounded (jbdRead (canScripted frames) balancing pp) w :=
  ⟨showInfo_std_bounded script rwBuf parmData fmt info w,jbdGetPack_bounded script rwBuf parmData balancing pp w,
    showInfo_can_bounded frames fmt info w,jbdCanGetPack_bounded frames balancing pp w⟩

def sevenProbes (_ : Nat) : ReadResult 256 :=
  .bytes (frame jbdCmdHwinfo 0 (List.replicate 22 0 ++ [7] ++ List.replicate 14 0)) (by simp [frame_length])

theorem showInfo_overrun :
    ¬ Bounded (showInfo (scripted sevenProbes (fun _ _ => 0) (fun _ _ => 0)) ⟨.text,44,[44],false,false⟩ JbdInfo.zero)
      (World.start 0) := by
  rw [showInfo_std_bounded]
  intro fits
  have received : (takeReply sevenProbes jbdCmdHwinfo 5 0).1 =
      some (List.replicate 22 0 ++ [7] ++ List.replicate 14 0) := by decide +kernel
  have few := (fits _ received).1
  simp [byteAt] at few

end Jbdtool
