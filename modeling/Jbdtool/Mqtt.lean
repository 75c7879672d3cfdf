import Jbdtool.Document

/-! The update loop of a build with MQTT: the status read, shown into the document and
handed to mqtt_pub, again and again. What mqtt_connect returns is given. -/
namespace Jbdtool
open CString Numbers Observe Traced
variable {τ α β : Type}

/-- The settings under `-m`, before `-o` is looked at. -/
def Settings.mqtt (s : Settings) : Settings := {s with action := .info,outfmt := .json,pretty := false}

/-- One turn of the loop: what jbd_get_info returned, the status behind it, and what
mqtt_pub is given, as an object and as text. -/
structure Update where
  returned : Int
  info : JbdInfo
  document : List (Bytes × Json)
  published : Bytes

def readStatus (host : Host τ) (fmt : Fmt) (info : JbdInfo) : Program τ (Int × JbdInfo) := do
  let r ← jbdGetInfo host info
  if r.1 = 0 then displayInfo host fmt r.2
  return r

/-- `if (mqtt_connect(conf->mqtt,10)) return 1;` and what follows. -/
def publish (s : Settings) (r : Int × JbdInfo) (connected : Int) : Main τ Update := do
  if connected ≠ 0 then throw 1
  let w ← (Traced.get : Program τ (World τ))
  return ⟨r.1,r.2,w.rootObject.getD [],rootText s.pretty w⟩

def update (host : Host τ) (s : Settings) (info : JbdInfo) (connected : Int) : Main τ Update := do
  openOrReturn host
  let r ← readStatus host s.fmt info
  packClose host
  publish s r connected

/-- `do { … } while(interval)`, as often as mqtt_connect is called; status, document and
transport are those that the turn before has left. -/
def updates (host : Host τ) (s : Settings) : List Int → JbdInfo → World τ → List Update
  | [], _, _ => []
  | connected::connects, info, w =>
    match ((update host s info connected).run w).value with
    | .error _ => []
    | .ok u => u::updates host s connects u.info ((update host s info connected).run w).state

def elementsText (sep : UInt8) (digits : Nat) (array : Mem ℚ) : Nat → Nat → Bytes → Bytes
  | 0, _, text => text
  | count + 1, i, text =>
    elementsText sep digits array count (i + 1) (text ++ (if i = 0 then [] else [sep]) ++ showFixed digits (array i))

def balanceText (bits : UInt64) (strings : Nat) : Nat → Nat → Bytes → Bytes
  | 0, _, text => text
  | fuel + 1, i, text =>
    let text := text ++ [if bits &&& (1 <<< UInt64.ofNat i) ≠ 0 then 49 else 48]
    if i + 1 ≥ strings then text else balanceText bits strings fuel (i + 1) text

def flatRows (key : Bytes) (array : Mem ℚ) : Nat → Nat → List (Bytes × Option Json)
  | 0, _ => []
  | count + 1, i => (key ++ showPadded 2 i,some (.number (array i)))::flatRows key array count (i + 1)

def listRow (label : Bytes) (digits : Nat) (array : Mem ℚ) (count : Nat) : Bytes × Option Json :=
  (label,Json.parseString (elementsText 44 digits array count 0 (bytes "[ ") ++ bytes " ]"))

def arrayRows (fmt : Fmt) (info : JbdInfo) : List (Bytes × Option Json) :=
  if fmt.flat then
    flatRows (bytes "temp_") info.temps info.probes 0 ++ flatRows (bytes "cell_") info.cellvolt info.strings 0
  else
    [listRow (bytes "Temps") 1 info.temps info.probes,listRow (bytes "Cells") 3 info.cellvolt info.strings]

def fetRow (fmt : Fmt) (fetstate : UInt16) : Bytes × Option Json :=
  (bytes "FET",if fmt.dontInterpret then some (.number fetstate.toNat) else Json.initString (fetText fmt fetstate))

/-- The members that display_info sets, one after the other, none where it cannot. -/
def infoRows (fmt : Fmt) (info : JbdInfo) : List (Bytes × Option Json) :=
  (if info.name ≠ [] then [(bytes "Name",Json.initString info.name)] else []) ++
  [(bytes "Voltage",some (.number info.voltage)),
    (bytes "Current",some (.number info.current)),
    (bytes "DesignCapacity",some (.number info.fullcap)),
    (bytes "RemainingCapacity",some (.number info.capacity)),
    (bytes "PercentCapacity",some (.number info.pctcap)),
    (bytes "CycleCount",some (.number info.cycles)),
    (bytes "Probes",some (.number info.probes)),
    (bytes "Strings",some (.number info.strings))] ++
  arrayRows fmt info ++
  [(bytes "Balance",Json.initString (balanceText info.balancebits info.strings 64 0 [])),
    (bytes "CellTotal",some (.number info.cellTotal)),
    (bytes "CellMin",some (.number info.cellMin)),
    (bytes "CellMax",some (.number info.cellMax)),
    (bytes "CellDiff",some (.number info.cellDiff)),
    (bytes "CellAvg",info.cellAvg.map .number),
    (bytes "DeviceName",Json.initString (Json.cstr (Mem.slice info.model 0 32))),
    (bytes "ManufactureDate",Json.initString info.mfgdate),
    (bytes "Version",some (.number info.version)),
    fetRow fmt info.fetstate]

section
variable {p : Page τ} {fmt : Fmt}

private theorem set_append (rows rows' : List (Bytes × Option Json)) : (p.set rows).set rows' = p.set (rows ++ rows') := by
  obtain ⟨line,object,value⟩ := p
  cases object <;> simp [Page.set,Json.setValues]

/-- A part that sets these members and nothing else. -/
def Fills (m : Program τ Unit) (rows : List (Bytes × Option Json)) : Prop := ∀ p, OnPage p m () (p.set rows) []

private theorem fills_next {m n : Program τ Unit} {rows rows' : List (Bytes × Option Json)} (first : Fills m rows)
    (rest : Fills n rows') : Fills (m >>= fun _ => n) (rows ++ rows') := by
  intro p
  rw [← set_append]
  exact does_silent (first p) (rest _)

private theorem fills_cons {m n : Program τ Unit} {row : Bytes × Option Json} {rows : List (Bytes × Option Json)}
    (first : Fills m [row]) (rest : Fills n rows) : Fills (m >>= fun _ => n) (row::rows) :=
  fills_next first rest

private theorem fills_silent {m : Program τ α} {next : α → Program τ Unit} {a : α} {rows : List (Bytes × Option Json)}
    (first : ∀ p, OnPage p m a p []) (rest : Fills (next a) rows) : Fills (m >>= next) rows :=
  fun p => does_silent (first p) (rest p)

private theorem fills_none : Fills (pure () : Program τ Unit) [] := fun p => by
  rw [Page.set_nil]
  exact page_pure ()

private theorem fills_output (json : fmt.outfmt = .json) (label text : Bytes) (value : Option Json) :
    Fills (output fmt label value text : Program τ Unit) [(label,value)] :=
  fun _ => does_pos json (page_setRoot label value)

theorem page_joinElements (region : Region) (sep : UInt8) (digits : Nat) (array : Mem ℚ) (count i : Nat) (text : Bytes) :
    OnPage p (joinElements region sep digits array count i text) (elementsText sep digits array count i text) p [] := by
  induction count generalizing i text with
  | zero => exact page_pure _
  | succ count ih => exact does_silent (page_event rfl) (ih _ _)

theorem page_balanceBits (bits : UInt64) (strings fuel i : Nat) (text : Bytes) :
    OnPage p (balanceBits bits strings fuel i text) (balanceText bits strings fuel i text) p [] := by
  induction fuel generalizing i text with
  | zero => exact page_pure _
  | succ fuel ih =>
    refine does_silent (page_event rfl) ?_
    unfold balanceText
    by_cases last : i + 1 ≥ strings
    · simp only [last,if_true]
      exact page_pure _
    · simp only [last,if_false]
      exact ih _ _

private theorem fills_flat (json : fmt.outfmt = .json) (region : Region) (key : Bytes) (digits : Nat) (array : Mem ℚ)
    (count i : Nat) :
    Fills (displayFlat fmt region key digits array count i : Program τ Unit) (flatRows key array count i) := by
  induction count generalizing i with
  | zero => exact fills_none
  | succ count ih => exact fills_silent (fun _ => page_event rfl) (fills_next (fills_output json _ _ _) (ih _))

private theorem page_displayList (json : fmt.outfmt = .json) (region : Region) (label : Bytes) (digits : Nat) (array : Mem ℚ)
    (count : Nat) (temp : Bytes) : ∃ left, OnPage p (displayList fmt region label digits array count temp) left
      (p.set [listRow label digits array count]) [] :=
  ⟨_,does_pos json (does_silent (page_joinElements _ _ _ _ _ _ _) (does_silent (page_setRoot _ _) (page_pure _)))⟩

private theorem fills_lists (host : Host τ) (json : fmt.outfmt = .json) (info : JbdInfo) :
    Fills (displayLists host fmt info) (arrayRows fmt info) := by
  intro p
  unfold arrayRows
  by_cases flat : fmt.flat = true
  · rw [if_pos flat]
    exact does_pos flat (fills_next (fills_flat json _ _ _ _ _ _) (fills_flat json _ _ _ _ _ _) p)
  · rw [if_neg flat]
    refine does_neg flat ?_
    obtain ⟨left,temps⟩ := @page_displayList τ p fmt json .infoTemps (bytes "Temps") 1 info.temps info.probes host.infoText
    obtain ⟨left',cells⟩ := @page_displayList τ (p.set [listRow (bytes "Temps") 1 info.temps info.probes]) fmt json .infoCells
      (bytes "Cells") 3 info.cellvolt info.strings left
    refine does_silent temps (does_silent cells ?_)
    rw [set_append]
    exact page_pure ()

/-- display_info sets its members whatever was there. -/
theorem fills_displayInfo (host : Host τ) (json : fmt.outfmt = .json) (info : JbdInfo) :
    Fills (displayInfo host fmt info) (infoRows fmt info) := by
  have name : Fills (displayName fmt info.name : Program τ Unit)
      (if info.name ≠ [] then [(bytes "Name",Json.initString info.name)] else []) := by
    unfold displayName
    split_ifs
    · exact fills_output json _ _ _
    · exact fills_none
  have balance : Fills (displayBalance fmt info : Program τ Unit)
      [(bytes "Balance",Json.initString (balanceText info.balancebits info.strings 64 0 []))] :=
    fills_silent (fun _ => page_balanceBits _ _ _ _ _) (fills_silent (fun _ => page_event rfl) (fills_output json _ _ _))
  have avg : Fills (displayAvg fmt info.cellAvg : Program τ Unit) [(bytes "CellAvg",info.cellAvg.map .number)] := by
    cases info.cellAvg <;> exact fills_output json _ _ _
  have model : Fills (displayModel fmt info.model : Program τ Unit)
      [(bytes "DeviceName",Json.initString (Json.cstr (Mem.slice info.model 0 32)))] :=
    fills_silent (fun _ => page_event rfl) (fills_output json _ _ _)
  have fet : Fills (displayFet fmt info.fetstate : Program τ Unit) [fetRow fmt info.fetstate] := by
    unfold displayFet fetRow
    split_ifs <;> exact fills_output json _ _ _
  unfold infoRows displayInfo
  simp only [List.append_assoc,List.cons_append,List.nil_append]
  refine fills_next name ?_
  iterate 8 refine fills_cons (fills_output json _ _ _) ?_
  refine fills_next (fills_lists host json info) (fills_cons balance ?_)
  iterate 4 refine fills_cons (fills_output json _ _ _) ?_
  refine fills_cons avg (fills_cons model ?_)
  iterate 2 refine fills_cons (fills_output json _ _ _) ?_
  exact fet

end

section
variable {host : Host τ} {object : Option (List (Bytes × Json))} {root : RootValue}

def Holds (object : Option (List (Bytes × Json))) (root : RootValue) (w : World τ) : Prop :=
  w.rootObject = object ∧ w.rootValue = root

private theorem holds_rw (action reg : UInt8) (data : Bytes) : Preserves (Holds object root) (jbdRw host action reg data) := by
  intro w holds
  rw [jbdRw_run]
  exact holds

private theorem holds_canGet (id : Nat) (chk : Bool) : Preserves (Holds object root) (jbdCanGet host id chk) := by
  have loop (rounds : Nat) (data : Bytes) : Preserves (Holds object root) (jbdCanGetLoop host id 8 chk rounds data) := by
    induction rounds generalizing data with
    | zero => exact preserves_pure _
    | succ rounds ih =>
      have sent : Preserves (Holds object root) (canWrite host id) := fun _ holds => holds
      have got : Preserves (Holds object root) (canRead host id) := fun _ holds => holds
      refine preserves_bind sent fun _ => preserves_ite (fun _ => preserves_pure _) fun _ => preserves_bind got fun r => ?_
      cases r with
      | error => exact preserves_pure _
      | bytes content fits =>
        refine preserves_ite (fun _ => preserves_ite (fun _ => ?_) fun _ => preserves_pure _) fun _ => ih _
        exact preserves_bind (preserves_emit _) fun _ => preserves_pure _
  exact loop 4 _

private theorem holds_decodeWords (region : Region) (datasz offset : Nat) (data : Bytes) (f : Bytes → Nat → ℚ) (count i : Nat)
    (array : Mem ℚ) : Preserves (Holds object root) (decodeWords region datasz offset data f count i array : Program τ _) := by
  induction count generalizing i array with
  | zero => exact preserves_pure _
  | succ count ih => exact preserves_bind (preserves_emit _) fun _ => preserves_bind (preserves_emit _) fun _ => ih _ _

private theorem holds_decodeFrames (region : Region) (limit : Nat) (f : Bytes → Nat → ℚ) (ids : List Nat) (i : Nat)
    (array : Mem ℚ) : Preserves (Holds object root) (decodeFrames host region limit f ids i array) := by
  induction ids generalizing i array with
  | nil => exact preserves_pure _
  | cons id ids ih =>
    refine preserves_bind (holds_canGet _ _) fun _ => preserves_ite (fun _ => preserves_pure _) fun _ => ?_
    refine preserves_bind (preserves_emit _) fun _ => preserves_ite (fun _ => preserves_pure _) fun _ => ?_
    refine preserves_bind (preserves_emit _) fun _ => preserves_ite (fun _ => preserves_pure _) fun _ => ?_
    exact preserves_bind (preserves_emit _) fun _ => preserves_ite (fun _ => preserves_pure _) fun _ => ih _ _

private theorem holds_canModel (frames : List (Nat × Nat)) (model : Mem UInt8) :
    Preserves (Holds object root) (canModel host frames model) := by
  induction frames generalizing model with
  | nil => exact preserves_pure _
  | cons frame frames ih =>
    refine preserves_bind (holds_canGet _ _) fun _ => preserves_ite (fun _ => preserves_pure _) fun _ => ?_
    exact preserves_bind (preserves_emit _) fun _ => ih _

private theorem holds_scanCells (cellvolt : Mem ℚ) (count i : Nat) (stats : CellStats) :
    Preserves (Holds object root) (scanCells host cellvolt count i stats) := by
  induction count generalizing i stats with
  | zero => exact preserves_pure _
  | succ count ih => exact preserves_bind (preserves_emit _) fun _ => ih _ _

theorem holds_getInfo (info : JbdInfo) : Preserves (Holds object root) (jbdGetInfo host info) := by
  have read (reg : UInt8) (datasz : Nat) : Preserves (Holds object root) (readReply host reg datasz) := holds_rw _ _ _
  have std : Preserves (Holds object root) (jbdStdGetInfo host info) := by
    refine preserves_bind (read _ _) fun _ => preserves_ite (fun _ => preserves_pure _) fun _ => ?_
    refine preserves_bind (holds_decodeWords _ _ _ _ _ _ _ _) fun _ => ?_
    refine preserves_bind (read _ _) fun _ => preserves_ite (fun _ => preserves_pure _) fun _ => ?_
    refine preserves_bind (holds_decodeWords _ _ _ _ _ _ _ _) fun _ => ?_
    refine preserves_bind (holds_rw _ _ _) fun _ => preserves_ite (fun _ => preserves_pure _) fun _ => ?_
    exact preserves_bind (preserves_emit _) fun _ => preserves_pure _
  have can : Preserves (Holds object root) (jbdCanGetInfo host info) := by
    iterate 5 refine preserves_bind (holds_canGet _ _) fun _ => preserves_ite (fun _ => preserves_pure _) fun _ => ?_
    iterate 2
      refine preserves_bind (holds_decodeFrames _ _ _ _ _ _) fun _ => preserves_ite (fun _ => preserves_pure _) fun _ => ?_
    exact preserves_bind (holds_canModel _ _) fun _ => preserves_ite (fun _ => preserves_pure _) fun _ => preserves_pure _
  refine preserves_ite (fun _ => preserves_bind can fun _ => ?_) fun _ => preserves_bind std fun _ => ?_
  all_goals
    refine preserves_ite (fun _ => preserves_pure _) fun _ => ?_
    exact preserves_bind (holds_scanCells _ _ _ _) fun _ => preserves_pure _

private theorem readStatus_document (fmt : Fmt) (json : fmt.outfmt = .json) (info : JbdInfo) (w : World τ)
    (base : List (Bytes × Json)) (holds : Holds (some base) .document w) :
    Holds (some (if (readStatus host fmt info w).value.1 = 0
      then Json.setValues base (infoRows fmt (readStatus host fmt info w).value.2) else base)) .document
      (readStatus host fmt info w).state := by
  have read : Holds (some base) .document (jbdGetInfo host info w).state := holds_getInfo info w holds
  unfold readStatus
  rw [bind_run,Outcome.after_value,Outcome.after_state]
  generalize (jbdGetInfo host info w).value = r at *
  generalize (jbdGetInfo host info w).state = w' at *
  by_cases zero : r.1 = 0
  · obtain ⟨-,page,-,-⟩ := fills_displayInfo host json r.2 w'.page w' rfl
    obtain ⟨object,root⟩ := read
    simp only [zero,if_true,bind_run,Outcome.after_state,Outcome.after_value,pure_run]
    refine ⟨(congrArg Page.rootObject page).trans ?_,(congrArg Page.rootValue page).trans root⟩
    exact congrArg (Option.map fun o => Json.setValues o (infoRows fmt r.2)) object
  · simp only [zero,if_false,pure_run]
    exact read

private theorem publish_ok (s : Settings) (r : Int × JbdInfo) (connected : Int) (w : World τ) (base : List (Bytes × Json))
    (holds : Holds (some base) .document w) (u : Update) (comes : ((publish s r connected).run w).value = .ok u) :
    u = ⟨r.1,r.2,base,Json.serialize s.pretty 0 (.object base)⟩ ∧ ((publish s r connected).run w).state = w := by
  obtain ⟨object,root⟩ := holds
  unfold publish at comes ⊢
  split_ifs at comes ⊢
  · cases comes
  · refine ⟨?_,rfl⟩
    have given : u = ⟨r.1,r.2,w.rootObject.getD [],rootText s.pretty w⟩ := (Except.ok.inj comes).symm
    rw [given,rootText,root,object]
    rfl

/-- A turn that comes to its end leaves the document it has published, and has set the
members of a status only where it has read one. -/
private theorem update_document (s : Settings) (json : s.outfmt = .json) (info : JbdInfo) (connected : Int) (w : World τ)
    (base : List (Bytes × Json)) (holds : Holds (some base) .document w) (u : Update)
    (comes : ((update host s info connected).run w).value = .ok u) :
    u.document = (if u.returned = 0 then Json.setValues base (infoRows s.fmt u.info) else base) ∧
      u.published = Json.serialize s.pretty 0 (.object u.document) ∧
      Holds (some u.document) .document ((update host s info connected).run w).state := by
  obtain ⟨_,-,comes,state⟩ := next_ok comes
  have opened : Holds (some base) .document ((openOrReturn host).run w).state := by
    have kept : Preserves (Holds (some base) .document) (packOpen host) := fun _ holds => holds
    refine preserves_next (preserves_lift kept) (fun r => ?_) w holds
    split_ifs <;> exact preserves_pure _
  obtain ⟨r,read,comes,state'⟩ := next_ok comes
  obtain rfl := Except.ok.inj read
  have shown := @readStatus_document τ host s.fmt json info _ base opened
  obtain ⟨_,-,comes,state''⟩ := next_ok comes
  have closed (object : Option (List (Bytes × Json))) : Preserves (Holds object .document) (packClose host) :=
    fun _ holds => holds
  obtain ⟨rfl,still⟩ := publish_ok s _ connected _ _ (closed _ _ shown) u comes
  refine ⟨rfl,rfl,?_⟩
  unfold update
  rw [state,state',state'']
  have left := closed _ _ shown
  rwa [← still] at left

end

namespace Update

/-- The members that display_info has set in this turn. -/
def rows (s : Settings) (u : Update) : List (Bytes × Option Json) := infoRows s.fmt u.info

/-- What is published is a document whose members display_info has set in this turn, from
a status that jbd_get_info has read in it. -/
def Fresh (s : Settings) (u : Update) : Prop :=
  u.published = Json.serialize s.pretty 0 (.object u.document) ∧ u.returned = 0 ∧
    ∀ m ∈ u.document, (m.1,some m.2) ∈ u.rows s

def names (s : Settings) (u : Update) : List Bytes := Json.setNames (u.rows s)

end Update

private theorem updates_rest (host : Host τ) (s : Settings) (json : s.outfmt = .json) (connects : List Int) (info : JbdInfo)
    (w : World τ) (base : List (Bytes × Json)) (holds : Holds (some base) .document w) :
    (∀ u ∈ updates host s connects info w, u.Fresh s) ↔ (∀ u ∈ updates host s connects info w, u.returned = 0) ∧
      (∀ u ∈ updates host s connects info w, base.map Prod.fst ⊆ u.names s) ∧
      (updates host s connects info w).Pairwise (fun earlier later => earlier.names s ⊆ later.names s) := by
  induction connects generalizing info w base with
  | nil => simp [updates]
  | cons connected connects ih =>
    unfold updates
    split
    · simp
    · rename_i u comes
      obtain ⟨document,published,left⟩ := update_document s json info connected w base holds u comes
      have rest := ih u.info _ u.document left
      by_cases zero : u.returned = 0
      · rw [if_pos zero] at document
        have fresh : u.Fresh s ↔ base.map Prod.fst ⊆ u.names s := by
          unfold Update.Fresh
          rw [document,Update.rows,Json.setValues_overwrites]
          simp [published,zero,document,Update.names,Update.rows]
        have covers (v : Update) : u.document.map Prod.fst ⊆ v.names s ↔
            base.map Prod.fst ⊆ v.names s ∧ u.names s ⊆ v.names s := by
          simp only [List.subset_def,document,Json.names_setValues,or_imp,forall_and]
          rfl
        simp only [List.forall_mem_cons,List.pairwise_cons,fresh,zero,true_and,rest,covers,forall_and]
        tauto
      · simp [Update.Fresh,zero]

private theorem mqtt_json (s : Settings) : s.mqtt.output.outfmt = .json := by
  unfold Settings.output
  split
  · split_ifs <;> rfl
  · rfl

/-- No turn publishes what it has not read itself exactly where every jbd_get_info has
succeeded and every turn sets all names that the turns before have set. -/
theorem updates_fresh (host : Host τ) (s : Settings) (connects : List Int) (info : JbdInfo) (w : World τ) :
    let us := updates host s.mqtt.output connects info ((startDocument : Program τ Unit) w).state
    (∀ u ∈ us, u.Fresh s.mqtt.output) ↔ (∀ u ∈ us, u.returned = 0) ∧
      us.Pairwise (fun earlier later => earlier.names s.mqtt.output ⊆ later.names s.mqtt.output) := by
  have rest := updates_rest host s.mqtt.output (mqtt_json s) connects info ((startDocument : Program τ Unit) w).state []
    ⟨rfl,rfl⟩
  simpa using rest

theorem hwver_fits : (frame jbdCmdHwver 0 []).length ≤ 256 := by decide

def oneStatus : Nat → ReadResult 256
  | 0 => .bytes (frame jbdCmdHwinfo 0 ([0x13,0x88] ++ List.replicate 25 0)) (by decide)
  | 1 => .bytes (frame jbdCmdCellinfo 0 []) (by decide)
  | 2 => .bytes (frame jbdCmdHwver 0 []) hwver_fits
  | _ => .error

def twoUpdates : List Update :=
  updates (scripted oneStatus (fun _ _ => 0) (fun _ _ => 0)) Settings.initial.mqtt.output [0,0] .zero
    ((startDocument : Program Nat Unit) (World.start 0)).state

/-- The 50 V are published again where jbd_get_info has failed. -/
theorem twoUpdates_stale : twoUpdates.map Update.returned = [0,1] ∧
    twoUpdates.map (fun u => (Json.getValue u.document (bytes "Voltage")).any (isNumber 50)) = [true,true] ∧
    ¬ ∀ u ∈ twoUpdates, u.Fresh Settings.initial.mqtt.output := by
  have returned : twoUpdates.map Update.returned = [0,1] := by decide +kernel
  refine ⟨returned,by decide +kernel,fun fresh => ?_⟩
  have zero : ∀ r ∈ twoUpdates.map Update.returned, r = 0 := List.forall_mem_map.mpr fun u inside => (fresh u inside).2.1
  rw [returned] at zero
  exact absurd (zero 1 (by simp)) (by decide)

end Jbdtool
