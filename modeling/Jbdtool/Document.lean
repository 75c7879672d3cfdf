import Jbdtool.ReadRuns

/-! The document that a READ run prints in JSON mode, against what it has read. -/
namespace Jbdtool
open CString Numbers Observe Traced
variable {τ α β : Type}

def serialized (w : World τ) : Option (List (Bytes × Json)) :=
  match w.rootValue with
  | .document => w.rootObject
  | .parsed (.object members) => some members
  | _ => none

def decoded (fmt : Fmt) (pp : JbdParams) (payload : Bytes) : Option Json :=
  pdispValue fmt pp.dt (settle 128 (some payload)).2 payload.length

/-- Every reply has its value under its label, and there is nothing else. -/
structure DocumentOf (fmt : Fmt) (root : List (Bytes × Json)) (rs : List (JbdParams × Option Bytes)) : Prop where
  shown : ∀ r ∈ rs, ∀ payload, r.2 = some payload →
    ∃ value, decoded fmt r.1 payload = some value ∧ Json.getValue root r.1.label = some value
  only : ∀ m ∈ root, ∃ r ∈ rs, r.1.label = m.1 ∧ r.2 ≠ none

section
variable {fmt : Fmt} {rs : List (JbdParams × Option Bytes)}

private theorem reading_unique (distinct : (rs.map (fun r => r.1.label)).Nodup) (r r' : JbdParams × Option Bytes)
    (inside : r ∈ rs) (inside' : r' ∈ rs) (same : r.1.label = r'.1.label) : r = r' :=
  List.inj_on_of_nodup_map distinct inside inside' same

/-- The members that the loops set are those of the replies that are long enough and
have a value. -/
private theorem mem_rows (json : fmt.outfmt = .json) (least : Nat) (m : Bytes × Json) :
    m ∈ (rs.map (readingRow fmt least)).filterMap Json.rowMember ↔ ∃ r ∈ rs, ∃ payload, r.2 = some payload ∧
      least ≤ payload.length ∧ r.1.label = m.1 ∧ decoded fmt r.1 payload = some m.2 := by
  have row (r : JbdParams × Option Bytes) : Json.rowMember (readingRow fmt least r) = some m ↔ ∃ payload,
      r.2 = some payload ∧ least ≤ payload.length ∧ r.1.label = m.1 ∧ decoded fmt r.1 payload = some m.2 := by
    obtain ⟨pp,reply⟩ := r
    obtain ⟨name,value⟩ := m
    simp only [Json.rowMember,readingRow,pdispMember,json,if_true,decoded,Option.map_eq_some_iff,Option.bind_eq_some_iff,
      Option.filter_eq_some_iff,decide_eq_true_eq,Prod.mk.injEq]
    constructor
    · rintro ⟨v,⟨payload,⟨known,long⟩,value⟩,rfl,rfl⟩
      exact ⟨payload,known,long,rfl,value⟩
    · rintro ⟨payload,known,long,rfl,value⟩
      exact ⟨_,⟨payload,⟨known,long⟩,value⟩,rfl,rfl⟩
  simp only [List.filterMap_map,List.mem_filterMap,Function.comp_apply,row]

private theorem rows_labels (least : Nat) : (rs.map (readingRow fmt least)).map Prod.fst = rs.map (fun r => r.1.label) := by
  rw [List.map_map]
  rfl

private theorem setValues_rows (least : Nat) (distinct : (rs.map (fun r => r.1.label)).Nodup) :
    Json.setValues [] (rs.map (readingRow fmt least)) = (rs.map (readingRow fmt least)).filterMap Json.rowMember := by
  have appended := Json.setValues_fresh [] (rs.map (readingRow fmt least)) ((rows_labels least).symm ▸ distinct) (by simp)
  rwa [List.nil_append] at appended

private theorem document_rows (json : fmt.outfmt = .json) (least : Nat) (distinct : (rs.map (fun r => r.1.label)).Nodup) :
    DocumentOf fmt (Json.setValues [] (rs.map (readingRow fmt least))) rs ↔
      ∀ r ∈ rs, ∀ payload, r.2 = some payload → least ≤ payload.length ∧ decoded fmt r.1 payload ≠ none := by
  rw [setValues_rows least distinct]
  constructor
  · intro document r inside payload reply
    obtain ⟨value,-,found⟩ := document.shown r inside payload reply
    obtain ⟨r',inside',payload',reply',long,label,value'⟩ :=
      (mem_rows json least _).mp (Json.getValue_some _ _ _ found)
    obtain rfl := reading_unique distinct r' r inside' inside label
    rw [reply] at reply'
    obtain rfl := Option.some.inj reply'
    exact ⟨long,by rw [value']; exact Option.some_ne_none _⟩
  · intro filled
    refine ⟨fun r inside payload reply => ?_,fun m member => ?_⟩
    · obtain ⟨long,some⟩ := filled r inside payload reply
      obtain ⟨value,known⟩ := Option.ne_none_iff_exists'.mp some
      refine ⟨value,known,?_⟩
      have names : (((rs.map (readingRow fmt least)).filterMap Json.rowMember).map Prod.fst).Nodup :=
        ((rows_labels least).symm ▸ distinct).sublist (Json.rowMember_sublist _)
      exact Json.getValue_member _ names (r.1.label,value)
        ((mem_rows json least _).mpr ⟨r,inside,payload,reply,long,rfl,known⟩)
    · obtain ⟨r,inside,payload,reply,-,label,-⟩ := (mem_rows json least m).mp member
      exact ⟨r,inside,label,by rw [reply]; exact Option.some_ne_none _⟩

/-- A given document, whose names are those of the request. -/
private theorem document_given (object : List (Bytes × Json)) (names : rs.map (fun r => r.1.label) = object.map Prod.fst)
    (distinct : (rs.map (fun r => r.1.label)).Nodup) : DocumentOf fmt object rs ↔
      ∀ m ∈ object, ∃ r ∈ rs, r.1.label = m.1 ∧ ∃ payload, r.2 = some payload ∧ decoded fmt r.1 payload = some m.2 := by
  have values := Json.getValue_member object (names ▸ distinct)
  constructor
  · intro document m member
    obtain ⟨r,inside,label,answered⟩ := document.only m member
    obtain ⟨payload,reply⟩ := Option.ne_none_iff_exists'.mp answered
    obtain ⟨value,known,found⟩ := document.shown r inside payload reply
    rw [label,values m member] at found
    exact ⟨r,inside,label,payload,reply,by rw [known,Option.some.inj found]⟩
  · intro filled
    refine ⟨fun r inside payload reply => ?_,fun m member => ?_⟩
    · have listed : r.1.label ∈ object.map Prod.fst := names ▸ List.mem_map_of_mem inside
      obtain ⟨m,member,same⟩ := List.mem_map.mp listed
      obtain ⟨r',inside',label,payload',reply',known⟩ := filled m member
      obtain rfl := reading_unique distinct r' r inside' inside (label.trans same)
      rw [reply] at reply'
      obtain rfl := Option.some.inj reply'
      exact ⟨m.2,known,by rw [label]; exact values m member⟩
    · obtain ⟨r,inside,label,payload,reply,-⟩ := filled m member
      exact ⟨r,inside,label,by rw [reply]; exact Option.some_ne_none _⟩

end

private theorem readings_front (host : Host τ) (stops : Bool) (pps : List JbdParams) (line : τ) :
    ((readings host stops pps line).1.map Prod.fst).Sublist pps := by
  induction pps generalizing line with
  | nil => exact .slnil
  | cons pp pps ih =>
    rw [readings]
    dsimp only
    split_ifs
    · exact (List.nil_sublist pps).cons_cons pp
    · exact (ih _).cons_cons pp

private theorem readings_all (host : Host τ) (pps : List JbdParams) (line : τ) :
    (readings host false pps line).1.map Prod.fst = pps := by
  induction pps generalizing line with
  | nil => rfl
  | cons pp pps ih =>
    have rest := ih (reading host pp line).state
    simpa [readings] using rest

private theorem readings_distinct (host : Host τ) (stops : Bool) (pps : List JbdParams) (line : τ)
    (distinct : (pps.map JbdParams.label).Nodup) :
    ((readings host stops pps line).1.map (fun r => r.1.label)).Nodup := by
  have names : (readings host stops pps line).1.map (fun r => r.1.label) =
      ((readings host stops pps line).1.map Prod.fst).map JbdParams.label := by
    rw [List.map_map]
    rfl
  rw [names]
  exact distinct.sublist ((readings_front host stops pps line).map _)

/-- What `-R` may have set, and the rest as main has started it. -/
def Started (rootValue : RootValue) (label : Bytes) (w : World τ) : Prop :=
  ∃ base, w.rootObject = some base ∧ (∀ m ∈ base, m.1 = label) ∧ w.rootValue = rootValue

section
variable {host : Host τ} {rootValue : RootValue} {label : Bytes}

private theorem started_rw (action reg : UInt8) (data : Bytes) :
    Preserves (Started rootValue label) (jbdRw host action reg data) := by
  intro w started
  rw [jbdRw_run]
  exact started

private theorem started_bracket {fn : Fn} {reg : UInt8} {data : Bytes} : Preserves (Started rootValue label) (do
    Traced.emit (.enter fn)
    let r ← jbdRw host jbdCmdWrite reg data
    Traced.emit (.leave fn r.1)
    return r.1) :=
  preserves_bind (preserves_emit _) fun _ => preserves_bind (started_rw _ _ _) fun _ =>
    preserves_bind (preserves_emit _) fun _ => preserves_pure _

private theorem started_return {c : Prop} [Decidable c] :
    Preserves (Started rootValue label) (if c then throw 1 else pure () : Main τ Unit).run := by
  split_ifs <;> exact preserves_pure _

private theorem started_open : Preserves (Started rootValue label) (openOrReturn host).run := by
  have opened : Preserves (Started rootValue label) (packOpen host) := fun _ started => started
  exact preserves_next (preserves_lift opened) fun _ => started_return

private theorem started_start : Preserves (Started rootValue label) (startOrReturn host).run :=
  preserves_next (preserves_lift started_bracket) fun _ => started_return

private theorem started_close : Preserves (Started rootValue label) (endAndClose host) :=
  preserves_bind started_bracket fun _ => fun _ started => started

private theorem started_setRoot (value : Option Json) :
    Preserves (Started rootValue label) (setRoot label value : Program τ Unit) := by
  refine preserves_modify fun w ⟨base,object,names,root⟩ => ?_
  refine ⟨Json.setValue base label value,by simp [object],?_,root⟩
  cases value with
  | none => exact names
  | some j =>
    unfold Json.setValue
    split_ifs
    · intro m member
      obtain ⟨m',inside,rfl⟩ := List.mem_map.mp member
      split_ifs
      · rfl
      · exact names m' inside
    · intro m member
      rcases List.mem_append.mp member with inside | last
      · exact names m inside
      · rw [List.mem_singleton.mp last]

/-- The name of the member that `-R` sets. -/
def registerLabel (reg : Int) : Bytes := bytes "Register " ++ showHex 2 (reg % 4294967296).toNat

private theorem started_register (fmt : Fmt) (json : fmt.outfmt = .json) (reg : Int) :
    Preserves (Started rootValue (registerLabel reg)) (readRegister host fmt reg).run := by
  have shown (data : Bytes) (len : Nat) : Preserves (Started rootValue (registerLabel reg))
      (pdisp fmt (registerLabel reg) .dump data len : Program τ Unit) := by
    unfold pdisp dump
    dsimp only
    rw [if_pos json]
    exact started_setRoot _
  have behind (r : Int × Bytes) : Preserves (Started rootValue (registerLabel reg)) (do
      if r.1 > 0 then
        (pdisp fmt (registerLabel reg) .dump r.2 r.1.toNat : Program τ Unit)
      endAndClose host : Main τ Unit).run := by
    split_ifs
    · exact preserves_next (preserves_lift (shown _ _)) fun _ => preserves_lift started_close
    · exact preserves_lift started_close
  exact preserves_next started_open fun _ => preserves_next started_start fun _ =>
    preserves_next (preserves_lift (started_rw _ _ _)) behind

/-- Where a READ run comes to its loop in JSON mode, the document holds nothing but what
`-R` has read. -/
private theorem toReads_started (s : Settings) (r : Request) (json : s.output.outfmt = .json) (w : World τ)
    (comes : ((toReads host s r).run w).value = .ok ()) :
    Started r.rootValue (registerLabel s.reg) ((toReads host s r).run w).state := by
  have fresh (info : JbdInfo) (w : World τ) : Started .document (registerLabel s.reg) ((do
      if s.output.outfmt = .json then (startDocument : Program τ Unit)
      return info : Main τ JbdInfo).run w).state := by
    rw [if_pos json]
    exact ⟨[],rfl,by simp,rfl⟩
  have begins : Preserves (Started r.rootValue (registerLabel s.reg)) (do
      openOrReturn host
      startOrReturn host : Main τ Unit).run :=
    preserves_next started_open fun _ => started_start
  have rest (w : World τ) (started : Started .document (registerLabel s.reg) w) (comes : ((do
        r.parsed
        openOrReturn host
        startOrReturn host : Main τ Unit).run w).value = .ok ()) :
      Started r.rootValue (registerLabel s.reg) ((do
        r.parsed
        openOrReturn host
        startOrReturn host : Main τ Unit).run w).state := by
    obtain ⟨_,-,-,state⟩ := next_ok comes
    obtain ⟨base,object,names,root⟩ := started
    have parsed : Started r.rootValue (registerLabel s.reg) ((r.parsed : Main τ Unit).run w).state := by
      cases r
      case members => exact ⟨base,object,names,rfl⟩
      all_goals exact ⟨base,object,names,root⟩
    rw [state]
    exact begins _ parsed
  obtain ⟨info,first,behind,state⟩ := next_ok comes
  obtain ⟨info',-,-,begun⟩ := next_ok first
  have begun : Started .document (registerLabel s.reg) ((toAction host s).run w).state := begun ▸ fresh info' _
  rw [show ((toReads host s r).run w).state = _ from state]
  by_cases register : s.reg ≠ 0
  · rw [if_pos register] at behind ⊢
    obtain ⟨_,-,later,state'⟩ := next_ok behind
    rw [state']
    exact rest _ (started_register s.output.fmt json s.reg _ begun) later
  · rw [if_neg register] at behind ⊢
    exact rest _ begun behind

end

private theorem params_register : ∀ pp ∈ params, ¬ bytes "Register " <+: pp.label := by
  intro pp member front
  have blank : (32 : UInt8) ∈ bytes "Register " := by decide +kernel
  exact absurd ((params_text pp member).2.2 32 (front.subset blank)).2 (by decide)

private theorem pps_params (r : Request) : ∀ pp ∈ r.pps, pp ∈ params := by
  have looked (names : List Bytes) : ∀ pp ∈ names.filterMap getp, pp ∈ params := by
    intro pp member
    obtain ⟨name,-,found⟩ := List.mem_filterMap.mp member
    exact List.mem_of_find?_eq_some found
  cases r with
  | operands labels => exact looked _
  | all => exact fun _ member => member
  | lines texts => exact looked _
  | members object => exact looked _

/-- The document comes out as the replies are: the file of labels is itself a document
that says so, or nothing but the labels has been read and every reply is shown. -/
def Filled (fmt : Fmt) (r : Request) (w : World τ) (rs : List (JbdParams × Option Bytes)) : Prop :=
  match r with
  | .members object => ∀ m ∈ object, ∃ reading ∈ rs, reading.1.label = m.1 ∧
      ∃ payload, reading.2 = some payload ∧ decoded fmt reading.1 payload = some m.2
  | r => w.rootObject = some [] ∧ ∀ reading ∈ rs, ∀ payload, reading.2 = some payload →
      r.least ≤ payload.length ∧ decoded fmt reading.1 payload ≠ none

private theorem members_labels (object : List (Bytes × Json)) (known : ∀ name ∈ object.map Prod.fst, (getp name).isSome) :
    (Request.members object).pps.map JbdParams.label = object.map Prod.fst := by
  change ((object.map Prod.fst).filterMap getp).map JbdParams.label = _
  generalize object.map Prod.fst = names at known ⊢
  induction names with
  | nil => rfl
  | cons name names ih =>
    obtain ⟨here,others⟩ := List.forall_mem_cons.mp known
    obtain ⟨pp,found⟩ := Option.isSome_iff_exists.mp here
    rw [List.filterMap_cons_some found,List.map_cons,ih others,getp_name name pp found]

private theorem document_base (fmt : Fmt) (json : fmt.outfmt = .json) (least : Nat) (reg : Int)
    (rs : List (JbdParams × Option Bytes)) (listed : ∀ r ∈ rs, r.1 ∈ params)
    (distinct : (rs.map (fun r => r.1.label)).Nodup) (base : List (Bytes × Json))
    (names : ∀ m ∈ base, m.1 = registerLabel reg) :
    DocumentOf fmt (Json.setValues base (rs.map (readingRow fmt least))) rs ↔ base = [] ∧
      ∀ r ∈ rs, ∀ payload, r.2 = some payload → least ≤ payload.length ∧ decoded fmt r.1 payload ≠ none := by
  have other (r : JbdParams × Option Bytes) (inside : r ∈ rs) : r.1.label ≠ registerLabel reg := by
    intro same
    refine params_register r.1 (listed r inside) ?_
    rw [same]
    exact List.prefix_append _ _
  cases base with
  | nil => simp [document_rows json least distinct]
  | cons m base =>
    refine ⟨fun document => ?_,fun ⟨absurd,_⟩ => by cases absurd⟩
    have fresh : ∀ row ∈ rs.map (readingRow fmt least), ∀ m' ∈ m::base, m'.1 ≠ row.1 := by
      intro row member m' inside same
      obtain ⟨r,listed,rfl⟩ := List.mem_map.mp member
      exact other r listed (same.symm.trans (names m' inside))
    rw [Json.setValues_fresh _ _ ((rows_labels least).symm ▸ distinct) fresh] at document
    obtain ⟨r,inside,label,-⟩ := document.only m (by simp)
    exact (other r inside (label.trans (names m List.mem_cons_self))).elim

/-- The document printed is the document read, exactly where it is filled so. -/
theorem main_document (host : Host τ) (env : Env) (args : List Bytes) (s : Settings) (operands : List Bytes)
    (r : Request) (read : readOptions args = .ok (s,operands)) (reads : Reads env s operands r)
    (json : s.output.outfmt = .json) (distinct : (r.pps.map JbdParams.label).Nodup) (w : World τ)
    (comes : ((toReads host s r).run w).value = .ok ()) :
    let before := ((toReads host s r).run w).state
    let rs := (readings host r.stops r.pps before.line).1
    (∃ root, serialized (main host env args w).state = some root ∧ DocumentOf s.output.fmt root rs) ↔
      Filled s.output.fmt r before rs := by
  intro before rs
  obtain ⟨line,shown,-,page,-⟩ := main_reads host env args s operands r read reads w comes
  obtain ⟨base,object,names,root⟩ := toReads_started s r json w comes
  have rootObject : (main host env args w).state.rootObject =
      some (Json.setValues base (rs.map (readingRow s.output.fmt r.least))) := by
    have same := congrArg Page.rootObject page
    have begun : before.page.rootObject = some base := object
    rw [show (main host env args w).state.rootObject = _ from same]
    change before.page.rootObject.map _ = _
    rw [begun]
    rfl
  have rootValue : (main host env args w).state.rootValue = r.rootValue := (congrArg Page.rootValue page).trans root
  have distinct' : (rs.map (fun r => r.1.label)).Nodup := readings_distinct host r.stops r.pps before.line distinct
  have listed : ∀ reading ∈ rs, reading.1 ∈ params := fun reading inside =>
    pps_params r _ ((readings_front host r.stops r.pps before.line).subset (List.mem_map_of_mem inside))
  have built (document : r.rootValue = .document) (filled : Filled s.output.fmt r before rs ↔ before.rootObject = some [] ∧
      ∀ reading ∈ rs, ∀ payload, reading.2 = some payload →
        r.least ≤ payload.length ∧ decoded s.output.fmt reading.1 payload ≠ none) :
      (∃ root, serialized (main host env args w).state = some root ∧ DocumentOf s.output.fmt root rs) ↔
        Filled s.output.fmt r before rs := by
    have shown : serialized (main host env args w).state =
        some (Json.setValues base (rs.map (readingRow s.output.fmt r.least))) := by
      unfold serialized
      rw [rootValue,document]
      exact rootObject
    have empty : before.rootObject = some [] ↔ base = [] := by
      rw [object,Option.some.injEq]
    rw [filled,empty,← document_base s.output.fmt json r.least s.reg rs listed distinct' base names,shown]
    simp
  cases r with
  | operands labels => exact built rfl Iff.rfl
  | all => exact built rfl Iff.rfl
  | lines texts => exact built rfl Iff.rfl
  | members members =>
    have shown : serialized (main host env args w).state = some members := by
      unfold serialized
      rw [rootValue]
      rfl
    have labels : rs.map (fun r => r.1.label) = members.map Prod.fst := by
      have parms : rs.map Prod.fst = (Request.members members).pps := readings_all host _ _
      rw [← members_labels members reads.known,← parms,List.map_map]
      rfl
    rw [shown]
    simp only [Option.some.injEq,exists_eq_left']
    exact document_given members labels distinct'

/-- `jbdtool -t serial:x -r -j DesignCapacity` -/
def readCapacity : List Bytes := [bytes "-t",bytes "serial:x",bytes "-r",bytes "-j",bytes "DesignCapacity"]

def readSettings : Settings :=
  {Settings.initial with
    action := .read
    outfmt := .json
    transport := some (bytes "serial")
    target := bytes "x"}

def capacity : JbdParams := ⟨0x10,bytes "DesignCapacity",.uint⟩

def isNumber (n : ℚ) : Json → Bool
  | .number m => m == n
  | _ => false

theorem readCapacity_document :
    ∃ root, serialized (main (answering thousand) plainEnv readCapacity (World.start 0)).state = some root ∧
      DocumentOf readSettings.fmt root [(capacity,some [0x03,0xE8])] := by
  have reads : Reads plainEnv readSettings [capacity.label] (.operands [capacity.label]) :=
    ⟨by decide +kernel,rfl,by decide +kernel,rfl,by decide +kernel⟩
  have comes : ((toReads (answering thousand) readSettings (.operands [capacity.label])).run
      (World.start 0)).value.toOption = some () := by decide +kernel
  have started : ((toReads (answering thousand) readSettings (.operands [capacity.label])).run
      (World.start 0)).state.rootObject.map List.length = some 0 := by decide +kernel
  have listed : (readings (answering thousand) false (Request.operands [capacity.label]).pps
      ((toReads (answering thousand) readSettings (.operands [capacity.label])).run (World.start 0)).state.line).1 =
      [(capacity,some [0x03,0xE8])] := by decide +kernel
  have fresh : ((toReads (answering thousand) readSettings (.operands [capacity.label])).run
      (World.start 0)).state.rootObject = some [] := by
    obtain ⟨base,object,empty⟩ := Option.map_eq_some_iff.mp started
    rw [object,List.length_eq_zero_iff.mp empty]
  have value : ((toReads (answering thousand) readSettings (.operands [capacity.label])).run
      (World.start 0)).value = .ok () := by
    generalize ((toReads (answering thousand) readSettings (.operands [capacity.label])).run (World.start 0)).value = v at *
    cases v with
    | ok u => rfl
    | error code => cases comes
  have document := main_document (answering thousand) plainEnv readCapacity readSettings [capacity.label]
    (.operands [capacity.label]) rfl reads rfl (by decide +kernel) (World.start 0) value
  dsimp only at document
  rw [show (Request.operands [capacity.label]).stops = false from rfl,listed] at document
  refine document.mpr ⟨fresh,fun reading inside payload reply => ?_⟩
  obtain rfl := List.mem_singleton.mp inside
  obtain rfl := Option.some.inj reply
  have shows : (decoded readSettings.fmt capacity [0x03,0xE8]).isSome = true := by decide +kernel
  exact ⟨by decide,Option.isSome_iff_ne_none.mp shows⟩

/-- `jbdtool -t serial:x -r -j -f labels.json`, the file giving DesignCapacity as 0. -/
def readLabels : List Bytes :=
  [bytes "-t",bytes "serial:x",bytes "-r",bytes "-j",bytes "-f",bytes "labels.json"]

def labelsEnv : Env := {plainEnv with files := fun _ => .ok (bytes "\x7b\"DesignCapacity\":0\x7d")}

theorem readLabels_document : ¬ ∃ root,
    serialized (main (answering thousand) labelsEnv readLabels (World.start 0)).state = some root ∧
      DocumentOf readSettings.fmt root [(capacity,received thousand capacity.reg)] := by
  rintro ⟨root,printed,document⟩
  have file : (serialized (main (answering thousand) labelsEnv readLabels (World.start 0)).state).any (fun root =>
      (Json.getValue root capacity.label).any (isNumber 0)) = true := by
    decide +kernel
  have shows : (decoded readSettings.fmt capacity [0x03,0xE8]).any (isNumber 1000) = true := by decide +kernel
  obtain ⟨value,known,found⟩ := document.shown _ (List.mem_singleton_self _) [0x03,0xE8] (by decide +kernel)
  rw [printed,Option.any_some,found,Option.any_some] at file
  rw [known,Option.any_some] at shows
  cases value
  case number n => simp_all [isNumber]
  all_goals cases file

end Jbdtool
