import Jbdtool.ReadRuns

/-! The same labels given as arguments, in a text file and as the keys of a .json file,
to a BMS that is a function from registers to replies. -/
namespace Jbdtool
open CString Numbers Observe Traced
variable {τ α β : Type}

private theorem readings_answering (replies : UInt8 → Option Bytes) (pps : List JbdParams) (line : UInt8) :
    (readings (answering replies) false pps line).1 = pps.map (fun pp => (pp,received replies pp.reg)) := by
  induction pps generalizing line with
  | nil => rfl
  | cons pp pps ih =>
    have rest := ih (reading (answering replies) pp line).state
    simp only [readings,reading_answering,Bool.false_and,Bool.false_eq_true,if_false,List.map_cons,rest]

private theorem pdispShown_line (fmt : Fmt) (plain : fmt.outfmt ≠ .json) (label : Bytes) (dt : ParmDt) (typed : dt ≠ .unk)
    (data : Bytes) (len : Nat) : pdispShown fmt label dt data len ≠ [] := by
  have line (value : Option Json) (text : Bytes) :
      ((output fmt label value text : Program Unit Unit) (World.start ())).events.flatMap Event.output ≠ [] := by
    unfold output
    rw [if_neg plain]
    exact List.cons_ne_nil _ _
  have bits (table : List JbdBit) (short : Int) :
      ((pdispBits fmt label table short : Program Unit Unit) (World.start ())).events.flatMap Event.output ≠ [] := by
    unfold pdispBits
    split_ifs
    · exact line _ _
    · exact line _ _
  have field (signed : Bool) (vals : List Int) (i : UInt8) :
      ((pdispField fmt label signed vals i : Program Unit Unit) (World.start ())).events.flatMap Event.output ≠ [] := by
    unfold pdispField
    cases signed <;> exact line _ _
  have raw (val : Int) :
      ((dump fmt label val : Program Unit Unit) (World.start ())).events.flatMap Event.output ≠ [] := by
    unfold dump
    rw [if_neg plain]
    exact List.cons_ne_nil _ _
  cases dt
  case func | ntc => exact bits _ _
  case scval | scdelay | dsgoc2 | dsgoc2delay | hcovpdelay | hcuvpdelay => exact field _ _ _
  case dump => exact raw _
  case str => exact line _ _
  case unk => exact (typed rfl).elim
  all_goals exact line _ _

private theorem flatMap_lengths (f g : α → List β) (l : List α) (shorter : ∀ a ∈ l, (f a).length ≤ (g a).length) :
    (l.flatMap f).length ≤ (l.flatMap g).length ∧
      ((l.flatMap f).length = (l.flatMap g).length → ∀ a ∈ l, (f a).length = (g a).length) := by
  induction l with
  | nil => simp
  | cons a l ih =>
    obtain ⟨here,others⟩ := List.forall_mem_cons.mp shorter
    obtain ⟨whole,equal⟩ := ih others
    simp only [List.flatMap_cons,List.length_append,List.forall_mem_cons]
    refine ⟨by omega,fun same => ⟨by omega,equal (by omega)⟩⟩

private theorem params_typed : ∀ pp ∈ params, pp.dt ≠ .unk := by decide +kernel

/-- An empty reply is a line with one bound and none with the other; other replies make
no difference. -/
private theorem shown_bounds (fmt : Fmt) (plain : fmt.outfmt ≠ .json) (rs : List (JbdParams × Option Bytes))
    (typed : ∀ r ∈ rs, r.1.dt ≠ .unk) : rs.flatMap (readingShown fmt 1) = rs.flatMap (readingShown fmt 0) ↔
      ∀ r ∈ rs, r.2 ≠ some [] := by
  have same (r : JbdParams × Option Bytes) (full : r.2 ≠ some []) : readingShown fmt 1 r = readingShown fmt 0 r := by
    obtain ⟨pp,reply⟩ := r
    cases reply with
    | none => rfl
    | some payload =>
      have long : 1 ≤ payload.length := List.length_pos_iff.mpr fun empty => full (by rw [empty])
      simp [readingShown,Option.filter_some,long]
  have fewer (r : JbdParams × Option Bytes) (typed : r.1.dt ≠ .unk) :
      (readingShown fmt 1 r).length ≤ (readingShown fmt 0 r).length ∧
        (r.2 = some [] → (readingShown fmt 1 r).length < (readingShown fmt 0 r).length) := by
    by_cases empty : r.2 = some []
    · obtain ⟨pp,reply⟩ := r
      obtain rfl : reply = some [] := empty
      have one := List.length_pos_iff.mpr (pdispShown_line fmt plain pp.label pp.dt typed (settle 128 (some [])).2 0)
      have nothing : readingShown fmt 1 (pp,some []) = [] := rfl
      have line : readingShown fmt 0 (pp,some []) = pdispShown fmt pp.label pp.dt (settle 128 (some [])).2 0 := rfl
      rw [nothing,line]
      exact ⟨Nat.zero_le _,fun _ => one⟩
    · exact ⟨by rw [same r empty],fun absurd => (empty absurd).elim⟩
  constructor
  · intro equal r inside empty
    have lengths := (flatMap_lengths (readingShown fmt 1) (readingShown fmt 0) rs fun r inside =>
      (fewer r (typed r inside)).1).2 (congrArg List.length equal) r inside
    have less := (fewer r (typed r inside)).2 empty
    omega
  · intro full
    exact List.flatMap_congr fun r inside => same r (full r inside)

/-- What comes before a request is looked at. -/
def toRequest (host : Host τ) (s : Settings) : Main τ Unit := do
  let _ ← toAction host s
  if s.reg ≠ 0 then readRegister host s.output.fmt s.reg

private theorem toReads_request (host : Host τ) (s : Settings) (r : Request) : toReads host s r = (do
    toRequest host s
    r.parsed
    openOrReturn host
    startOrReturn host : Main τ Unit) := by
  unfold toReads toRequest
  rw [bind_assoc]
  congr
  funext info
  split_ifs
  · rfl
  · rw [pure_bind]

private theorem toRequest_file (host : Host τ) (s : Settings) (file : Option Bytes) (all : Bool) :
    toRequest host {s with filename := file,all := all} = toRequest host s := by
  have output : ({s with filename := file,all := all} : Settings).output = {s.output with filename := file,all := all} := by
    unfold Settings.output
    dsimp only
    split
    · split_ifs <;> rfl
    · rfl
  unfold toRequest toAction
  rw [output]
  rfl

section
variable {host : Host τ} {w : World τ}

def Goes (m : Main τ α) : Prop := ∀ w, ∃ a, (m.run w).value = .ok a

private theorem goes_lift (m : Program τ α) : Goes (liftM m : Main τ α) := fun _ => ⟨_,rfl⟩

private theorem goes_same (a : α) : Goes (pure a : Main τ α) := fun _ => ⟨a,rfl⟩

private theorem goes_next {m : Main τ α} {next : α → Main τ β} (first : Goes m) (rest : ∀ a, Goes (next a)) :
    Goes (m >>= next) := by
  intro w
  obtain ⟨a,value⟩ := first w
  obtain ⟨b,value'⟩ := rest a (m.run w).state
  refine ⟨b,?_⟩
  have run : (m >>= next).run w = (ExceptT.bindCont next (m.run w).value (m.run w).state).after (m.run w).events := rfl
  rw [run,value]
  exact value'

private theorem goes_if {c : Prop} [Decidable c] {m n : Main τ α} (yes : Goes m) (no : Goes n) : Goes (if c then m else n) := by
  split_ifs
  · exact yes
  · exact no

private theorem setFets_goes (opens : Goes (openOrReturn host)) (s : Settings) (info : JbdInfo) :
    Goes (setFets host s info) := by
  refine goes_next opens fun _ => goes_next (goes_lift _) fun r => ?_
  have closes : Goes (do
      (packClose host : Program τ Unit)
      return r.2 : Main τ JbdInfo) :=
    goes_next (goes_lift _) fun _ => goes_same _
  refine goes_if (goes_next (goes_lift _) fun i => goes_if ?_ closes) closes
  exact goes_next (goes_lift _) fun _ => goes_next (goes_lift _) fun _ => closes

private theorem toAction_goes (opens : Goes (openOrReturn host)) (s : Settings) : Goes (toAction host s) := by
  refine goes_next (goes_if (setFets_goes opens s .zero) (goes_same _)) fun info => ?_
  exact goes_if (goes_next (goes_lift _) fun _ => goes_same _) (goes_same _)

private theorem toRequest_goes (opens : Goes (openOrReturn host)) (starts : Goes (startOrReturn host)) (s : Settings) :
    Goes (toRequest host s) := by
  refine goes_next (toAction_goes opens s) fun _ => goes_if ?_ (goes_same _)
  refine goes_next opens fun _ => goes_next starts fun _ => goes_next (goes_lift _) fun r => ?_
  exact goes_if (goes_next (goes_lift _) fun _ => goes_lift _) (goes_lift _)

end

section
variable (replies : UInt8 → Option Bytes)

private theorem answering_opens : Goes (openOrReturn (answering replies)) := fun _ => ⟨(),rfl⟩

private theorem page_start (q : Page UInt8) : OnPage q (startOrReturn (answering replies)).run
    (if replies jbdRegEeprom = some [] then .ok () else .error 1)
    (q.move (answer (answering replies) jbdRegEeprom [0x56,0x78] q.line).state) [] := by
  have answered : (answer (answering replies) jbdRegEeprom [0x56,0x78] q.line).value = received replies jbdRegEeprom := by
    unfold answer
    rw [request_frame _ _ _ (by decide)]
    exact exchange_answering replies _ _ _ _ rfl
  have zero : (settle 2 (received replies jbdRegEeprom)).1 = 0 ↔ replies jbdRegEeprom = some [] := by
    unfold received
    cases reply : replies jbdRegEeprom with
    | none => simp [settle]
    | some payload =>
      by_cases fits : payload.length ≤ 249
      · rw [Option.filter_some,if_pos (by simpa using fits),settle_some_value]
        simp
      · rw [Option.filter_some,if_neg (by simpa using fits)]
        have long : payload ≠ [] := fun empty => fits (by simp [empty])
        simp [long]
  have bracket : OnPage q (jbdEepromStart (answering replies))
      (settle 2 (answer (answering replies) jbdRegEeprom [0x56,0x78] q.line).value).1 _ [] := page_bracket
  rw [answered] at bracket
  refine page_silent (page_lift bracket) ?_
  by_cases started : replies jbdRegEeprom = some []
  · have same : ¬ (settle 2 (received replies jbdRegEeprom)).1 ≠ 0 := not_not.mpr (zero.mpr started)
    rw [if_neg same,if_pos started]
    exact page_pure _
  · have other : (settle 2 (received replies jbdRegEeprom)).1 ≠ 0 := fun same => started (zero.mp same)
    rw [if_pos other,if_neg started]
    exact page_pure _

/-- From a request to its loop nothing is printed. -/
private theorem page_begin (q : Page UInt8) (r : Request) : ∃ q', OnPage q (do
      r.parsed
      openOrReturn (answering replies)
      startOrReturn (answering replies) : Main UInt8 Unit).run
    (if replies jbdRegEeprom = some [] then .ok () else .error 1) q' [] := by
  have parsed : ∃ q', OnPage q (r.parsed : Main UInt8 Unit).run (.ok ()) q' [] := by
    cases r
    case members object =>
      exact ⟨{q with rootValue := .parsed (.object object)},page_lift (does_modify fun w same => by rw [← same]; rfl)⟩
    all_goals exact ⟨q,page_pure _⟩
  obtain ⟨q',set⟩ := parsed
  have opened : OnPage q' (openOrReturn (answering replies)).run (.ok ()) (q'.move q'.line) [] :=
    page_silent (page_lift page_open) (page_pure _)
  exact ⟨_,page_silent set (page_silent opened (page_start replies _))⟩

/-- What a READ run prints besides its lines, and when it prints any. -/
private theorem reads_output (env : Env) (args : List Bytes) (s : Settings) (operands : List Bytes) (r : Request)
    (read : readOptions args = .ok (s,operands)) (reads : Reads env s operands r) (plain : s.output.outfmt ≠ .json)
    (lasts : r.stops = false) (w : World UInt8) :
    (main (answering replies) env args w).events.flatMap Event.output =
      ((toRequest (answering replies) s).run w).events.flatMap Event.output ++ if replies jbdRegEeprom = some [] then
        (r.pps.map (fun pp => (pp,received replies pp.reg))).flatMap (readingShown s.output.fmt r.least) else [] := by
  obtain ⟨q',known⟩ := page_begin replies ((toRequest (answering replies) s).run w).state.page r
  obtain ⟨value,-,silent,-⟩ := known ((toRequest (answering replies) s).run w).state rfl
  have split := toReads_request (answering replies) s r
  generalize (do
    r.parsed
    openOrReturn (answering replies)
    startOrReturn (answering replies) : Main UInt8 Unit) = begins at split value silent
  have run : (toReads (answering replies) s r).run w = (ExceptT.bindCont (fun _ => begins)
      ((toRequest (answering replies) s).run w).value ((toRequest (answering replies) s).run w).state).after
      ((toRequest (answering replies) s).run w).events := by
    rw [split]
    rfl
  have outputs : ((toReads (answering replies) s r).run w).events.flatMap Event.output =
      ((toRequest (answering replies) s).run w).events.flatMap Event.output := by
    rw [run]
    cases ((toRequest (answering replies) s).run w).value with
    | error code => simp [ExceptT.bindCont]
    | ok u =>
      rw [Outcome.after_events,List.flatMap_append]
      exact (congrArg _ silent).trans (List.append_nil _)
  by_cases started : replies jbdRegEeprom = some []
  · have starts : Goes (startOrReturn (answering replies)) := fun w => ⟨(),by
      rw [(page_start replies w.page w rfl).1,if_pos started]⟩
    obtain ⟨u,request⟩ := toRequest_goes (answering_opens replies) starts s w
    have comes : ((toReads (answering replies) s r).run w).value = .ok () := by
      rw [run,request]
      exact value.trans (if_pos started)
    obtain ⟨line,shown,-,-,printed,none⟩ := main_reads (answering replies) env args s operands r read reads w comes
    rw [printed,none plain,List.append_nil,outputs,if_pos started,loopShown,lasts,readings_answering]
  · have returned : ∃ code, ((toReads (answering replies) s r).run w).value = .error code := by
      rw [run]
      cases ((toRequest (answering replies) s).run w).value with
      | error code => exact ⟨code,rfl⟩
      | ok u => exact ⟨1,value.trans (if_neg started)⟩
    obtain ⟨code,returned⟩ := returned
    rw [main_returned (answering replies) env args s operands r read reads w code returned,outputs,if_neg started,
      List.append_nil]

end

def labelLines (names : List Bytes) : Bytes := names.flatMap (fun name => name ++ [10])

private theorem fgetsLines_labels (names : List Bytes) (fuel : Nat) (enough : names.length < fuel)
    (plain : ∀ name ∈ names, 10 ∉ name ∧ name.length ≤ 126) :
    fgetsLines fuel (labelLines names) = names.map (fun name => name ++ [10]) := by
  induction names generalizing fuel with
  | nil => cases fuel <;> rfl
  | cons name names ih =>
    obtain ⟨⟨line,short⟩,others⟩ := List.forall_mem_cons.mp plain
    obtain ⟨fuel,rfl⟩ : ∃ n, fuel = n + 1 := ⟨fuel - 1,by simp at enough; omega⟩
    have content : labelLines (name::names) = name ++ 10::labelLines names := by simp [labelLines]
    have front : (name ++ 10::labelLines names).takeWhile (· ≠ 10) = name := by
      rw [List.takeWhile_append_of_pos]
      · simp
      · intro c inside
        simpa using fun same : c = 10 => line (same ▸ inside)
    have count : min 127 (name.length + 1) = (name ++ [10]).length := by
      rw [List.length_append]
      simp
      omega
    rw [content,fgetsLines,if_neg (by simp),front,count]
    dsimp only
    have whole : name ++ 10::labelLines names = (name ++ [10]) ++ labelLines names := by simp
    rw [whole,List.take_left,List.drop_left,ih fuel (by simp at enough; omega) others,List.map_cons]

private theorem params_lines : ∀ pp ∈ params, lineLabel (pp.label ++ [10]) = pp.label ∧ 10 ∉ pp.label ∧ pp.label.length ≤ 126 := by
  intro pp member
  obtain ⟨some,short,clean⟩ := params_text pp member
  obtain ⟨c,t,label⟩ := List.exists_cons_of_ne_nil some
  have first : isspace c = false := (clean c (label ▸ List.mem_cons_self)).2
  have unended : 0 ∉ pp.label ++ [10] := by
    intro zero
    rcases List.mem_append.mp zero with inside | last
    · exact (clean 0 inside).1 rfl
    · exact absurd (List.mem_singleton.mp last) (by decide)
  refine ⟨?_,fun newline => absurd (clean 10 newline).2 (by decide),short⟩
  have start : (pp.label ++ [10]).dropWhile isspace = pp.label ++ [10] := by
    rw [label,List.cons_append,List.dropWhile_cons_of_neg (by rw [first]; exact Bool.false_ne_true)]
  have whole : (pp.label ++ [10]).takeWhile (fun c => !isspace c) = pp.label ++ [10].takeWhile (fun c => !isspace c) :=
    List.takeWhile_append_of_pos fun c inside => by rw [(clean c inside).2]; rfl
  rw [lineLabel,Json.cstr_clean _ unended,start,whole]
  exact List.append_nil _

private theorem names_lines {names : List Bytes} (known : ∀ name ∈ names, (getp name).isSome) (name : Bytes)
    (inside : name ∈ names) : lineLabel (name ++ [10]) = name ∧ 10 ∉ name ∧ name.length ≤ 126 := by
  obtain ⟨pp,found⟩ := Option.isSome_iff_exists.mp (known name inside)
  rw [← getp_name name pp found]
  exact params_lines pp (List.mem_of_find?_eq_some found)

private theorem labelLines_length (names : List Bytes) : names.length ≤ (labelLines names).length := by
  induction names with
  | nil => rfl
  | cons name names ih =>
    simp only [labelLines,List.flatMap_cons,List.length_append,List.length_cons,List.length_nil] at ih ⊢
    omega

private theorem received_empty (replies : UInt8 → Option Bytes) (reg : UInt8) : received replies reg = some [] ↔
    replies reg = some [] := by
  unfold received
  rw [Option.filter_eq_some_iff]
  simp

/-- Three command lines with the same labels: as arguments, in a text file, and as the
keys of a .json file. -/
structure SameLabels (env : Env) (s : Settings) (names : List Bytes) (args argsText argsJson : List Bytes) : Prop where
  reaches : reachesAction env s = true
  action : s.action = .read
  serial : s.transport ≠ some (bytes "can")
  plain : s.output.outfmt ≠ .json
  noFile : s.filename = none
  named : s.all = false
  known : ∀ name ∈ names, (getp name).isSome
  arguments : readOptions args = .ok (s,names)
  text : ∃ file operands, readOptions argsText = .ok ({s with filename := some file},operands) ∧ isJson file = false ∧
    env.files file = .ok (labelLines names)
  json : ∃ file operands members, readOptions argsJson = .ok ({s with filename := some file},operands) ∧
    isJson file = true ∧ fileValue env file = some (.object members) ∧ members.map Prod.fst = names

private theorem output_outfmt (s : Settings) (file : Option Bytes) :
    ({s with filename := file} : Settings).output.outfmt = s.output.outfmt := by
  unfold Settings.output
  dsimp only
  split
  · split_ifs <;> rfl
  · rfl

private theorem output_fmt (s : Settings) (file : Option Bytes) :
    ({s with filename := file} : Settings).output.fmt = s.output.fmt := by
  unfold Settings.output
  dsimp only
  split
  · split_ifs <;> rfl
  · rfl

def printed (host : Host τ) (env : Env) (args : List Bytes) (w : World τ) : List Event :=
  (main host env args w).events.flatMap Event.output

theorem readPaths_agree (replies : UInt8 → Option Bytes) (env : Env) (s : Settings) (names : List Bytes)
    (args argsText argsJson : List Bytes) (same : SameLabels env s names args argsText argsJson) (w : World UInt8) :
    (printed (answering replies) env args w = printed (answering replies) env argsText w ∧
      printed (answering replies) env argsText w = printed (answering replies) env argsJson w) ↔
    (replies jbdRegEeprom = some [] → ∀ pp ∈ names.filterMap getp, replies pp.reg ≠ some []) := by
  obtain ⟨file,operands,readText,isText,content⟩ := same.text
  obtain ⟨file',operands',members,readJson,json,object,keys⟩ := same.json
  have lines : fgetsLines ((labelLines names).length + 1) (labelLines names) = names.map (fun name => name ++ [10]) :=
    fgetsLines_labels names _ (Nat.lt_succ_of_le (labelLines_length names)) (fun name inside => (names_lines same.known name inside).2)
  have ofArgs : Reads env s names (.operands names) := by
    refine ⟨same.reaches,same.action,same.serial,?_,same.known⟩
    rw [request?,same.noFile,same.named]
    rfl
  have ofText : Reads env {s with filename := some file} operands (.lines (names.map (fun name => name ++ [10]))) := by
    refine ⟨same.reaches,same.action,same.serial,?_,fun _ none => (List.not_mem_nil none).elim⟩
    simp only [request?,isText,content,lines,Bool.false_eq_true,if_false]
  have ofJson : Reads env {s with filename := some file'} operands' (.members members) := by
    refine ⟨same.reaches,same.action,same.serial,?_,by rw [Request.names,keys]; exact same.known⟩
    simp only [request?,json,object,if_true]
  have labels : (names.map (fun name => name ++ [10])).map lineLabel = names := by
    rw [List.map_map]
    exact (List.map_congr_left fun name inside => (names_lines same.known name inside).1).trans (List.map_id _)
  unfold printed
  rw [reads_output replies env args s names _ same.arguments ofArgs same.plain rfl w,
    reads_output replies env argsText _ operands _ readText ofText (by rw [output_outfmt]; exact same.plain) rfl w,
    reads_output replies env argsJson _ operands' _ readJson ofJson (by rw [output_outfmt]; exact same.plain) rfl w,
    toRequest_file _ s (some file) s.all,toRequest_file _ s (some file') s.all,output_fmt s (some file),
    output_fmt s (some file')]
  simp only [Request.pps,Request.least,labels,keys,and_true,List.append_cancel_left_eq]
  by_cases started : replies jbdRegEeprom = some []
  · rw [if_pos started,if_pos started,shown_bounds s.output.fmt same.plain]
    · simp only [List.forall_mem_map,ne_eq,received_empty,started,forall_const]
    · intro r inside
      obtain ⟨pp,listed,rfl⟩ := List.mem_map.mp inside
      obtain ⟨name,-,found⟩ := List.mem_filterMap.mp listed
      exact params_typed pp (List.mem_of_find?_eq_some found)
  · simp [started]

/-- `jbdtool -t serial:x -r DesignCapacity`, and the same with `-f`. -/
def readNamed : List Bytes := [bytes "-t",bytes "serial:x",bytes "-r",bytes "DesignCapacity"]

def readFrom (file : Bytes) : List Bytes := [bytes "-t",bytes "serial:x",bytes "-r",bytes "-f",file]

def bothFiles : Env := {plainEnv with
  files := fun file =>
    if file = bytes "l.json" then .ok (bytes "\x7b\"DesignCapacity\":0\x7d") else .ok (bytes "DesignCapacity\n")}

def namedSettings : Settings :=
  {Settings.initial with
    action := .read
    transport := some (bytes "serial")
    target := bytes "x"}

def hasKeys (names : List Bytes) : Json → Bool
  | .object members => members.map Prod.fst == names
  | _ => false

private theorem keys_members {names : List Bytes} {value : Option Json} (has : value.any (hasKeys names) = true) :
    ∃ members, value = some (.object members) ∧ members.map Prod.fst = names := by
  obtain ⟨v,rfl,keys⟩ : ∃ v, value = some v ∧ hasKeys names v = true := by simpa [Option.any_eq_true] using has
  cases v
  case object members => exact ⟨members,rfl,beq_iff_eq.mp keys⟩
  all_goals cases keys

private theorem capacity_labels : SameLabels bothFiles namedSettings [bytes "DesignCapacity"] readNamed (readFrom (bytes "l.txt"))
    (readFrom (bytes "l.json")) where
  reaches := by decide +kernel
  action := rfl
  serial := by decide +kernel
  plain := by decide +kernel
  noFile := rfl
  named := rfl
  known := by decide +kernel
  arguments := rfl
  text := ⟨bytes "l.txt",[],rfl,by decide +kernel,rfl⟩
  json := by
    have parsed : (fileValue bothFiles (bytes "l.json")).any (hasKeys [bytes "DesignCapacity"]) = true := by decide +kernel
    obtain ⟨members,value,keys⟩ := keys_members parsed
    exact ⟨bytes "l.json",[],members,rfl,by decide +kernel,value,keys⟩

/-- 1000, each way. -/
theorem readPaths_thousand : printed (answering thousand) bothFiles readNamed (World.start 0) =
      printed (answering thousand) bothFiles (readFrom (bytes "l.txt")) (World.start 0) ∧
    printed (answering thousand) bothFiles (readFrom (bytes "l.txt")) (World.start 0) =
      printed (answering thousand) bothFiles (readFrom (bytes "l.json")) (World.start 0) :=
  (readPaths_agree thousand bothFiles namedSettings [bytes "DesignCapacity"] readNamed (readFrom (bytes "l.txt"))
    (readFrom (bytes "l.json")) capacity_labels (World.start 0)).mpr (by decide +kernel)

/-- Every reply is empty: the files print what was not received. -/
theorem readPaths_empty : SameLabels bothFiles namedSettings [bytes "DesignCapacity"] readNamed (readFrom (bytes "l.txt"))
      (readFrom (bytes "l.json")) ∧
    printed (answering (fun _ => some [])) bothFiles readNamed (World.start 0) ≠
      printed (answering (fun _ => some [])) bothFiles (readFrom (bytes "l.txt")) (World.start 0) :=
  ⟨capacity_labels,by decide +kernel⟩

end Jbdtool
