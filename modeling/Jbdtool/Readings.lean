import Jbdtool.Dump
import Jbdtool.Json.Members

/-! What a READ run shows of a sequence of replies: the lines it prints and the members
of the document, whatever answers it. -/
namespace Jbdtool
open CString Numbers Observe
variable {τ α β : Type}

/-- The part of a world that reading depends on, and the document. -/
structure Page (τ : Type) where
  line : τ
  rootObject : Option (List (Bytes × Json))
  rootValue : RootValue

def World.page (w : World τ) : Page τ := ⟨w.line,w.rootObject,w.rootValue⟩

def Event.output : Event → List Event
  | .printed stream text => [.printed stream text]
  | _ => []

def pageObserver : Observer (World τ) Event (Page τ) Event := ⟨World.page,Event.output,fun _ => True⟩

abbrev OnPage (p : Page τ) (m : Program τ α) (a : α) (p' : Page τ) (shown : List Event) : Prop :=
  Does pageObserver p m a p' shown True

def Page.set (p : Page τ) (rows : List (Bytes × Option Json)) : Page τ :=
  {p with rootObject := p.rootObject.map (fun o => Json.setValues o rows)}

@[simp] theorem Page.set_nil (p : Page τ) : p.set [] = p := by
  cases p
  simp [set]

def pdispMember (fmt : Fmt) (dt : ParmDt) (data : Bytes) (len : Nat) : Option Json :=
  if fmt.outfmt = .json then pdispValue fmt dt data len else none

def pdispShown (fmt : Fmt) (label : Bytes) (dt : ParmDt) (data : Bytes) (len : Nat) : List Event :=
  ((pdisp fmt label dt data len : Program Unit Unit) (World.start ())).events.flatMap Event.output

section
variable {p p' p'' : Page τ} {shown shown' : List Event}

theorem page_pure (a : α) : OnPage p (pure a) a p [] := does_pure a

private theorem page_bind {m : Program τ α} {next : α → Program τ β} {a : α} {b : β} (first : OnPage p m a p' shown)
    (rest : OnPage p' (next a) b p'' shown') : OnPage p (m >>= next) b p'' (shown ++ shown') :=
  does_congr (does_bind first rest) rfl (iff_of_eq (and_true _))

theorem page_event {e : Event} (unseen : e.output = []) : OnPage p (Traced.emit e : Program τ Unit) () p [] :=
  does_note unseen trivial

theorem page_setRoot (label : Bytes) (value : Option Json) :
    OnPage p (setRoot label value) () (p.set [(label,value)]) [] :=
  does_modify fun w same => by rw [← same]; rfl

/-- A part that shows the same from a page as on its own. -/
def ShownAs (fmt : Fmt) (label : Bytes) (m : {τ : Type} → Program τ Unit) (value : Option Json) : Prop :=
  ∀ {τ : Type} (p : Page τ), OnPage p m () (p.set [(label,if fmt.outfmt = .json then value else none)])
    (((m : Program Unit Unit) (World.start ())).events.flatMap Event.output)

private theorem set_none (label : Bytes) : p.set [(label,none)] = p := p.set_nil

private theorem shownAs_output (fmt : Fmt) (label text : Bytes) (value : Option Json) :
    ShownAs fmt label (output fmt label value text) value := by
  intro τ p
  unfold output
  split_ifs
  · exact page_setRoot label value
  · rw [set_none]
    exact does_congr (does_emit _) rfl (iff_of_true trivial trivial)

private theorem shownAs_bits (fmt : Fmt) (label : Bytes) (table : List JbdBit) (short : Int) :
    ShownAs fmt label (pdispBits fmt label table short) (bitsValue fmt table short) := by
  intro τ p
  unfold pdispBits bitsValue
  split_ifs with numeric json json
  · have known := shownAs_output fmt label (showInt short) (some (.number short)) p
    rwa [if_pos json] at known
  · have known := shownAs_output fmt label (showInt short) (some (.number short)) p
    rwa [if_neg json] at known
  · exact page_setRoot label _
  · have known := shownAs_output fmt label (bitList fmt table (UInt16.ofInt short))
      (Json.initString (bitList fmt table (UInt16.ofInt short))) p
    rw [if_neg json] at known
    exact known

private theorem shownAs_field (fmt : Fmt) (label : Bytes) (signed : Bool) (vals : List Int) (i : UInt8) :
    ShownAs fmt label (pdispField fmt label signed vals i) (fieldValue fmt vals i) := by
  intro τ p
  unfold pdispField fieldValue
  cases signed <;> exact shownAs_output fmt label _ _ p

private theorem shownAs_dump (fmt : Fmt) (label : Bytes) (val : Int) :
    ShownAs fmt label (dump fmt label val) (dumpValue fmt val) := by
  intro τ p
  unfold dump
  split_ifs
  · exact page_setRoot label _
  · rw [set_none]
    exact does_congr (does_emit _) rfl (iff_of_true trivial trivial)

private theorem shownAs_pdisp (fmt : Fmt) (label : Bytes) (dt : ParmDt) (data : Bytes) (len : Nat) :
    ShownAs fmt label (pdisp fmt label dt data len) (pdispValue fmt dt data len) := by
  intro τ p
  cases dt
  case func | ntc => exact shownAs_bits fmt label _ _ p
  case scval | scdelay | dsgoc2 | dsgoc2delay | hcovpdelay | hcuvpdelay => exact shownAs_field fmt label _ _ _ p
  case dump => exact shownAs_dump fmt label _ p
  case str =>
    have text := shownAs_output fmt label (trim (Json.cstr (data.take len)))
      (Json.initString (trim (Json.cstr (data.take len)))) p
    exact does_congr (page_bind (page_event rfl) text) rfl Iff.rfl
  case unk =>
    rw [show pdispValue fmt .unk data len = none from rfl,ite_self,set_none]
    exact page_pure ()
  all_goals exact shownAs_output fmt label _ _ p

/-- pdisp sets its member in JSON mode and prints its line in the other modes. -/
private theorem page_pdisp (fmt : Fmt) (label : Bytes) (dt : ParmDt) (data : Bytes) (len : Nat) :
    OnPage p (pdisp fmt label dt data len) () (p.set [(label,pdispMember fmt dt data len)])
      (pdispShown fmt label dt data len) :=
  shownAs_pdisp fmt label dt data len p

end

/-- A READ of the register of a parameter, from a line on. -/
def reading (host : Host τ) (pp : JbdParams) (line : τ) : Outcome τ Event (Option Bytes) :=
  exchange host (frame jbdCmdRead pp.reg []) 7 pp.reg 5 line

/-- What is read for one parameter after the other, up to the first failure where
that ends the loop, and the line behind it. -/
def readings (host : Host τ) (stops : Bool) : List JbdParams → τ → List (JbdParams × Option Bytes) × τ
  | [], line => ([],line)
  | pp::pps, line =>
    let o := reading host pp line
    if stops && o.value.isNone then ([(pp,none)],o.state) else
    let rest := readings host stops pps o.state
    ((pp,o.value)::rest.1,rest.2)

/-- The replies shown are those with at least `least` bytes. -/
def readingRow (fmt : Fmt) (least : Nat) (r : JbdParams × Option Bytes) : Bytes × Option Json :=
  (r.1.label,(r.2.filter (fun payload => least ≤ payload.length)).bind fun payload =>
    pdispMember fmt r.1.dt (settle 128 (some payload)).2 payload.length)

def readingShown (fmt : Fmt) (least : Nat) (r : JbdParams × Option Bytes) : List Event :=
  match r.2.filter (fun payload => least ≤ payload.length) with
  | none => []
  | some payload => pdispShown fmt r.1.label r.1.dt (settle 128 (some payload)).2 payload.length

def Page.move (p : Page τ) (line : τ) : Page τ := {p with line := line}

section
variable {host : Host τ} {p : Page τ}

private theorem page_rw (action reg : UInt8) (data : Bytes) :
    let o := exchange host (request action reg data).1 (request action reg data).2 reg 5 p.line
    OnPage p (jbdRw host action reg data) (settle data.length o.value) (p.move o.state) [] := by
  rintro o w rfl
  rw [jbdRw_run]
  refine ⟨rfl,rfl,?_,iff_of_true (fun _ _ => trivial) trivial⟩
  refine List.flatMap_eq_nil_iff.mpr ?_
  refine rwEvents_elim _ _ _ _ _ rfl rfl (fun e member => ?_) fun _ _ _ => rfl
  have wire := exchange_onWire _ _ _ _ _ _ e member
  cases e <;> first | rfl | cases wire

private theorem page_readReply (pp : JbdParams) : OnPage p (readReply host pp.reg 128)
    (settle 128 (reading host pp p.line).value) (p.move (reading host pp p.line).state) [] := by
  have known := @page_rw τ host p jbdCmdRead pp.reg (List.replicate 128 0)
  rwa [request_read,List.length_replicate] at known

def answer (host : Host τ) (reg : UInt8) (data : Bytes) (line : τ) : Outcome τ Event (Option Bytes) :=
  exchange host (request jbdCmdWrite reg data).1 (request jbdCmdWrite reg data).2 reg 5 line

/-- The bracket of the EEPROM: its result, and nothing shown. -/
theorem page_bracket {fn : Fn} {reg : UInt8} {data : Bytes} : OnPage p (do
      Traced.emit (.enter fn)
      let r ← jbdRw host jbdCmdWrite reg data
      Traced.emit (.leave fn r.1)
      return r.1) (settle data.length (answer host reg data p.line).value).1
    (p.move (answer host reg data p.line).state) [] :=
  does_silent (page_event rfl) (does_silent (page_rw _ _ _) (does_silent (page_event rfl) (page_pure _)))

theorem page_open : OnPage p (packOpen host) (host.opens p.line).1 (p.move (host.opens p.line).2) [] := by
  rintro w rfl
  exact ⟨rfl,rfl,rfl,iff_of_true (fun _ _ => trivial) trivial⟩

private theorem page_close : OnPage p (packClose host) () (p.move (host.closes p.line).2) [] := by
  refine does_silent (does_modify ?_) (page_event rfl)
  rintro w rfl
  rfl

theorem page_endAndClose : ∃ line, OnPage p (endAndClose host) () (p.move line) [] :=
  ⟨_,does_silent page_bracket page_close⟩

theorem page_printDocument (s : Settings) :
    ∃ shown, OnPage p (printDocument s : Program τ Unit) () p shown ∧ (s.outfmt ≠ .json → shown = []) := by
  by_cases json : s.outfmt = .json
  · let still : World τ := {World.start p.line with rootObject := p.rootObject,rootValue := p.rootValue}
    refine ⟨[.printed .outfp (rootText s.pretty still)],does_pos json (does_get fun w known => ?_),absurd json⟩
    have same : rootText s.pretty w = rootText s.pretty still := by
      subst known
      rfl
    rw [same]
    exact does_congr (does_emit _) rfl (iff_of_true trivial trivial)
  · exact ⟨[],does_neg json (page_pure ()),fun _ => rfl⟩

private theorem page_find (label : Bytes) : OnPage p (findParm label : Program τ (Option JbdParams)) (getp label) p [] :=
  page_bind (page_event rfl) (page_pure _)

/-- What one turn of a loop does with a reply. -/
private theorem page_shown (fmt : Fmt) (least : Nat) (pp : JbdParams) (reply : Option Bytes) : OnPage p (do
      if (settle 128 reply).1 ≥ least then
        pdisp fmt pp.label pp.dt (settle 128 reply).2 (settle 128 reply).1.toNat : Program τ Unit) ()
      (p.set [readingRow fmt least (pp,reply)]) (readingShown fmt least (pp,reply)) := by
  cases reply with
  | none =>
    rw [if_neg (by rw [settle_none_value]; omega)]
    change OnPage p _ () (p.set [(pp.label,none)]) []
    rw [set_none]
    exact page_pure ()
  | some payload =>
    by_cases long : least ≤ payload.length
    · rw [if_pos (by rw [settle_some_value]; omega),settle_some_value,Int.toNat_natCast]
      have known := @page_pdisp τ p fmt pp.label pp.dt (settle 128 (some payload)).2 payload.length
      simpa only [readingRow,readingShown,Option.filter_some,long,decide_true,if_true,Option.bind_some] using known
    · rw [if_neg (by rw [settle_some_value]; omega)]
      simp only [readingRow,readingShown,Option.filter_some,long,decide_false,Bool.false_eq_true,if_false,Option.bind_none]
      rw [set_none]
      exact page_pure ()

/-- The page behind a loop over these parameters. -/
def Page.after (p : Page τ) (host : Host τ) (stops : Bool) (fmt : Fmt) (least : Nat) (pps : List JbdParams) : Page τ :=
  (p.move (readings host stops pps p.line).2).set ((readings host stops pps p.line).1.map (readingRow fmt least))

def loopShown (host : Host τ) (stops : Bool) (fmt : Fmt) (least : Nat) (pps : List JbdParams) (line : τ) : List Event :=
  (readings host stops pps line).1.flatMap (readingShown fmt least)

private theorem after_nil (stops : Bool) (fmt : Fmt) (least : Nat) : p.after host stops fmt least [] = p := p.set_nil

private theorem page_readParm (fmt : Fmt) (least : Nat) (pp : JbdParams) : OnPage p (readParm host fmt least pp) ()
    ((p.move (reading host pp p.line).state).set [readingRow fmt least (pp,(reading host pp p.line).value)])
    (readingShown fmt least (pp,(reading host pp p.line).value)) :=
  page_bind (page_readReply pp) (page_shown fmt least pp _)

private theorem after_cons (fmt : Fmt) (least : Nat) (pp : JbdParams) (pps : List JbdParams) :
    ((p.move (reading host pp p.line).state).set [readingRow fmt least (pp,(reading host pp p.line).value)]).after
      host false fmt least pps = p.after host false fmt least (pp::pps) := by
  obtain ⟨line,object,value⟩ := p
  cases object <;> rfl

end

section
variable {host : Host τ} {p p' p'' : Page τ} {shown shown' : List Event}

theorem page_next {m : Main τ α} {next : α → Main τ β} {a : α} {r : Except Int β} (first : OnPage p m.run (.ok a) p' shown)
    (rest : OnPage p' (next a).run r p'' shown') : OnPage p (m >>= next).run r p'' (shown ++ shown') :=
  page_bind first rest

theorem page_silent {m : Main τ α} {next : α → Main τ β} {a : α} {r : Except Int β} (first : OnPage p m.run (.ok a) p' [])
    (rest : OnPage p' (next a).run r p'' shown) : OnPage p (m >>= next).run r p'' shown :=
  page_next first rest

theorem page_lift {m : Program τ α} {a : α} (known : OnPage p m a p' shown) :
    OnPage p (liftM m : Main τ α).run (.ok a) p' shown :=
  does_then known (does_pure _)

theorem page_readOperands (fmt : Fmt) (operands : List Bytes) (pps : List JbdParams)
    (known : operands.map getp = pps.map some) : OnPage p (readOperands host fmt operands).run (.ok ())
      (p.after host false fmt 1 pps) (loopShown host false fmt 1 pps p.line) := by
  induction operands generalizing p pps with
  | nil =>
    obtain rfl : pps = [] := by simpa using known.symm
    rw [after_nil]
    exact page_pure _
  | cons name operands ih =>
    obtain ⟨pp,pps,rfl⟩ : ∃ pp rest, pps = pp::rest := by
      cases pps with
      | nil => cases known
      | cons pp rest => exact ⟨pp,rest,rfl⟩
    obtain ⟨found,others⟩ := List.cons.inj known
    refine page_silent (page_lift (page_find name)) ?_
    rw [found]
    rw [← after_cons]
    exact page_next (page_lift (page_readParm fmt 1 pp)) (ih pps others)

theorem page_readMembers (fmt : Fmt) (members : List (Bytes × Json)) (pps : List JbdParams)
    (known : members.map (fun m => getp m.1) = pps.map some) : OnPage p (readMembers host fmt members).run (.ok ())
      (p.after host false fmt 0 pps) (loopShown host false fmt 0 pps p.line) := by
  induction members generalizing p pps with
  | nil =>
    obtain rfl : pps = [] := by simpa using known.symm
    rw [after_nil]
    exact page_pure _
  | cons member members ih =>
    obtain ⟨pp,pps,rfl⟩ : ∃ pp rest, pps = pp::rest := by
      cases pps with
      | nil => cases known
      | cons pp rest => exact ⟨pp,rest,rfl⟩
    have found : getp member.1 = some pp := (List.cons.inj known).1
    refine page_silent (page_lift (page_find member.1)) ?_
    rw [found,← after_cons]
    exact page_next (page_lift (page_readParm fmt 0 pp)) (ih pps (List.cons.inj known).2)

theorem page_readLines (fmt : Fmt) (lines : List Bytes) : OnPage p (readLines host fmt lines) ()
    (p.after host false fmt 0 ((lines.map lineLabel).filterMap getp))
    (loopShown host false fmt 0 ((lines.map lineLabel).filterMap getp) p.line) := by
  induction lines generalizing p with
  | nil =>
    rw [List.map_nil,List.filterMap_nil,after_nil]
    exact page_pure _
  | cons line lines ih =>
    refine does_silent (page_find (lineLabel line)) ?_
    cases found : getp (lineLabel line) with
    | none =>
      rw [List.map_cons,List.filterMap_cons_none found]
      exact ih
    | some pp =>
      rw [List.map_cons,List.filterMap_cons_some found,← after_cons]
      exact page_bind (page_readParm fmt 0 pp) ih

private theorem readings_failed (pp : JbdParams) (pps : List JbdParams) (line : τ)
    (failed : (reading host pp line).value = none) :
    readings host true (pp::pps) line = ([(pp,none)],(reading host pp line).state) := by
  simp [readings,failed]

private theorem readings_answered (pp : JbdParams) (pps : List JbdParams) (line : τ) (payload : Bytes)
    (answered : (reading host pp line).value = some payload) : readings host true (pp::pps) line =
      ((pp,some payload)::(readings host true pps (reading host pp line).state).1,
        (readings host true pps (reading host pp line).state).2) := by
  simp [readings,answered]

theorem page_readAll (fmt : Fmt) (table : List JbdParams) : OnPage p (readAll host fmt table) ()
    (p.after host true fmt 1 table) (loopShown host true fmt 1 table p.line) := by
  induction table generalizing p with
  | nil =>
    rw [after_nil]
    exact page_pure _
  | cons pp table ih =>
    refine does_silent (page_readReply pp) ?_
    unfold Page.after loopShown
    cases reply : (reading host pp p.line).value with
    | none =>
      rw [readings_failed pp table p.line reply]
      change OnPage _ _ () ((p.move (reading host pp p.line).state).set [(pp.label,none)]) []
      rw [set_none]
      exact page_pure ()
    | some payload =>
      rw [readings_answered pp table p.line payload reply]
      have turn := @page_shown τ (p.move (reading host pp p.line).state) fmt 1 pp (some payload)
      have final : ((p.move (reading host pp p.line).state).set [readingRow fmt 1 (pp,some payload)]).after host true fmt 1
          table = (p.move (readings host true table (reading host pp p.line).state).2).set
            (((pp,some payload)::(readings host true table (reading host pp p.line).state).1).map (readingRow fmt 1)) := by
        obtain ⟨line,object,value⟩ := p
        cases object <;> rfl
      rw [← final]
      refine does_neg (by rw [settle_some_value]; omega) ?_
      by_cases empty : payload.length = 0
      · rw [if_neg (by rw [settle_some_value]; omega)] at turn
        refine does_neg (by rw [settle_some_value]; omega) ?_
        have both : OnPage _ (pure () >>= fun _ => readAll host fmt table) () _ _ := page_bind turn ih
        rwa [pure_bind] at both
      · rw [if_pos (by rw [settle_some_value]; omega)] at turn
        exact does_pos (by rw [settle_some_value]; omega) (page_bind turn ih)

end

end Jbdtool
