import Jbdtool.CfgBuffer

/-! Which files give every item line its keyword and value by that line alone. -/
namespace Jbdtool.CfgBuffer
open CString Cfg

def staysInside (text : Bytes) (inside : Bool) : Bool :=
  if text = [] then false else if isHeader text then true else inside

def isItemLine (text : Bytes) (inside : Bool) : Bool := inside && !(text = [] || isHeader text || isComment text)

def linesFrom : Nat → Option Bytes → Bool → List Bytes
  | 0, _, _ => []
  | n + 1, fp, inside => match Cfg.readline lineSize fp with
    | none => []
    | some (text,fp) => (if isItemLine text inside then [text] else []) ++ linesFrom n fp (staysInside text inside)

def itemLines (file : Bytes) : List Bytes := linesFrom (file.length + 2) (some file) false

/-- Whatever `line` holds at first: what an item line gives is what the same line gives in
any file, and where there is no '=' nothing behind its terminator is read. -/
def StandsAlone (file : Bytes) : Prop := ∀ line : LineBuffer, ∃ info reads, cfgReadBuffer file line = some (info,reads) ∧
  ∀ read ∈ reads, (61 ∉ read.line → Mem.Below (read.line.length + 1) read.accesses) ∧
    ∀ file' line' info' reads', cfgReadBuffer file' line' = some (info',reads') → ∀ read' ∈ reads', read'.line = read.line →
      read'.keyword = read.keyword ∧ read'.value = read.value

section
variable {line : LineBuffer} {text : Bytes} {r : Reader}

private theorem newItem_early (early : Early text) (desc : Bytes) : newItem text desc =
    some ⟨trim (takeKeyword 0 text).1,if desc = [] then none else some desc,(takeKeyword 0 text).2.tail⟩ := by
  obtain ⟨c,value,behind⟩ := List.exists_cons_of_ne_nil ((early_iff text).mp early)
  unfold newItem
  dsimp only
  rw [behind]
  rfl

/-- What becomes of the reader, and what is read of an item line. An early one is
processed as the line itself is. -/
private theorem processBuffer_lines (holds : Holds line text) (known : stringIn lineSize line = text) : ∃ r',
    processBuffer r line = some (r',if isItemLine text r.current.isSome then [itemRead line] else []) ∧
      r'.current.isSome = staysInside text r.current.isSome ∧
      ((isItemLine text r.current.isSome = true → Early text) → processLine r text = some r') := by
  unfold processBuffer itemSection isItemLine staysInside
  rw [known]
  by_cases blank : text = []
  · have read : processLine r text = some {r with current := none} := by rw [processLine,if_pos blank]
    rw [if_pos (.inl blank),read,if_pos blank]
    exact ⟨{r with current := none},by simp [blank],rfl,fun _ => rfl⟩
  rw [if_neg blank]
  cases header : isHeader text with
  | true =>
    rw [if_pos (.inr (.inl rfl)),processLine_header header]
    cases r.sections.findIdx? (fun s => s.name = headerName text) with
    | some i => exact ⟨⟨r.sections,some i,[]⟩,by simp,rfl,fun _ => rfl⟩
    | none => exact ⟨⟨r.sections ++ [⟨headerName text,[]⟩],some r.sections.length,[]⟩,by simp,rfl,fun _ => rfl⟩
  | false =>
    cases current : r.current with
    | none =>
      rw [processLine_outside blank header current,ite_self]
      exact ⟨r,by simp,by simp [current],fun _ => rfl⟩
    | some i =>
      cases comment : isComment text with
      | true =>
        rw [if_pos (.inr (.inr rfl)),processLine_comment blank header current comment]
        exact ⟨{r with desc := text.take 1023},by simp,by simp [current],fun _ => rfl⟩
      | false =>
        rw [if_neg (by simp [blank])]
        refine ⟨⟨r.sections.modify i (Section.put ⟨(itemRead line).keyword,if r.desc = [] then none else some r.desc,
          (itemRead line).value⟩),some i,[]⟩,by simp [blank],rfl,fun early => ?_⟩
        have early := early (by simp [blank])
        obtain ⟨accesses,made,-⟩ := itemRead_early holds known early
        rw [made]
        unfold processLine
        rw [if_neg blank,header,current,comment,newItem_early early]
        rfl

/-- What has been read of an item line has been read in an array that held it. -/
def Genuine (read : ItemRead) : Prop := ∃ line text, Holds line text ∧ stringIn lineSize line = text ∧ read = itemRead line

private theorem readBuffer_lines (n : Nat) (fp : Option Bytes) (line : LineBuffer) (r : Reader)
    (enough : ∀ rest, fp = some rest → rest.length + 1 < n) (positive : 0 < n) : ∃ r' reads,
      readBuffer n fp line r = some (r',reads) ∧ reads.map ItemRead.line = linesFrom n fp r.current.isSome ∧
        (∀ read ∈ reads, Genuine read) ∧
        ((∀ text ∈ linesFrom n fp r.current.isSome, Early text) → readAll n fp r = some r') := by
  induction n generalizing fp line r with
  | zero => exact absurd positive (lt_irrefl 0)
  | succ n ih =>
    cases fp with
    | none => exact ⟨r,[],rfl,rfl,nofun,fun _ => rfl⟩
    | some rest =>
      obtain ⟨text,fp,line1,pure,got,known,short⟩ := readline_text rest line
      have holds := holds_string known short
      obtain ⟨r1,processed,inside,same⟩ := @processBuffer_lines line1 text r holds known
      have more := enough rest rfl
      have shorter (rest' : Bytes) (left : fp = some rest') : rest'.length + 1 < n := by
        rw [readline_some] at pure
        have ended : (readFrom lineSize rest []).2 = fp := (Prod.mk.inj (Option.some.inj pure)).2
        have less := readFrom_shorter (ended.trans left)
        omega
      obtain ⟨r',others,later,lines,genuine,same'⟩ := ih fp line1 r1 shorter (by omega)
      rw [inside] at lines same'
      have parts : linesFrom (n + 1) (some rest) r.current.isSome =
          (if isItemLine text r.current.isSome then [text] else []) ++ linesFrom n fp (staysInside text r.current.isSome) := by
        rw [linesFrom,pure]
      refine ⟨r',(if isItemLine text r.current.isSome then [itemRead line1] else []) ++ others,?_,?_,?_,?_⟩
      · rw [readBuffer,got]
        simp only [processed,later,Option.bind_eq_bind,Option.bind_some]
      · rw [List.map_append,lines,parts]
        cases isItemLine text r.current.isSome with
        | true => simp [known]
        | false => simp
      · intro read inside
        rcases List.mem_append.mp inside with new | old
        · split_ifs at new
          · exact ⟨line1,text,holds,known,List.mem_singleton.mp new⟩
          · exact (List.not_mem_nil new).elim
        · exact genuine read old
      · intro early
        rw [parts] at early
        have here : processLine r text = some r1 := same fun item =>
          early text (List.mem_append_left _ (by rw [if_pos item]; exact List.mem_singleton_self text))
        have behind := same' fun text inside => early text (List.mem_append_right _ inside)
        have line' : Cfg.readline 1022 (some rest) = some (text,fp) := pure
        rw [readAll,line']
        simp only [here,behind,Option.bind_eq_bind,Option.bind_some]

private theorem cfgReadBuffer_lines (file : Bytes) (line : LineBuffer) :
    ∃ info reads, cfgReadBuffer file line = some (info,reads) ∧
    reads.map ItemRead.line = itemLines file ∧ (∀ read ∈ reads, Genuine read) ∧
    ((∀ text ∈ itemLines file, Early text) → cfgRead file = some info) := by
  obtain ⟨r,reads,got,lines,genuine,same⟩ := readBuffer_lines (file.length + 2) (some file) line ⟨[],none,[]⟩
    (fun rest same => by obtain rfl := Option.some.inj same; omega) (by omega)
  refine ⟨⟨r.sections⟩,reads,?_,lines,genuine,fun early => ?_⟩
  · simp only [cfgReadBuffer,got,Option.bind_eq_bind,Option.bind_some]
  · simp only [cfgRead,same early,Option.bind_eq_bind,Option.bind_some]

private theorem genuine_early {read : ItemRead} (genuine : Genuine read) (early : Early read.line) :
    read.keyword = trim (takeKeyword 0 read.line).1 ∧ read.value = (takeKeyword 0 read.line).2.tail ∧
      Mem.Below (read.line.length + 1) read.accesses := by
  obtain ⟨line,text,holds,known,rfl⟩ := genuine
  have same := (itemRead_line line).trans known
  rw [same] at early ⊢
  obtain ⟨accesses,made,below⟩ := itemRead_early holds known early
  rw [made]
  exact ⟨rfl,rfl,below⟩

/-- Every item line stands alone exactly where each has its '=' among the first 63
characters, or has at least 64. -/
theorem standsAlone_iff (file : Bytes) : StandsAlone file ↔ ∀ text ∈ itemLines file, Early text := by
  constructor
  · intro alone text listed
    obtain ⟨info,reads,got,each⟩ := alone (fun _ => 0)
    obtain ⟨info',reads',got',lines,genuine,-⟩ := cfgReadBuffer_lines file (fun _ => 0)
    obtain ⟨-,rfl⟩ := Prod.mk.inj (Option.some.inj (got.symm.trans got'))
    rw [← lines] at listed
    obtain ⟨read,inside,rfl⟩ := List.mem_map.mp listed
    obtain ⟨line,text,holds,known,rfl⟩ := genuine read inside
    have same := (itemRead_line line).trans known
    by_contra late
    rw [same] at late
    obtain ⟨none,behind⟩ := itemRead_late holds late
    have below := (each _ inside).1
    rw [same] at below
    exact lt_irrefl _ (below none _ behind)
  · intro early line
    obtain ⟨info,reads,got,lines,genuine,-⟩ := cfgReadBuffer_lines file line
    refine ⟨info,reads,got,fun read inside => ?_⟩
    have listed : read.line ∈ itemLines file := lines ▸ List.mem_map_of_mem inside
    obtain ⟨keyword,value,below⟩ := genuine_early (genuine read inside) (early read.line listed)
    refine ⟨fun _ => below,fun file' line' info' reads' got' read' inside' same => ?_⟩
    obtain ⟨info'',reads'',got'',-,genuine',-⟩ := cfgReadBuffer_lines file' line'
    obtain ⟨-,rfl⟩ := Prod.mk.inj (Option.some.inj (got'.symm.trans got''))
    obtain ⟨keyword',value',-⟩ := genuine_early (genuine' read' inside') (same.symm ▸ early read.line listed)
    rw [keyword,value,keyword',value',same]
    exact ⟨rfl,rfl⟩

/-- The item line `k` in two files: its value is what the line before has left. -/
theorem standsAlone_stale :
    (cfgReadBuffer (bytes "[section]\nk\n") (fun _ => 0)).map (·.2.map (fun read => (read.line,read.value))) =
      some [(bytes "k",bytes "ection]")] ∧
    (cfgReadBuffer (bytes "[s]\nk\n") (fun _ => 0)).map (·.2.map (fun read => (read.line,read.value))) =
      some [(bytes "k",bytes "]")] ∧
    ¬ ∀ file, StandsAlone file := by
  have first : (cfgReadBuffer (bytes "[section]\nk\n") (fun _ => 0)).map (·.2.map (fun read => (read.line,read.value))) =
      some [(bytes "k",bytes "ection]")] := by decide +kernel
  have second : (cfgReadBuffer (bytes "[s]\nk\n") (fun _ => 0)).map (·.2.map (fun read => (read.line,read.value))) =
      some [(bytes "k",bytes "]")] := by decide +kernel
  refine ⟨first,second,fun all => ?_⟩
  obtain ⟨info,reads,got,alone⟩ := all (bytes "[section]\nk\n") (fun _ => 0)
  obtain ⟨info',reads',got',-⟩ := all (bytes "[s]\nk\n") (fun _ => 0)
  rw [got] at first
  rw [got'] at second
  obtain ⟨read,rfl,same⟩ := List.map_eq_singleton_iff.mp (Option.some.inj first)
  obtain ⟨read',rfl,same'⟩ := List.map_eq_singleton_iff.mp (Option.some.inj second)
  obtain ⟨line,value⟩ := Prod.mk.inj same
  obtain ⟨line',value'⟩ := Prod.mk.inj same'
  have equal := ((alone read List.mem_cons_self).2 _ _ _ _ got' read' List.mem_cons_self (line'.trans line.symm)).2
  rw [value,value'] at equal
  exact absurd equal (by decide)

end

end Jbdtool.CfgBuffer
