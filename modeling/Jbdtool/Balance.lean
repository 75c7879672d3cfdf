import Jbdtool.Mqtt
import Jbdtool.CanBounds
import Jbdtool.Base.Words

/-! The Balance string: two words of a status, put together in 64 bits and shown digit
by digit. The lower one is read as a signed short. -/
namespace Jbdtool
open CString Numbers Traced
variable {τ α β : Type}

/-- What a status says of its balancing cells: their two words, and the number of cells. -/
structure Balancing where
  lo : Nat
  hi : Nat
  cells : Nat
  below : lo < 65536

def wordsAt (data : Bytes) (k cells : Nat) : Balancing where
  lo := ushortAt data k
  hi := ushortAt data (k + 2)
  cells := cells
  below := Nat.mod_lt _ (by decide)

def stdBalancing (host : Host τ) (w : World τ) : Balancing :=
  let data := (exchange host (frame jbdCmdRead jbdCmdHwinfo []) 7 jbdCmdHwinfo 5 w.line).value.getD []
  wordsAt data 12 (byteAt data 21).toNat

def headState (host : Host τ) (w : World τ) : Nat → World τ
  | 0 => w
  | n + 1 => (jbdCanGet host (0x100 + n) true (headState host w n)).state

def headFrame (host : Host τ) (w : World τ) (n : Nat) : Bytes :=
  (jbdCanGet host (0x100 + n) true (headState host w n)).value.2

/-- Frames 0x102 and 0x104 of jbd_can_get_info. -/
def canBalancing (host : Host τ) (w : World τ) : Balancing :=
  wordsAt (headFrame host w 2) 0 (byteAt (headFrame host w 4) 0).toNat

def balancing (host : Host τ) (w : World τ) : Balancing :=
  if host.can then canBalancing host w else stdBalancing host w

namespace Balancing

def word (b : Balancing) : Nat := b.lo + 65536 * b.hi

/-- The bits after the two words have been put together: those from 16 on are set as
well where bit 15 of the lower word is. -/
def combined (b : Balancing) (i : Nat) : Bool :=
  b.lo.testBit (min i 15) || (decide (16 ≤ i) && b.hi.testBit (min (i - 16) 15))

/-- These are the bits and the cells of this status. -/
def KeptIn (b : Balancing) (info : JbdInfo) : Prop :=
  info.strings = b.cells ∧ ∀ i < 64, info.balancebits.toNat.testBit i = b.combined i

private theorem word_bit (b : Balancing) (i : Nat) :
    b.word.testBit i = if i < 16 then b.lo.testBit i else b.hi.testBit (i - 16) := by
  rw [word,Nat.add_comm]
  exact Nat.testBit_two_pow_mul_add b.hi (i := 16) b.below i

/-- The combined bits are those of the words, up to cell 16 or where nothing is added. -/
private theorem combined_word (b : Balancing) (few : b.cells ≤ 32) : (∀ i < b.cells, b.combined i = b.word.testBit i) ↔
    b.cells ≤ 16 ∨ b.lo.testBit 15 = false ∨ ∀ i < b.cells - 16, b.hi.testBit i = true := by
  have low (i : Nat) (small : i < 16) : b.combined i = b.word.testBit i := by
    rw [word_bit,if_pos small,combined,Nat.min_eq_left (by omega),decide_eq_false (by omega)]
    simp
  have high (i : Nat) (inside : i < 16) : b.combined (16 + i) = (b.lo.testBit 15 || b.hi.testBit i) := by
    rw [combined,Nat.min_eq_right (by omega),Nat.add_sub_cancel_left,Nat.min_eq_left (by omega)]
    simp
  have there (i : Nat) : b.word.testBit (16 + i) = b.hi.testBit i := by
    rw [word_bit,if_neg (by omega),Nat.add_sub_cancel_left]
  constructor
  · intro same
    by_cases more : b.cells ≤ 16
    · exact .inl more
    refine .inr ((Bool.eq_false_or_eq_true (b.lo.testBit 15)).symm.imp_right fun set i inside => ?_)
    have here := same (16 + i) (by omega)
    rw [high i (by omega),there,set,Bool.true_or] at here
    exact here.symm
  · intro condition i inside
    rcases Nat.lt_or_ge i 16 with small | large
    · exact low i small
    obtain ⟨j,rfl⟩ := Nat.exists_eq_add_of_le large
    rw [high j (by omega),there]
    rcases condition with few | clear | set
    · omega
    · rw [clear,Bool.false_or]
    · rw [set j (by omega),Bool.or_true]

end Balancing

private theorem words_combined (data : Bytes) (k i : Nat) (inside : i < 64) (n : Nat) :
    (UInt64.ofInt (shortAt data k) ||| UInt64.ofInt (shortAt data (k + 2) * 65536)).toNat.testBit i =
      (wordsAt data k n).combined i := by
  unfold shortAt wordsAt ushortAt getshort getushort Balancing.combined
  rw [UInt64.toNat_or,Nat.testBit_or,shifted_bit _ i inside,signed_bit _ _ i inside,signed_bit _ _ (i - 16) (by omega)]

def Balancing.Read (b : Balancing) (r : Int × JbdInfo) : Prop := r.1 = 0 → b.KeptIn r.2

private theorem read_failed (b : Balancing) (info : JbdInfo) : b.Read (1,info) := fun ok => by simp at ok

private theorem jbdStdGetInfo_balancing (host : Host τ) (info : JbdInfo) (w : World τ) :
    (stdBalancing host w).Read (jbdStdGetInfo host info w).value := by
  have short := exchange_length host (frame jbdCmdRead jbdCmdHwinfo []) 7 jbdCmdHwinfo 5 w.line
  unfold jbdStdGetInfo stdBalancing
  rw [readReply,jbdRw_bind,request_read,List.length_replicate]
  generalize exchange host (frame jbdCmdRead jbdCmdHwinfo []) 7 jbdCmdHwinfo 5 w.line = hw at *
  generalize rwEvents _ _ _ _ = events
  cases first : hw.value with
  | none =>
    have failed (datasz : Nat) : (settle datasz none).1 < 0 := by simp [settle]
    rw [if_pos (failed 256)]
    exact read_failed _ _
  | some payload =>
    have fits : payload.length ≤ 256 := (short payload first).trans (by omega)
    have same (i : Nat) := settle_getD 256 payload i fits
    rw [if_neg (settle_received 256 payload),Outcome.after_value]
    generalize (settle 256 (some payload)).2 = data at *
    have kept : (wordsAt payload 12 (byteAt payload 21).toNat).KeptIn (decodeHwinfo host data info) := by
      refine ⟨congrArg UInt8.toNat (same 21),fun i inside => ?_⟩
      rw [← words_combined payload 12 i inside]
      simp only [decodeHwinfo,shortAt,same]
    refine (results_bind fun temps => ?_ : Results (Balancing.Read _) _) _
    refine results_bind fun cells => results_ite (fun _ => results_pure (read_failed _ _)) fun _ => ?_
    refine results_bind fun volts => results_bind fun name => ?_
    refine results_ite (fun _ => results_pure (read_failed _ _)) fun _ => ?_
    exact results_bind fun _ => results_pure fun _ => kept

private theorem canGetArrays_balancing (host : Host τ) (b : Balancing) (info : JbdInfo) (kept : b.KeptIn info) :
    Results b.Read (canGetArrays host info) := by
  have failed (info : JbdInfo) : Results b.Read (pure (1,info) : Program τ _) := results_pure (read_failed b info)
  refine results_bind fun temps => results_ite (fun _ => failed _) fun _ => ?_
  refine results_bind fun cells => results_ite (fun _ => failed _) fun _ => ?_
  exact results_bind fun model => results_ite (fun _ => failed _) fun _ => results_pure fun _ => kept

private theorem read_next (host : Host τ) (w : World τ) (n : Nat) (b : Balancing) (info : JbdInfo)
    (k : Int × Bytes → Program τ (Int × JbdInfo))
    (rest : ∀ result, b.Read (k (result,headFrame host w n) (headState host w (n + 1))).value) :
    b.Read ((do
      let r ← jbdCanGet host (0x100 + n) true
      if r.1 ≠ 0 then return (1,info)
      k r) (headState host w n)).value := by
  rw [bind_run,Outcome.after_value]
  split_ifs
  · exact read_failed _ _
  · exact rest _

private theorem jbdCanGetInfo_balancing (host : Host τ) (info : JbdInfo) (w : World τ) :
    (canBalancing host w).Read (jbdCanGetInfo host info w).value := by
  unfold jbdCanGetInfo
  refine read_next host w 0 _ _ _ fun _ => read_next host w 1 _ _ _ fun _ => read_next host w 2 _ _ _ fun _ => ?_
  refine read_next host w 3 _ _ _ fun _ => read_next host w 4 _ _ _ fun _ => ?_
  refine canGetArrays_balancing host _ _ ⟨rfl,fun i inside => ?_⟩ _
  exact words_combined (headFrame host w 2) 0 i inside _

/-- A status read has the bits and the cells of the replies. -/
private theorem jbdGetInfo_balancing (host : Host τ) (info : JbdInfo) (w : World τ) :
    (balancing host w).Read (jbdGetInfo host info w).value := by
  have scanned (b : Balancing) (r : Int × JbdInfo) (read : b.Read r) : Results b.Read (do
      if r.1 ≠ 0 then return r
      let stats ← scanCells host r.2.cellvolt r.2.strings 0 ⟨host.single (42 / 10),0,0⟩
      return (0,r.2.setStats host stats)) :=
    results_ite (fun _ => results_pure read) fun zero => results_bind fun _ => results_pure fun _ => read (by simpa using zero)
  unfold jbdGetInfo balancing
  split_ifs
  · exact scanned _ _ (jbdCanGetInfo_balancing host info w) _
  · exact scanned _ _ (jbdStdGetInfo_balancing host info w) _

private theorem balanceText_digits (bits : UInt64) (n fuel i : Nat) (whole : i + fuel = 64) (inside : i < n) (few : n ≤ 64) :
    balanceText bits n fuel i (bitDigits bits.toNat i) = bitDigits bits.toNat n := by
  induction fuel generalizing i with
  | zero => omega
  | succ fuel ih =>
    have digit : (if bits &&& (1 <<< UInt64.ofNat i) ≠ 0 then (49 : UInt8) else 48) =
        if bits.toNat.testBit i = true then 49 else 48 := if_congr (masked bits i (by omega)) rfl rfl
    have longer : bitDigits bits.toNat i ++ [if bits &&& (1 <<< UInt64.ofNat i) ≠ 0 then 49 else 48] =
        bitDigits bits.toNat (i + 1) := by
      rw [digit,bitDigits,bitDigits,List.range_succ,List.map_append,List.map_singleton]
    unfold balanceText
    simp only [longer]
    by_cases last : i + 1 ≥ n
    · rw [if_pos last,show i + 1 = n by omega]
    · rw [if_neg last]
      exact ih (i + 1) (by omega) (by omega)

/-- What a line of the output has behind this label. -/
def Event.under (fmt : Fmt) (label : Bytes) : Event → List Bytes
  | .printed .outfp line =>
    let head := (outputLine fmt label []).dropLast
    if head <+: line then [(line.drop head.length).dropLast] else []
  | _ => []

/-- The texts shown under a label: in JSON mode the member of the document, otherwise
what the lines have. -/
def shownUnder (fmt : Fmt) (label : Bytes) (o : Outcome (World τ) Event Unit) : List Bytes :=
  if fmt.outfmt = .json then
    match Json.getValue (o.state.rootObject.getD []) label with
    | some (.string text) => [text]
    | _ => []
  else o.events.flatMap (Event.under fmt label)

section
variable {fmt : Fmt} {label : Bytes}

private theorem lineHead (text : Bytes) : outputLine fmt label text = (outputLine fmt label []).dropLast ++ text ++ [10] := by
  unfold outputLine
  split_ifs <;> simp

private theorem under_line (text : Bytes) : Event.under fmt label (.printed .outfp (outputLine fmt label text)) = [text] := by
  unfold Event.under
  rw [lineHead text]
  simp

/-- The labels differ at a place that both have, so neither is the start of the other. -/
def Apart (label other : Bytes) : Prop := ∃ i < label.length, i < other.length ∧ label[i]? ≠ other[i]?

instance (label other : Bytes) : Decidable (Apart label other) :=
  inferInstanceAs (Decidable (∃ i < label.length, i < other.length ∧ label[i]? ≠ other[i]?))

private theorem apart_append (other rest : Bytes) (apart : Apart label other) : Apart label (other ++ rest) := by
  obtain ⟨i,here,there,differ⟩ := apart
  refine ⟨i,here,by rw [List.length_append]; omega,?_⟩
  rwa [List.getElem?_append_left there]

private theorem under_apart (other text : Bytes) (apart : Apart label other) :
    Event.under fmt label (.printed .outfp (outputLine fmt other text)) = [] := by
  obtain ⟨i,here,there,differ⟩ := apart
  obtain ⟨more,head⟩ : ∃ more, (outputLine fmt label []).dropLast = label ++ more := by
    unfold outputLine padRight
    split_ifs <;> simp
  obtain ⟨more',line⟩ : ∃ more, outputLine fmt other text = other ++ more := by
    unfold outputLine padRight
    split_ifs <;> simp
  have apart : ¬ label ++ more <+: other ++ more' := by
    rintro ⟨rest,same⟩
    have entries := congrArg (·[i]?) same
    simp only [List.append_assoc,List.getElem?_append_left here,List.getElem?_append_left there] at entries
    exact differ entries
  unfold Event.under
  simp [head,line,apart]

/-- From every state these are the texts of the lines under the label. -/
def Prints (fmt : Fmt) (label : Bytes) (m : Program τ α) (texts : List Bytes) : Prop :=
  ∀ w, (m w).events.flatMap (Event.under fmt label) = texts

variable {texts texts' : List Bytes}

theorem prints_pure (a : α) : Prints fmt label (pure a : Program τ α) [] := fun _ => rfl

theorem prints_bind {m : Program τ α} {k : α → Program τ β} (first : Prints fmt label m texts)
    (rest : ∀ a, Prints fmt label (k a) texts') : Prints fmt label (m >>= k) (texts ++ texts') := by
  intro w
  rw [bind_run,Outcome.after_events,List.flatMap_append,first w,rest]

theorem prints_skip {m : Program τ α} {k : α → Program τ β} (first : Prints fmt label m [])
    (rest : ∀ a, Prints fmt label (k a) texts) : Prints fmt label (m >>= k) texts :=
  prints_bind first rest

theorem prints_touch (region : Region) (i count : Nat) : Prints fmt label (emitTouch region i count : Program τ Unit) [] :=
  fun _ => rfl

private theorem prints_ite {c : Prop} [Decidable c] {m n : Program τ α} (yes : c → Prints fmt label m texts)
    (no : ¬ c → Prints fmt label n texts) : Prints fmt label (if c then m else n) texts := by
  split_ifs with holds
  · exact yes holds
  · exact no holds

private theorem prints_setRoot (other : Bytes) (value : Option Json) :
    Prints fmt label (setRoot other value : Program τ Unit) [] :=
  fun _ => rfl

theorem prints_other (other text : Bytes) (value : Option Json) (apart : Apart label other) :
    Prints fmt label (output fmt other value text : Program τ Unit) [] :=
  prints_ite (fun _ => prints_setRoot _ _) fun _ _ => by
    rw [emit_run,List.flatMap_singleton]
    exact under_apart other text apart

theorem prints_own (lines : fmt.outfmt ≠ .json) (text : Bytes) (value : Option Json) :
    Prints fmt label (output fmt label value text : Program τ Unit) [text] := fun _ => by
  unfold output
  rw [if_neg lines,emit_run,List.flatMap_singleton]
  exact under_line text

private theorem prints_displayFlat (region : Region) (key : Bytes) (apart : Apart label key) (digits : Nat) (array : Mem ℚ)
    (count i : Nat) : Prints fmt label (displayFlat fmt region key digits array count i : Program τ Unit) [] := by
  induction count generalizing i with
  | zero => exact prints_pure _
  | succ count ih =>
    refine prints_skip (prints_touch _ _ _) fun _ => prints_skip ?_ fun _ => ih _
    exact prints_other _ _ _ (apart_append key _ apart)

theorem prints_joinElements (region : Region) (sep : UInt8) (digits : Nat) (array : Mem ℚ) (count i : Nat) (text : Bytes) :
    Prints fmt label (joinElements region sep digits array count i text : Program τ Bytes) [] := by
  induction count generalizing i text with
  | zero => exact prints_pure _
  | succ count ih => exact prints_skip (prints_touch _ _ _) fun _ => ih _ _

theorem prints_displayList (region : Region) (other : Bytes) (apart : Apart label other) (digits : Nat) (array : Mem ℚ)
    (count : Nat) (temp : Bytes) :
    Prints fmt label (displayList fmt region other digits array count temp : Program τ Bytes) [] := by
  refine prints_ite (fun _ => ?_) fun _ => ?_
  · exact prints_skip (prints_joinElements _ _ _ _ _ _ _) fun _ => prints_skip (prints_setRoot _ _) fun _ => prints_pure _
  · refine prints_skip (prints_joinElements _ _ _ _ _ _ _) fun _ => ?_
    exact prints_skip (prints_other _ _ _ apart) fun _ => prints_pure _

theorem prints_balanceBits (bits : UInt64) (strings fuel i : Nat) (text : Bytes) :
    Prints fmt label (balanceBits bits strings fuel i text : Program τ Bytes) [] := by
  induction fuel generalizing i text with
  | zero => exact prints_pure _
  | succ fuel ih =>
    exact prints_skip (prints_touch _ _ _) fun _ => prints_ite (fun _ => prints_pure _) fun _ => ih _ _

private theorem prints_displayBalance (lines : fmt.outfmt ≠ .json) (info : JbdInfo) :
    Prints fmt (bytes "Balance") (displayBalance fmt info : Program τ Unit)
      [balanceText info.balancebits info.strings 64 0 []] := by
  intro w
  obtain ⟨value,-,-,-⟩ := page_balanceBits info.balancebits info.strings 64 0 [] w rfl
  unfold displayBalance
  rw [bind_run,Outcome.after_events,List.flatMap_append,prints_balanceBits,value]
  exact prints_skip (prints_touch _ _ _) (fun _ => prints_own lines _ _) _

/-- The labels of display_info, its lists and the Balance string apart. -/
def infoLabels : List Bytes :=
  [bytes "Name",bytes "Voltage",bytes "Current",bytes "DesignCapacity",bytes "RemainingCapacity",bytes "PercentCapacity",
    bytes "CycleCount",bytes "Probes",bytes "Strings",bytes "CellTotal",bytes "CellMin",bytes "CellMax",bytes "CellDiff",
    bytes "CellAvg",bytes "DeviceName",bytes "ManufactureDate",bytes "Version",bytes "FET"]

theorem prints_others (host : Host τ) (info : JbdInfo) (others : ∀ l ∈ infoLabels, Apart label l)
    (lists : Prints fmt label (displayLists host fmt info) texts)
    (balance : Prints fmt label (displayBalance fmt info : Program τ Unit) texts') :
    Prints fmt label (displayInfo host fmt info) (texts ++ texts') := by
  have other (l text : Bytes) (value : Option Json) (member : l ∈ infoLabels) :
      Prints fmt label (output fmt l value text : Program τ Unit) [] := prints_other l text value (others l member)
  have name : Prints fmt label (displayName fmt info.name : Program τ Unit) [] :=
    prints_ite (fun _ => other _ _ _ (by decide)) fun _ => prints_pure _
  have avg : Prints fmt label (displayAvg fmt info.cellAvg : Program τ Unit) [] := by
    cases info.cellAvg <;> exact other _ _ _ (by decide)
  have model : Prints fmt label (displayModel fmt info.model : Program τ Unit) [] :=
    prints_skip (prints_touch _ _ _) fun _ => other _ _ _ (by decide)
  have fet : Prints fmt label (displayFet fmt info.fetstate : Program τ Unit) [] :=
    prints_ite (fun _ => other _ _ _ (by decide)) fun _ => other _ _ _ (by decide)
  have rest : Prints fmt label (do
      dfloat fmt (bytes "CellTotal") 3 info.cellTotal
      dfloat fmt (bytes "CellMin") 3 info.cellMin
      dfloat fmt (bytes "CellMax") 3 info.cellMax
      dfloat fmt (bytes "CellDiff") 3 info.cellDiff
      displayAvg fmt info.cellAvg
      displayModel fmt info.model
      dstr fmt (bytes "ManufactureDate") info.mfgdate
      dfloat fmt (bytes "Version") 1 info.version
      displayFet fmt info.fetstate : Program τ Unit) [] := by
    iterate 4 refine prints_skip (other _ _ _ (by decide)) fun _ => ?_
    refine prints_skip avg fun _ => prints_skip model fun _ => ?_
    iterate 2 refine prints_skip (other _ _ _ (by decide)) fun _ => ?_
    exact fet
  unfold displayInfo
  refine prints_skip name fun _ => ?_
  iterate 8 refine prints_skip (other _ _ _ (by decide)) fun _ => ?_
  refine prints_bind lists fun _ => ?_
  have last := prints_bind balance fun _ => rest
  rwa [List.append_nil] at last

private theorem prints_displayInfo (host : Host τ) (lines : fmt.outfmt ≠ .json) (info : JbdInfo) :
    Prints fmt (bytes "Balance") (displayInfo host fmt info) [balanceText info.balancebits info.strings 64 0 []] := by
  have lists : Prints fmt (bytes "Balance") (displayLists host fmt info) [] := by
    refine prints_ite (fun _ => ?_) fun _ => ?_
    · exact prints_skip (prints_displayFlat _ _ (by decide) _ _ _ _) fun _ => prints_displayFlat _ _ (by decide) _ _ _ _
    · refine prints_skip (prints_displayList _ _ (by decide) _ _ _ _) fun _ => ?_
      exact prints_skip (prints_displayList _ _ (by decide) _ _ _ _) fun _ => prints_pure _
  exact prints_others host info (by decide) lists (prints_displayBalance lines info)

theorem member_row (host : Host τ) (json : fmt.outfmt = .json) (info : JbdInfo) (w : World τ) (document : w.rootObject ≠ none)
    (before after : List (Bytes × Option Json)) (value : Json) (rows : infoRows fmt info = before ++ (label,some value)::after)
    (last : label ∉ after.map Prod.fst) :
    Json.getValue ((displayInfo host fmt info w).state.rootObject.getD []) label = some value := by
  obtain ⟨base,known⟩ := Option.ne_none_iff_exists'.mp document
  obtain ⟨-,page,-,-⟩ := fills_displayInfo host json info w.page w rfl
  have object : (displayInfo host fmt info w).state.rootObject = some (Json.setValues base (infoRows fmt info)) := by
    refine (congrArg Page.rootObject page).trans ?_
    change w.rootObject.map _ = _
    rw [known]
    rfl
  rw [object,Option.getD_some,rows]
  exact Json.getValue_setValues base before after label value last

private theorem member_displayInfo (host : Host τ) (json : fmt.outfmt = .json) (info : JbdInfo) (w : World τ)
    (document : w.rootObject ≠ none) (n : Nat) (digits : balanceText info.balancebits info.strings 64 0 [] = bitDigits info.balancebits.toNat n) :
    Json.getValue ((displayInfo host fmt info w).state.rootObject.getD []) (bytes "Balance") =
      some (.string (bitDigits info.balancebits.toNat n)) := by
  have ascii : ∀ c ∈ bitDigits info.balancebits.toNat n, c < 128 := by
    intro c member
    obtain ⟨i,-,rfl⟩ := List.mem_map.mp member
    split_ifs <;> decide
  refine member_row host json info w document _ _ _ (by rw [infoRows,digits,Json.initString_ascii _ ascii]) ?_
  change bytes "Balance" ∉ [bytes "CellTotal",bytes "CellMin",bytes "CellMax",bytes "CellDiff",bytes "CellAvg",
    bytes "DeviceName",bytes "ManufactureDate",bytes "Version",bytes "FET"]
  decide

/-- One Balance string is shown, a digit for each cell. -/
private theorem displayInfo_balance (host : Host τ) (info : JbdInfo) (w : World τ)
    (document : fmt.outfmt = .json → w.rootObject ≠ none) (one : 1 ≤ info.strings) (few : info.strings ≤ 64) :
    shownUnder fmt (bytes "Balance") (displayInfo host fmt info w) = [bitDigits info.balancebits.toNat info.strings] := by
  have digits : balanceText info.balancebits info.strings 64 0 [] = bitDigits info.balancebits.toNat info.strings :=
    balanceText_digits info.balancebits info.strings 64 0 rfl one few
  unfold shownUnder
  split_ifs with json
  · rw [member_displayInfo host json info w (document json) _ digits]
  · rw [prints_displayInfo host json info w,digits]

end

/-- Balancing cells are shown as they are: one text, which has a digit for each cell, 1
exactly where the bit of the cell is set. -/
def Balancing.Faithful (b : Balancing) (texts : List Bytes) : Prop :=
  ∃ text, texts = [text] ∧ text.length = b.cells ∧ ∀ i < b.cells, (text[i]? = some 49 ↔ b.word.testBit i = true)

private theorem faithful_iff (host : Host τ) (fmt : Fmt) (b : Balancing) (info : JbdInfo) (w : World τ) (kept : b.KeptIn info)
    (document : fmt.outfmt = .json → w.rootObject ≠ none) (one : 1 ≤ b.cells) (few : b.cells ≤ 32) :
    b.Faithful (shownUnder fmt (bytes "Balance") (displayInfo host fmt info w)) ↔
      b.cells ≤ 16 ∨ b.lo.testBit 15 = false ∨ ∀ i < b.cells - 16, b.hi.testBit i = true := by
  obtain ⟨strings,bits⟩ := kept
  rw [displayInfo_balance host info w document (by omega) (by omega),strings,← b.combined_word few]
  have digit (i : Nat) (inside : i < b.cells) :
      (bitDigits info.balancebits.toNat b.cells)[i]? = some 49 ↔ b.combined i = true := by
    rw [bitDigits_one _ _ _ inside,bits i (by omega)]
  constructor
  · rintro ⟨text,shown,-,ones⟩ i inside
    obtain rfl := List.singleton_inj.mp shown
    exact Bool.eq_iff_iff.mpr ((digit i inside).symm.trans (ones i inside))
  · intro same
    refine ⟨_,rfl,bitDigits_length _ _,fun i inside => ?_⟩
    rw [digit i inside,same i inside]

/-- After jbd_get_info the Balance string of display_info is that of the two words,
over both transports, exactly up to cell 16, or where bit 15 of the lower word is clear,
or where all later cells balance. -/
theorem displayInfo_faithful_iff (host : Host τ) (fmt : Fmt) (info : JbdInfo) (w : World τ)
    (read : (jbdGetInfo host info w).value.1 = 0) (document : fmt.outfmt = .json → w.rootObject ≠ none)
    (one : 1 ≤ (balancing host w).cells) (few : (balancing host w).cells ≤ 32) :
    (balancing host w).Faithful (shownUnder fmt (bytes "Balance")
      (displayInfo host fmt (jbdGetInfo host info w).value.2 (jbdGetInfo host info w).state)) ↔
    (balancing host w).cells ≤ 16 ∨ (balancing host w).lo.testBit 15 = false ∨
      ∀ i < (balancing host w).cells - 16, (balancing host w).hi.testBit i = true := by
  have kept := jbdGetInfo_balancing host info w read
  have held : Holds w.rootObject w.rootValue (jbdGetInfo host info w).state := holds_getInfo info w ⟨rfl,rfl⟩
  refine faithful_iff host fmt _ _ _ kept (fun json => ?_) one few
  rw [held.1]
  exact document json

def seventeenCells (words : Bytes) (fits : words.length = 4) : Nat → ReadResult 256
  | 0 => .bytes (frame jbdCmdHwinfo 0 (List.replicate 12 0 ++ words ++ List.replicate 5 0 ++ [17,0])) (by simp [frame,fits])
  | 1 => .bytes (frame jbdCmdCellinfo 0 (List.replicate 34 0)) (by decide)
  | 2 => .bytes (frame jbdCmdHwver 0 []) hwver_fits
  | _ => .error

def statusHost (words : Bytes) (fits : words.length = 4) : Host Nat :=
  scripted (seventeenCells words fits) (fun _ _ => 0) (fun _ _ => 0)

def firstBalance (host : Host Nat) : List Bytes :=
  shownUnder Settings.initial.fmt (bytes "Balance") (displayInfo host Settings.initial.fmt
    (jbdGetInfo host .zero (World.start 0)).value.2 (jbdGetInfo host .zero (World.start 0)).state)

theorem displayInfo_faithful_last :
    (balancing (statusHost [0,0,0,1] rfl) (World.start 0)).Faithful (firstBalance (statusHost [0,0,0,1] rfl)) :=
  (displayInfo_faithful_iff _ _ _ _ (by decide +kernel) (by decide) (by decide +kernel) (by decide +kernel)).mpr
    (.inr (.inl (by decide +kernel)))

private theorem firstBalance_sixteenth (host : Host Nat) (read : (jbdGetInfo host .zero (World.start 0)).value.1 = 0)
    (cells : (balancing host (World.start 0)).cells = 17) (lo : (balancing host (World.start 0)).lo = 0x8000)
    (hi : (balancing host (World.start 0)).hi = 0) :
    firstBalance host = [bytes "00000000000000011"] ∧ ¬ (balancing host (World.start 0)).Faithful (firstBalance host) := by
  have kept := jbdGetInfo_balancing host .zero (World.start 0) read
  have text : Settings.initial.fmt.outfmt = .json → (jbdGetInfo host .zero (World.start 0)).state.rootObject ≠ none :=
    fun json => by cases json
  unfold firstBalance
  rw [faithful_iff host _ _ _ _ kept text (by omega) (by omega),cells,lo,hi]
  obtain ⟨strings,bits⟩ := kept
  rw [displayInfo_balance host _ _ text (by omega) (by omega),strings,cells]
  have digit (i : Nat) (inside : i ∈ List.range 17) :
      (if (jbdGetInfo host .zero (World.start 0)).value.2.balancebits.toNat.testBit i = true then (49 : UInt8) else 48) =
        if (Nat.testBit 0x8000 (min i 15) || (decide (16 ≤ i) && Nat.testBit 0 (min (i - 16) 15))) = true then 49 else 48 := by
    have few := List.mem_range.mp inside
    rw [bits i (by omega),Balancing.combined,lo,hi]
  rw [bitDigits,List.map_congr_left digit]
  decide

def seventeenFrames : Nat → ReadResult 8
  | 2 => .bytes [0x80,0,0,0] (by decide)
  | 4 => .bytes [17] (by decide)
  | _ => .bytes [] (by decide)

/-- Cell 16 balances, and cell 17 is shown as well. -/
theorem displayInfo_faithful_sixteenth :
    let std := statusHost [0x80,0,0,0] rfl
    let can := canScripted seventeenFrames
    ((jbdGetInfo std .zero (World.start 0)).value.1 = 0 ∧ (balancing std (World.start 0)).cells = 17 ∧
      firstBalance std = [bytes "00000000000000011"] ∧ ¬ (balancing std (World.start 0)).Faithful (firstBalance std)) ∧
    ((jbdGetInfo can .zero (World.start 0)).value.1 = 0 ∧ (balancing can (World.start 0)).cells = 17 ∧
      firstBalance can = [bytes "00000000000000011"] ∧ ¬ (balancing can (World.start 0)).Faithful (firstBalance can)) := by
  have words : ∀ host ∈ [statusHost [0x80,0,0,0] rfl,canScripted seventeenFrames],
      (jbdGetInfo host .zero (World.start 0)).value.1 = 0 ∧ (balancing host (World.start 0)).cells = 17 ∧
        (balancing host (World.start 0)).lo = 0x8000 ∧ (balancing host (World.start 0)).hi = 0 := by
    refine List.forall_mem_cons.mpr ⟨?_,List.forall_mem_singleton.mpr ?_⟩ <;> decide +kernel
  obtain ⟨read,cells,lo,hi⟩ := words (statusHost [0x80,0,0,0] rfl) (by simp)
  obtain ⟨read',cells',lo',hi'⟩ := words (canScripted seventeenFrames) (by simp)
  exact ⟨⟨read,cells,firstBalance_sixteenth _ read cells lo hi⟩,⟨read',cells',firstBalance_sixteenth _ read' cells' lo' hi'⟩⟩

end Jbdtool
