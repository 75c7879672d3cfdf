import Jbdtool.Display

/-! log_write of utils.c. A text that does not fit its array with its terminator has no
result, and neither has a strcpy between regions that overlap. -/
namespace Jbdtool.Log
open CString

def logTime : UInt32 := 0x0002
def logInfo : UInt32 := 0x0008
def logWarning : UInt32 := 0x0020
def logError : UInt32 := 0x0040
def logSyserr : UInt32 := 0x0080
def logDebug : UInt32 := 0x0100

/-- What localtime gives, as far as it is printed. -/
structure Tm where
  year : Fin 10000000000
  mon : Int
  mday : Fin 32
  hour : Fin 24
  min : Fin 60
  sec : Fin 61

/-- What log_write is called with and finds: the options are none where no log is open. -/
structure LogCall where
  opts : Option UInt32
  type : UInt32
  formatted : Bytes
  strerror : Bytes
  tm : Tm

def within (size : Nat) (text : Bytes) : Option Bytes := if text.length < size then some text else none

/-- `1900+tm_year`, and a month out of range is January. -/
def timestamp (tm : Tm) : Bytes :=
  let mon := if tm.mon < 0 ∨ tm.mon > 11 then 0 else tm.mon.toNat
  showPadded 4 tm.year ++ [45] ++ showPadded 2 (mon + 1) ++ [45] ++ showPadded 2 tm.mday ++ [32] ++
    showPadded 2 tm.hour ++ [58] ++ showPadded 2 tm.min ++ [58] ++ showPadded 2 tm.sec

def getTimestamp (tm : Tm) : Option Bytes := within 32 (timestamp tm)

/-- log_open with no file: all types but the debug levels above 1, and no time. -/
def logopts (call : LogCall) : UInt32 :=
  call.opts.getD (logInfo ||| logWarning ||| logError ||| logSyserr ||| logDebug)

def prefixText (type : UInt32) : Bytes :=
  if type &&& logWarning ≠ 0 then bytes "warning: "
  else if type &&& logError ≠ 0 ∨ type &&& logSyserr ≠ 0 then bytes "error: "
  else []

def isNewline (c : UInt8) : Bool := c == 10 || c == 13

/-- `for(ptr = message; *ptr; ptr++)`. The rest and its terminator, and where `strcpy(ptr,ptr+1)`
moves them, overlap unless the rest is empty; then the loop goes on at the old terminator. -/
def strip : Bytes → Option Bytes
  | [] => some []
  | c::ptr =>
    if isNewline c then
      if ptr = [] then some [] else none
    else (strip ptr).map (c :: ·)

def messageSize : Nat := 32767

/-- What is printed, if anything is. -/
def logWrite (call : LogCall) : Option (Option Bytes) := do
  let opts := logopts call
  if opts ||| call.type ≠ opts then return none
  let error ← if call.type &&& logSyserr ≠ 0 then within 128 (call.strerror.take 128) else pure []
  let dt ← if opts &&& logTime ≠ 0 ∨ call.type &&& logTime ≠ 0 then do
      let dt ← getTimestamp call.tm
      within 32 (dt ++ bytes "  ")
    else pure []
  let message ← within messageSize (dt ++ prefixText call.type ++ call.formatted)
  let message := trim message
  let message ← if call.type &&& logSyserr ≠ 0 then do
      let message ← within messageSize (message ++ bytes ": ")
      within messageSize (message ++ error)
    else pure message
  let message ← strip message
  return some (message ++ [10])

namespace LogCall

def Enabled (call : LogCall) : Prop := logopts call ||| call.type = logopts call

def Timed (call : LogCall) : Prop := logopts call &&& logTime ≠ 0 ∨ call.type &&& logTime ≠ 0

instance (call : LogCall) : Decidable call.Enabled := inferInstanceAs (Decidable (_ = _))
instance (call : LogCall) : Decidable call.Timed := inferInstanceAs (Decidable (_ ∨ _))

def prefixed (call : LogCall) : Bytes :=
  (if call.Timed then timestamp call.tm ++ bytes "  " else []) ++ prefixText call.type ++ call.formatted

/-- The built message: prefix, trimmed text and system error text. -/
def built (call : LogCall) : Bytes :=
  trim call.prefixed ++ if call.type &&& logSyserr ≠ 0 then bytes ": " ++ call.strerror else []

def Fits (call : LogCall) : Prop := call.prefixed.length < messageSize ∧
  (call.type &&& logSyserr ≠ 0 → call.strerror.length < 128 ∧ call.built.length < messageSize)

/-- Nothing is printed, or one line with the built message less its CR and LF characters. -/
def OneLine (call : LogCall) : Prop := ∃ printed, logWrite call = some printed ∧ ∀ text, printed = some text →
  ∃ line, text = line ++ [10] ∧ 10 ∉ line ∧ 13 ∉ line ∧ line = call.built.filter (fun c => !isNewline c)

end LogCall

/-- A CR or LF is the last character, if there is one. -/
def NewlineLast (s : Bytes) : Prop := ∀ c ∈ s.dropLast, isNewline c = false

instance (s : Bytes) : Decidable (NewlineLast s) := inferInstanceAs (Decidable (∀ c ∈ s.dropLast, _))

private theorem newlineLast_cons (c d : UInt8) (s : Bytes) :
    NewlineLast (c::d::s) ↔ isNewline c = false ∧ NewlineLast (d::s) := by
  rw [NewlineLast,List.dropLast_cons_cons,List.forall_mem_cons,NewlineLast]

/-- The loop is defined where no CR or LF has a character behind it, and then it takes them all out. -/
private theorem strip_eq (s : Bytes) : strip s = if NewlineLast s then some (s.filter (fun c => !isNewline c)) else none := by
  induction s with
  | nil => rfl
  | cons c ptr ih =>
    rw [strip]
    cases ptr with
    | nil =>
      by_cases newline : isNewline c = true <;> simp [newline,NewlineLast,strip]
    | cons d ptr =>
      rw [if_congr (newlineLast_cons c d ptr) rfl rfl]
      by_cases newline : isNewline c = true
      · simp [newline]
      · have plain : isNewline c = false := by simpa using newline
        rw [if_neg newline,ih]
        by_cases last : NewlineLast (d::ptr)
        · rw [if_pos last,if_pos ⟨plain,last⟩,Option.map_some]
          exact congrArg some (List.filter_cons_of_pos (by simp [plain])).symm
        · rw [if_neg last,if_neg fun both => last both.2,Option.map_none]

private theorem showPadded_length (width limit n : Nat) (some : 0 < limit) (wide : width ≤ limit) (small : n < 10^limit) :
    (showPadded width n).length ≤ limit := by
  have shown := (showNat_width n limit some).mpr small
  rw [showPadded,padLeft,List.length_append,List.length_replicate]
  omega

private theorem timestamp_short (tm : Tm) : (timestamp tm).length ≤ 25 := by
  have year := showPadded_length 4 10 tm.year (by decide) (by decide) tm.year.isLt
  have two (n : Nat) (small : n < 100) : (showPadded 2 n).length ≤ 2 := showPadded_length 2 2 n (by decide) (by decide) small
  have mday := two tm.mday (by omega)
  have hour := two tm.hour (by omega)
  have min := two tm.min (by omega)
  have sec := two tm.sec (by omega)
  have mon := two ((if tm.mon < 0 ∨ tm.mon > 11 then 0 else tm.mon.toNat) + 1) (by split_ifs <;> omega)
  simp only [timestamp,List.length_append,List.length_singleton]
  omega

private theorem logWrite_disabled (call : LogCall) (disabled : ¬ call.Enabled) : logWrite call = some none := by
  unfold logWrite
  exact if_pos disabled

private theorem within_some {size : Nat} {text : Bytes} (fits : text.length < size) :
    within size text = some text := if_pos fits

private theorem within_none {size : Nat} {text : Bytes} (long : ¬ text.length < size) : within size text = none := if_neg long

private theorem logWrite_enabled (call : LogCall) (enabled : call.Enabled) : logWrite call = (do
    let error ← if call.type &&& logSyserr ≠ 0 then within 128 (call.strerror.take 128) else pure []
    let message ← within messageSize call.prefixed
    let message ← if call.type &&& logSyserr ≠ 0 then do
        let message ← within messageSize (trim message ++ bytes ": ")
        within messageSize (message ++ error)
      else pure (trim message)
    let message ← strip message
    return some (message ++ [10])) := by
  have short := timestamp_short call.tm
  have stamp : getTimestamp call.tm = some (timestamp call.tm) := within_some (by omega)
  have behind : within 32 (timestamp call.tm ++ bytes "  ") = some (timestamp call.tm ++ bytes "  ") := by
    refine within_some ?_
    rw [List.length_append]
    have two : (bytes "  ").length = 2 := by decide
    omega
  have go : ¬ logopts call ||| call.type ≠ logopts call := not_not.mpr enabled
  unfold logWrite LogCall.prefixed
  by_cases timed : call.Timed
  · have timed' : logopts call &&& logTime ≠ 0 ∨ call.type &&& logTime ≠ 0 := timed
    simp only [if_neg go,if_pos timed,if_pos timed',stamp,behind,Option.bind_eq_bind,Option.bind_some]
  · have untimed : ¬ (logopts call &&& logTime ≠ 0 ∨ call.type &&& logTime ≠ 0) := timed
    simp only [if_neg go,if_neg timed,if_neg untimed]
    rfl

private theorem logWrite_fits (call : LogCall) (enabled : call.Enabled) (fits : call.Fits) :
    logWrite call = (strip call.built).bind (fun message => some (some (message ++ [10]))) := by
  obtain ⟨room,more⟩ := fits
  rw [logWrite_enabled call enabled,within_some room]
  unfold LogCall.built at more ⊢
  by_cases syserr : call.type &&& logSyserr ≠ 0
  · obtain ⟨short,whole⟩ := more syserr
    simp only [if_pos syserr] at whole ⊢
    rw [← List.append_assoc] at whole ⊢
    have colon : (trim call.prefixed ++ bytes ": ").length < messageSize := by
      simp only [List.length_append] at whole ⊢
      omega
    rw [List.take_of_length_le (Nat.le_of_lt short),within_some short]
    simp only [Option.bind_eq_bind,Option.bind_some,within_some colon,within_some whole]
    rfl
  · simp only [if_neg syserr,List.append_nil]
    rfl

private theorem logWrite_overlong (call : LogCall) (enabled : call.Enabled) (long : ¬ call.Fits) : logWrite call = none := by
  rw [logWrite_enabled call enabled]
  unfold LogCall.Fits LogCall.built at long
  by_cases room : call.prefixed.length < messageSize
  · by_cases syserr : call.type &&& logSyserr ≠ 0
    · simp only [if_pos syserr,within_some room]
      by_cases short : call.strerror.length < 128
      · have whole : ¬ (trim call.prefixed ++ bytes ": " ++ call.strerror).length < messageSize := fun whole =>
          long ⟨room,fun _ => ⟨short,by rwa [if_pos syserr,← List.append_assoc]⟩⟩
        rw [List.take_of_length_le (Nat.le_of_lt short),within_some short]
        simp only [Option.bind_eq_bind,Option.bind_some]
        by_cases colon : (trim call.prefixed ++ bytes ": ").length < messageSize
        · simp only [within_some colon,Option.bind_some,within_none whole,Option.bind_none]
        · simp only [within_none colon,Option.bind_none]
      · have cut : ¬ (call.strerror.take 128).length < 128 := by
          rw [List.length_take]
          omega
        rw [within_none cut]
        rfl
    · exact (long ⟨room,fun some => absurd some syserr⟩).elim
  · rw [within_none room]
    split_ifs
    · cases within 128 (call.strerror.take 128) <;> rfl
    · rfl

private theorem filter_clean (s : Bytes) : 10 ∉ s.filter (fun c => !isNewline c) ∧ 13 ∉ s.filter (fun c => !isNewline c) := by
  simp [isNewline]

/-- A record is one line exactly where it fits and has no CR or LF but as its last character. -/
theorem logWrite_line_iff (call : LogCall) : call.OneLine ↔ (call.Enabled → call.Fits ∧ NewlineLast call.built) := by
  by_cases enabled : call.Enabled
  · by_cases fits : call.Fits
    · have printed := logWrite_fits call enabled fits
      rw [strip_eq] at printed
      by_cases last : NewlineLast call.built
      · rw [if_pos last,Option.bind_some] at printed
        obtain ⟨lf,cr⟩ := filter_clean call.built
        exact iff_of_true ⟨_,printed,fun text known => ⟨_,(Option.some.inj known).symm,lf,cr,rfl⟩⟩ fun _ => ⟨fits,last⟩
      · rw [if_neg last,Option.bind_none] at printed
        refine iff_of_false ?_ (fun all => last (all enabled).2)
        rintro ⟨text,known,-⟩
        rw [printed] at known
        cases known
    · have undefined := logWrite_overlong call enabled fits
      refine iff_of_false ?_ (fun all => fits (all enabled).1)
      rintro ⟨text,known,-⟩
      rw [undefined] at known
      cases known
  · have silent := logWrite_disabled call enabled
    refine iff_of_true ⟨none,silent,nofun⟩ fun there => (enabled there).elim

def infoCall (formatted : Bytes) : LogCall := ⟨none,logInfo,formatted,[],⟨0,0,0,0,0,0⟩⟩

/-- A CR LF in the middle: strcpy is to move what is behind the CR over it. -/
theorem logWrite_line_crlf : logWrite (infoCall (bytes "a\r\nb")) = none ∧ ¬ (infoCall (bytes "a\r\nb")).OneLine := by
  have undefined : logWrite (infoCall (bytes "a\r\nb")) = none := by decide +kernel
  refine ⟨undefined,?_⟩
  rintro ⟨text,known,-⟩
  rw [undefined] at known
  cases known

end Jbdtool.Log
