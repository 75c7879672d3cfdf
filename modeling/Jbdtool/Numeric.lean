import Jbdtool.ReadModify
import Jbdtool.SettingsRoundTrip
import Jbdtool.Base.Numerals

/-! Numeric parameters: what write_parm sends for a text, and what pdisp makes of it. -/
namespace Jbdtool
open CString Numbers
variable {τ : Type}

def numeric : List ParmDt := [.uint,.int,.temp,.date,.pct,.b0,.b1]

def Decimal (value : Bytes) (n : Int) : Prop := Signed (Digits 10) value n

def InRange (dt : ParmDt) (n : Int) : Prop :=
  match dt with
  | .uint => 0 ≤ n ∧ n ≤ 65535
  | .b0 | .b1 => 0 ≤ n ∧ n ≤ 255
  | _ => -32768 ≤ n ∧ n ≤ 32767

def Displays (pp : JbdParams) (payload : Bytes) (n : Int) : Prop :=
  ∀ (σ : Type) (fmt : Fmt), (pdisp fmt pp.label pp.dt payload 2 : Program σ Unit) =
    output fmt pp.label (some (.number n)) (showInt n)

/-- What is written is the number that was asked for, and a text that is no number of the
field is refused. -/
structure AsAsked (host : Host τ) (pp : JbdParams) (value : Bytes) (w : World τ) : Prop where
  asked : writeFrames (writeParm host pp value w).events ≠ [] → ∃ n, Decimal value n ∧ InRange pp.dt n ∧
    ∀ packet ∈ writeFrames (writeParm host pp value w).events, ∃ payload,
      packet = frame jbdCmdWrite pp.reg payload ∧ payload.length = 2 ∧ Displays pp payload n
  refused : (¬ ∃ n, Decimal value n ∧ InRange pp.dt n) →
    (writeParm host pp value w).value = -1 ∧ writeFrames (writeParm host pp value w).events = []

private theorem inRange_int (dt : ParmDt) (n : Int) (range : InRange dt n) : -32768 ≤ n ∧ n ≤ 65535 := by
  unfold InRange at range
  split at range <;> omega

private theorem decimal_start (value : Bytes) (n : Int) (decimal : Decimal value n) : ∀ c ∈ value.head?, isspace c = false := by
  have digits (s : Bytes) (m : Nat) (number : Digits 10 s m) : ∀ c ∈ s.head?, isspace c = false := by
    intro c first
    obtain ⟨-,all,-⟩ := number
    have digit := all c (List.mem_of_mem_head? first)
    by_contra space
    rw [Bool.not_eq_false] at space
    obtain ⟨d,value,-⟩ := (isDigitOf_iff 10 c).mp digit
    rw [digitValue_none c (by simp [space])] at value
    cases value
  cases decimal with
  | bare number => exact digits _ _ number
  | plus number =>
    intro c first
    cases first
    decide
  | minus number =>
    intro c first
    cases first
    decide

private theorem atoi_decimal (value : Bytes) (n : Int) (decimal : Decimal value n) (range : -32768 ≤ n ∧ n ≤ 65535) :
    atoi value = n := by
  have read := strtol_numeral 10 (Digits 10) reads_decimal value (decimal_start value n decimal) n decimal
  have kept : clamp n = n := by
    unfold clamp longMax
    omega
  rw [atoi,read,kept,Int.bmod_def]
  split_ifs <;> omega

private theorem shortPayload_int (n : Int) (range : -32768 ≤ n ∧ n ≤ 65535) : ∃ a b : UInt8, shortPayload n = [a,b] ∧
    (a.toNat * 256 + b.toNat : Int) = n % 65536 := by
  have high : (n % 65536).toNat / 256 < 256 := by omega
  have low : (n % 65536).toNat % 256 < 256 := by omega
  have word : (((UInt8.ofNat ((n % 65536).toNat / 256)).toNat * 256 + (UInt8.ofNat ((n % 65536).toNat % 256)).toNat : Nat) : Int) =
      n % 65536 := by
    rw [UInt8.toNat_ofNat_of_lt' high,UInt8.toNat_ofNat_of_lt' low]
    omega
  refine ⟨_,_,shortPayload_word n _ _ (by omega) word.symm,?_⟩
  push_cast at word ⊢
  exact word

private theorem showUnsigned_small (n : Int) (range : 0 ≤ n ∧ n ≤ 65535) : showUnsigned n = showInt n := by
  have word : (n % 4294967296).toNat = n.natAbs := by omega
  rw [showUnsigned,word,showInt,if_neg (by omega)]

private theorem displays_short {pp : JbdParams} (n : Int) (range : InRange pp.dt n)
    (word : pp.dt ∈ [ParmDt.uint,.int,.temp,.date,.pct]) : Displays pp (shortPayload n) n := by
  obtain ⟨a,b,payload,value⟩ := shortPayload_int n (inRange_int pp.dt n range)
  have := a.toNat_lt
  have := b.toNat_lt
  have signed (small : -32768 ≤ n ∧ n ≤ 32767) : getshort a b = n := by
    rw [getshort,beSigned_eq]
    split_ifs <;> omega
  rw [payload]
  intro σ fmt
  cases kind : pp.dt
  case uint =>
    have small : 0 ≤ n ∧ n ≤ 65535 := by simpa only [InRange,kind] using range
    have unsigned : (getushort a b : Int) = n := by
      rw [getushort,beUnsigned_eq]
      push_cast
      omega
    change duint fmt pp.label (getushort a b) = _
    rw [unsigned,duint,showUnsigned_small n small]
  case int | temp | date | pct =>
    have small : -32768 ≤ n ∧ n ≤ 32767 := by simpa only [InRange,kind] using range
    change dint fmt pp.label (getshort a b) = _
    rw [signed small]
    rfl
  all_goals simp [kind] at word

private theorem displays_half {pp : JbdParams} {index : Nat} (half : Half pp index) (reply : Bytes) (n : Int)
    (range : InRange pp.dt n) : Displays pp (halfPayload index reply (UInt8.ofInt n)) n := by
  intro σ fmt
  have byte (small : 0 ≤ n ∧ n ≤ 255) : ((UInt8.ofInt n).toNat : Int) = n := by
    rw [UInt8.ofInt,UInt8.toNat_ofNat']
    omega
  rcases half with ⟨kind,rfl⟩ | ⟨kind,rfl⟩
  · have small : 0 ≤ n ∧ n ≤ 255 := by simpa only [InRange,kind] using range
    rw [kind]
    change dint fmt pp.label ((UInt8.ofInt n).toNat : Int) = _
    rw [byte small]
    rfl
  · have small : 0 ≤ n ∧ n ≤ 255 := by simpa only [InRange,kind] using range
    rw [kind]
    change dint fmt pp.label ((UInt8.ofInt n).toNat : Int) = _
    rw [byte small]
    rfl

private theorem numeric_cases {pp : JbdParams} (number : pp.dt ∈ numeric) :
    pp.dt ∈ [ParmDt.uint,.int,.temp,.date,.pct] ∨ ∃ index, Half pp index := by
  cases kind : pp.dt
  case b0 => exact .inr ⟨0,.inl ⟨kind,rfl⟩⟩
  case b1 => exact .inr ⟨1,.inr ⟨kind,rfl⟩⟩
  case uint | int | temp | date | pct => exact .inl (by decide)
  all_goals simp [numeric,kind] at number

private theorem writeParm_word {pp : JbdParams} (word : pp.dt ∈ [ParmDt.uint,.int,.temp,.date,.pct]) (host : Host τ)
    (value : Bytes) (w : World τ) : ∃ n, writeFrames (writeParm host pp value w).events =
      List.replicate (n + 1) (frame jbdCmdWrite pp.reg (shortPayload (atoi value))) := by
  have run (data : Mem UInt8) : writeParmFrom host data pp value =
      sendParm host pp.reg (Mem.overlay data 0 (shortPayload (atoi value))) 2 := by
    cases kind : pp.dt
    case uint | int | temp | date | pct => simp only [writeParmFrom,kind]
    all_goals simp [kind] at word
  rw [writeParm_events,run]
  exact writeFrames_sendParm host pp.reg _ (shortPayload (atoi value)) _ (by simp [shortPayload])

/-- The numbers sent for a text: none when the READ before it fails, else what atoi makes of it. -/
private theorem writeParm_numeric {pp : JbdParams} (number : pp.dt ∈ numeric) (host : Host τ) (value : Bytes) (w : World τ) :
    ((pp.dt = .b0 ∨ pp.dt = .b1) ∧ (readBack host pp w).value.1 < 1 ∧ (writeParm host pp value w).value = -1 ∧
      writeFrames (writeParm host pp value w).events = []) ∨
    (¬ ((pp.dt = .b0 ∨ pp.dt = .b1) ∧ (readBack host pp w).value.1 < 1) ∧ ∃ n payload,
      writeFrames (writeParm host pp value w).events = List.replicate (n + 1) (frame jbdCmdWrite pp.reg payload) ∧
      payload.length = 2 ∧ (InRange pp.dt (atoi value) → Displays pp payload (atoi value))) := by
  rcases numeric_cases number with word | ⟨index,half⟩
  · obtain ⟨n,sent⟩ := writeParm_word word host value w
    refine .inr ⟨?_,n,_,sent,rfl,fun range => displays_short _ range word⟩
    rintro ⟨kind | kind,-⟩ <;> simp [kind] at word
  · have kinds : pp.dt = .b0 ∨ pp.dt = .b1 := half.imp And.left And.left
    have silent : writeFrames (readBack host pp w).events = [] := writeFrames_read host pp.reg _ _
    obtain ⟨stopped,went⟩ := writeParm_half half host value w
    by_cases failed : (readBack host pp w).value.1 < 1
    · obtain ⟨result,events⟩ := stopped failed
      exact .inl ⟨kinds,failed,result,by rw [events,silent]⟩
    · obtain ⟨rest,n,events,sent⟩ := went failed
      refine .inr ⟨fun both => failed both.2,n,halfPayload index (readBack host pp w).value.2 (UInt8.ofInt (atoi value)),
        ?_,?_,fun range => displays_half half _ _ range⟩
      · rw [events,writeFrames_append,silent,sent,List.nil_append]
      · unfold halfPayload
        split_ifs <;> rfl

/-- A numeric parameter is written as asked exactly when a number of its range was asked for, or
the READ that comes first fails. -/
theorem writeParm_asAsked_iff {pp : JbdParams} (number : pp.dt ∈ numeric) (host : Host τ) (value : Bytes) (w : World τ) :
    AsAsked host pp value w ↔ (∃ n, Decimal value n ∧ InRange pp.dt n) ∨
      ((pp.dt = .b0 ∨ pp.dt = .b1) ∧ (readBack host pp w).value.1 < 1) := by
  rcases writeParm_numeric number host value w with ⟨kinds,failed,result,none⟩ | ⟨read,n,payload,sent,size,shows⟩
  · refine ⟨fun _ => .inr ⟨kinds,failed⟩,fun _ => ⟨fun some => absurd none some,fun _ => ⟨result,none⟩⟩⟩
  constructor
  · intro fine
    by_contra bad
    rw [not_or] at bad
    have none := (fine.refused bad.1).2
    rw [sent] at none
    simp at none
  · intro asked
    obtain ⟨m,decimal,range⟩ := asked.resolve_right read
    have value' := atoi_decimal value m decimal (inRange_int pp.dt m range)
    refine ⟨fun _ => ⟨m,decimal,range,fun packet member => ⟨payload,?_,size,?_⟩⟩,fun none => absurd ⟨m,decimal,range⟩ none⟩
    · rw [sent] at member
      exact List.eq_of_mem_replicate member
    · rw [← value']
      exact shows (by rwa [value'])

theorem writeParm_asAsked_minus :
    AsAsked unanswered ⟨0x2B,bytes "BalanceWindow",.int⟩ (bytes "-5") (World.start 0) := by
  have decimal : Decimal (bytes "-5") (-5) := .minus ⟨by decide,by decide +kernel,rfl⟩
  exact (writeParm_asAsked_iff (by decide +kernel) unanswered (bytes "-5") (World.start 0)).mpr
    (.inl ⟨-5,decimal,by unfold InRange; omega⟩)

theorem writeParm_asAsked_text :
    ¬ AsAsked unanswered ⟨0x10,bytes "DesignCapacity",.uint⟩ (bytes "full") (World.start 0) := by
  intro fine
  have text : ¬ ∃ n, Decimal (bytes "full") n ∧ InRange .uint n := by
    rintro ⟨n,decimal,-⟩
    cases decimal with
    | bare digits => exact absurd (digits.2.1 102 (by decide)) (by decide)
  obtain ⟨n,sent⟩ := @writeParm_word _ ⟨0x10,bytes "DesignCapacity",.uint⟩ (by decide) unanswered (bytes "full")
    (World.start 0)
  have none := (fine.refused text).2
  rw [sent] at none
  simp at none

end Jbdtool
