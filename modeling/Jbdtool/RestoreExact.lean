import Jbdtool.SettingsRoundTrip
import Mathlib.Data.List.Nodup

/-! Exactly when a settings dump, written back, leaves the settings as they were. The
registers are independent of each other: each sees only its own rows of the document. -/
namespace Jbdtool
open CString Numbers Observe

/-- What the rows of one register make of its content; none when one is refused. -/
def trail (parmData : Nat → Mem UInt8) (reg : UInt8) : List (JbdParams × Bytes) → Nat → Bytes → Option Bytes
  | [], _, content => some content
  | (pp,text)::rows, k, content =>
    if pp.reg = reg then (effect (parmData k) pp text content).bind (trail parmData reg rows (k + 1))
    else trail parmData reg rows (k + 1) content

section
variable {parmData : Nat → Mem UInt8} {reg : UInt8}

private theorem trail_cons (row : JbdParams × Bytes) (rows : List (JbdParams × Bytes)) (k : Nat) (content : Bytes) :
    trail parmData reg (row::rows) k content =
      if row.1.reg = reg then (effect (parmData k) row.1 row.2 content).bind (trail parmData reg rows (k + 1))
      else trail parmData reg rows (k + 1) content := rfl

/-- Every row is written and leaves these registers exactly when this is so of each register. -/
private theorem restoreRows_trail (rows : List (JbdParams × Bytes)) (k : Nat) (regs final : UInt8 → Bytes) :
    restoreRows parmData rows k regs = (final,rows.map (fun row => row.1.reg)) ↔
      ∀ reg, trail parmData reg rows k (regs reg) = some (final reg) := by
  induction rows generalizing k regs with
  | nil => simp [restoreRows,trail,funext_iff]
  | cons row rows ih =>
    obtain ⟨pp,text⟩ := row
    cases known : effect (parmData k) pp text (regs pp.reg) with
    | none =>
      have refused : ¬ ∀ reg, trail parmData reg ((pp,text)::rows) k (regs reg) = some (final reg) := by
        intro all
        have here := all pp.reg
        rw [trail_cons,if_pos rfl,known] at here
        cases here
      simp [restoreRows,known,refused]
    | some content =>
      have next (reg : UInt8) : trail parmData reg ((pp,text)::rows) k (regs reg) =
          trail parmData reg rows (k + 1) (Function.update regs pp.reg content reg) := by
        by_cases here : pp.reg = reg
        · subst here
          simp [trail,known]
        · rw [trail_cons,if_neg here,Function.update_of_ne (Ne.symm here)]
      simp only [next,← ih,restoreRows,known,List.map_cons,Prod.ext_iff,List.cons.injEq,true_and]

private theorem trail_append (xs ys : List (JbdParams × Bytes)) (k : Nat) (content : Bytes) :
    trail parmData reg (xs ++ ys) k content =
      (trail parmData reg xs k content).bind (trail parmData reg ys (k + xs.length)) := by
  induction xs generalizing k content with
  | nil => rfl
  | cons row xs ih =>
    have count : k + (row::xs).length = k + 1 + xs.length := by simp; omega
    rw [count,List.cons_append,trail_cons,trail_cons]
    split_ifs
    · rw [Option.bind_assoc]
      congr 1
      funext content
      exact ih (k + 1) content
    · exact ih (k + 1) content

/-- A register whose rows all keep its content keeps it. -/
private theorem trail_steady (rows : List (JbdParams × Bytes)) (k : Nat) (content : Bytes)
    (steady : ∀ row ∈ rows, row.1.reg = reg → ∀ data, effect data row.1 row.2 content = some content) :
    trail parmData reg rows k content = some content := by
  induction rows generalizing k with
  | nil => rfl
  | cons row rows ih =>
    obtain ⟨here,others⟩ := List.forall_mem_cons.mp steady
    rw [trail_cons]
    split_ifs with same
    · rw [here same,Option.bind_some]
      exact ih (k + 1) others
    · exact ih (k + 1) others

/-- Rows of unfilled types overwrite the register with whatever write_parm holds. -/
private theorem trail_unfilled (xs ys : List (JbdParams × Bytes)) (pp : JbdParams) (text : Bytes) (k : Nat) (content : Bytes)
    (before : ∀ row ∈ xs, row.1.reg = reg → row.1.dt ∈ unfilled) (here : pp.reg = reg) (last : pp.dt ∈ unfilled) :
    trail parmData reg (xs ++ (pp,text)::ys) k content =
      trail parmData reg ys (k + xs.length + 1) (Mem.slice (parmData (k + xs.length)) 0 2) := by
  have stale (row : JbdParams) (kind : row.dt ∈ unfilled) (data : Mem UInt8) (text content : Bytes) :
      effect data row text content = some (Mem.slice data 0 2) := by
    unfold effect
    cases known : row.dt <;> first | rfl | (rw [known] at kind; exact absurd kind (by decide))
  induction xs generalizing k content with
  | nil =>
    rw [List.nil_append,trail_cons,if_pos here,stale pp last]
    rfl
  | cons row xs ih =>
    obtain ⟨first,others⟩ := List.forall_mem_cons.mp before
    have count : k + (row::xs).length = k + 1 + xs.length := by simp; omega
    rw [count,List.cons_append,trail_cons]
    split_ifs with same
    · rw [stale row.1 (first same),Option.bind_some]
      exact ih (k + 1) _ others
    · exact ih (k + 1) content others

end

/-- Two bytes behind every numeric row, and strings that fit a reply. -/
structure Sized (regs : UInt8 → Bytes) : Prop where
  words : ∀ pp ∈ params, pp.dt ≠ .str → (regs pp.reg).length = 2
  texts : ∀ pp ∈ params, (regs pp.reg).length ≤ 249

/-- The rows of a table that a dump prints, with the texts that the restore reads. -/
def plan (numeric : Bool) (regs : UInt8 → Bytes) (table : List JbdParams) : List (JbdParams × Bytes) :=
  (docRows numeric regs table).map (fun row => (row.1,valueText row.2))

section
variable {numeric : Bool} {regs : UInt8 → Bytes} {parmData : Nat → Mem UInt8}

private theorem plan_append (xs ys : List JbdParams) :
    plan numeric regs (xs ++ ys) = plan numeric regs xs ++ plan numeric regs ys := by
  simp [plan,docRows]

private theorem plan_cons (pp : JbdParams) (table : List JbdParams) (j : Json) (value : rowValue numeric regs pp = some j) :
    plan numeric regs (pp::table) = (pp,valueText j)::plan numeric regs table := by
  simp [plan,docRows,value]

private theorem mem_plan (table : List JbdParams) (row : JbdParams × Bytes) (inside : row ∈ plan numeric regs table) :
    ∃ j, row.1 ∈ table ∧ rowValue numeric regs row.1 = some j ∧ row.2 = valueText j := by
  obtain ⟨⟨pp,j⟩,listed,rfl⟩ := List.mem_map.mp inside
  obtain ⟨q,member,given⟩ := List.mem_filterMap.mp listed
  obtain ⟨j',value,same⟩ := Option.map_eq_some_iff.mp given
  obtain ⟨rfl,rfl⟩ := Prod.ext_iff.mp same
  exact ⟨_,member,value,rfl⟩

private theorem Sized.word (sized : Sized regs) (pp : JbdParams) (member : pp ∈ params) (word : pp.dt ≠ .str) :
    ∃ a b, regs pp.reg = [a,b] :=
  List.length_eq_two.mp (sized.words pp member word)

private theorem rowValue_word (sized : Sized regs) (pp : JbdParams) (member : pp ∈ params) (word : pp.dt ≠ .str) :
    ∃ j, rowValue numeric regs pp = some j := by
  obtain ⟨a,b,content⟩ := sized.word pp member word
  have bits (table : List JbdBit) (v : Int) (known : table = funcBits ∨ table = ntcBits) :
      ∃ j, bitsValue (dumpSettings [] numeric).fmt table v = some j := by
    unfold bitsValue
    split_ifs with plain
    · exact ⟨_,rfl⟩
    · cases numeric with
      | true => simp [dumpSettings,Settings.fmt] at plain
      | false => exact ⟨_,(bits_dumped table _ known).1⟩
  unfold rowValue
  rw [content,if_neg (by simp)]
  have kinds := params_kinds pp member
  unfold pdispValue
  cases known : pp.dt <;> simp only [known] at kinds word ⊢
  case func => exact bits _ _ (.inl rfl)
  case ntc => exact bits _ _ (.inr rfl)
  case unk | float | dump => simp at kinds
  case str => simp at word
  all_goals exact ⟨_,rfl⟩

private theorem plan_length (sized : Sized regs) (table : List JbdParams) (inside : ∀ pp ∈ table, pp ∈ params)
    (words : ∀ pp ∈ table, pp.dt ≠ .str) : (plan numeric regs table).length = table.length := by
  induction table with
  | nil => rfl
  | cons pp table ih =>
    obtain ⟨member,members⟩ := List.forall_mem_cons.mp inside
    obtain ⟨word,others⟩ := List.forall_mem_cons.mp words
    obtain ⟨j,value⟩ := @rowValue_word numeric regs sized pp member word
    rw [plan_cons pp table j value,List.length_cons,List.length_cons,ih members others]

/-- Whether the register of a row comes back: a register that another row shares
with a type that write_parm does not fill holds what lay in its buffer. -/
def Returns (numeric : Bool) (parmData : Nat → Mem UInt8) (regs : UInt8 → Bytes) (pp : JbdParams) : Prop :=
  if pp.reg = 0x38 then regs pp.reg = Mem.slice (parmData 44) 0 2 else
  if pp.reg = 0x39 then (regs pp.reg).getD 0 0 = parmData 46 0 else
  if pp.dt = .func ∨ pp.dt = .ntc then BitsReturn numeric ((regs pp.reg).getD 0 0) ((regs pp.reg).getD 1 0) else
  if pp.dt = .str then
    trim (Json.cstr (regs pp.reg)) = regs pp.reg ∨ ¬ Json.isValidUtf8 (trim (Json.cstr (regs pp.reg)))
  else True

instance (numeric : Bool) (a b : UInt8) : Decidable (BitsReturn numeric a b) := by
  unfold BitsReturn
  infer_instance

instance (numeric : Bool) (parmData : Nat → Mem UInt8) (regs : UInt8 → Bytes) (pp : JbdParams) :
    Decidable (Returns numeric parmData regs pp) := by
  unfold Returns
  infer_instance

private theorem plan_apart (table : List JbdParams) (reg : UInt8) (k : Nat) (content : Bytes)
    (apart : ∀ pp ∈ table, pp.reg ≠ reg) :
    trail parmData reg (plan numeric regs table) k content = some content := by
  apply trail_steady
  intro row inside same
  obtain ⟨-,member,-,-⟩ := mem_plan table row inside
  exact absurd same (apart row.1 member)

private theorem plan_unfilled (sized : Sized regs) (before after : List JbdParams) (pp : JbdParams) (content : Bytes)
    (table : params = before ++ pp::after) (words : ∀ q ∈ before, q.dt ≠ .str)
    (kinds : ∀ q ∈ before, q.reg = pp.reg → q.dt ∈ unfilled) (last : pp.dt ∈ unfilled) :
    trail parmData pp.reg (plan numeric regs params) 0 content =
      trail parmData pp.reg (plan numeric regs after) (before.length + 1) (Mem.slice (parmData before.length) 0 2) := by
  have word : pp.dt ≠ .str := by
    intro str
    rw [str] at last
    exact absurd last (by decide)
  obtain ⟨j,value⟩ := @rowValue_word numeric regs sized pp (by simp [table]) word
  have count : (plan numeric regs before).length = before.length :=
    plan_length sized before (fun q inside => by simp [table,inside]) words
  have stale : ∀ row ∈ plan numeric regs before, row.1.reg = pp.reg → row.1.dt ∈ unfilled := by
    intro row inside same
    obtain ⟨-,member,-,-⟩ := mem_plan _ row inside
    exact kinds row.1 member same
  rw [table,plan_append,plan_cons pp after j value,
    trail_unfilled _ _ pp _ 0 content stale rfl last,Nat.zero_add,count]

/-- The rows of the table by register: where those of unfilled types stand among the rows of
0x38 and 0x39, the only registers that have any, and which rows have a register to themselves. -/
private theorem params_rows :
    ((∀ q ∈ params.take 44, q.dt ≠ .str) ∧ (∀ q ∈ params.take 44, q.reg = 0x38 → q.dt ∈ unfilled) ∧
      ∀ q ∈ params.drop 45, q.reg ≠ 0x38) ∧
    ((∀ q ∈ params.take 46, q.dt ≠ .str) ∧ (∀ q ∈ params.take 46, q.reg = 0x39 → q.dt ∈ unfilled) ∧
      ∀ q ∈ params.drop 48, q.reg ≠ 0x39) ∧
    (∀ q ∈ params, q.reg ≠ 0x38 → q.reg ≠ 0x39 → q.dt ∉ unfilled) ∧
    (∀ q ∈ params, q.dt = .func ∨ q.dt = .ntc ∨ q.dt = .str → ∀ q' ∈ params, q'.reg = q.reg → q' = q) ∧
    (∀ q ∈ params, q.dt ∈ plainKinds → q.reg ≠ 0x39 → ∀ q' ∈ params, q'.reg = q.reg → q'.dt ∈ plainKinds) ∧
    ∀ q ∈ params, q.reg = 0x39 → q.dt ≠ .str := by
  refine ⟨?_,?_,?_,?_,?_,?_⟩ <;> decide +kernel

private theorem current_returns (sized : Sized regs) (pp : JbdParams) (here : pp.reg = 0x38) :
    trail parmData pp.reg (plan numeric regs params) 0 (regs pp.reg) = some (Mem.slice (parmData 44) 0 2) := by
  have table : params = params.take 44 ++ ⟨0x38,bytes "DSGOC2Delay",.dsgoc2delay⟩::params.drop 45 := rfl
  obtain ⟨words,before,after⟩ := params_rows.1
  rw [here]
  exact (plan_unfilled sized _ _ _ _ table words before (by decide)).trans (plan_apart _ _ _ _ after)

private theorem voltage_returns (sized : Sized regs) (pp : JbdParams) (here : pp.reg = 0x39) :
    trail parmData pp.reg (plan numeric regs params) 0 (regs pp.reg) =
      some [parmData 46 0,(regs pp.reg).getD 1 0] := by
  have table : params = params.take 46 ++ ⟨0x39,bytes "HCUVPDelay",.hcuvpdelay⟩::params.drop 47 := rfl
  have last : params.drop 47 = ⟨0x39,bytes "SCRelease",.b1⟩::params.drop 48 := rfl
  obtain ⟨words,before,after⟩ := params_rows.2.1
  have member : ⟨0x39,bytes "SCRelease",.b1⟩ ∈ params := List.mem_of_mem_drop (last ▸ List.mem_cons_self)
  obtain ⟨a,b,content⟩ := sized.word _ member (by decide)
  have value : rowValue numeric regs ⟨0x39,bytes "SCRelease",.b1⟩ = some (.number (b.toNat : Int)) := by
    unfold rowValue
    rw [content]
    rfl
  have written (data : Mem UInt8) (x y : UInt8) :
      effect data ⟨0x39,bytes "SCRelease",.b1⟩ (valueText (.number (b.toNat : Int))) [x,y] = some [x,b] := by
    have small := b.toNat_lt
    have number : atoi (valueText (.number (b.toNat : Int))) = b.toNat := by
      rw [valueText_number _ (by omega),atoi_showInt _ (by omega)]
    unfold effect
    dsimp only
    rw [number,byte_ofInt,if_neg (List.cons_ne_nil _ _)]
    rfl
  have slice : Mem.slice (parmData 46) 0 2 = [parmData 46 0,parmData 46 1] := by simp [Mem.slice,List.range_succ]
  rw [here,show regs 0x39 = [a,b] from content]
  refine (plan_unfilled sized _ _ _ _ table words before (by decide)).trans ?_
  have length : (params.take 46).length = 46 := rfl
  rw [last,plan_cons _ _ _ value,trail_cons,if_pos rfl,length,slice,written,Option.bind_some,plan_apart _ _ _ _ after]
  rfl

private theorem sole_returns (pp : JbdParams) (member : pp ∈ params) (sole : ∀ q ∈ params, q.reg = pp.reg → q = pp) :
    (rowValue numeric regs pp = none → trail parmData pp.reg (plan numeric regs params) 0 (regs pp.reg) =
      some (regs pp.reg)) ∧
    ∀ j, rowValue numeric regs pp = some j → ∃ data, trail parmData pp.reg (plan numeric regs params) 0 (regs pp.reg) =
      effect data pp (valueText j) (regs pp.reg) := by
  obtain ⟨before,after,table⟩ := List.append_of_mem member
  have distinct : (before ++ pp::after).Nodup := table ▸ List.Nodup.of_map _ params_labels
  have apart (q : JbdParams) (inside : q ∈ before ∨ q ∈ after) : q.reg ≠ pp.reg := by
    intro same
    have listed : q ∈ params := by
      rw [table]
      rcases inside with first | second
      · exact List.mem_append_left _ first
      · exact List.mem_append_right _ (List.mem_cons_of_mem _ second)
    obtain rfl := sole q listed same
    have fresh := List.nodup_middle.mp distinct
    exact (List.nodup_cons.mp fresh).1 (List.mem_append.mpr inside)
  have first := @plan_apart numeric regs parmData before pp.reg 0 (regs pp.reg)
    (fun q inside => apart q (.inl inside))
  constructor
  · intro none
    have dropped : plan numeric regs (pp::after) = plan numeric regs after := by simp [plan,docRows,none]
    rw [table,plan_append,dropped,trail_append,first,Option.bind_some]
    exact plan_apart after _ _ _ (fun q inside => apart q (.inr inside))
  · intro j value
    refine ⟨parmData (0 + (plan numeric regs before).length),?_⟩
    rw [table,plan_append,plan_cons pp after j value,trail_append,first,Option.bind_some,trail_cons,if_pos rfl]
    have rest (content : Bytes) : trail parmData pp.reg (plan numeric regs after)
        (0 + (plan numeric regs before).length + 1) content = some content :=
      plan_apart after _ _ _ (fun q inside => apart q (.inr inside))
    cases effect (parmData (0 + (plan numeric regs before).length)) pp (valueText j) (regs pp.reg) with
    | none => rfl
    | some content => exact rest content

private theorem params_filled : ∀ q ∈ params, q.reg ≠ 0x38 → q.reg ≠ 0x39 → q.dt ∉ unfilled := params_rows.2.2.1

private theorem params_sole : ∀ q ∈ params, q.dt = .func ∨ q.dt = .ntc ∨ q.dt = .str → ∀ q' ∈ params, q'.reg = q.reg → q' = q :=
  params_rows.2.2.2.1

private theorem params_plain : ∀ q ∈ params, q.dt ∈ plainKinds → q.reg ≠ 0x39 →
    ∀ q' ∈ params, q'.reg = q.reg → q'.dt ∈ plainKinds := params_rows.2.2.2.2.1

private theorem plain_returns (sized : Sized regs) (pp : JbdParams) (member : pp ∈ params)
    (kinds : ∀ q ∈ params, q.reg = pp.reg → q.dt ∈ plainKinds) :
    trail parmData pp.reg (plan numeric regs params) 0 (regs pp.reg) = some (regs pp.reg) := by
  have word : pp.dt ≠ .str := by
    intro str
    exact absurd (str ▸ kinds pp member rfl) (by decide)
  obtain ⟨a,b,content⟩ := sized.word pp member word
  apply trail_steady
  intro row inside same data
  obtain ⟨j,listed,value,text⟩ := mem_plan params row inside
  rw [text,content]
  apply effect_plain numeric data row.1 a b j (kinds row.1 listed same)
  unfold rowValue at value
  rwa [same,content,if_neg (by simp)] at value

private theorem bits_returns (sized : Sized regs) (pp : JbdParams) (member : pp ∈ params)
    (kind : pp.dt = .func ∨ pp.dt = .ntc) :
    trail parmData pp.reg (plan numeric regs params) 0 (regs pp.reg) = some (regs pp.reg) ↔
      BitsReturn numeric ((regs pp.reg).getD 0 0) ((regs pp.reg).getD 1 0) := by
  have word : pp.dt ≠ .str := by rcases kind with kind | kind <;> rw [kind] <;> decide
  obtain ⟨a,b,content⟩ := sized.word pp member word
  obtain ⟨j,value⟩ := @rowValue_word numeric regs sized pp member word
  obtain ⟨data,known⟩ := (@sole_returns numeric regs parmData pp member
    (params_sole pp member (kind.imp_right .inl))).2 j value
  rw [known,content]
  unfold rowValue at value
  rw [content,if_neg (by simp)] at value
  unfold effect
  rcases kind with kind | kind <;> rw [kind] at value ⊢
  · exact effect_bits numeric funcBits a b j (.inl rfl) value
  · exact effect_bits numeric ntcBits a b j (.inr rfl) value

private theorem text_returns (pp : JbdParams) (member : pp ∈ params) (kind : pp.dt = .str) :
    trail parmData pp.reg (plan numeric regs params) 0 (regs pp.reg) = some (regs pp.reg) ↔
      trim (Json.cstr (regs pp.reg)) = regs pp.reg ∨ ¬ Json.isValidUtf8 (trim (Json.cstr (regs pp.reg))) := by
  obtain ⟨dropped,printed⟩ := @sole_returns numeric regs parmData pp member
    (params_sole pp member (.inr (.inr kind)))
  by_cases empty : regs pp.reg = []
  · have none : rowValue numeric regs pp = none := by simp [rowValue,empty]
    rw [dropped none,empty]
    simp
    exact .inl rfl
  have value : rowValue numeric regs pp = Json.initString (trim (Json.cstr (regs pp.reg))) := by
    unfold rowValue
    rw [if_neg empty,kind]
    exact congrArg (fun s => Json.initString (trim (Json.cstr s))) (List.take_length)
  by_cases valid : Json.isValidUtf8 (trim (Json.cstr (regs pp.reg)))
  · have some' := value.trans (if_pos valid)
    obtain ⟨data,known⟩ := printed _ some'
    rw [known,effect_text data pp _ _ kind (if_pos valid)]
    simp [valid]
  · rw [dropped (value.trans (if_neg valid))]
    simp [valid]

/-- What the document says of a register brings it back exactly under the condition. -/
private theorem trail_returns (sized : Sized regs) (pp : JbdParams) (member : pp ∈ params) :
    trail parmData pp.reg (plan numeric regs params) 0 (regs pp.reg) = some (regs pp.reg) ↔
      Returns numeric parmData regs pp := by
  unfold Returns
  by_cases current : pp.reg = 0x38
  · rw [if_pos current,current_returns sized pp current,Option.some.injEq,eq_comm]
  by_cases voltage : pp.reg = 0x39
  · have words : ∀ q ∈ params, q.reg = 0x39 → q.dt ≠ .str := params_rows.2.2.2.2.2
    obtain ⟨a,b,content⟩ := sized.word pp member (words pp member voltage)
    rw [if_neg current,if_pos voltage,voltage_returns sized pp voltage,content]
    simp [eq_comm]
  rw [if_neg current,if_neg voltage]
  have kinds := params_kinds pp member
  have filled := params_filled pp member current voltage
  cases kind : pp.dt
  case func =>
    rw [if_pos (.inl rfl)]
    exact bits_returns sized pp member (.inl kind)
  case ntc =>
    rw [if_pos (.inr rfl)]
    exact bits_returns sized pp member (.inr kind)
  case str =>
    rw [if_neg (by decide),if_pos rfl]
    exact text_returns pp member kind
  case uint | int | temp | date | pct | b0 | b1 =>
    have plain := params_plain pp member (by rw [kind]; decide) voltage
    exact iff_of_true (plain_returns sized pp member plain) trivial
  case unk | float | dump => simp [kind] at kinds
  all_goals exact absurd (by rw [kind]; decide) filled

private theorem mem_docRows (row : JbdParams × Json) (inside : row ∈ docRows numeric regs params) :
    row.1 ∈ params ∧ rowValue numeric regs row.1 = some row.2 := by
  obtain ⟨q,member,given⟩ := List.mem_filterMap.mp inside
  obtain ⟨j,value,rfl⟩ := Option.map_eq_some_iff.mp given
  exact ⟨member,value⟩

private theorem docRows_usable (fits : ∀ pp ∈ params, Fits regs pp) (row : JbdParams × Json)
    (inside : row ∈ docRows numeric regs params) : Usable row.2 := by
  obtain ⟨member,value⟩ := mem_docRows row inside
  unfold rowValue at value
  split_ifs at value
  exact usable_value numeric row.1.dt _ row.2 (params_kinds _ member) (fun _ => (fits _ member).1) value

private theorem docRows_sublist (table : List JbdParams) : ((docRows numeric regs table).map Prod.fst).Sublist table := by
  induction table with
  | nil => exact .slnil
  | cons pp table ih =>
    cases value : rowValue numeric regs pp with
    | none => simpa [docRows,value] using ih.cons pp
    | some j => simpa [docRows,value] using ih

private theorem docRows_labels : ((docRows numeric regs params).map (fun row => row.1.label)).Nodup := by
  have names : ((docRows numeric regs params).map (fun row => row.1.label)) =
      ((docRows numeric regs params).map Prod.fst).map JbdParams.label := by rw [List.map_map]; rfl
  rw [names]
  exact params_labels.sublist ((docRows_sublist params).map _)

private theorem params_names : ∀ pp ∈ params, 0 ∉ pp.label := fun pp member zero => ((params_text pp member).2.2 0 zero).1 rfl

private theorem dumped_printable (fits : ∀ pp ∈ params, Fits regs pp) :
    Json.Printable 0 (.object (dumped numeric regs)) := by
  have short : ∀ pp ∈ params, (regs pp.reg).length ≤ 128 := fun pp member => (fits pp member).1
  have members (rows : List (JbdParams × Json)) (usable : ∀ row ∈ rows, Usable row.2)
      (named : ∀ row ∈ rows, 0 ∉ row.1.label) :
      Json.PrintableMembers 1 (rows.map (fun row => (row.1.label,row.2))) := by
    induction rows with
    | nil => trivial
    | cons row rows ih =>
      obtain ⟨first,others⟩ := List.forall_mem_cons.mp usable
      obtain ⟨name,names⟩ := List.forall_mem_cons.mp named
      exact ⟨name,first.printable,ih others names⟩
  rw [dumped_rows numeric regs short]
  refine ⟨by omega,?_,members _ (docRows_usable fits) fun row inside => params_names _ (mem_docRows row inside).1⟩
  rw [List.map_map]
  exact docRows_labels

private theorem dumped_stands (fits : ∀ pp ∈ params, Fits regs pp) :
    List.Forall₂ (StandsFor (dumped numeric regs)) (dumped numeric regs) (plan numeric regs params) := by
  rw [dumped_rows numeric regs (fun pp member => (fits pp member).1),plan,List.forall₂_map_left_iff,
    List.forall₂_map_right_iff,List.forall₂_same]
  intro row inside
  refine ⟨getp_label row.1 (mem_docRows row inside).1,?_⟩
  have names : (((docRows numeric regs params).map (fun row => (row.1.label,row.2))).map Prod.fst).Nodup := by
    rw [List.map_map]
    exact docRows_labels
  have value := Json.getValue_member _ names (row.1.label,row.2) (List.mem_map_of_mem inside)
  unfold memberText
  rw [value]
  exact (docRows_usable fits row inside).text

private theorem plan_fine (fits : ∀ pp ∈ params, Fits regs pp) (row : JbdParams × Bytes)
    (inside : row ∈ plan numeric regs params) : isParm row.1.reg = true ∧ row.2.length ≤ 128 := by
  obtain ⟨source,listed,rfl⟩ := List.mem_map.mp inside
  exact ⟨(isParm_iff _).mpr ⟨_,(mem_docRows source listed).1,rfl⟩,(docRows_usable fits source listed).short⟩

end

/-- The document that a run prints. -/
def document (events : List Event) : Bytes :=
  (events.flatMap Event.shown).flatMap fun
    | .printed _ text => text
    | _ => []

def parmWrites (events : List Event) : List UInt8 :=
  (events.flatMap Event.shown).filterMap fun
    | .rwCall _ reg => some reg
    | _ => none

/-- The registers of the rows that a document names. -/
def documentRegs (text : Bytes) : List UInt8 :=
  match Json.parseString text with
  | some (.object members) => members.filterMap (fun m => (getp m.1).map JbdParams.reg)
  | _ => []

def dumpRun (host : Host Bms) (target : Bytes) (numeric : Bool) (s : Bms) : Outcome (World Bms) Event Int :=
  main host (fileEnv []) (dumpArgs target numeric) (World.start s)

def restoreRun (host : Host Bms) (target : Bytes) (numeric : Bool) (text : Bytes) (s : Bms) :
    Outcome (World Bms) Event Int :=
  main host (fileEnv text) (restoreArgs target numeric) (World.start s)

/-- The restore wrote every row of the document, the registers are as before the dump,
and both runs stayed inside their buffers. -/
structure Restored (regs : UInt8 → Bytes) (dump restore : Outcome (World Bms) Event Int) : Prop where
  inBounds : dump.Always Event.InBounds ∧ restore.Always Event.InBounds
  written : parmWrites restore.events = documentRegs (document dump.events)
  kept : ∀ pp ∈ params, restore.state.line.regs pp.reg = regs pp.reg

section
variable {rwBuf parmData : Nat → Mem UInt8} {target : Bytes} {numeric : Bool}

private theorem dumpRun_shown (s : Bms) (serial : Serial target) (sized : Sized s.regs) :
    let dump := dumpRun (bms rwBuf parmData) target numeric s
    document dump.events = Json.serialize false 0 (.object (dumped numeric s.regs)) ∧
      dump.state.line.regs = closed (opened s.regs) ∧
      (dump.Always Event.InBounds ↔ ∀ pp ∈ params, Fits s.regs pp) := by
  obtain ⟨-,state,shown,bounded⟩ := @does_dump rwBuf parmData target [] numeric s.regs serial
    sized.texts (World.start s) rfl
  refine ⟨?_,congrArg View.regs state,bounded⟩
  exact (congrArg _ shown).trans (by simp)

private theorem documentRegs_dumped (regs : UInt8 → Bytes) (fits : ∀ pp ∈ params, Fits regs pp) :
    documentRegs (Json.serialize false 0 (.object (dumped numeric regs))) =
      (plan numeric regs params).map (fun row => row.1.reg) := by
  have names (object members : List (Bytes × Json)) (rows : List (JbdParams × Bytes))
      (stands : List.Forall₂ (StandsFor object) members rows) :
      members.filterMap (fun m => (getp m.1).map JbdParams.reg) = rows.map (fun row => row.1.reg) := by
    induction stands with
    | nil => rfl
    | cons first _ ih => simp [first.1,ih]
  unfold documentRegs
  rw [Json.parseString_serialize _ (dumped_printable fits)]
  exact names _ _ _ (dumped_stands fits)

private theorem restoreRun_shown (regs : UInt8 → Bytes) (s : Bms) (serial : Serial target) (again : Bool)
    (fits : ∀ pp ∈ params, Fits regs pp) (same : ∀ pp ∈ params, s.regs pp.reg = regs pp.reg) :
    let restore := restoreRun (bms rwBuf parmData) target again (Json.serialize false 0 (.object (dumped numeric regs))) s
    let rows := restoreRows parmData (plan numeric regs params) 0 (opened s.regs)
    restore.Always Event.InBounds ∧ parmWrites restore.events = rows.2 ∧
      ∀ pp ∈ params, restore.state.line.regs pp.reg = rows.1 pp.reg := by
  have short (reg : UInt8) (parm : isParm reg = true) : (s.regs reg).length ≤ 128 := by
    obtain ⟨pp,member,rfl⟩ := (isParm_iff reg).mp parm
    rw [same pp member]
    exact (fits pp member).1
  obtain ⟨final,run,left⟩ := @does_restore rwBuf parmData target _ again s.regs _ _ serial
    (Json.parseString_serialize _ (dumped_printable fits)) (dumped_stands fits) (plan_fine fits) short
  obtain ⟨-,state,shown,bounded⟩ := run (World.start s) rfl
  refine ⟨bounded.mpr trivial,(congrArg _ shown).trans ?_,fun pp member => ?_⟩
  · rw [List.filterMap_map]
    exact List.filterMap_some
  · have registers := congrFun ((congrArg View.regs state).trans left) pp.reg
    exact registers.trans (by rw [closed_regs _ pp member,closed_regs _ pp member])

private theorem rows_return (regs : UInt8 → Bytes) (sized : Sized regs) (first : UInt8 → Bytes)
    (same : ∀ pp ∈ params, first pp.reg = regs pp.reg) :
    ((restoreRows parmData (plan numeric regs params) 0 first).2 =
        (plan numeric regs params).map (fun row => row.1.reg) ∧
      ∀ pp ∈ params, (restoreRows parmData (plan numeric regs params) 0 first).1 pp.reg = regs pp.reg) ↔
      ∀ pp ∈ params, Returns numeric parmData regs pp := by
  have each (pp : JbdParams) (member : pp ∈ params) := @trail_returns numeric regs parmData sized pp member
  constructor
  · rintro ⟨written,kept⟩ pp member
    have all := (restoreRows_trail _ 0 first _).mp (Prod.ext_iff.mpr ⟨rfl,written⟩) pp.reg
    rw [same pp member] at all
    exact (each pp member).mp (all.trans (congrArg some (kept pp member)))
  · intro returns
    have all (reg : UInt8) : trail parmData reg (plan numeric regs params) 0 (first reg) = some (first reg) := by
      by_cases parm : isParm reg
      · obtain ⟨pp,member,rfl⟩ := (isParm_iff reg).mp parm
        rw [same pp member]
        exact (each pp member).mpr (returns pp member)
      · exact plan_apart params reg 0 _ fun pp member here => parm ((isParm_iff reg).mpr ⟨pp,member,here⟩)
    obtain ⟨kept,written⟩ := Prod.ext_iff.mp ((restoreRows_trail _ 0 first first).mpr all)
    exact ⟨written,fun pp member => (congrFun kept pp.reg).trans (same pp member)⟩

private theorem restored_fits (rwBuf rwBuf' parmData parmData' : Nat → Mem UInt8) (target : Bytes)
    (numeric again : Bool) (s : Bms)
    (serial : Serial target) (sized : Sized s.regs) (fits : ∀ pp ∈ params, Fits s.regs pp) :
    let dump := dumpRun (bms rwBuf parmData) target numeric s
    Restored s.regs dump (restoreRun (bms rwBuf' parmData') target again (document dump.events) dump.state.line) ↔
      ∀ pp ∈ params, Returns numeric parmData' s.regs pp := by
  intro dump
  obtain ⟨printed,left,bounded⟩ := @dumpRun_shown rwBuf parmData target numeric s serial sized
  have line (pp : JbdParams) (member : pp ∈ params) : dump.state.line.regs pp.reg = s.regs pp.reg :=
    (congrFun left pp.reg).trans ((closed_regs _ pp member).trans (opened_regs _ pp member))
  have start (pp : JbdParams) (member : pp ∈ params) : opened dump.state.line.regs pp.reg = s.regs pp.reg :=
    (opened_regs _ pp member).trans (line pp member)
  obtain ⟨inside,writes,registers⟩ := @restoreRun_shown rwBuf' parmData' target numeric
    s.regs dump.state.line serial again fits line
  have rows := @rows_return parmData' numeric s.regs sized _ start
  rw [show document dump.events = _ from printed,← rows]
  have named := @documentRegs_dumped numeric s.regs fits
  constructor
  · rintro ⟨-,written,kept⟩
    rw [show document dump.events = _ from printed,named,writes] at written
    exact ⟨written,fun pp member => (registers pp member).symm.trans (kept pp member)⟩
  · rintro ⟨written,kept⟩
    refine ⟨⟨bounded.mpr fits,inside⟩,?_,fun pp member => (registers pp member).trans (kept pp member)⟩
    rw [show document dump.events = _ from printed,named,writes]
    exact written

/-- Dump and restore is the identity exactly when every row fits its buffer and returns. -/
theorem restored_iff (rwBuf rwBuf' parmData parmData' : Nat → Mem UInt8) (target : Bytes) (numeric again : Bool) (s : Bms)
    (serial : Serial target) (sized : Sized s.regs) :
    let dump := dumpRun (bms rwBuf parmData) target numeric s
    Restored s.regs dump (restoreRun (bms rwBuf' parmData') target again (document dump.events) dump.state.line) ↔
      ∀ pp ∈ params, Fits s.regs pp ∧ Returns numeric parmData' s.regs pp := by
  have exact' := restored_fits rwBuf rwBuf' parmData parmData' target numeric again s serial sized
  have bounded := (@dumpRun_shown rwBuf parmData target numeric s serial sized).2.2
  constructor
  · intro restored pp member
    have fits := bounded.mp restored.inBounds.1
    exact ⟨fits pp member,(exact' fits).mp restored pp member⟩
  · intro holds
    exact (exact' fun pp member => (holds pp member).1).mpr fun pp member => (holds pp member).2

end

/-- Two bytes in every numeric row, all 0 but for the two masks, and the same text thrice. -/
def settingsRegs (config : UInt8) (reg : UInt8) : Bytes :=
  if reg = 0x2D then [0x00,config] else
  if reg = 0x2E then [0x00,0x03] else
  if 0xA0 ≤ reg ∧ reg ≤ 0xA2 then bytes "JBD" else [0x00,0x00]

private theorem serial_x : Serial (bytes "serial:x") := ⟨by decide,by decide⟩

/-- With a bit of each mask set the settings come back. -/
theorem settingsRegs_restored :
    let dump := dumpRun (bms (fun _ _ => 0) (fun _ _ => 0)) (bytes "serial:x") false ⟨settingsRegs 0x07,[]⟩
    Restored (settingsRegs 0x07) dump (restoreRun (bms (fun _ _ => 0) (fun _ _ => 0)) (bytes "serial:x") false
      (document dump.events) dump.state.line) := by
  refine (restored_iff _ _ _ _ _ false false ⟨settingsRegs 0x07,[]⟩ serial_x ⟨?_,?_⟩).mpr ?_
  · decide +kernel
  · decide +kernel
  · intro pp member
    have fits : ∀ pp ∈ params, (settingsRegs 0x07 pp.reg).length < 128 := by decide +kernel
    have returns : ∀ pp ∈ params, Returns false (fun _ _ => 0) (settingsRegs 0x07) pp := by decide +kernel
    exact ⟨⟨(fits pp member).le,fun _ => fits pp member⟩,returns pp member⟩

/-- With none set the list of BatteryConfig is empty, parse_bits refuses it, and the
rows behind it are not written. -/
theorem settingsRegs_lost :
    let dump := dumpRun (bms (fun _ _ => 0) (fun _ _ => 0)) (bytes "serial:x") false ⟨settingsRegs 0x00,[]⟩
    ¬ Restored (settingsRegs 0x00) dump (restoreRun (bms (fun _ _ => 0) (fun _ _ => 0)) (bytes "serial:x") false
      (document dump.events) dump.state.line) := by
  have fits : ∀ pp ∈ params, (settingsRegs 0x00 pp.reg).length < 128 := by decide +kernel
  intro dump restored
  have returns := (restored_fits _ _ _ _ _ false false ⟨settingsRegs 0x00,[]⟩ serial_x
    ⟨by decide +kernel,by decide +kernel⟩ fun pp member => ⟨(fits pp member).le,fun _ => fits pp member⟩).mp restored
  exact absurd (returns ⟨0x2D,bytes "BatteryConfig",.func⟩ (by decide +kernel)) (by decide +kernel)

end Jbdtool
