import Jbdtool.CfgMap

/-! Values with a type: conv_type, and what cfg_get_tab and the functions for numbers and
booleans make of the texts in a store. -/
namespace Jbdtool.CfgStore
open CString

/-- Of DATA_TYPE what is converted to. -/
inductive DataType where
  | int
  | logical
  | string
  | quad
deriving DecidableEq

/-- What is written to a destination: an int, or a string with its terminator. -/
inductive Value where
  | int (n : Int32)
  | string (text : Bytes)
deriving DecidableEq

/-- From a string. An unknown type, such as quad, is reported, and nothing is written. -/
def convType (dtype : DataType) (dlen : Nat) (src : Bytes) : C (Option Value) :=
  match dtype with
  | .int => .ok (some (.int (Int32.ofInt (atoi src))))
  | .logical => do
    let temp ← copyInto .boolean tolower src []
    return some (.int (if temp.1 = bytes "yes" ∨ temp.1 = bytes "true" ∨ temp.1 = bytes "1" then 1 else 0))
  | .string => do
    let len := if src.length > dlen then dlen else src.length
    let temp ← copyInto .temp id (src.take len) []
    let dest ← copyInto (.dest dlen) id temp.1 []
    return some (.string dest.1)
  | .quad => .ok none

def cfgGetBool (store : Store) (name keyword : Bytes) (dflt : Int32) : C (Int32 × Store) := do
  let got ← cfgGetItem store name keyword
  match got.1 with
  | none => return (dflt,got.2)
  | some p => return (if p.headD 0 ∈ bytes "1tTyY" then 1 else 0,got.2)

def cfgGetInt (store : Store) (name keyword : Bytes) (dflt : Int32) : C (Int32 × Store) := do
  let got ← cfgGetItem store name keyword
  match got.1 with
  | none => return (dflt,got.2)
  | some p => do
    let val := Int32.ofInt (atoi p)
    match ← convType .int 0 p with
    | some (.int val) => return (val,got.2)
    | _ => return (val,got.2)

def cfgGetQuad (store : Store) (name keyword : Bytes) (dflt : Int64) : C (Int64 × Store) := do
  let got ← cfgGetItem store name keyword
  match got.1 with
  | none => return (dflt,got.2)
  | some p => do
    let val := Int64.ofInt (strtol 10 p).1
    let _ ← convType .quad 0 p
    return (val,got.2)

/-- False is a null pointer. -/
def cfgSetBool (m : Mallocs) (store : Store) (name keyword : Bytes) (val : Int32) : C (Int × Store) :=
  cfgSetItem m store name keyword none (if val ≠ 0 then some (bytes "1") else none)

/-- `sprintf(ival,..)` -/
def cfgSetNumber (size : Nat) (m : Mallocs) (store : Store) (name keyword : Bytes) (val : Int) : C (Int × Store) := do
  let ival ← copyInto (.ival size) id (showInt val) []
  cfgSetItem m store name keyword none (some ival.1)

def cfgSetInt (m : Mallocs) (store : Store) (name keyword : Bytes) (val : Int32) : C (Int × Store) :=
  cfgSetNumber 16 m store name keyword val.toInt

def cfgSetQuad (m : Mallocs) (store : Store) (name keyword : Bytes) (val : Int64) : C (Int × Store) :=
  cfgSetNumber 32 m store name keyword val.toInt

/-- What a set that works has set is what the get returns, whatever the default. -/
def RoundTrip {α : Type} (set : C (Int × Store)) (get : Store → α → C α) (val : α) : Prop :=
  ∃ r store', set = .ok (r,store') ∧ r = 0 ∧ ∀ dflt, get store' dflt = .ok val

def boolOf (p : Bytes) : Int32 := if p.headD 0 ∈ bytes "1tTyY" then 1 else 0

def intOf (p : Bytes) : Int32 := Int32.ofInt (atoi p)

def quadOf (p : Bytes) : Int64 := Int64.ofInt (strtol 10 p).1

section
variable {α : Type} (store : Store) (name keyword : Bytes)

def getAs (read : Bytes → α) (dflt : α) : C α :=
  (cfgGetItem store name keyword).map (fun r => (r.1.map read).getD dflt)

private theorem cfgGetBool_reads (dflt : Int32) : (cfgGetBool store name keyword dflt).map Prod.fst =
    getAs store name keyword boolOf dflt := by
  unfold cfgGetBool getAs
  cases cfgGetItem store name keyword with
  | error fault => rfl
  | ok got =>
    obtain ⟨p,store'⟩ := got
    cases p <;> rfl

private theorem cfgGetInt_reads (dflt : Int32) : (cfgGetInt store name keyword dflt).map Prod.fst =
    getAs store name keyword intOf dflt := by
  unfold cfgGetInt getAs
  cases cfgGetItem store name keyword with
  | error fault => rfl
  | ok got =>
    obtain ⟨p,store'⟩ := got
    cases p <;> rfl

private theorem cfgGetQuad_reads (dflt : Int64) : (cfgGetQuad store name keyword dflt).map Prod.fst =
    getAs store name keyword quadOf dflt := by
  unfold cfgGetQuad getAs
  cases cfgGetItem store name keyword with
  | error fault => rfl
  | ok got =>
    obtain ⟨p,store'⟩ := got
    cases p <;> rfl

end

section
variable {α : Type} {m : Mallocs} {store : Store} {sname : Text Cfg.sectionNameSize} {keyword : Text Cfg.keywordSize}

private theorem getAs_value (read : Bytes → α) (dflt : α) : getAs store sname.1 keyword.1 read dflt =
    .ok (((store.contents.value (sname.1.map toupper) (keyword.1.map toupper)).map read).getD dflt) := by
  have got := cfgGetItem_value store sname keyword
  unfold getAs
  cases result : cfgGetItem store sname.1 keyword.1 with
  | error fault => rw [result] at got; cases got
  | ok r =>
    rw [result] at got
    exact congrArg (fun p : Option Bytes => Except.ok ((p.map read).getD dflt)) (Except.ok.inj got)

/-- A text that is set is read back, whatever the default, exactly where it is stored. -/
private theorem getAs_set_iff (text : Bytes) (read : Bytes → α) {other : α} (differs : other ≠ read text) :
    RoundTrip (cfgSetItem m store sname.1 keyword.1 none (some text))
      (fun store' => getAs store' sname.1 keyword.1 read) (read text) ↔
    Contents.Stores m store.contents sname.1 keyword.1 none := by
  simp only [RoundTrip,getAs_value]
  rw [cfgSetItem_exists m store sname.1 keyword.1 none (some text) (fun r c => r = 0 ∧ ∀ dflt,
    Except.ok (((c.value (sname.1.map toupper) (keyword.1.map toupper)).map read).getD dflt) = Except.ok (read text))]
  constructor
  · rintro ⟨r,c',set,rfl,got⟩
    refine Contents.stores_of_set set fun missing => differs ?_
    have default := got other
    rw [missing] at default
    exact Except.ok.inj default
  · intro stores
    obtain ⟨c',set,item,-⟩ := Contents.set_stores stores text
    refine ⟨0,c',set,rfl,fun dflt => ?_⟩
    rw [Contents.value,item,if_pos ⟨rfl,rfl⟩]
    rfl

private theorem showInt_length (n : Int) (digits : Nat) (some : 0 < digits) (small : n.natAbs < 10^digits) :
    (showInt n).length ≤ digits + 1 := by
  have width := (showNat_width n.natAbs digits some).mpr small
  unfold showInt
  split_ifs
  · exact Nat.succ_le_succ width
  · exact Nat.le_succ_of_le width

private theorem cfgSetNumber_fits (size : Nat) (val : Int) (fits : (showInt val).length < size) :
    cfgSetNumber size m store sname.1 keyword.1 val = cfgSetItem m store sname.1 keyword.1 none (some (showInt val)) := by
  unfold cfgSetNumber
  rw [bind_ok _ (copyInto_fits (.ival size) id (showInt val) fits)]
  dsimp only
  rw [List.map_id]

private theorem intOf_showInt (val : Int32) : intOf (showInt val.toInt) = val := by
  have low := val.le_toInt
  have high := val.toInt_lt
  rw [intOf,atoi_showInt _ ⟨low,high⟩,Int32.ofInt_toInt]

private theorem quadOf_showInt (val : Int64) : quadOf (showInt val.toInt) = val := by
  have low := val.le_toInt
  have high := val.toInt_lt
  have read := strtol_showInt 10 val.toInt [] (.inl rfl) (by unfold longMax; omega) (stops_nil 10) nofun
  rw [List.append_nil] at read
  rw [quadOf,read,Int64.ofInt_toInt]

end

/-- The numbers that have been set are returned exactly where a value is stored at all; of
the booleans, true only. -/
theorem cfg_round_trip_iff (m : Mallocs) (store : Store) (sname : Text Cfg.sectionNameSize) (keyword : Text Cfg.keywordSize) :
    (∀ val : Int32, RoundTrip (cfgSetBool m store sname.1 keyword.1 val)
      (fun store' dflt => (cfgGetBool store' sname.1 keyword.1 dflt).map Prod.fst) (if val ≠ 0 then 1 else 0) ↔
        val ≠ 0 ∧ Contents.Stores m store.contents sname.1 keyword.1 none) ∧
    (∀ val : Int32, RoundTrip (cfgSetInt m store sname.1 keyword.1 val)
      (fun store' dflt => (cfgGetInt store' sname.1 keyword.1 dflt).map Prod.fst) val ↔
        Contents.Stores m store.contents sname.1 keyword.1 none) ∧
    ∀ val : Int64, RoundTrip (cfgSetQuad m store sname.1 keyword.1 val)
      (fun store' dflt => (cfgGetQuad store' sname.1 keyword.1 dflt).map Prod.fst) val ↔
        Contents.Stores m store.contents sname.1 keyword.1 none := by
  simp only [cfgGetBool_reads,cfgGetInt_reads,cfgGetQuad_reads]
  refine ⟨fun val => ?_,fun val => ?_,fun val => ?_⟩
  · unfold cfgSetBool
    by_cases false : val = 0
    · rw [if_neg (not_not.mpr false)]
      refine iff_of_false ?_ (fun both => both.1 false)
      rintro ⟨r,store',set,zero,-⟩
      obtain ⟨_,c',impossible,rfl⟩ := (cfgSetItem_exists m store sname.1 keyword.1 none none (fun r _ => r = 0)).mp
        ⟨r,store',set,zero⟩
      obtain ⟨c1,-,-,-,null⟩ := Contents.set_zero impossible
      rw [Contents.setItem_null] at null
      cases null
    · rw [if_pos false,if_pos false]
      exact (getAs_set_iff (bytes "1") boolOf (show (0 : Int32) ≠ boolOf (bytes "1") by decide)).trans
        (and_iff_right false).symm
  · have low := val.le_toInt
    have high := val.toInt_lt
    have fits := showInt_length val.toInt 10 (by decide) (by omega)
    have stored := @getAs_set_iff _ m store sname keyword (showInt val.toInt) intOf (val + 1)
      (by rw [intOf_showInt]; simp)
    rw [intOf_showInt] at stored
    rw [cfgSetInt,cfgSetNumber_fits 16 val.toInt (by omega)]
    exact stored
  · have low := val.le_toInt
    have high := val.toInt_lt
    have fits := showInt_length val.toInt 19 (by decide) (by omega)
    have stored := @getAs_set_iff _ m store sname keyword (showInt val.toInt) quadOf (val + 1)
      (by rw [quadOf_showInt]; simp)
    rw [quadOf_showInt] at stored
    rw [cfgSetQuad,cfgSetNumber_fits 32 val.toInt (by omega)]
    exact stored

/-- False cannot be set. -/
theorem cfg_round_trip_false :
    cfgSetBool .all (cfgCreate true) (bytes "s") (bytes "k") 0 = .error .null ∧
    ¬ ∀ val : Int32, RoundTrip (cfgSetBool .all (cfgCreate true) (bytes "s") (bytes "k") val)
      (fun store' dflt => (cfgGetBool store' (bytes "s") (bytes "k") dflt).map Prod.fst) (if val ≠ 0 then 1 else 0) := by
  have null : cfgSetBool .all (cfgCreate true) (bytes "s") (bytes "k") 0 = .error .null := by rfl
  refine ⟨null,fun all => ?_⟩
  obtain ⟨r,store',set,-,-⟩ := all 0
  rw [null] at set
  cases set

end Jbdtool.CfgStore
