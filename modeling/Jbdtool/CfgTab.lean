import Jbdtool.CfgTyped

/-! cfg_get_tab: tables of items and of the variables that take their values. -/
namespace Jbdtool.CfgStore
open CString

/-- A row of `struct cfg_proctab`. A string goes to an array of up to 1024 bytes. -/
structure Entry where
  sname : Bytes
  keyword : Bytes
  type : DataType
  dlen : Nat
  dflt : Option Bytes
  room : type = .string → 1 ≤ dlen ∧ dlen ≤ 1024

/-- The body of the loop of cfg_get_tab: what is written to `dest`, if anything. -/
def Entry.get (ent : Entry) (store : Store) : C (Option Value × Store) := do
  let got ← cfgGetItem store ent.sname ent.keyword
  match got.1.or ent.dflt with
  | none => return (none,got.2)
  | some p => do
    let written ← convType ent.type ent.dlen p
    return (written,got.2)

def cfgGetTab : List Entry → Store → C (List (Option Value) × Store)
  | [], store => .ok ([],store)
  | ent::tab, store => do
    let got ← ent.get store
    let others ← cfgGetTab tab got.2
    return (got.1::others.1,others.2)

namespace Entry
variable (ent : Entry) (c : Contents)

def value : Option Bytes := (c.value (ent.sname.map toupper) (ent.keyword.map toupper)).or ent.dflt

/-- What is to be written for a value: of a string, as much as there is room for. -/
def Filled (written : Option Value) : Prop :=
  match ent.value c with
  | none => written = none
  | some p => match ent.type with
    | .int | .logical => ∃ n, written = some (.int n)
    | .string => written = some (.string (p.take (ent.dlen - 1)))
    | .quad => written = none

structure Fits : Prop where
  sname : ent.sname.length < Buffer.secname.size
  keyword : (c.items (ent.sname.map toupper)).isSome → ent.keyword.length < Buffer.getItemname.size
  string : ent.type = .string → ∀ p, ent.value c = some p → p.length < ent.dlen
  logical : ent.type = .logical → ∀ p, ent.value c = some p → p.length < 16

end Entry

section
variable {dlen : Nat} {src : Bytes}

private theorem convType_string (fits : src.length < dlen) (room : dlen ≤ 1024) :
    convType .string dlen src = .ok (some (.string src)) := by
  have len : (if src.length > dlen then dlen else src.length) = src.length := if_neg (by omega)
  have temp : src.length < Buffer.temp.size := lt_of_lt_of_le fits room
  have dest : src.length < (Buffer.dest dlen).size := fits
  unfold convType
  simp only [len,List.take_length]
  rw [bind_ok _ (copyInto_fits .temp id src temp)]
  simp only [List.map_id]
  rw [bind_ok _ (copyInto_fits (.dest dlen) id src dest)]
  simp only [List.map_id]
  rfl

private theorem convType_overrun (long : dlen ≤ src.length) : ∃ fault, convType .string dlen src = .error fault := by
  have len : (if src.length > dlen then dlen else src.length) = dlen := by split_ifs <;> omega
  have taken : (src.take dlen).length = dlen := by rw [List.length_take]; omega
  unfold convType
  simp only [len]
  by_cases temp : dlen < Buffer.temp.size
  · rw [bind_ok _ (copyInto_fits .temp id (src.take dlen) (taken.symm ▸ temp))]
    simp only [List.map_id]
    have full : ¬ (src.take dlen).length < (Buffer.dest dlen).size := by
      rw [taken]
      exact lt_irrefl dlen
    rw [bind_error _ (copyInto_long (.dest dlen) id (src.take dlen) full)]
    exact ⟨_,rfl⟩
  · rw [bind_error _ (copyInto_long .temp id (src.take dlen) (taken.symm ▸ temp))]
    exact ⟨_,rfl⟩

private theorem convType_logical (fits : src.length < 16) : ∃ n, convType .logical dlen src = .ok (some (.int n)) := by
  have temp : src.length < Buffer.boolean.size := fits
  unfold convType
  simp only
  rw [bind_ok _ (copyInto_fits .boolean tolower src temp)]
  exact ⟨_,rfl⟩

private theorem convType_logical_long (long : ¬ src.length < 16) : ∃ fault, convType .logical dlen src = .error fault := by
  have temp : ¬ src.length < Buffer.boolean.size := long
  unfold convType
  simp only
  rw [bind_error _ (copyInto_long .boolean tolower src temp)]
  exact ⟨_,rfl⟩

end

private theorem cfgGetItem_ok {store : Store} {sname keyword : Bytes} (short : sname.length < Buffer.secname.size)
    (short' : (store.contents.items (sname.map toupper)).isSome → keyword.length < Buffer.getItemname.size) :
    ∃ store', cfgGetItem store sname keyword = .ok (store.contents.value (sname.map toupper) (keyword.map toupper),store') ∧
      store'.contents = store.contents := by
  have got := cfgGetItem_contents store sname keyword
  have result : store.contents.get sname keyword =
      .ok (store.contents.value (sname.map toupper) (keyword.map toupper),store.contents) := by
    rw [Contents.get,if_pos short]
    by_cases there : (store.contents.items (sname.map toupper)).isSome
    · rw [if_pos there,if_pos (short' there)]
    · rw [if_neg there,Contents.value,Contents.item,Option.not_isSome_iff_eq_none.mp there]
      rfl
  rw [result] at got
  cases found : cfgGetItem store sname keyword with
  | error fault => rw [found] at got; cases got
  | ok r =>
    rw [found] at got
    obtain ⟨value,same⟩ := Prod.mk.inj (Except.ok.inj got)
    exact ⟨r.2,congrArg Except.ok (Prod.ext value rfl),same⟩

private theorem cfgGetItem_names {store store' : Store} {sname keyword : Bytes} {value : Option Bytes}
    (found : cfgGetItem store sname keyword = .ok (value,store')) : sname.length < Buffer.secname.size ∧
      ((store.contents.items (sname.map toupper)).isSome → keyword.length < Buffer.getItemname.size) := by
  have got := cfgGetItem_contents store sname keyword
  rw [found] at got
  by_cases short : sname.length < Buffer.secname.size
  · refine ⟨short,fun there => by_contra fun long => ?_⟩
    rw [Contents.get,if_pos short,if_pos there,if_neg long] at got
    cases got
  · rw [Contents.get,if_neg short] at got
    cases got

namespace Entry
variable {ent : Entry} {store store' : Store} {written : Option Value}

private theorem get_names {r : Option Value × Store} (got : ent.get store = .ok r) : ent.sname.length < Buffer.secname.size ∧
    ((store.contents.items (ent.sname.map toupper)).isSome → ent.keyword.length < Buffer.getItemname.size) := by
  unfold get at got
  cases found : cfgGetItem store ent.sname ent.keyword with
  | error fault => rw [bind_error _ found] at got; cases got
  | ok found' => exact cfgGetItem_names found

private theorem get_some (short : ent.sname.length < Buffer.secname.size)
    (short' : (store.contents.items (ent.sname.map toupper)).isSome → ent.keyword.length < Buffer.getItemname.size)
    {p : Bytes} (value : ent.value store.contents = some p) : ∃ store', store'.contents = store.contents ∧
      ent.get store = (convType ent.type ent.dlen p).map (fun written => (written,store')) := by
  obtain ⟨store',found,same⟩ := cfgGetItem_ok short short'
  refine ⟨store',same,?_⟩
  unfold get
  unfold Entry.value at value
  rw [bind_ok _ found]
  simp only [value]
  cases convType ent.type ent.dlen p <;> rfl

private theorem get_none (short : ent.sname.length < Buffer.secname.size)
    (short' : (store.contents.items (ent.sname.map toupper)).isSome → ent.keyword.length < Buffer.getItemname.size)
    (value : ent.value store.contents = none) : ∃ store', store'.contents = store.contents ∧
      ent.get store = .ok (none,store') := by
  obtain ⟨store',found,same⟩ := cfgGetItem_ok short short'
  refine ⟨store',same,?_⟩
  unfold get
  unfold Entry.value at value
  rw [bind_ok _ found]
  simp only [value]
  rfl

private theorem get_contents (got : ent.get store = .ok (written,store')) : store'.contents = store.contents := by
  obtain ⟨short,short'⟩ := get_names got
  cases value : ent.value store.contents with
  | none =>
    obtain ⟨store1,same,found⟩ := get_none short short' value
    obtain ⟨-,rfl⟩ := Prod.mk.inj (Except.ok.inj (found.symm.trans got))
    exact same
  | some p =>
    obtain ⟨store1,same,found⟩ := get_some short short' value
    rw [found] at got
    cases converted : convType ent.type ent.dlen p with
    | error fault => rw [converted] at got; cases got
    | ok w =>
      rw [converted] at got
      obtain ⟨-,rfl⟩ := Prod.mk.inj (Except.ok.inj got)
      exact same

/-- The value that conv_type is given is written as it is to be, or it does not fit. -/
private theorem convType_iff (ent : Entry) {c : Contents} {p : Bytes} (value : ent.value c = some p) :
    (∃ written, convType ent.type ent.dlen p = .ok written ∧ ent.Filled c written) ↔
      (ent.type = .string → p.length < ent.dlen) ∧ (ent.type = .logical → p.length < 16) := by
  unfold Filled
  rw [value]
  cases type : ent.type with
  | int => exact ⟨fun _ => ⟨nofun,nofun⟩,fun _ => ⟨_,rfl,_,rfl⟩⟩
  | quad => exact ⟨fun _ => ⟨nofun,nofun⟩,fun _ => ⟨_,rfl,rfl⟩⟩
  | logical =>
    by_cases fits : p.length < 16
    · obtain ⟨n,made⟩ := @convType_logical ent.dlen p fits
      exact ⟨fun _ => ⟨nofun,fun _ => fits⟩,fun _ => ⟨_,made,n,rfl⟩⟩
    · obtain ⟨fault,failed⟩ := @convType_logical_long ent.dlen p fits
      rw [failed]
      refine iff_of_false ?_ fun both => fits (both.2 rfl)
      rintro ⟨written,impossible,-⟩
      cases impossible
  | string =>
    obtain ⟨low,high⟩ := ent.room type
    by_cases fits : p.length < ent.dlen
    · rw [convType_string fits high]
      have whole : p.take (ent.dlen - 1) = p := List.take_of_length_le (by omega)
      exact ⟨fun _ => ⟨fun _ => fits,nofun⟩,fun _ => ⟨_,rfl,congrArg (fun p => some (Value.string p)) whole.symm⟩⟩
    · obtain ⟨fault,failed⟩ := convType_overrun (not_lt.mp fits)
      rw [failed]
      refine iff_of_false ?_ fun both => fits (both.1 rfl)
      rintro ⟨written,impossible,-⟩
      cases impossible

private theorem get_iff (ent : Entry) (store : Store) :
    (∃ written store', ent.get store = .ok (written,store') ∧ ent.Filled store.contents written) ↔
      ent.Fits store.contents := by
  constructor
  · rintro ⟨written,store',got,filled⟩
    obtain ⟨short,short'⟩ := get_names got
    have fits (p : Bytes) (value : ent.value store.contents = some p) :
        (ent.type = .string → p.length < ent.dlen) ∧ (ent.type = .logical → p.length < 16) := by
      obtain ⟨store1,same,found⟩ := get_some short short' value
      rw [found] at got
      cases converted : convType ent.type ent.dlen p with
      | error fault => rw [converted] at got; cases got
      | ok w =>
        rw [converted] at got
        obtain ⟨rfl,-⟩ := Prod.mk.inj (Except.ok.inj got)
        exact (convType_iff ent value).mp ⟨w,converted,filled⟩
    exact ⟨short,short',fun string p value => (fits p value).1 string,fun logical p value => (fits p value).2 logical⟩
  · rintro ⟨short,short',string,logical⟩
    cases value : ent.value store.contents with
    | none =>
      obtain ⟨store',-,found⟩ := get_none short short' value
      refine ⟨none,store',found,?_⟩
      unfold Filled
      rw [value]
    | some p =>
      obtain ⟨store',-,found⟩ := get_some short short' value
      obtain ⟨written,converted,filled⟩ := (convType_iff ent value).mpr
        ⟨fun type => string type p value,fun type => logical type p value⟩
      refine ⟨written,store',?_,filled⟩
      rw [found,converted]
      rfl

end Entry

/-- The table is filled from inside the arrays exactly where the names and the values fit. -/
theorem cfgGetTab_iff (tab : List Entry) (store : Store) :
    (∃ written store', cfgGetTab tab store = .ok (written,store') ∧
      tab.Forall₂ (fun ent written => ent.Filled store.contents written) written) ↔
    ∀ ent ∈ tab, ent.Fits store.contents := by
  induction tab generalizing store with
  | nil => exact ⟨fun _ => nofun,fun _ => ⟨[],store,rfl,.nil⟩⟩
  | cons ent tab ih =>
    rw [List.forall_mem_cons,← Entry.get_iff]
    constructor
    · rintro ⟨written,store',got,filled⟩
      rw [cfgGetTab] at got
      cases here : ent.get store with
      | error fault => rw [bind_error _ here] at got; cases got
      | ok r =>
        rw [bind_ok _ here] at got
        obtain ⟨first,store1⟩ := r
        have same := Entry.get_contents here
        cases rest : cfgGetTab tab store1 with
        | error fault => rw [bind_error _ rest] at got; cases got
        | ok others =>
          rw [bind_ok _ rest] at got
          obtain ⟨rfl,rfl⟩ := Prod.mk.inj (Except.ok.inj got)
          obtain ⟨now,later⟩ := List.forall₂_cons.mp filled
          have fits := (ih store1).mp ⟨others.1,others.2,rest,by rwa [same]⟩
          rw [same] at fits
          exact ⟨⟨first,store1,rfl,now⟩,fits⟩
    · rintro ⟨⟨written,store1,here,filled⟩,others⟩
      have same := Entry.get_contents here
      rw [← same] at others
      obtain ⟨rest,store',got,filled'⟩ := (ih store1).mpr others
      rw [same] at filled'
      refine ⟨written::rest,store',?_,.cons filled filled'⟩
      rw [cfgGetTab,bind_ok _ here]
      dsimp only
      rw [bind_ok _ got]
      rfl

/-- A user name of 32 characters for mqtt_get_config: its terminator is written behind `user`. -/
theorem cfgGetTab_overrun :
    (do
      let set ← cfgSetItem .all (cfgCreate true) (bytes "mqtt") (bytes "username") none (some (List.replicate 32 117))
      cfgGetTab [⟨bytes "mqtt",bytes "username",.string,32,none,fun _ => by decide⟩] set.2) =
        .error (.bounds (.dest 32) 32) ∧
    ¬ ∀ (tab : List Entry) (store : Store), ∃ written store', cfgGetTab tab store = .ok (written,store') ∧
      tab.Forall₂ (fun ent written => ent.Filled store.contents written) written := by
  obtain ⟨r,made⟩ : ∃ r, cfgSetItem .all (cfgCreate true) (bytes "mqtt") (bytes "username") none
      (some (List.replicate 32 117)) = .ok r := ⟨_,rfl⟩
  have overrun : cfgGetTab [⟨bytes "mqtt",bytes "username",.string,32,none,fun _ => by decide⟩] r.2 =
      .error (.bounds (.dest 32) 32) := by
    obtain rfl := Except.ok.inj made
    rfl
  refine ⟨by rw [bind_ok _ made,overrun],fun all => ?_⟩
  obtain ⟨written,store',got,-⟩ := all [⟨bytes "mqtt",bytes "username",.string,32,none,fun _ => by decide⟩] r.2
  rw [overrun] at got
  cases got

end Jbdtool.CfgStore
