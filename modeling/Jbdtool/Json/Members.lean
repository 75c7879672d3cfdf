import Jbdtool.Json.Value
import Mathlib.Data.List.Nodup

/-! Objects as finite maps: lookups in members with distinct names, and members set
one after the other. -/
namespace Jbdtool.Json
open CString

theorem getValue_member (members : List (Bytes × Json)) (distinct : (members.map Prod.fst).Nodup)
    (m : Bytes × Json) (inside : m ∈ members) : getValue members m.1 = some m.2 := by
  induction members with
  | nil => cases inside
  | cons first members ih =>
    obtain ⟨fresh,others⟩ := List.nodup_cons.mp distinct
    unfold getValue at ih ⊢
    rcases List.mem_cons.mp inside with rfl | later
    · simp
    · have other : first.1 ≠ m.1 := fun same => fresh (same ▸ List.mem_map_of_mem later)
      simpa [other] using ih others later

theorem getValue_some (members : List (Bytes × Json)) (name : Bytes) (value : Json)
    (found : getValue members name = some value) : (name,value) ∈ members := by
  obtain ⟨m,first,rfl⟩ := Option.map_eq_some_iff.mp found
  have same : m.1 = name := by simpa using List.find?_some first
  rw [← same]
  exact List.mem_of_find?_eq_some first

/-- `json_object_set_value` for one row after the other. -/
def setValues (members : List (Bytes × Json)) (rows : List (Bytes × Option Json)) : List (Bytes × Json) :=
  rows.foldl (fun o row => setValue o row.1 row.2) members

@[simp] theorem setValues_nil (members : List (Bytes × Json)) : setValues members [] = members := rfl

@[simp] theorem setValues_cons (members : List (Bytes × Json)) (row : Bytes × Option Json)
    (rows : List (Bytes × Option Json)) :
    setValues members (row::rows) = setValues (setValue members row.1 row.2) rows := rfl

def rowMember (row : Bytes × Option Json) : Option (Bytes × Json) := row.2.map (fun value => (row.1,value))

theorem rowMember_sublist (rows : List (Bytes × Option Json)) :
    ((rows.filterMap rowMember).map Prod.fst).Sublist (rows.map Prod.fst) := by
  induction rows with
  | nil => exact .slnil
  | cons row rows ih =>
    obtain ⟨name,value⟩ := row
    cases value with
    | none => exact ih.cons name
    | some j => exact ih.cons_cons name

theorem setValues_fresh (members : List (Bytes × Json)) (rows : List (Bytes × Option Json))
    (distinct : (rows.map Prod.fst).Nodup) (fresh : ∀ row ∈ rows, ∀ m ∈ members, m.1 ≠ row.1) :
    setValues members rows = members ++ rows.filterMap rowMember := by
  induction rows generalizing members with
  | nil => simp
  | cons row rows ih =>
    obtain ⟨name,value⟩ := row
    obtain ⟨here,others⟩ := List.nodup_cons.mp distinct
    obtain ⟨new,rest⟩ := List.forall_mem_cons.mp fresh
    rw [setValues_cons]
    cases value with
    | none =>
      rw [setValue,ih members others rest]
      rfl
    | some j =>
      have absent : members.any (fun m => m.1 == name) = false := by simpa using new
      have added : setValue members name (some j) = members ++ [(name,j)] := by simp [setValue,absent]
      rw [added,ih _ others]
      · simp [rowMember]
      · intro q member m inside
        rcases List.mem_append.mp inside with old | last
        · exact rest q member m old
        · rw [List.mem_singleton.mp last]
          intro same
          exact here (same ▸ List.mem_map_of_mem member)

def setNames (rows : List (Bytes × Option Json)) : List Bytes := (rows.filterMap rowMember).map Prod.fst

theorem mem_setValue (members : List (Bytes × Json)) (name : Bytes) (value : Json) (m : Bytes × Json)
    (inside : m ∈ setValue members name (some value)) : m = (name,value) ∨ m ∈ members ∧ m.1 ≠ name := by
  unfold setValue at inside
  split_ifs at inside with present
  · obtain ⟨old,member,rfl⟩ := List.mem_map.mp inside
    split_ifs with same
    · exact .inl rfl
    · exact .inr ⟨member,by simpa using same⟩
  · rcases List.mem_append.mp inside with old | new
    · refine .inr ⟨old,fun same => present ?_⟩
      exact List.any_eq_true.mpr ⟨m,old,by simpa using same⟩
    · exact .inl (List.mem_singleton.mp new)

private theorem find_replaced (members : List (Bytes × Json)) (name other : Bytes) (value : Json) :
    (members.map (fun m => if m.1 == other then (other,value) else m)).find? (fun m => m.1 == name) =
      (members.find? (fun m => m.1 == name)).map (fun m => if m.1 == other then (other,value) else m) := by
  have named : (fun m : Bytes × Json => m.1 == name) ∘ (fun m => if m.1 == other then (other,value) else m) =
      fun m => m.1 == name := by
    funext m
    by_cases here : m.1 = other <;> simp [here]
  rw [List.find?_map,named]

theorem getValue_setValue (members : List (Bytes × Json)) (name : Bytes) (value : Json) :
    getValue (setValue members name (some value)) name = some value := by
  unfold getValue setValue
  split_ifs with present
  · obtain ⟨m,found⟩ := Option.isSome_iff_exists.mp (List.find?_isSome.mpr (List.any_eq_true.mp present))
    have here := List.find?_some found
    rw [find_replaced,found]
    simp only [Option.map_some,here,if_true]
  · have absent : members.find? (fun m => m.1 == name) = none :=
      List.find?_eq_none.mpr fun m inside named => present (List.any_eq_true.mpr ⟨m,inside,named⟩)
    simp [List.find?_append,absent]

theorem getValue_setValue_other (members : List (Bytes × Json)) (name other : Bytes) (value : Option Json)
    (differ : other ≠ name) : getValue (setValue members other value) name = getValue members name := by
  cases value with
  | none => rfl
  | some value =>
    unfold getValue setValue
    split_ifs with present
    · rw [find_replaced]
      cases found : members.find? (fun m => m.1 == name) with
      | none => rfl
      | some m =>
        have here : m.1 = name := by simpa using List.find?_some found
        simp [here,Ne.symm differ]
    · simp [List.find?_append,differ]

/-- The last of the rows under a name is what it comes to. -/
theorem getValue_setValues (members : List (Bytes × Json)) (before after : List (Bytes × Option Json)) (name : Bytes)
    (value : Json) (last : name ∉ after.map Prod.fst) :
    getValue (setValues members (before ++ (name,some value)::after)) name = some value := by
  have kept (o : List (Bytes × Json)) : getValue (setValues o after) name = getValue o name := by
    induction after generalizing o with
    | nil => rfl
    | cons row after ih =>
      obtain ⟨other,later⟩ := not_or.mp (List.mem_cons.not.mp last)
      rw [setValues_cons,ih later,getValue_setValue_other _ _ _ _ (Ne.symm other)]
  rw [setValues,List.foldl_append]
  exact (kept _).trans (getValue_setValue _ _ _)

/-- A member is one of the rows set, or an old one that no row has touched. -/
private theorem mem_setValues (members : List (Bytes × Json)) (rows : List (Bytes × Option Json)) (m : Bytes × Json)
    (inside : m ∈ setValues members rows) : (m.1,some m.2) ∈ rows ∨ m ∈ members ∧ m.1 ∉ setNames rows := by
  induction rows generalizing members with
  | nil => exact .inr ⟨inside,by simp [setNames]⟩
  | cons row rows ih =>
    obtain ⟨name,value⟩ := row
    rcases ih _ inside with later | ⟨before,untouched⟩
    · exact .inl (List.mem_cons_of_mem _ later)
    · cases value with
      | none => exact .inr ⟨before,untouched⟩
      | some value =>
        rcases mem_setValue members name value m before with rfl | ⟨old,other⟩
        · exact .inl List.mem_cons_self
        · have fresh : m.1 ∉ name::setNames rows := List.not_mem_cons_of_ne_of_not_mem other untouched
          exact .inr ⟨old,fresh⟩

private theorem names_setValue (members : List (Bytes × Json)) (name : Bytes) (value : Json) (n : Bytes) :
    n ∈ (setValue members name (some value)).map Prod.fst ↔ n ∈ members.map Prod.fst ∨ n = name := by
  unfold setValue
  split_ifs with present
  · have same : (members.map (fun m => if m.1 == name then (name,value) else m)).map Prod.fst = members.map Prod.fst := by
      rw [List.map_map]
      refine List.map_congr_left fun m _ => ?_
      by_cases named : m.1 = name <;> simp [named]
    obtain ⟨m,member,named⟩ := List.any_eq_true.mp present
    rw [same]
    refine ⟨.inl,fun either => either.elim id fun is => ?_⟩
    rw [is,← beq_iff_eq.mp named]
    exact List.mem_map_of_mem member
  · simp

theorem names_setValues (members : List (Bytes × Json)) (rows : List (Bytes × Option Json)) (name : Bytes) :
    name ∈ (setValues members rows).map Prod.fst ↔ name ∈ members.map Prod.fst ∨ name ∈ setNames rows := by
  induction rows generalizing members with
  | nil => simp [setNames]
  | cons row rows ih =>
    obtain ⟨label,value⟩ := row
    rw [setValues_cons,ih]
    cases value with
    | none => rfl
    | some value =>
      rw [names_setValue]
      simp only [setNames,List.filterMap_cons,rowMember,Option.map_some,List.map_cons,List.mem_cons]
      tauto

/-- What rows leave behind is theirs alone where they set every name there was. -/
theorem setValues_overwrites (members : List (Bytes × Json)) (rows : List (Bytes × Option Json)) :
    (∀ m ∈ setValues members rows, (m.1,some m.2) ∈ rows) ↔ members.map Prod.fst ⊆ setNames rows := by
  have named (m : Bytes × Json) (row : (m.1,some m.2) ∈ rows) : m.1 ∈ setNames rows :=
    List.mem_map.mpr ⟨m,List.mem_filterMap.mpr ⟨_,row,rfl⟩,rfl⟩
  constructor
  · intro own name old
    obtain ⟨m,inside,rfl⟩ := List.mem_map.mp ((names_setValues members rows name).mpr (.inl old))
    exact named m (own m inside)
  · intro covered m inside
    rcases mem_setValues members rows m inside with row | ⟨old,untouched⟩
    · exact row
    · exact (untouched (covered (List.mem_map_of_mem old))).elim

end Jbdtool.Json
