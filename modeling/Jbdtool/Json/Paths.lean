import Jbdtool.Base.PathMap
import Jbdtool.Base.Split
import Jbdtool.Json.Members
import Jbdtool.Json.Printed

/-! Members named by dotted paths. A document is a tree of places; the dotted calls put,
cut and look up there, and leave a document that is read back from what is printed of it. -/
namespace Jbdtool.Json
open CString PathMap Numbers

/-- The names of a dotted one, as strchr finds the dots one after the other. -/
def dots (name : Bytes) : List Bytes := Split.split [46] name

/-- `json_object_dotset_value` of a value that has no parent; nothing where it fails. -/
def setPath (members : List (Bytes × Json)) (value : Json) : List Bytes → Option (List (Bytes × Json))
  | [] => none
  | [name] => some (setValue members name (some value))
  | name::next::path => match getValue members name with
    | some (.object inner) =>
      (setPath inner value (next::path)).map (fun inner' => setValue members name (some (.object inner')))
    | some _ => none
    | none => (setPath [] value (next::path)).map (fun inner => members ++ [(name,.object inner)])

/-- `json_object_remove_internal`: the last member takes the place of the one removed. -/
def removeValue (members : List (Bytes × Json)) (name : Bytes) : Option (List (Bytes × Json)) :=
  match members.findIdx? (fun m => m.1 == name), members.getLast? with
  | some i, some last =>
    some (if i ≠ members.length - 1 then (members.set i last).dropLast else members.dropLast)
  | _, _ => none

/-- `json_object_dotremove_internal` -/
def removePath (members : List (Bytes × Json)) : List Bytes → Option (List (Bytes × Json))
  | [] => none
  | [name] => removeValue members name
  | name::next::path => match getValue members name with
    | some (.object inner) =>
      (removePath inner (next::path)).map (fun inner' => setValue members name (some (.object inner')))
    | _ => none

inductive Call where
  | dotset (name : Bytes) (value : Json)
  | dotremove (name : Bytes)
  | clear

/-- The members afterwards and whether the status is JSONSuccess. -/
def call (members : List (Bytes × Json)) : Call → List (Bytes × Json) × Bool
  | .dotset name value => match setPath members value (dots name) with
    | some members' => (members',true)
    | none => (members,false)
  | .dotremove name => match removePath members (dots name) with
    | some members' => (members',true)
    | none => (members,false)
  | .clear => ([],true)

def calls (members : List (Bytes × Json)) : List Call → List (Bytes × Json) × List Bool
  | [] => (members,[])
  | c::cs => ((calls (call members c).1 cs).1,(call members c).2::(calls (call members c).1 cs).2)

/-- What is not an object. -/
def entry : Json → Option Json
  | .object _ => none
  | v => some v

def tree : Json → Tree Bytes Json
  | v, [] => some (entry v)
  | .object members, name::path => match getValue members name with
    | some v => tree v path
    | none => none
  | _, _::_ => none

/-- All objects on the way down have distinct names. -/
inductive Distinct : Json → Prop where
  | object (members : List (Bytes × Json)) (own : (members.map Prod.fst).Nodup) (inner : ∀ m ∈ members, Distinct m.2) :
    Distinct (.object members)
  | entry (v : Json) (plain : entry v = some v) : Distinct v

/-- The last member in the place of the one removed. -/
private theorem moved (before after : List (Bytes × Json)) (m last : Bytes × Json) (end' : (m::after).getLast? = some last) :
    (if before.length ≠ (before ++ m::after).length - 1 then ((before ++ m::after).set before.length last).dropLast
      else (before ++ m::after).dropLast).Perm (before ++ after) := by
  rcases List.eq_nil_or_concat after with rfl | ⟨after',last',rfl⟩
  · rw [if_neg (by simp)]
    simp
  · rw [List.concat_eq_append] at end' ⊢
    obtain rfl : last' = last := by simpa [List.getLast?_cons] using end'
    have later : before.length ≠ (before ++ m::(after' ++ [last'])).length - 1 := by
      simp only [List.length_append,List.length_cons,List.length_nil]
      omega
    rw [if_pos later,List.set_append_right _ _ (Nat.le_refl _),Nat.sub_self,List.set_cons_zero,
      ← List.cons_append,← List.append_assoc,List.dropLast_concat]
    apply List.Perm.append_left
    exact (List.perm_append_singleton last' after').symm

def Call.edit : Call → Edit Bytes Json
  | .dotset name value => .put (dots name) (tree value)
  | .dotremove name => .cut (dots name)
  | .clear => .clear

def Call.Distinct : Call → Prop
  | .dotset _ value => Json.Distinct value
  | .dotremove _ | .clear => True

end Jbdtool.Json
