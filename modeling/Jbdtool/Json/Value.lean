import Jbdtool.Base.Printf

/-! JSON values as parson keeps them, and its serializer. Member names of an
object are distinct: both ways of adding a member look for the name first. Numbers are
finite doubles, and a zero is the positive one: the sign of a zero is not kept. -/
namespace Jbdtool
open CString

inductive Json where
  | null
  | boolean (b : Bool)
  | number (n : ℚ)
  | string (s : Bytes)
  | array (items : List Json)
  | object (members : List (Bytes × Json))

namespace Json

/-- `json_object_get_value` -/
def getValue (members : List (Bytes × Json)) (name : Bytes) : Option Json :=
  (members.find? (fun m => m.1 == name)).map Prod.snd

/-- `json_object_set_value`; a null value is a failure and sets nothing. -/
def setValue (members : List (Bytes × Json)) (name : Bytes) : Option Json → List (Bytes × Json)
  | none => members
  | some value =>
    if members.any (fun m => m.1 == name) then
      members.map (fun m => if m.1 == name then (name,value) else m)
    else members ++ [(name,value)]

/-- The escapes of `json_serialize_string`. -/
def escape (c : UInt8) : Bytes :=
  if c = 34 then [92,34] else
  if c = 92 then [92,92] else
  if c = 8 then [92,98] else
  if c = 12 then [92,102] else
  if c = 10 then [92,110] else
  if c = 13 then [92,114] else
  if c = 9 then [92,116] else
  if c = 47 then [92,47] else
  if c < 32 then bytes "\\u" ++ showHex 4 c.toNat else [c]

def serializeString (s : Bytes) : Bytes := [34] ++ s.flatMap escape ++ [34]

def indent (level : Nat) : Bytes := (List.replicate level (bytes "    ")).flatten

mutual

/-- `json_serialize_to_buffer_r` -/
def serialize (pretty : Bool) (level : Nat) : Json → Bytes
  | .null => bytes "null"
  | .boolean b => if b then bytes "true" else bytes "false"
  | .number n => showG17 n
  | .string s => serializeString s
  | .array [] => [91,93]
  | .array (item::items) =>
    [91] ++ (if pretty then [10] else []) ++ serializeItems pretty level (item::items) ++
      (if pretty then indent level else []) ++ [93]
  | .object [] => [123,125]
  | .object (member::members) =>
    [123] ++ (if pretty then [10] else []) ++ serializeMembers pretty level (member::members) ++
      (if pretty then indent level else []) ++ [125]

def serializeItems (pretty : Bool) (level : Nat) : List Json → Bytes
  | [] => []
  | item::items =>
    (if pretty then indent (level + 1) else []) ++ serialize pretty (level + 1) item ++
      (if items.isEmpty then [] else [44]) ++ (if pretty then [10] else []) ++
      serializeItems pretty level items

def serializeMembers (pretty : Bool) (level : Nat) : List (Bytes × Json) → Bytes
  | [] => []
  | (name,value)::members =>
    (if pretty then indent (level + 1) else []) ++ serializeString name ++ [58] ++
      (if pretty then [32] else []) ++ serialize pretty (level + 1) value ++
      (if members.isEmpty then [] else [44]) ++ (if pretty then [10] else []) ++
      serializeMembers pretty level members

end

end Json
end Jbdtool
