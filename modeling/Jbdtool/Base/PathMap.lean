import Mathlib.Data.List.Infix

/-! Trees of named places as functions of the path: nothing, a node that has more
below it, or an entry. What is put at a path stands there with all it has below, and makes
nodes of the places above; what is cut off goes with all it has below. -/
namespace PathMap
variable {κ α : Type}

abbrev Tree (κ α : Type) : Type := List κ → Option (Option α)

def nothing : Tree κ α := fun _ => none

/-- A node with nothing below it. -/
def empty : Tree κ α
  | [] => some none
  | _::_ => none

/-- An entry stands above the end of the path. -/
def Blocked (path : List κ) (t : Tree κ α) : Prop := ∃ q a, q <+: path ∧ q ≠ path ∧ t q = some (some a)

section
variable [DecidableEq κ]

def put (path : List κ) (inside t : Tree κ α) : Tree κ α := fun q =>
  if path <+: q then inside (q.drop path.length) else
  if q <+: path then some none else t q

def cut (path : List κ) (t : Tree κ α) : Tree κ α := fun q => if path <+: q then none else t q

inductive Edit (κ α : Type) where
  | put (path : List κ) (inside : Tree κ α)
  | cut (path : List κ)
  | clear

open Classical in
/-- Nothing is put below an entry, and nothing is cut off where there is nothing. -/
noncomputable def edit (t : Tree κ α) : Edit κ α → Tree κ α × Bool
  | .put path inside => if Blocked path t then (t,false) else (put path inside t,true)
  | .cut path => if t path = none then (t,false) else (cut path t,true)
  | .clear => (empty,true)

end

end PathMap
