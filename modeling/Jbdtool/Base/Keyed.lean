import Mathlib.Data.List.Basic
import Mathlib.Tactic.SplitIfs

/-! Sequences of entries with a key, of which the first one with a key counts. -/
namespace Keyed
variable {κ α : Type} [DecidableEq κ]

def place (k : κ) (l : List (κ × α)) : Option Nat := l.findIdx? (fun e => e.1 = k)

def get (k : κ) (l : List (κ × α)) : Option α := (l.find? (fun e => e.1 = k)).map Prod.snd

def update (k : κ) (f : α → α) : List (κ × α) → List (κ × α)
  | [] => []
  | e::l => if e.1 = k then (e.1,f e.2)::l else e::update k f l

section
variable {k : κ} {l : List (κ × α)}

private theorem get_cons (k : κ) (e : κ × α) (l : List (κ × α)) : get k (e::l) = if e.1 = k then some e.2 else get k l := by
  unfold get
  rw [List.find?_cons]
  split_ifs with same <;> simp [same]

private theorem place_cons (k : κ) (e : κ × α) (l : List (κ × α)) :
    place k (e::l) = if e.1 = k then some 0 else (place k l).map (· + 1) := by
  unfold place
  rw [List.findIdx?_cons]
  split_ifs with same <;> simp_all

theorem place_eq_none : place k l = none ↔ get k l = none := by
  simp [place,get]

theorem place_some {i : Nat} (found : place k l = some i) : ∃ a, get k l = some a ∧ l[i]? = some (k,a) ∧
    ∀ f : α → α, l.modify i (fun e => (e.1,f e.2)) = update k f l := by
  induction l generalizing i with
  | nil => cases found
  | cons e l ih =>
    rw [place_cons] at found
    rw [get_cons]
    split_ifs at found ⊢ with same
    · obtain rfl := Option.some.inj found
      refine ⟨e.2,rfl,?_,fun f => ?_⟩
      · rw [List.getElem?_cons_zero,← same]
      · rw [update,if_pos same]
        rfl
    · obtain ⟨j,later,rfl⟩ := Option.map_eq_some_iff.mp found
      obtain ⟨a,here,at',changed⟩ := ih later
      refine ⟨a,here,by rwa [List.getElem?_cons_succ],fun f => ?_⟩
      rw [update,if_neg same,← changed f]
      rfl

theorem get_update (k k' : κ) (f : α → α) (l : List (κ × α)) :
    get k' (update k f l) = if k' = k then (get k' l).map f else get k' l := by
  induction l with
  | nil => simp [update,get]
  | cons e l ih =>
    rw [update,get_cons]
    by_cases same : e.1 = k
    · rw [if_pos same,get_cons]
      by_cases wanted : e.1 = k'
      · simp [wanted,← same]
      · have other : k' ≠ k := fun equal => wanted (same.trans equal.symm)
        simp [wanted,other]
    · rw [if_neg same,get_cons,ih]
      by_cases wanted : e.1 = k'
      · have other : k' ≠ k := fun equal => same (wanted.trans equal)
        simp [wanted,other]
      · simp [wanted]

theorem get_append (k' : κ) (a : α) (new : get k l = none) :
    get k' (l ++ [(k,a)]) = if k' = k then some a else get k' l := by
  induction l with
  | nil =>
    rw [List.nil_append,get_cons]
    by_cases same : k' = k
    · simp [same]
    · simp [same,Ne.symm same]
  | cons e l ih =>
    rw [get_cons] at new
    split_ifs at new with same
    rw [List.cons_append,get_cons,get_cons,ih new]
    by_cases wanted : e.1 = k'
    · have other : k' ≠ k := fun equal => same (wanted.trans equal)
      simp [wanted,other]
    · simp [wanted]

theorem place_append (a : α) (new : get k l = none) : place k (l ++ [(k,a)]) = some l.length := by
  induction l with
  | nil => simp [place_cons]
  | cons e l ih =>
    rw [get_cons] at new
    split_ifs at new with same
    rw [List.cons_append,place_cons,if_neg same,ih new]
    rfl

end

end Keyed
