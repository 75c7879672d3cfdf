import Mathlib.Order.Bounds.Basic
import Mathlib.Order.Bounds.OrderIso
import Mathlib.Data.Set.Insert

/-! A scan that keeps the least or the greatest value seen, from a start value on. What it
keeps is an extreme of the values together with the start. -/
namespace Extremes
variable {α : Type*} [LinearOrder α]

theorem foldl_least (list : List α) (start : α) :
    IsLeast (insert start {v | v ∈ list}) (list.foldl (fun m v => if v < m then v else m) start) := by
  induction list generalizing start with
  | nil => simp
  | cons v list ih =>
    obtain ⟨member,lower⟩ := ih (if v < start then v else start)
    have smaller : (if v < start then v else start) ≤ v ∧ (if v < start then v else start) ≤ start := by
      split_ifs with less
      · exact ⟨le_rfl,less.le⟩
      · exact ⟨not_lt.mp less,le_rfl⟩
    have kept := lower (Set.mem_insert _ _)
    refine ⟨?_,?_⟩
    · rcases member with here | behind
      · rw [List.foldl_cons,here]
        split_ifs
        · exact .inr List.mem_cons_self
        · exact .inl rfl
      · exact .inr (List.mem_cons_of_mem v behind)
    · rintro u (rfl | inside)
      · exact kept.trans smaller.2
      · rcases List.mem_cons.mp inside with rfl | behind
        · exact kept.trans smaller.1
        · exact lower (Set.mem_insert_of_mem _ behind)

theorem foldl_greatest (list : List α) (start : α) :
    IsGreatest (insert start {v | v ∈ list}) (list.foldl (fun m v => if v > m then v else m) start) :=
  foldl_least (α := αᵒᵈ) list start

/-- The start does not disturb exactly where one of the values is as far out. -/
theorem isLeast_insert_iff {start least : α} {values : Set α} (known : IsLeast (insert start values) least) :
    IsLeast values least ↔ ∃ v ∈ values, v ≤ start := by
  obtain ⟨member,lower⟩ := known
  constructor
  · rintro ⟨inside,-⟩
    exact ⟨least,inside,lower (Set.mem_insert _ _)⟩
  · rintro ⟨v,inside,less⟩
    refine ⟨?_,fun u there => lower (Set.mem_insert_of_mem _ there)⟩
    rcases member with rfl | there
    · rwa [le_antisymm (lower (Set.mem_insert_of_mem _ inside)) less]
    · exact there

theorem isGreatest_insert_iff {start greatest : α} {values : Set α} (known : IsGreatest (insert start values) greatest) :
    IsGreatest values greatest ↔ ∃ v ∈ values, start ≤ v :=
  isLeast_insert_iff (α := αᵒᵈ) known

end Extremes
