import Mathlib.Data.List.TakeWhile
import Mathlib.Data.List.Basic
import Mathlib.Tactic.SplitIfs

/-! A list cut at the elements that satisfy a predicate: the non-empty runs between them. -/
namespace Tokens
variable {α : Type} (sep : α → Bool)

/-- The runs between separators, in order. -/
def tokens (s : List α) : List (List α) := (s.splitOnP sep).filter (fun t => !t.isEmpty)

/-- A run of its own: something, and no separator in it. -/
def Clean (t : List α) : Prop := t ≠ [] ∧ ∀ c ∈ t, sep c = false

@[simp] theorem tokens_nil : tokens sep ([] : List α) = [] := rfl

variable {sep}

private theorem tokens_between (s rest : List α) {c : α} (separator : sep c = true) :
    tokens sep (s ++ c::rest) = tokens sep s ++ tokens sep rest := by
  simp only [tokens,List.splitOnP_append_cons s rest separator,List.filter_append]

theorem tokens_skip (s : List α) {c : α} (separator : sep c = true) : tokens sep (c::s) = tokens sep s :=
  tokens_between [] s separator

theorem tokens_clean {t : List α} (clean : Clean sep t) : tokens sep t = [t] := by
  obtain ⟨nonempty,inside⟩ := clean
  simp [tokens,List.splitOnP_eq_singleton inside,nonempty]

theorem tokens_separators {gap : List α} (all : ∀ c ∈ gap, sep c = true) (s : List α) :
    tokens sep (gap ++ s) = tokens sep s := by
  induction gap with
  | nil => rfl
  | cons c gap ih =>
    obtain ⟨here,others⟩ := List.forall_mem_cons.mp all
    rw [List.cons_append,tokens_skip _ here,ih others]

theorem tokens_dropWhile (s : List α) : tokens sep (s.dropWhile sep) = tokens sep s := by
  have front : ∀ c ∈ s.takeWhile sep, sep c = true := fun c => List.mem_takeWhile_imp
  calc
    tokens sep (s.dropWhile sep) = tokens sep (s.takeWhile sep ++ s.dropWhile sep) := (tokens_separators front _).symm
    _ = tokens sep s := by rw [List.takeWhile_append_dropWhile]

theorem tokens_takeWhile {s : List α} (start : ∀ c ∈ s.head?, sep c = false) (nonempty : s ≠ []) :
    tokens sep s = s.takeWhile (fun c => !sep c)::tokens sep (s.dropWhile (fun c => !sep c)) ∧
      Clean sep (s.takeWhile (fun c => !sep c)) := by
  have clean : Clean sep (s.takeWhile (fun c => !sep c)) := by
    obtain ⟨c,s,rfl⟩ := List.exists_cons_of_ne_nil nonempty
    have here : sep c = false := start c rfl
    refine ⟨by simp [here],fun d member => ?_⟩
    simpa using List.mem_takeWhile_imp member
  refine ⟨?_,clean⟩
  have parts := List.takeWhile_append_dropWhile (p := fun c => !sep c) (l := s)
  cases rest : s.dropWhile (fun c => !sep c) with
  | nil =>
    rw [rest,List.append_nil] at parts
    rw [parts] at clean ⊢
    rw [tokens_clean clean,tokens_nil]
  | cons c tail =>
    have separator : sep c = true := by
      have stopped := List.head?_dropWhile_not (fun c => !sep c) s
      simpa [rest] using stopped
    rw [rest] at parts
    calc
      tokens sep s = tokens sep (s.takeWhile (fun c => !sep c) ++ c::tail) := by rw [parts]
      _ = s.takeWhile (fun c => !sep c)::tokens sep (c::tail) := by
        rw [tokens_between _ _ separator,tokens_clean clean,tokens_skip _ separator]
        rfl

theorem mem_tokens {s t : List α} (member : t ∈ tokens sep s) : Clean sep t := by
  obtain ⟨inside,nonempty⟩ := List.mem_filter.mp member
  refine ⟨by simpa using nonempty,?_⟩
  clear member nonempty
  induction s generalizing t with
  | nil =>
    obtain rfl : t = [] := by simpa using inside
    simp
  | cons c s ih =>
    rw [List.splitOnP_cons_eq_if_modifyHead] at inside
    split_ifs at inside with separator
    · rcases List.mem_cons.mp inside with rfl | later
      · simp
      · exact ih later
    · obtain ⟨first,rest,cut⟩ := List.exists_cons_of_ne_nil (List.splitOnP_ne_nil sep s)
      rw [cut,List.modifyHead_cons] at inside
      rcases List.mem_cons.mp inside with rfl | later
      · have tail := ih (t := first) (by simp [cut])
        simpa [separator] using tail
      · exact ih (by simp [cut,later])

theorem tokens_eq_nil (s : List α) : tokens sep s = [] ↔ ∀ c ∈ s, sep c = true := by
  constructor
  · intro none
    rw [← tokens_dropWhile] at none
    by_contra some
    obtain ⟨c,member,token⟩ : ∃ c ∈ s, sep c = false := by simpa using some
    have rest : s.dropWhile sep ≠ [] := by
      intro empty
      rw [List.dropWhile_eq_nil_iff.mp empty c member] at token
      cases token
    have start : ∀ c ∈ (s.dropWhile sep).head?, sep c = false := by
      intro c first
      have stopped := List.head?_dropWhile_not sep s
      rw [Option.mem_def.mp first] at stopped
      simpa using stopped
    rw [(tokens_takeWhile start rest).1] at none
    cases none
  · intro all
    simpa using tokens_separators all []

theorem tokens_word (s : List α) :
    (s.dropWhile sep).takeWhile (fun c => !sep c) = (tokens sep s).headD [] ∧
      tokens sep ((s.dropWhile sep).dropWhile (fun c => !sep c)) = (tokens sep s).tail := by
  rw [← tokens_dropWhile s]
  by_cases none : s.dropWhile sep = []
  · simp [none]
  · have start : ∀ c ∈ (s.dropWhile sep).head?, sep c = false := by
      intro c first
      have stopped := List.head?_dropWhile_not sep s
      rw [Option.mem_def.mp first] at stopped
      simpa using stopped
    rw [(tokens_takeWhile start none).1]
    exact ⟨rfl,rfl⟩

theorem tokens_behind {gap : List α} (all : ∀ c ∈ gap, sep c = true) (s : List α) :
    tokens sep (s ++ gap) = tokens sep s := by
  cases gap with
  | nil => rw [List.append_nil]
  | cons c gap =>
    obtain ⟨here,others⟩ := List.forall_mem_cons.mp all
    rw [tokens_between s gap here,(tokens_eq_nil gap).mpr others,List.append_nil]

theorem tokens_flatMap {c : α} (separator : sep c = true) (first : List α) (others : List (List α)) :
    tokens sep (first ++ others.flatMap (c::·)) = (first::others).flatMap (tokens sep) := by
  induction others generalizing first with
  | nil => simp
  | cons next others ih =>
    rw [List.flatMap_cons,List.cons_append,tokens_between _ _ separator,ih next]
    rfl

/-- Clean tokens put behind one another, with one separator between any two. -/
theorem tokens_joined {c : α} (separator : sep c = true) (first : List α) (others : List (List α))
    (clean : ∀ t ∈ first::others, Clean sep t) :
    tokens sep (first ++ others.flatMap (c::·)) = first::others := by
  rw [tokens_flatMap separator]
  have each : (first::others).flatMap (tokens sep) = (first::others).flatMap (fun t => [t]) :=
    List.flatMap_congr fun t member => tokens_clean (clean t member)
  rw [each,List.flatMap_singleton']

end Tokens
