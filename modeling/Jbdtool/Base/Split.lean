import Mathlib.Data.List.Infix

/-! A sequence split at a delimiter of one or more entries: each time at its leftmost
occurrence, and on behind that one. -/
namespace Split
variable {α : Type}

inductive Splits (d : List α) : List α → List (List α) → Prop
  | last {s : List α} (none : ∀ i, ¬ d <+: s.drop i) : Splits d s [s]
  | more {e rest : List α} {parts : List (List α)} (first : ∀ i < e.length, ¬ d <+: (e ++ (d ++ rest)).drop i)
      (others : Splits d rest parts) : Splits d (e ++ (d ++ rest)) (e::parts)

private theorem splits_cons {d : List α} (c : α) {s e : List α} {parts : List (List α)} (missing : ¬ d <+: c::s)
    (splits : Splits d s (e::parts)) : Splits d (c::s) ((c::e)::parts) := by
  cases splits with
  | last none =>
    refine .last fun i => ?_
    cases i with
    | zero => exact missing
    | succ i => exact none i
  | more first others =>
    refine .more (e := c::e) (fun i below => ?_) others
    cases i with
    | zero => exact missing
    | succ i => exact first i (Nat.lt_of_succ_lt_succ below)

section
variable [DecidableEq α]

/-- The elements from here on, behind the first `skip` entries. -/
def cut (d : List α) : Nat → List α → List (List α)
  | _, [] => [[]]
  | skip + 1, _::s => cut d skip s
  | 0, c::s =>
    if d <+: c::s then []::cut d (d.length - 1) s else
    match cut d 0 s with
    | e::es => (c::e)::es
    | [] => [[c]]

def split (d s : List α) : List (List α) := cut d 0 s

variable {d : List α}

private theorem cut_skip (skip : Nat) (s : List α) : cut d skip s = split d (s.drop skip) := by
  induction s generalizing skip with
  | nil => cases skip <;> rfl
  | cons c s ih =>
    cases skip with
    | zero => rfl
    | succ skip => exact ih skip

private theorem split_found (some : d ≠ []) (rest : List α) : split d (d ++ rest) = []::split d rest := by
  obtain ⟨c,d',rfl⟩ := List.exists_cons_of_ne_nil some
  have found : c::d' <+: c::(d' ++ rest) := List.prefix_append (c::d') rest
  rw [split,List.cons_append,cut,if_pos found,cut_skip]
  simp

private theorem split_passed (c : α) (s : List α) (missing : ¬ d <+: c::s) :
    split d (c::s) = (c::(split d s).headD [])::(split d s).tail := by
  rw [split,cut,if_neg missing,← split]
  cases split d s <;> rfl

theorem split_last (s : List α) (none : ∀ i, ¬ d <+: s.drop i) : split d s = [s] := by
  induction s with
  | nil => rfl
  | cons c s ih => rw [split_passed c s (none 0),ih fun i => none (i + 1)]; rfl

private theorem split_more (some : d ≠ []) (e rest : List α) (first : ∀ i < e.length, ¬ d <+: (e ++ (d ++ rest)).drop i) :
    split d (e ++ (d ++ rest)) = e::split d rest := by
  induction e with
  | nil => exact split_found some rest
  | cons c e ih =>
    have later := ih fun i below => first (i + 1) (Nat.succ_lt_succ below)
    have missing : ¬ d <+: c::(e ++ (d ++ rest)) := first 0 (Nat.zero_lt_succ _)
    rw [List.cons_append,split_passed c _ missing,later]
    rfl

theorem splits_split (some : d ≠ []) (s : List α) : Splits d s (split d s) := by
  generalize size : s.length = length
  induction length using Nat.strongRecOn generalizing s with
  | ind length ih =>
    cases s with
    | nil =>
      refine .last fun i => ?_
      rw [List.drop_nil,List.prefix_nil]
      exact some
    | cons c s =>
      by_cases found : d <+: c::s
      · obtain ⟨rest,whole⟩ := found
        have shorter : rest.length < length := by
          have sum := congrArg List.length whole
          have long := List.length_pos_of_ne_nil some
          rw [List.length_append] at sum
          omega
        rw [← whole,split_found some]
        exact .more (e := []) (fun i below => absurd below (Nat.not_lt_zero i)) (ih _ shorter rest rfl)
      · have later := ih s.length (by rw [← size]; exact Nat.lt_succ_self _) s rfl
        rw [split_passed c s found]
        cases parts : split d s with
        | nil =>
          rw [parts] at later
          cases later
        | cons e es =>
          rw [parts] at later
          exact splits_cons c found later

theorem splits_iff (some : d ≠ []) (s : List α) (parts : List (List α)) : Splits d s parts ↔ parts = split d s := by
  constructor
  · intro splits
    induction splits with
    | last none => exact (split_last _ none).symm
    | more first _ ih => rw [split_more some _ _ first,ih]
  · rintro rfl
    exact splits_split some s

end

end Split
