import Mathlib.Data.List.Perm.Basic

/-! Sorting by exchange. The front is exchanged with the first later entry that it gives
way to, and is looked at again; a front that gives way to none is left behind. -/
namespace ExchangeSort
variable {α : Type}

/-- What comes of a list, and in how many rounds. -/
inductive Sorts (gives : α → α → Prop) : List α → List α → Nat → Prop
  | done : Sorts gives [] [] 0
  | exchange {x y : α} {front back out : List α} {n : Nat} (kept : ∀ z ∈ front, ¬ gives x z) (early : gives x y)
      (rest : Sorts gives (y::(front ++ x::back)) out n) : Sorts gives (x::(front ++ y::back)) out (n + 1)
  | leave {x : α} {list out : List α} {n : Nat} (least : ∀ z ∈ list, ¬ gives x z) (rest : Sorts gives list out n) :
      Sorts gives (x::list) (x::out) (n + 1)

section
variable {gives : α → α → Prop} {list out : List α} {n : Nat}

theorem exchanged (x y : α) (front back : List α) : (y::(front ++ x::back)).Perm (x::(front ++ y::back)) := by
  have ahead (a b : α) : (a::(front ++ b::back)).Perm (a::b::(front ++ back)) := List.perm_middle.cons a
  exact (ahead y x).trans ((List.Perm.swap x y _).trans (ahead x y).symm)

theorem sorts_perm (sorts : Sorts gives list out n) : out.Perm list := by
  induction sorts with
  | done => exact .nil
  | exchange _ _ _ ih => exact ih.trans (exchanged _ _ _ _)
  | leave _ _ ih => exact ih.cons _

theorem sorts_pairwise (sorts : Sorts gives list out n) : out.Pairwise (fun a b => ¬ gives a b) := by
  induction sorts with
  | done => exact .nil
  | exchange _ _ _ ih => exact ih
  | leave least rest ih => exact ih.cons fun z inside => least z ((sorts_perm rest).mem_iff.mp inside)

private theorem fewer [DecidableRel gives] (irrefl : ∀ a, ¬ gives a a) (trans : ∀ a b c, gives a b → gives b c → gives a c)
    {x y : α} (early : gives x y) (front back : List α) :
    (front ++ x::back).countP (gives y) < (front ++ y::back).countP (gives x) := by
  have later (part : List α) : part.countP (gives y) ≤ part.countP (gives x) := by
    apply List.countP_mono_left
    intro z _ many
    exact decide_eq_true (trans x y z early (of_decide_eq_true many))
  have back' : ¬ gives y x := fun late => irrefl x (trans x y x early late)
  have ahead := later front
  have behind := later back
  rw [List.countP_append,List.countP_append,List.countP_cons_of_neg (by simpa using back'),
    List.countP_cons_of_pos (by simpa using early)]
  omega

/-- A front that gives way to `many` entries is settled in that many rounds and one more. -/
private theorem sorts_front [DecidableRel gives] (irrefl : ∀ a, ¬ gives a a)
    (trans : ∀ a b c, gives a b → gives b c → gives a c) (rounds length many : Nat)
    (ih : ∀ list : List α, list.length = length → ∃ out n, n ≤ rounds ∧ Sorts gives list out n)
    (x : α) (list : List α) (size : list.length = length) (few : list.countP (gives x) ≤ many) :
    ∃ out n, n ≤ many + 1 + rounds ∧ Sorts gives (x::list) out n := by
  induction many generalizing x list with
  | zero =>
    obtain ⟨out,n,bound,sorts⟩ := ih list size
    have least : ∀ z ∈ list, ¬ gives x z := by
      have none := List.countP_eq_zero.mp (Nat.le_zero.mp few)
      exact fun z inside => by simpa using none z inside
    exact ⟨x::out,n + 1,by omega,.leave least sorts⟩
  | succ many again =>
    cases found : list.find? (gives x) with
    | none =>
      obtain ⟨out,n,bound,sorts⟩ := ih list size
      have least : ∀ z ∈ list, ¬ gives x z := by simpa using List.find?_eq_none.mp found
      exact ⟨x::out,n + 1,by omega,.leave least sorts⟩
    | some y =>
      obtain ⟨early,front,back,rfl,kept⟩ := List.find?_eq_some_iff_append.mp found
      have early : gives x y := of_decide_eq_true early
      have less := fewer irrefl trans early front back
      obtain ⟨out,n,bound,sorts⟩ := again y (front ++ x::back) (by simpa using size) (by omega)
      exact ⟨out,n + 1,by omega,.exchange (by simpa using kept) early sorts⟩

theorem sorts_total [DecidableRel gives] (irrefl : ∀ a, ¬ gives a a)
    (trans : ∀ a b c, gives a b → gives b c → gives a c) (list : List α) :
    ∃ out n, n ≤ list.length * list.length ∧ Sorts gives list out n := by
  generalize size : list.length = length
  induction length generalizing list with
  | zero =>
    obtain rfl := List.eq_nil_of_length_eq_zero size
    exact ⟨[],0,Nat.zero_le _,.done⟩
  | succ length ih =>
    obtain ⟨x,list,rfl⟩ := List.exists_cons_of_length_eq_add_one size
    have size : list.length = length := by simpa using size
    have few : list.countP (gives x) ≤ length := size ▸ List.countP_le_length
    obtain ⟨out,n,bound,sorts⟩ := sorts_front irrefl trans (length * length) length length ih x list size few
    have square : (length + 1) * (length + 1) = length * length + length + (length + 1) := by
      rw [Nat.succ_mul,Nat.mul_succ]
    exact ⟨out,n,by omega,sorts⟩

end

end ExchangeSort
