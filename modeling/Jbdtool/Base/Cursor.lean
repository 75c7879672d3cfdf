import Mathlib.Data.List.Nodup
import Mathlib.Tactic.SplitIfs

/-! A sequence with a cursor: what the cursor has passed, and what is ahead of it. Adding
at the end and deleting anywhere do not disturb a traversal. -/

structure Cursored (α : Type) where
  passed : List α
  ahead : List α

namespace Cursored
variable {α : Type}

def all (z : Cursored α) : List α := z.passed ++ z.ahead

def empty : Cursored α := ⟨[],[]⟩

/-- Behind the last one. A cursor at the end stays there, unless there was nothing. -/
def add (z : Cursored α) (x : α) : Cursored α :=
  if z.ahead = [] ∧ z.passed ≠ [] then ⟨z.passed ++ [x],[]⟩ else ⟨z.passed,z.ahead ++ [x]⟩

/-- The first one with the property is taken out; a cursor on it moves to the next. -/
def delete (z : Cursored α) (p : α → Bool) : Cursored α :=
  if z.passed.any p then ⟨z.passed.eraseP p,z.ahead⟩ else ⟨z.passed,z.ahead.eraseP p⟩

def reset (z : Cursored α) : Cursored α := ⟨[],z.all⟩

def next (z : Cursored α) : Cursored α :=
  match z.ahead with
  | [] => z
  | x::rest => ⟨z.passed ++ [x],rest⟩

/-- The place of the first one with the property from the cursor on, which is then behind it. -/
def seek (p : α → Bool) : Nat → Cursored α → Option Nat × Cursored α
  | 0, z => (none,z)
  | n + 1, z => match z.ahead with
    | [] => (none,z)
    | a::_ => if p a then (some z.passed.length,z.next) else seek p n z.next

def search (z : Cursored α) (p : α → Bool) : Option Nat × Cursored α := seek p (z.all.length + 1) z.reset

/-- The one at a place is changed where it is. -/
def modify (z : Cursored α) (i : Nat) (f : α → α) : Cursored α :=
  if i < z.passed.length then ⟨z.passed.modify i f,z.ahead⟩ else ⟨z.passed,z.ahead.modify (i - z.passed.length) f⟩

section
variable (z : Cursored α)

@[simp] theorem all_empty : (empty : Cursored α).all = [] := rfl

@[simp] theorem all_add (x : α) : (z.add x).all = z.all ++ [x] := by
  unfold add all
  split_ifs with atEnd
  · simp [atEnd.1]
  · simp

@[simp] theorem all_reset : z.reset.all = z.all := rfl

@[simp] theorem all_next : z.next.all = z.all := by
  obtain ⟨passed,ahead⟩ := z
  cases ahead <;> simp [next,all]

theorem all_delete (p : α → Bool) : (z.delete p).all = z.all.eraseP p := by
  unfold delete all
  split_ifs with found
  · obtain ⟨a,inside,holds⟩ := List.any_eq_true.mp found
    exact (List.eraseP_append_left (p := p) holds _ inside).symm
  · refine (List.eraseP_append_right _ fun b inside holds => found ?_).symm
    exact List.any_eq_true.mpr ⟨b,inside,holds⟩

end

private theorem seek_spec (p : α → Bool) (n : Nat) (z : Cursored α) (enough : z.ahead.length < n) :
    (seek p n z).2.all = z.all ∧ (seek p n z).1 = (z.ahead.findIdx? p).map (z.passed.length + ·) := by
  induction n generalizing z with
  | zero => exact absurd enough (Nat.not_lt_zero _)
  | succ n ih =>
    obtain ⟨passed,ahead⟩ := z
    cases ahead with
    | nil => exact ⟨rfl,rfl⟩
    | cons a ahead =>
      rw [seek]
      dsimp only
      rw [List.findIdx?_cons]
      split_ifs with found
      · exact ⟨all_next _,rfl⟩
      · obtain ⟨whole,place⟩ := ih ⟨passed ++ [a],ahead⟩ (Nat.lt_of_succ_lt_succ enough)
        refine ⟨whole.trans (List.append_assoc passed [a] ahead),place.trans ?_⟩
        rw [Option.map_map]
        refine congrArg (fun f => (ahead.findIdx? p).map f) (funext fun i => ?_)
        simp only [List.length_append,List.length_singleton,Function.comp_apply]
        omega

@[simp] theorem all_search (z : Cursored α) (p : α → Bool) : (z.search p).2.all = z.all :=
  (seek_spec p _ z.reset (Nat.lt_succ_self _)).1

theorem search_place (z : Cursored α) (p : α → Bool) : (z.search p).1 = z.all.findIdx? p := by
  have place := (seek_spec p _ z.reset (Nat.lt_succ_self _)).2
  refine place.trans ?_
  change (z.all.findIdx? p).map (0 + ·) = _
  simp

@[simp] theorem all_modify (z : Cursored α) (i : Nat) (f : α → α) : (z.modify i f).all = z.all.modify i f := by
  unfold modify all
  split_ifs with early
  · refine List.ext_getElem? fun j => ?_
    simp only [List.getElem?_append,List.getElem?_modify,List.length_modify]
    split_ifs <;> first | rfl | (exfalso; omega) | simp
  · refine List.ext_getElem? fun j => ?_
    simp only [List.getElem?_append,List.getElem?_modify]
    split_ifs <;> first | rfl | (exfalso; omega) | simp

theorem delete_missing (z : Cursored α) (p : α → Bool) (missing : z.all.find? p = none) : z.delete p = z := by
  obtain ⟨passed,ahead⟩ := z
  have none := List.find?_eq_none.mp missing
  have absent : ¬ passed.any p = true := by
    simpa using fun a inside => none a (List.mem_append_left _ inside)
  unfold delete
  rw [if_neg absent]
  exact congrArg _ (List.eraseP_of_forall_not fun a inside => none a (List.mem_append_right _ inside))

section
variable [DecidableEq α]

private theorem eraseP_found (l : List α) (distinct : l.Nodup) (p : α → Bool) (d : α) (found : l.find? p = some d) :
    l.eraseP p = l.filter (· ≠ d) := by
  induction l with
  | nil => cases found
  | cons a l ih =>
    obtain ⟨alone,others⟩ := List.nodup_cons.mp distinct
    by_cases holds : p a = true
    · obtain rfl : a = d := by simpa [holds] using found
      have rest : l.filter (· ≠ a) = l :=
        List.filter_eq_self.mpr fun b inside => by simpa using fun same : b = a => alone (same ▸ inside)
      rw [List.filter_cons_of_neg (by simp),rest,List.eraseP_cons_of_pos holds]
    · have later : l.find? p = some d := by simpa [holds] using found
      have other : a ≠ d := fun same => holds (same ▸ List.find?_some later)
      simp [holds,other,ih others later]

theorem delete_found (z : Cursored α) (distinct : z.all.Nodup) (p : α → Bool) (d : α) (found : z.all.find? p = some d) :
    z.delete p = ⟨z.passed.filter (· ≠ d),z.ahead.filter (· ≠ d)⟩ := by
  obtain ⟨passed,ahead⟩ := z
  obtain ⟨left,right,apart⟩ := List.nodup_append.mp distinct
  unfold delete
  simp only [all,List.find?_append] at found ⊢
  cases before : passed.find? p with
  | some c =>
    obtain rfl : c = d := by simpa [before] using found
    have inside := List.mem_of_find?_eq_some before
    have some : passed.any p = true := List.any_eq_true.mpr ⟨c,inside,List.find?_some before⟩
    have rest : ahead.filter (· ≠ c) = ahead :=
      List.filter_eq_self.mpr fun b member => by simpa using fun same : b = c => apart c inside b member same.symm
    rw [if_pos some,eraseP_found passed left p c before,rest]
  | none =>
    have after : ahead.find? p = some d := by simpa [before] using found
    have inside := List.mem_of_find?_eq_some after
    have absent : ¬ passed.any p = true := by simpa using List.find?_eq_none.mp before
    have rest : passed.filter (· ≠ d) = passed :=
      List.filter_eq_self.mpr fun b member => by simpa using apart b member d inside
    rw [if_neg absent,eraseP_found ahead right p d after,rest]

/-- How far a traversal from a reset has come that has returned these: of the ones there
were at the reset and still are, it has returned those it has passed, in order. -/
structure Traversed (initial returned : List α) (z : Cursored α) : Prop where
  distinct : z.all.Nodup
  passed : returned.filter (fun e => e ∈ initial ∧ e ∈ z.all) = z.passed.filter (· ∈ initial)
  order : z.all.filter (· ∈ initial) = initial.filter (· ∈ z.all)

section
variable {initial returned : List α} {z : Cursored α}

theorem traversed_reset (distinct : z.all.Nodup) : Traversed z.all [] z.reset :=
  ⟨distinct,rfl,rfl⟩

theorem traversed_add (traversed : Traversed initial returned z) (x : α) (new : x ∉ z.all) (later : x ∉ initial) :
    Traversed initial returned (z.add x) := by
  obtain ⟨distinct,passed,order⟩ := traversed
  have member (e : α) (inside : e ∈ initial) : e ∈ (z.add x).all ↔ e ∈ z.all := by
    have other : e ≠ x := fun same => later (same ▸ inside)
    simp [other]
  refine ⟨?_,?_,?_⟩
  · rw [all_add]
    exact List.nodup_append.mpr ⟨distinct,List.nodup_singleton x,fun a inside b only same =>
      new (List.mem_singleton.mp only ▸ same ▸ inside)⟩
  · have kept : (z.add x).passed.filter (· ∈ initial) = z.passed.filter (· ∈ initial) := by
      unfold add
      split_ifs
      · simp [later]
      · rfl
    rw [kept,← passed]
    exact List.filter_congr fun e _ => decide_eq_decide.mpr (and_congr_right fun inside => member e inside)
  · rw [all_add,List.filter_append,order]
    have none : [x].filter (· ∈ initial) = [] := by simp [later]
    rw [none,List.append_nil,← all_add]
    exact List.filter_congr fun e inside => decide_eq_decide.mpr (member e inside).symm

theorem traversed_delete (traversed : Traversed initial returned z) (p : α → Bool) :
    Traversed initial returned (z.delete p) := by
  obtain ⟨distinct,passed,order⟩ := traversed
  cases found : z.all.find? p with
  | none =>
    rw [delete_missing z p found]
    exact ⟨distinct,passed,order⟩
  | some d =>
    have whole : (z.delete p).all = z.all.filter (· ≠ d) := (all_delete z p).trans (eraseP_found z.all distinct p d found)
    refine ⟨whole ▸ distinct.filter _,?_,?_⟩
    · rw [delete_found z distinct p d found,List.filter_comm,← passed,List.filter_filter]
      refine List.filter_congr fun e _ => ?_
      rw [← delete_found z distinct p d found,whole]
      by_cases same : e = d <;> simp [same]
    · rw [whole,List.filter_comm,order,List.filter_filter]
      refine List.filter_congr fun e _ => ?_
      by_cases same : e = d <;> simp [same]

theorem traversed_next (traversed : Traversed initial returned z) (e : α) (rest : List α) (head : z.ahead = e::rest) :
    Traversed initial (returned ++ [e]) z.next := by
  obtain ⟨distinct,passed,order⟩ := traversed
  refine ⟨by rwa [all_next],?_,by rwa [all_next]⟩
  have there : e ∈ z.all := List.mem_append_right _ (head ▸ List.mem_cons_self)
  have moved : z.next.passed = z.passed ++ [e] := by simp [next,head]
  rw [all_next,moved,List.filter_append,List.filter_append,passed]
  by_cases inside : e ∈ initial <;> simp [inside,there]

/-- At the end all that have been there throughout have been returned, once and in order. -/
theorem traversed_end (traversed : Traversed initial returned z) (atEnd : z.ahead = []) :
    returned.filter (fun e => e ∈ initial ∧ e ∈ z.all) = initial.filter (· ∈ z.all) := by
  have whole : z.all = z.passed := by simp [all,atEnd]
  rw [traversed.passed,← traversed.order,whole]

end

end

end Cursored
