import Jbdtool.Base.Traced

/-! Arrays of unbounded extent with a log of the indices touched. A bound on an
array is a statement about the log, so code that leaves its array still runs. -/

abbrev Mem (α : Type) := Nat → α

inductive Access where
  | load (index : Nat)
  | store (index : Nat)
deriving DecidableEq, Repr

def Access.index : Access → Nat
  | .load i => i
  | .store i => i

@[simp] theorem Access.load_index (i : Nat) : (Access.load i).index = i := rfl
@[simp] theorem Access.store_index (i : Nat) : (Access.store i).index = i := rfl

namespace Mem
variable {α β : Type}

/-- The cells from `base` hold `xs`; all others keep their content. -/
def overlay (mem : Mem α) (base : Nat) (xs : List α) : Mem α :=
  fun i => if base ≤ i ∧ i < base + xs.length then xs.getD (i - base) (mem i) else mem i

def slice (mem : Mem α) (base len : Nat) : List α := (List.range len).map (fun i => mem (base + i))

theorem overlay_inside (mem : Mem α) (base : Nat) (xs : List α) (i : Nat) (bound : i < xs.length) :
    overlay mem base xs (base + i) = xs[i] := by
  simp [overlay,bound]

theorem overlay_outside (mem : Mem α) (base : Nat) (xs : List α) (i : Nat)
    (outside : i < base ∨ base + xs.length ≤ i) : overlay mem base xs i = mem i := by
  have absent : ¬ (base ≤ i ∧ i < base + xs.length) := by omega
  simp [overlay,absent]

@[simp] theorem slice_length (mem : Mem α) (base len : Nat) : (slice mem base len).length = len := by
  simp [slice]

@[simp] theorem slice_get (mem : Mem α) (base len i : Nat) (bound : i < (slice mem base len).length) :
    (slice mem base len)[i] = mem (base + i) := by
  simp [slice]

theorem slice_overlay (mem : Mem α) (base : Nat) (xs : List α) :
    slice (overlay mem base xs) base xs.length = xs := by
  apply List.ext_getElem
  · simp
  · intro i left right
    rw [slice_get,overlay_inside mem base xs i right]

theorem slice_succ (mem : Mem α) (base len : Nat) :
    slice mem base (len + 1) = mem base :: slice mem (base + 1) len := by
  simp [slice,List.range_succ_eq_map,Function.comp_def,Nat.add_assoc,Nat.add_comm 1]

theorem slice_congr (m n : Mem α) (base len : Nat) (same : ∀ i < len, m (base + i) = n (base + i)) :
    slice m base len = slice n base len := by
  apply List.map_congr_left
  intro i member
  exact same i (List.mem_range.mp member)

theorem slice_append (mem : Mem α) (base first second : Nat) :
    slice mem base (first + second) = slice mem base first ++ slice mem (base + first) second := by
  simp [slice,List.range_add,Function.comp_def,Nat.add_assoc]

theorem overlay_append (mem : Mem α) (base : Nat) (xs ys : List α) :
    overlay (overlay mem base xs) (base + xs.length) ys = overlay mem base (xs ++ ys) := by
  funext i
  rcases Nat.lt_or_ge i base with below | above
  · rw [overlay_outside _ _ _ _ (.inl (by omega)),overlay_outside _ _ _ _ (.inl below),
      overlay_outside _ _ _ _ (.inl below)]
  · obtain ⟨k,rfl⟩ := Nat.exists_eq_add_of_le above
    rcases Nat.lt_or_ge k xs.length with inFirst | past
    · rw [overlay_outside _ _ _ _ (.inl (by omega)),overlay_inside _ _ _ _ inFirst,
        overlay_inside _ _ _ _ (by simp; omega),List.getElem_append_left inFirst]
    · obtain ⟨j,rfl⟩ := Nat.exists_eq_add_of_le past
      rcases Nat.lt_or_ge j ys.length with inSecond | outside
      · rw [← Nat.add_assoc,overlay_inside _ _ _ _ inSecond,Nat.add_assoc,
          overlay_inside _ _ _ _ (by simp; omega),List.getElem_append_right (by omega)]
        simp
      · rw [overlay_outside _ _ _ _ (.inr (by omega)),overlay_outside _ _ _ _ (.inr (by omega)),
          overlay_outside _ _ _ _ (.inr (by simp; omega))]

theorem overlay_next (mem : Mem α) (base next : Nat) (xs ys : List α) (adjacent : next = base + xs.length) :
    overlay (overlay mem base xs) next ys = overlay mem base (xs ++ ys) := by
  rw [adjacent,overlay_append]

theorem slice_overlay_append (mem : Mem α) (base : Nat) (xs ys : List α) :
    slice (overlay mem base (xs ++ ys)) (base + xs.length) ys.length = ys := by
  rw [← overlay_append,slice_overlay]

def load (i : Nat) : Traced (Mem α) Access α := fun mem => ⟨mem i,mem,[.load i]⟩

def store (i : Nat) (v : α) : Traced (Mem α) Access Unit :=
  fun mem => ⟨(),overlay mem i [v],[.store i]⟩

/-- `memcpy` of a list, or `memset` of a repeated value. -/
def storeBlock (base : Nat) (xs : List α) : Traced (Mem α) Access Unit :=
  fun mem => ⟨(),overlay mem base xs,(List.range xs.length).map (fun i => .store (base + i))⟩

section
variable (i base : Nat) (v : α) (xs : List α) (mem : Mem α)

@[simp] theorem load_bind (k : α → Traced (Mem α) Access β) :
    (load i >>= k) mem = (k (mem i) mem).after [.load i] := rfl

@[simp] theorem store_bind (k : Unit → Traced (Mem α) Access β) :
    (store i v >>= k) mem = (k () (overlay mem i [v])).after [.store i] := rfl

@[simp] theorem storeBlock_bind (k : Unit → Traced (Mem α) Access β) :
    (storeBlock base xs >>= k) mem = (k () (overlay mem base xs)).after
      ((List.range xs.length).map (fun i => .store (base + i))) := rfl
end

/-- No index at or past `size` is touched. -/
def Below (size : Nat) (events : List Access) : Prop := ∀ access ∈ events, access.index < size

@[simp] theorem below_nil (size : Nat) : Below size [] := by simp [Below]

@[simp] theorem below_cons (size : Nat) (access : Access) (events : List Access) :
    Below size (access::events) ↔ access.index < size ∧ Below size events := by
  simp [Below]

@[simp] theorem below_append (size : Nat) (first second : List Access) :
    Below size (first ++ second) ↔ Below size first ∧ Below size second := by
  simp only [Below,List.forall_mem_append]

theorem below_loads (base count size : Nat) (fits : base + count ≤ size) :
    Below size ((List.range count).map (fun i => .load (base + i))) := by
  intro access member
  obtain ⟨i,inside,rfl⟩ := List.mem_map.mp member
  have := List.mem_range.mp inside
  simp only [Access.load_index]
  omega

end Mem
