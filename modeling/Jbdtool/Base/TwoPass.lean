import Jbdtool.Base.Buffer

/-! Text printed by a program that is run twice: without a place it only counts, and at a
place it writes. What it counts is what it writes, one byte less than it touches, as long
as the int that counts does not overflow. -/
namespace TwoPass
open CString Traced Mem

/-- An int that gets `n`, which is undefined where it is too large for one. -/
def int (n : Nat) : Option Nat := if n < 2^31 then some n else none

/-- From the place where to print, if there is one; the result is the number of bytes. -/
abbrev Printer : Type := Option Nat → Traced (Mem UInt8) Access (Option Nat)

def nothing : Printer := fun _ => pure (some 0)

def andThen (first next : Printer) : Printer := fun buf => do
  match ← first buf with
  | none => return none
  | some written => do
    let rest ← next (buf.map (· + written))
    return rest.bind (fun rest => int (written + rest))

def all (ps : List Printer) : Printer := ps.foldr andThen nothing

/-- sprintf at the place, strlen without one. -/
def text (s : Bytes) : Printer
  | none => pure (int s.length)
  | some p => do
    Mem.storeBlock p (s ++ [0])
    return int s.length

/-- One byte, and no terminator behind it. -/
def byte (c : UInt8) : Printer
  | none => pure (some 1)
  | some p => do
    Mem.store p c
    return some 1

/-- sprintf at the place, and without one into an array of its own. -/
def scratch (s : Bytes) : Printer := fun buf => do
  Mem.storeBlock (buf.getD 0) (s ++ [0])
  return int s.length

def closing (ended : Bool) : Bytes := if ended then [0] else []

/-- Counting touches an array of `size` bytes at most, and writing the bytes of the text, with
a terminator behind them if it ends with one. -/
structure Prints (size : Nat) (m : Printer) (s : Bytes) (ended : Bool) : Prop where
  counted : ∀ array, (m none array).value = int s.length ∧ Below size (m none array).events
  written : s.length < 2^31 → ∀ p buffer, (m (some p) buffer).value = some s.length ∧
    (m (some p) buffer).state = overlay buffer p (s ++ closing ended) ∧
    ∀ access ∈ (m (some p) buffer).events, ∃ i < (s ++ closing ended).length, access = .store (p + i)

section
variable {size : Nat} {m k : Printer} {s t : Bytes} {e e' : Bool}

theorem int_small {n : Nat} (small : n < 2^31) : int n = some n := if_pos small

private theorem int_large {n : Nat} (large : ¬ n < 2^31) : int n = none := if_neg large

private theorem int_bind (m n : Nat) : (int n).bind (fun n => int (m + n)) = int (m + n) := by
  by_cases small : n < 2^31
  · rw [int_small small,Option.bind_some]
  · rw [int_large small,int_large (by omega),Option.bind_none]

private theorem overlay_nil (buffer : Mem UInt8) (p : Nat) : overlay buffer p [] = buffer := by
  funext i
  rcases Nat.lt_or_ge i p with below | above
  · exact overlay_outside _ _ _ _ (.inl below)
  · exact overlay_outside _ _ _ _ (.inr above)

/-- What stood behind the text is covered by what is written there. -/
private theorem overlay_covered (buffer : Mem UInt8) (p : Nat) (s old t : Bytes) (covered : old.length ≤ t.length) :
    overlay (overlay buffer p (s ++ old)) (p + s.length) t = overlay buffer p (s ++ t) := by
  have same : overlay (overlay (overlay buffer p s) (p + s.length) old) (p + s.length) t =
      overlay (overlay buffer p s) (p + s.length) t := by
    funext i
    by_cases inside : p + s.length ≤ i ∧ i < p + s.length + t.length
    · obtain ⟨j,rfl⟩ := Nat.exists_eq_add_of_le inside.1
      have bound : j < t.length := by omega
      rw [overlay_inside _ _ _ j bound,overlay_inside _ _ _ j bound]
    · have outside : i < p + s.length ∨ p + s.length + t.length ≤ i := by omega
      rw [overlay_outside _ _ _ _ outside,overlay_outside _ _ _ _ outside,overlay_outside _ _ _ _ (by omega)]
  rw [← overlay_append buffer p s old,same,overlay_append]

theorem prints_nothing (size : Nat) : Prints size nothing [] false := by
  refine ⟨fun array => ⟨rfl,below_nil size⟩,fun _ p buffer => ⟨rfl,(overlay_nil buffer p).symm,?_⟩⟩
  intro access member
  cases member

private theorem stored_span (p : Nat) (xs : Bytes) :
    ∀ access ∈ (List.range xs.length).map (fun i => Access.store (p + i)), ∃ i < xs.length, access = .store (p + i) := by
  intro access member
  obtain ⟨i,inside,rfl⟩ := List.mem_map.mp member
  exact ⟨i,List.mem_range.mp inside,rfl⟩

private theorem storeBlock_prints (p : Nat) (s : Bytes) (buffer : Mem UInt8) :
    ((Mem.storeBlock p (s ++ [0]) >>= fun _ => pure (int s.length) : Traced (Mem UInt8) Access (Option Nat)) buffer) =
      ⟨int s.length,overlay buffer p (s ++ [0]),(List.range (s ++ [0]).length).map (fun i => .store (p + i))⟩ := by
  rw [storeBlock_bind]
  simp [Outcome.after]

theorem prints_text (size : Nat) (s : Bytes) : Prints size (text s) s true := by
  refine ⟨fun array => ⟨rfl,below_nil size⟩,fun small p buffer => ?_⟩
  rw [text,storeBlock_prints]
  exact ⟨int_small small,rfl,stored_span p (s ++ [0])⟩

theorem prints_byte (size : Nat) (c : UInt8) : Prints size (byte c) [c] false := by
  refine ⟨fun array => ⟨rfl,below_nil size⟩,fun _ p buffer => ⟨rfl,rfl,?_⟩⟩
  intro access member
  obtain rfl := List.mem_singleton.mp member
  exact ⟨0,Nat.zero_lt_one,rfl⟩

theorem prints_scratch (s : Bytes) (fits : s.length < size) : Prints size (scratch s) s true := by
  refine ⟨fun array => ?_,fun small p buffer => ?_⟩
  · rw [scratch,storeBlock_prints]
    refine ⟨rfl,fun access member => ?_⟩
    obtain ⟨i,inside,rfl⟩ := stored_span _ (s ++ [0]) access member
    rw [List.length_append,List.length_singleton] at inside
    simp only [Option.getD_none,Access.store_index]
    omega
  · rw [scratch,storeBlock_prints]
    exact ⟨int_small small,rfl,stored_span p (s ++ [0])⟩

private theorem overlay_closing (buffer : Mem UInt8) (p : Nat) (s t : Bytes) (e e' : Bool) :
    overlay (overlay buffer p (s ++ closing e)) (p + s.length) (t ++ closing e') =
      overlay buffer p (s ++ t ++ closing (e' || (e && t.isEmpty))) := by
  by_cases none : t ++ closing e' = []
  · obtain ⟨rfl,open'⟩ := List.append_eq_nil_iff.mp none
    obtain rfl : e' = false := by
      cases e' with
      | true => cases open'
      | false => rfl
    rw [none,overlay_nil]
    simp
  · have covered : (closing e).length ≤ (t ++ closing e').length := by
      have := List.length_pos_of_ne_nil none
      have : (closing e).length ≤ 1 := by cases e <;> simp [closing]
      omega
    have rest : t ++ closing e' = t ++ closing (e' || (e && t.isEmpty)) := by
      cases e' with
      | true => rfl
      | false =>
        cases t with
        | nil => exact absurd rfl none
        | cons c t => simp
    rw [overlay_covered _ _ _ _ _ covered,rest,List.append_assoc]

private theorem andThen_run (m k : Printer) (buf : Option Nat) (array : Mem UInt8) (written : Nat)
    (count : (m buf array).value = some written) : andThen m k buf array =
      ⟨(k (buf.map (· + written)) (m buf array).state).value.bind (fun rest => int (written + rest)),
        (k (buf.map (· + written)) (m buf array).state).state,
        (m buf array).events ++ (k (buf.map (· + written)) (m buf array).state).events⟩ := by
  unfold andThen
  rw [bind_run,count]
  simp only
  rw [bind_run,pure_run]
  simp only [Outcome.after,List.append_nil]

private theorem andThen_overflown (m k : Printer) (buf : Option Nat) (array : Mem UInt8)
    (overflown : (m buf array).value = none) :
    andThen m k buf array = ⟨none,(m buf array).state,(m buf array).events⟩ := by
  unfold andThen
  rw [bind_run,overflown]
  simp only [pure_run,Outcome.after,List.append_nil]

theorem prints_andThen (first : Prints size m s e) (next : Prints size k t e') :
    Prints size (andThen m k) (s ++ t) (e' || (e && t.isEmpty)) := by
  refine ⟨fun array => ?_,fun fits p buffer => ?_⟩
  · obtain ⟨count,small⟩ := first.counted array
    rw [List.length_append]
    by_cases fits : s.length < 2^31
    · obtain ⟨count',small'⟩ := next.counted (m none array).state
      rw [andThen_run m k none array s.length (count.trans (int_small fits))]
      refine ⟨?_,(below_append size _ _).mpr ⟨small,small'⟩⟩
      exact (congrArg (Option.bind · _) count').trans (int_bind s.length t.length)
    · rw [andThen_overflown m k none array (count.trans (int_large fits)),int_large (by omega)]
      exact ⟨rfl,small⟩
  · rw [List.length_append] at fits ⊢
    obtain ⟨count,left,stored⟩ := first.written (by omega) p buffer
    obtain ⟨count',left',stored'⟩ := next.written (by omega) (p + s.length) (m (some p) buffer).state
    rw [andThen_run m k (some p) buffer s.length count]
    refine ⟨?_,?_,?_⟩
    · exact (congrArg (Option.bind · _) count').trans (int_small fits)
    · exact left'.trans (by rw [left,overlay_closing])
    · intro access member
      have longer : (closing e).length ≤ (t ++ closing (e' || (e && t.isEmpty))).length := by
        cases e <;> cases e' <;> cases t <;> simp [closing]
      have later : (closing e').length ≤ (closing (e' || (e && t.isEmpty))).length := by
        cases e' <;> simp [closing]
      simp only [List.length_append] at stored stored' longer ⊢
      rcases List.mem_append.mp member with front | back
      · obtain ⟨i,inside,rfl⟩ := stored access front
        exact ⟨i,by omega,rfl⟩
      · obtain ⟨i,inside,rfl⟩ := stored' access back
        exact ⟨s.length + i,by omega,by rw [Nat.add_assoc]⟩

/-- The texts of a sequence of printers, one behind the other. -/
theorem prints_all {α : Type} (xs : List α) (piece : α → Printer) (printed : α → Bytes)
    (each : ∀ x ∈ xs, ∃ e, Prints size (piece x) (printed x) e) :
    ∃ e, Prints size (all (xs.map piece)) (xs.flatMap printed) e := by
  induction xs with
  | nil => exact ⟨false,prints_nothing size⟩
  | cons x xs ih =>
    obtain ⟨first,others⟩ := List.forall_mem_cons.mp each
    obtain ⟨e,here⟩ := first
    obtain ⟨e',later⟩ := ih others
    exact ⟨_,prints_andThen here later⟩

theorem prints_if (c : Bool) (shown : Prints size m s e) :
    ∃ e', Prints size (if c then m else nothing) (if c then s else []) e' := by
  cases c with
  | true => exact ⟨e,shown⟩
  | false => exact ⟨false,prints_nothing size⟩

end

end TwoPass
