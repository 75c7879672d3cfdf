import Jbdtool.Base.CString
import Jbdtool.Base.Memory
import Mathlib.Data.List.TakeWhile

/-! Text put together in a buffer with sprintf and strcat. The buffer has no end here: a
text fits if nothing at or past the size is touched. -/
namespace CString
open Traced Mem

/-- `p += sprintf(p,..)` of this text: the bytes, and a terminator that the next one overwrites. -/
def sprintf (p : Nat) (text : Bytes) : Traced (Mem UInt8) Access Nat := do
  Mem.storeBlock p (text ++ [0])
  return p + text.length

/-- What a buffer of this size holds up to its first NUL. -/
def stringIn (size : Nat) (buffer : Mem UInt8) : Bytes := (Mem.slice buffer 0 size).takeWhile (· ≠ 0)

/-- The string read up to its terminator; without one the reader leaves the buffer. -/
def readString (size : Nat) : Traced (Mem UInt8) Access Bytes := fun buffer =>
  ⟨stringIn size buffer,buffer,(List.range ((stringIn size buffer).length + 1)).map (fun i => .load (0 + i))⟩

def strcat (size : Nat) (text : Bytes) : Traced (Mem UInt8) Access Unit := do
  let old ← readString size
  let _ ← sprintf old.length text
  return ()

theorem below_span (access : Nat → Access) (index : ∀ i, (access i).index = i) (base count size : Nat) :
    Below size ((List.range (count + 1)).map (fun i => access (base + i))) ↔ base + count < size := by
  constructor
  · intro below
    have last := below (access (base + count)) (List.mem_map.mpr ⟨count,by simp,rfl⟩)
    rwa [index] at last
  · intro inside e member
    obtain ⟨i,few,rfl⟩ := List.mem_map.mp member
    have := List.mem_range.mp few
    rw [index]
    omega

theorem below_read (size : Nat) (buffer : Mem UInt8) :
    Below size (readString size buffer).events ↔ (stringIn size buffer).length < size := by
  have span := below_span Access.load Access.load_index 0 (stringIn size buffer).length size
  rwa [Nat.zero_add] at span

theorem stringIn_written (size : Nat) (buffer : Mem UInt8) (text : Bytes) (clean : 0 ∉ text) (short : text.length < size) :
    stringIn size (overlay buffer 0 (text ++ [0])) = text := by
  have split : size = (text ++ [0]).length + (size - (text.length + 1)) := by
    rw [List.length_append,List.length_singleton]
    omega
  have front : ∀ c ∈ text, decide (c ≠ 0) = true := by
    intro c member
    rw [decide_eq_true_eq]
    rintro rfl
    exact clean member
  rw [stringIn,split,slice_append,slice_overlay,List.append_assoc,List.takeWhile_append_of_pos front,List.singleton_append,
    List.takeWhile_cons_of_neg (by decide),List.append_nil]

structure Writes (size p : Nat) (text : Bytes) (m : Traced (Mem UInt8) Access Nat) (buffer : Mem UInt8) : Prop where
  behind : (m buffer).value = p + text.length
  left : (m buffer).state = overlay buffer p (text ++ [0])
  below : Below size (m buffer).events ↔ p + text.length < size

section
variable {size p : Nat} {text more : Bytes} {buffer : Mem UInt8}

theorem writes_sprintf (size p : Nat) (text : Bytes) (buffer : Mem UInt8) : Writes size p text (sprintf p text) buffer := by
  refine ⟨rfl,rfl,?_⟩
  have span := below_span Access.store Access.store_index p text.length size
  have events : (sprintf p text buffer).events = (List.range (text.length + 1)).map (fun i => .store (p + i)) := by
    simp [sprintf]
  rwa [events]

private theorem overlay_terminated (buffer : Mem UInt8) (p : Nat) (text more : Bytes) :
    overlay (overlay buffer p (text ++ [0])) (p + text.length) (more ++ [0]) = overlay buffer p (text ++ more ++ [0]) := by
  have covered : overlay (overlay (overlay buffer p text) (p + text.length) [0]) (p + text.length) (more ++ [0]) =
      overlay (overlay buffer p text) (p + text.length) (more ++ [0]) := by
    funext i
    by_cases inside : p + text.length ≤ i ∧ i < p + text.length + (more ++ [0]).length
    · obtain ⟨k,rfl⟩ := Nat.exists_eq_add_of_le inside.1
      have bound : k < (more ++ [0]).length := by omega
      rw [overlay_inside _ _ _ k bound,overlay_inside _ _ _ k bound]
    · rw [List.length_append,List.length_singleton] at inside
      have outside : i < p + text.length ∨ p + text.length + (more ++ [0]).length ≤ i := by
        rw [List.length_append,List.length_singleton]
        omega
      rw [overlay_outside _ _ _ _ outside,overlay_outside _ _ _ _ outside,
        overlay_outside _ _ _ _ (by rw [List.length_singleton]; omega)]
  rw [← overlay_append buffer p text [0],covered,overlay_append,List.append_assoc]

theorem writes_bind {m : Traced (Mem UInt8) Access Nat} {k : Nat → Traced (Mem UInt8) Access Nat}
    (first : Writes size p text m buffer)
    (next : Writes size (p + text.length) more (k (p + text.length)) (overlay buffer p (text ++ [0]))) :
    Writes size p (text ++ more) (m >>= k) buffer := by
  have run : (m >>= k) buffer =
      (k (p + text.length) (overlay buffer p (text ++ [0]))).after (m buffer).events := by
    rw [bind_run,first.behind,first.left]
  refine ⟨?_,?_,?_⟩
  · rw [run,Outcome.after_value,next.behind,List.length_append]
    omega
  · rw [run,Outcome.after_state,next.left,overlay_terminated]
  · rw [run,Outcome.after_events,below_append,first.below,next.below,List.length_append]
    omega

/-- A program whose result is this text, which it has put at the front of the buffer, if the
text fits. -/
structure Leaves (size : Nat) (text : Bytes) (m : Traced (Mem UInt8) Access Bytes) (buffer : Mem UInt8) : Prop where
  below : Below size (m buffer).events ↔ text.length < size
  returned : text.length < size → (m buffer).value = text
  left : text.length < size → (m buffer).state = overlay buffer 0 (text ++ [0])

/-- Reading what was written touches nothing that writing it did not. -/
theorem below_written {m : Traced (Mem UInt8) Access Nat} (written : Writes size 0 text m buffer) :
    Below size ((m >>= fun _ => readString size) buffer).events ↔ text.length < size := by
  have run : (m >>= fun _ => readString size) buffer =
      (readString size (overlay buffer 0 (text ++ [0]))).after (m buffer).events := by
    rw [bind_run,written.left]
  rw [run,Outcome.after_events,below_append,written.below,below_read,Nat.zero_add,and_iff_left_iff_imp]
  intro short
  have ended : overlay buffer 0 (text ++ [0]) (0 + text.length) = 0 := by
    rw [overlay_inside _ _ _ _ (by simp)]
    simp
  have member : 0 ∈ slice (overlay buffer 0 (text ++ [0])) 0 size :=
    List.mem_map.mpr ⟨text.length,List.mem_range.mpr short,ended⟩
  have less : (stringIn size (overlay buffer 0 (text ++ [0]))).length < (slice (overlay buffer 0 (text ++ [0])) 0 size).length := by
    by_contra same
    have whole := (List.takeWhile_prefix fun c : UInt8 => decide (c ≠ 0)).eq_of_length_le (Nat.not_lt.mp same)
    exact of_decide_eq_true (List.takeWhile_eq_self_iff.mp whole 0 member) rfl
  rwa [slice_length] at less

theorem leaves_read {m : Traced (Mem UInt8) Access Nat} (written : Writes size 0 text m buffer) (clean : 0 ∉ text) :
    Leaves size text (m >>= fun _ => readString size) buffer := by
  have run : (m >>= fun _ => readString size) buffer =
      (readString size (overlay buffer 0 (text ++ [0]))).after (m buffer).events := by
    rw [bind_run,written.left]
  refine ⟨below_written written,fun short => ?_,fun short => ?_⟩
  · rw [run]
    exact stringIn_written size buffer text clean short
  · rw [run]
    rfl

theorem leaves_strcat {m : Traced (Mem UInt8) Access Nat} (written : Writes size 0 text m buffer)
    (clean : 0 ∉ text ++ more) : Leaves size (text ++ more)
      (m >>= fun _ => strcat size more >>= fun _ => readString size) buffer := by
  have front : 0 ∉ text := fun member => clean (List.mem_append_left _ member)
  have run : (m >>= fun _ => strcat size more >>= fun _ => readString size) buffer =
      ((strcat size more >>= fun _ => readString size) (overlay buffer 0 (text ++ [0]))).after (m buffer).events := by
    rw [bind_run,written.left]
  by_cases short : text.length < size
  · have found := stringIn_written size buffer text front short
    have behind := writes_sprintf size (0 + text.length) more (overlay buffer 0 (text ++ [0]))
    have both : Writes size 0 (text ++ more) (m >>= fun p => sprintf p more) buffer := writes_bind written behind
    have read := leaves_read both clean
    have direct : (m >>= (fun p => sprintf p more) >>= fun _ => readString size) buffer =
        ((sprintf text.length more >>= fun _ => readString size) (overlay buffer 0 (text ++ [0]))).after (m buffer).events := by
      rw [bind_assoc,bind_run,written.left,written.behind,Nat.zero_add]
    have appended : (strcat size more >>= fun _ => readString size) (overlay buffer 0 (text ++ [0])) =
        ((sprintf text.length more >>= fun _ => readString size) (overlay buffer 0 (text ++ [0]))).after
          (readString size (overlay buffer 0 (text ++ [0]))).events := by
      unfold strcat
      simp only [bind_assoc,pure_bind]
      rw [bind_run]
      exact congrArg (fun n => ((sprintf n more >>= fun _ => readString size) _).after _) (congrArg List.length found)
    have loads : Below size (readString size (overlay buffer 0 (text ++ [0]))).events := by
      rw [below_read,found]
      exact short
    rw [appended,Outcome.after_after] at run
    refine ⟨?_,fun inside => ?_,fun inside => ?_⟩
    · have below := read.below
      rw [direct,Outcome.after_events,below_append] at below
      rw [run,Outcome.after_events,below_append,below_append,← below]
      tauto
    · rw [run]
      exact (congrArg Outcome.value direct).symm.trans (read.returned inside)
    · rw [run]
      exact (congrArg Outcome.state direct).symm.trans (read.left inside)
  · have outside : ¬ (text ++ more).length < size := by
      rw [List.length_append]
      omega
    refine ⟨?_,fun inside => absurd inside outside,fun inside => absurd inside outside⟩
    rw [run,Outcome.after_events,below_append,written.below,Nat.zero_add]
    tauto
end

end CString
