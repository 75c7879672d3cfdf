import Jbdtool.Base.Buffer

/-! Strings at places of a memory: what reading them gives, what appending to them leaves,
and strings copied to places where they may reach into each other. -/
namespace CString
open Traced Mem

/-- From `p` on the memory holds this string and its terminator. -/
structure StringAt (mem : Mem UInt8) (p : Nat) (s : Bytes) : Prop where
  clean : 0 ∉ s
  held : slice mem p (s.length + 1) = s ++ [0]

section
variable {mem mem' : Mem UInt8} {p : Nat} {s t : Bytes}

private theorem takeWhile_terminated (clean : 0 ∉ s) (rest : Bytes) : (s ++ 0::rest).takeWhile (· ≠ 0) = s := by
  have front : ∀ c ∈ s, decide (c ≠ 0) = true := by
    intro c member
    rw [decide_eq_true_eq]
    rintro rfl
    exact clean member
  rw [List.takeWhile_append_of_pos front,List.takeWhile_cons_of_neg (by decide),List.append_nil]

/-- Of two terminated strings that agree as far as both go, neither ends first. -/
private theorem terminated_unique (clean : 0 ∉ s) (clean' : 0 ∉ t) {all : Bytes} (first : s ++ [0] <+: all)
    (second : t ++ [0] <+: all) : s = t := by
  obtain ⟨rest,rfl⟩ := first
  obtain ⟨rest',same⟩ := second
  have cut := congrArg (List.takeWhile (fun c : UInt8 => c ≠ 0)) same
  rw [List.append_assoc,List.append_assoc,List.singleton_append,List.singleton_append,
    takeWhile_terminated clean' rest',takeWhile_terminated clean rest] at cut
  exact cut.symm

private theorem slice_part (mem : Mem UInt8) (p : Nat) {few many : Nat} (less : few ≤ many) :
    slice mem p few <+: slice mem p many := by
  obtain ⟨more,rfl⟩ := Nat.exists_eq_add_of_le less
  exact ⟨_,(slice_append mem p few more).symm⟩

private theorem stringAt_unique (first : StringAt mem p s) (second : StringAt mem p t) : s = t := by
  have longer := slice_part mem p (Nat.le_max_left (s.length + 1) (t.length + 1))
  have longer' := slice_part mem p (Nat.le_max_right (s.length + 1) (t.length + 1))
  rw [first.held] at longer
  rw [second.held] at longer'
  exact terminated_unique first.clean second.clean longer longer'

private theorem stringAt_congr (same : ∀ i ≤ s.length, mem' (p + i) = mem (p + i)) (known : StringAt mem p s) :
    StringAt mem' p s :=
  ⟨known.clean,(slice_congr mem' mem p _ fun i few => same i (Nat.le_of_lt_succ few)).trans known.held⟩

private theorem stringAt_overlay (mem : Mem UInt8) (p : Nat) (clean : 0 ∉ s) : StringAt (overlay mem p (s ++ [0])) p s := by
  have read := slice_overlay mem p (s ++ [0])
  rw [List.length_append,List.length_singleton] at read
  exact ⟨clean,read⟩

private theorem stringAt_drop (known : StringAt mem p s) {k : Nat} (inside : k ≤ s.length) :
    StringAt mem (p + k) (s.drop k) := by
  obtain ⟨clean,held⟩ := known
  refine ⟨fun member => clean (List.mem_of_mem_drop member),?_⟩
  have split : s.length + 1 = k + ((s.drop k).length + 1) := by
    rw [List.length_drop]
    omega
  rw [split,slice_append] at held
  have parts : s ++ [0] = s.take k ++ (s.drop k ++ [0]) := by
    rw [← List.append_assoc,List.take_append_drop]
  rw [parts] at held
  exact (List.append_inj held (by rw [slice_length,List.length_take,Nat.min_eq_left inside])).2

private theorem stringAt_append {front : Bytes} (held : slice mem p front.length = front) (clean : 0 ∉ front)
    (known : StringAt mem (p + front.length) t) : StringAt mem p (front ++ t) := by
  refine ⟨fun member => (List.mem_append.mp member).elim clean known.clean,?_⟩
  rw [List.length_append,Nat.add_assoc,slice_append,held,known.held,List.append_assoc]

private theorem stringAt_front (known : StringAt mem p s) {front : Bytes} (part : front <+: s) :
    slice mem p front.length = front := by
  obtain ⟨rest,rfl⟩ := part
  have held := known.held
  rw [List.length_append,Nat.add_assoc,slice_append,List.append_assoc] at held
  exact (List.append_inj held (slice_length _ _ _)).1

private theorem stringAt_end (known : StringAt mem p s) : mem (p + s.length) = 0 := by
  have last := stringAt_drop known le_rfl
  have held := last.held
  rw [List.drop_length,List.length_nil,List.nil_append,slice_succ] at held
  exact List.head_eq_of_cons_eq held

theorem stringAt_nil : StringAt mem p [] ↔ mem p = 0 := by
  constructor
  · exact stringAt_end
  · intro ended
    refine ⟨List.not_mem_nil,?_⟩
    rw [List.length_nil,slice_succ,ended]
    rfl

private theorem stringAt_same (first : StringAt mem p s) (second : StringAt mem' p s) (i : Nat) (inside : i ≤ s.length) :
    mem (p + i) = mem' (p + i) := by
  have same := first.held.trans second.held.symm
  have bound : i < (slice mem p (s.length + 1)).length := by
    rw [slice_length]
    omega
  have here := List.getElem_of_eq same bound
  rwa [slice_get,slice_get] at here

private theorem stringAt_get (known : StringAt mem p s) (i : Nat) (inside : i ≤ s.length) :
    (s ++ [0])[i]? = some (mem (p + i)) := by
  rw [← known.held]
  have bound : i < (slice mem p (s.length + 1)).length := by
    rw [slice_length]
    omega
  rw [List.getElem?_eq_getElem bound,slice_get]

/-- Bytes stored further on leave a string exactly where it has those bytes there itself. -/
theorem stringAt_overlay_iff (known : StringAt mem p s) (block : Bytes) (k : Nat) :
    StringAt (overlay mem (p + k) block) p s ↔ ((s ++ [0]).drop k).take block.length <+: block := by
  constructor
  · intro kept
    have part : (s ++ [0]).drop k <+: slice (overlay mem (p + k) block) (p + k) (max (s.length + 1 - k) block.length) := by
      by_cases short : s.length + 1 ≤ k
      · rw [List.drop_eq_nil_of_le (by simpa using short)]
        exact List.nil_prefix
      · have split : s.length + 1 = k + (s.length + 1 - k) := by omega
        have held := kept.held
        rw [split,slice_append] at held
        rw [← held,List.drop_left' (slice_length _ _ _)]
        exact slice_part _ _ (Nat.le_max_left _ _)
    have stored : block <+: slice (overlay mem (p + k) block) (p + k) (max (s.length + 1 - k) block.length) := by
      have read := slice_part (overlay mem (p + k) block) (p + k) (Nat.le_max_right (s.length + 1 - k) block.length)
      rwa [slice_overlay] at read
    refine List.prefix_of_prefix_length_le ((List.take_prefix _ _).trans part) stored ?_
    exact List.length_take_le _ _
  · intro part
    refine stringAt_congr (fun i inside => ?_) known
    by_cases covered : k ≤ i ∧ i < k + block.length
    · obtain ⟨j,rfl⟩ := Nat.exists_eq_add_of_le covered.1
      have bound : j < block.length := by omega
      have here := stringAt_get known (k + j) inside
      have same : (((s ++ [0]).drop k).take block.length)[j]? = some (mem (p + (k + j))) := by
        rw [List.getElem?_take,if_pos bound,List.getElem?_drop,here]
      have stored : block[j]? = some (mem (p + (k + j))) := by
        obtain ⟨rest,whole⟩ := part
        rw [← whole,List.getElem?_append_left (List.getElem?_eq_some_iff.mp same).1,same]
      rw [List.getElem?_eq_getElem bound,← Nat.add_assoc] at stored
      rw [← Nat.add_assoc,overlay_inside _ _ _ j bound]
      exact Option.some.inj stored
    · exact overlay_outside _ _ _ _ (by omega)

/-- What there is from `p` on up to the first NUL, or to the end of the buffer. -/
def stringFrom (size : Nat) (buffer : Mem UInt8) (p : Nat) : Bytes := (slice buffer p (size - p)).takeWhile (· ≠ 0)

theorem stringAt_read {size : Nat} {buffer : Mem UInt8} (inside : p + s.length < size) (known : StringAt buffer p s) :
    stringFrom size buffer p = s := by
  have split : size - p = s.length + 1 + (size - p - (s.length + 1)) := by omega
  rw [stringFrom,split,slice_append,known.held,List.append_assoc,List.singleton_append]
  exact takeWhile_terminated known.clean _

theorem stringAt_stringFrom (size : Nat) (buffer : Mem UInt8) (p : Nat) (inside : p + (stringFrom size buffer p).length < size) :
    StringAt buffer p (stringFrom size buffer p) := by
  have clean : 0 ∉ stringFrom size buffer p := by
    intro member
    have front := List.mem_takeWhile_imp member
    simp at front
  refine ⟨clean,?_⟩
  have parts : slice buffer p (size - p) = stringFrom size buffer p ++ (slice buffer p (size - p)).dropWhile (· ≠ 0) := by
    rw [stringFrom,List.takeWhile_append_dropWhile]
  cases rest : (slice buffer p (size - p)).dropWhile (· ≠ 0) with
  | nil =>
    have whole := congrArg List.length parts
    rw [rest,List.append_nil,slice_length] at whole
    omega
  | cons c rest' =>
    have stop : c = 0 := by
      have head := List.head?_dropWhile_not (fun c : UInt8 => decide (c ≠ 0)) (slice buffer p (size - p))
      rw [rest] at head
      simpa using head
    have front : stringFrom size buffer p ++ [0] <+: slice buffer p (size - p) := by
      refine ⟨rest',?_⟩
      rw [parts,rest,stop,List.append_assoc,List.singleton_append]
    have part : slice buffer p ((stringFrom size buffer p).length + 1) <+: slice buffer p (size - p) :=
      slice_part buffer p (by omega)
    have same : (slice buffer p ((stringFrom size buffer p).length + 1)).length = (stringFrom size buffer p ++ [0]).length := by
      rw [slice_length,List.length_append,List.length_singleton]
    exact (List.prefix_of_prefix_length_le part front same.le).eq_of_length same

theorem stringIn_stringAt {size : Nat} {buffer : Mem UInt8} (short : s.length < size) (known : StringAt buffer 0 s) :
    stringIn size buffer = s :=
  stringAt_read (by omega) known

private theorem stringAt_stringIn (size : Nat) (buffer : Mem UInt8) (short : (stringIn size buffer).length < size) :
    StringAt buffer 0 (stringIn size buffer) :=
  stringAt_stringFrom size buffer 0 (by rwa [Nat.zero_add])

end

/-- In any buffer with room for both. -/
def Appends (size : Nat) (more : Bytes) (m : Traced (Mem UInt8) Access Unit) : Prop :=
  ∀ buffer, (stringIn size buffer ++ more).length < size →
    Below size (m buffer).events ∧ stringIn size (m buffer).state = stringIn size buffer ++ more

section
variable {size : Nat} {more : Bytes}

private theorem strcat_state (size : Nat) (more : Bytes) (buffer : Mem UInt8) :
    (strcat size more buffer).state = overlay buffer (stringIn size buffer).length (more ++ [0]) := rfl

private theorem strcat_events (size : Nat) (more : Bytes) (buffer : Mem UInt8) : (strcat size more buffer).events =
    (readString size buffer).events ++ (sprintf (stringIn size buffer).length more buffer).events := by
  have run : (strcat size more buffer).events = (readString size buffer).events ++
      ((sprintf (stringIn size buffer).length more buffer).events ++ []) := rfl
  rw [run,List.append_nil]

theorem below_strcat (size : Nat) (more : Bytes) (buffer : Mem UInt8) : Below size (strcat size more buffer).events ↔
    (stringIn size buffer ++ more).length < size := by
  rw [strcat_events,below_append,below_read,(writes_sprintf size _ more buffer).below,List.length_append]
  omega

private theorem appends_nothing : Appends size [] (pure ()) := fun _ _ => ⟨below_nil size,(List.append_nil _).symm⟩

theorem appends_strcat (clean : 0 ∉ more) : Appends size more (strcat size more) := by
  intro buffer room
  refine ⟨(below_strcat size more buffer).mpr room,?_⟩
  have short : (stringIn size buffer).length < size := by
    rw [List.length_append] at room
    omega
  have old := stringAt_stringIn size buffer short
  set text := stringIn size buffer with text_def
  have front : slice (overlay buffer text.length (more ++ [0])) 0 text.length = text := by
    refine (slice_congr _ buffer 0 text.length fun i few => ?_).trans (stringAt_front old (List.prefix_refl text))
    exact overlay_outside _ _ _ _ (.inl (by omega))
  have behind := stringAt_overlay buffer (0 + text.length) clean
  rw [strcat_state,← text_def]
  refine stringIn_stringAt room (stringAt_append front old.clean ?_)
  rwa [Nat.zero_add] at behind ⊢

theorem appends_bind {first second : Bytes} {m n : Traced (Mem UInt8) Access Unit} (earlier : Appends size first m)
    (later : Appends size second n) : Appends size (first ++ second) (m >>= fun _ => n) := by
  intro buffer room
  rw [← List.append_assoc] at room
  obtain ⟨below,text⟩ := earlier buffer (by rw [List.length_append] at room; omega)
  rw [← text] at room
  obtain ⟨below',text'⟩ := later _ room
  rw [bind_run,Outcome.after_events,Outcome.after_state,below_append,text',text,List.append_assoc]
  exact ⟨⟨below,below'⟩,rfl⟩

/-- `if (c) strcat(str,text);` -/
def strcatIf (c : Prop) [Decidable c] (size : Nat) (text : Bytes) : Traced (Mem UInt8) Access Unit :=
  if c then strcat size text else pure ()

theorem appends_strcatIf (c : Prop) [Decidable c] (clean : 0 ∉ more) :
    Appends size (if c then more else []) (strcatIf c size more) := by
  unfold strcatIf
  split_ifs
  · exact appends_strcat clean
  · exact appends_nothing

end

/-- A string ends in its field, or goes on as the string in the next one. -/
def Reaches (width : Nat) (s next : Bytes) : Prop := s.length < width ∨ s.drop width = next

def Row (width : Nat) (mem : Mem UInt8) : Nat → List Bytes → Prop
  | _, [] => True
  | p, s::rest => StringAt mem p s ∧ Row width mem (p + width) rest

def strcpys (width : Nat) : Nat → List (Option Bytes) → Mem UInt8 → Mem UInt8
  | _, [], mem => mem
  | p, none::rest, mem => strcpys width (p + width) rest mem
  | p, some s::rest, mem => strcpys width (p + width) rest (overlay mem p (s ++ [0]))

section
variable {width p : Nat} {mem final : Mem UInt8} {s t : Bytes} {texts : List Bytes}

private theorem row_chain (row : Row width mem p texts) : texts.IsChain (Reaches width) := by
  induction texts generalizing p with
  | nil => exact .nil
  | cons s rest ih =>
    obtain ⟨here,row⟩ := row
    have chain := ih row
    cases rest with
    | nil => exact .singleton s
    | cons t rest =>
      refine .cons_cons ?_ chain
      by_cases short : s.length < width
      · exact .inl short
      · exact .inr (stringAt_unique (stringAt_drop here (Nat.not_lt.mp short)) row.1)

private theorem row_frame (same : ∀ i, p ≤ i → mem i = final i) (row : Row width final p texts) : Row width mem p texts := by
  induction texts generalizing p with
  | nil => trivial
  | cons s rest ih =>
    obtain ⟨here,row⟩ := row
    refine ⟨stringAt_congr (fun i _ => same _ (Nat.le_add_right p i)) here,ih (fun i behind => ?_) row⟩
    exact same i ((Nat.le_add_right p width).trans behind)

private theorem overlay_reaching (known : StringAt mem (p + width) t) (clean : 0 ∉ s) (reaches : Reaches width s t) (i : Nat)
    (behind : p + width ≤ i) : overlay mem p (s ++ [0]) i = mem i := by
  have written := stringAt_overlay mem p clean
  by_cases past : p + s.length < i
  · exact overlay_outside _ _ _ _ (.inr (by rw [List.length_append,List.length_singleton]; omega))
  · have long : width ≤ s.length := by omega
    obtain rfl := reaches.resolve_left (Nat.not_lt.mpr long)
    obtain ⟨k,rfl⟩ := Nat.exists_eq_add_of_le behind
    refine stringAt_same (stringAt_drop written long) known k ?_
    rw [List.length_drop]
    omega

theorem stringAt_reaching (known : StringAt mem p s) (next : StringAt final (p + width) t) (reaches : Reaches width s t)
    (same : ∀ i < width, final (p + i) = mem (p + i)) : StringAt final p s := by
  by_cases short : s.length < width
  · exact stringAt_congr (fun i inside => same i (Nat.lt_of_le_of_lt inside short)) known
  · have long : width ≤ s.length := Nat.not_lt.mp short
    have front : (s.take width).length = width := by rw [List.length_take,Nat.min_eq_left long]
    have held : slice final p (s.take width).length = s.take width := by
      have before := stringAt_front known (List.take_prefix width s)
      rw [front] at before ⊢
      exact (slice_congr final mem p width same).trans before
    rw [← List.take_append_drop width s,reaches.resolve_left short]
    refine stringAt_append held (fun member => known.clean (List.mem_of_mem_take member)) ?_
    rwa [front]

/-- Strings that reach into each other like that can lie in a row. -/
private theorem row_exists (clean : ∀ s ∈ texts, 0 ∉ s) (chain : texts.IsChain (Reaches width)) :
    ∃ mem, Row width mem p texts := by
  induction texts generalizing p with
  | nil => exact ⟨fun _ => 0,trivial⟩
  | cons s rest ih =>
    obtain ⟨here,others⟩ := List.forall_mem_cons.mp clean
    obtain ⟨mem,row⟩ := @ih (p + width) others chain.of_cons
    refine ⟨overlay mem p (s ++ [0]),stringAt_overlay mem p here,?_⟩
    cases rest with
    | nil => trivial
    | cons t rest =>
      have reaches := (List.isChain_cons_cons.mp chain).1
      exact row_frame (overlay_reaching row.1 here reaches) row

private theorem overlay_final (known : StringAt final p s) (i : Nat) :
    overlay mem p (s ++ [0]) i = final i ∨ overlay mem p (s ++ [0]) i = mem i := by
  by_cases inside : p ≤ i ∧ i ≤ p + s.length
  · obtain ⟨k,rfl⟩ := Nat.exists_eq_add_of_le inside.1
    exact .inl (stringAt_same (stringAt_overlay mem p known.clean) known k (by omega))
  · refine .inr (overlay_outside _ _ _ _ ?_)
    rw [List.length_append,List.length_singleton]
    omega

private theorem strcpys_final {args : List (Option Bytes)} (row : Row width final p (args.map (·.getD []))) (i : Nat) :
    strcpys width p args mem i = final i ∨ strcpys width p args mem i = mem i := by
  induction args generalizing p mem with
  | nil => exact .inr rfl
  | cons arg rest ih =>
    obtain ⟨here,row⟩ := row
    cases arg with
    | none => exact ih row
    | some s =>
      rcases @ih (p + width) (overlay mem p (s ++ [0])) row with done | kept
      · exact .inl done
      · rw [strcpys,kept]
        exact overlay_final here i

private theorem strcpys_kept {args : List (Option Bytes)} (row : Row width final p (args.map (·.getD []))) {q : Nat}
    (there : StringAt final q t) (known : StringAt mem q t) : StringAt (strcpys width p args mem) q t := by
  refine stringAt_congr (fun i inside => ?_) known
  rcases @strcpys_final width p mem final args row (q + i) with done | kept
  · exact done.trans (stringAt_same there known i inside)
  · exact kept

/-- Where they can lie in a row, copying them to a zeroed memory puts them there. -/
private theorem strcpys_row {args : List (Option Bytes)} {size : Nat} (zeroed : ∀ i < size, mem i = final i ∨ mem i = 0)
    (room : p + width * args.length ≤ size) (some : 0 < width) (row : Row width final p (args.map (·.getD []))) :
    Row width (strcpys width p args mem) p (args.map (·.getD [])) := by
  induction args generalizing p mem with
  | nil => trivial
  | cons arg rest ih =>
    have ⟨here,behind⟩ := row
    rw [List.length_cons,Nat.mul_succ] at room
    cases arg with
    | none =>
      have first : p < size := by omega
      refine ⟨stringAt_nil.mpr ?_,ih zeroed (by omega) behind⟩
      have ended := stringAt_nil.mp here
      rcases @strcpys_final width (p + width) mem final rest behind p with done | kept
      · exact done.trans ended
      · exact kept.trans ((zeroed p first).elim (fun same => same.trans ended) id)
    | some s =>
      refine ⟨strcpys_kept behind here (stringAt_overlay mem p here.clean),ih (fun i inside => ?_) (by omega) behind⟩
      rcases @overlay_final p mem final s here i with done | kept
      · exact .inl done
      · rw [kept]
        exact zeroed i inside

theorem strcpys_row_iff {args : List (Option Bytes)} {size : Nat} (zeroed : ∀ i < size, mem i = 0)
    (room : p + width * args.length ≤ size) (some : 0 < width) (clean : ∀ arg ∈ args, 0 ∉ arg.getD []) :
    Row width (strcpys width p args mem) p (args.map (·.getD [])) ↔ (args.map (·.getD [])).IsChain (Reaches width) := by
  constructor
  · exact row_chain
  · intro chain
    have texts : ∀ s ∈ args.map (·.getD []), 0 ∉ s := fun s member => by
      obtain ⟨arg,inside,rfl⟩ := List.mem_map.mp member
      exact clean arg inside
    obtain ⟨final,row⟩ := @row_exists width p _ texts chain
    exact strcpys_row (fun i inside => .inr (zeroed i inside)) room some row

end

end CString
