import Jbdtool.EepromExact
import Jbdtool.Base.Tokens
import Mathlib.Data.List.DropRight

/-! A text file of settings: the pieces that fgets reads of its lines, and the calls of
write_parm made for them out of one reused buffer. -/
namespace Jbdtool
open CString Tokens Numbers
variable {τ : Type}

/-- A piece that fgets reads, between what comes before and behind it in the file. -/
structure Piece where
  before : Bytes
  text : Bytes
  after : Bytes

def filePieces : Nat → Bytes → Bytes → List Piece
  | 0, _, _ => []
  | fuel + 1, before, s =>
    if s = [] then [] else
    let count := min 127 ((s.takeWhile (· ≠ 10)).length + 1)
    ⟨before,s.take count,s.drop count⟩::filePieces fuel (before ++ s.take count) (s.drop count)

/-- One turn of the loop: the label looked up, and the parameter and value passed on. -/
structure Turn where
  piece : Piece
  label : Bytes
  call : Option (JbdParams × Bytes)

def fileTurns : List Piece → Mem UInt8 → List Turn
  | [], _ => []
  | piece::pieces, line =>
    let line := Mem.overlay line 0 (piece.text ++ [0])
    let label := skipLine isspace line 0
    let p := skipLine (fun c => !isspace c) line label
    let line := Mem.overlay line p [0]
    match getp (Mem.slice line label (p - label)) with
    | none => ⟨piece,Mem.slice line label (p - label),none⟩::fileTurns pieces line
    | some pp =>
      let valp := skipLine isspace line (p + 1)
      let q := skipLine (fun c => !isspace c) line valp
      let after := Mem.overlay line q [0]
      ⟨piece,Mem.slice line label (p - label),some (pp,Mem.slice after valp (q - valp))⟩::fileTurns pieces after

/-- The turns that the loop takes; the value that write_parm refuses is the last one. -/
def runTurns (host : Host τ) : List Turn → Program τ (List Turn)
  | [] => return []
  | turn::turns => do
    let _ ← findParm turn.label
    match turn.call with
    | none => do
      let others ← runTurns host turns
      return turn::others
    | some (pp,value) => do
      if (← writeParm host pp value) ≠ 0 then return [turn]
      let others ← runTurns host turns
      return turn::others

private theorem filePieces_text (fuel : Nat) (before s : Bytes) :
    (filePieces fuel before s).map Piece.text = fgetsLines fuel s := by
  induction fuel generalizing before s with
  | zero => rfl
  | succ fuel ih =>
    unfold filePieces fgetsLines
    split_ifs
    · rfl
    · rw [List.map_cons,ih]

private theorem findParm_bind {α : Type} (label : Bytes) (k : Option JbdParams → Program τ α) :
    (findParm label >>= k) = (findParm label >>= fun _ => k (getp label)) := rfl

private theorem writeLines_turns (host : Host τ) (pieces : List Piece) (line : Mem UInt8) :
    writeLines host (pieces.map Piece.text) line = (do let _ ← runTurns host (fileTurns pieces line)) := by
  induction pieces generalizing line with
  | nil => rfl
  | cons piece pieces ih =>
    rw [List.map_cons]
    unfold writeLines fileTurns
    simp only
    rw [findParm_bind]
    cases found : getp _ with
    | none =>
      simp only [runTurns,bind_assoc,pure_bind]
      rw [ih]
    | some pp =>
      simp only [runTurns,bind_assoc]
      refine congrArg _ (funext fun _ => congrArg _ (funext fun r => ?_))
      split_ifs
      · rw [pure_bind]
      · simp only [bind_assoc,pure_bind]
        rw [ih]

/-- The turn passes a value on that is refused without being sent. -/
def Turn.refused (turn : Turn) : Bool := turn.call.any (fun call => Jbdtool.refused call.1 call.2)

/-- The turns that a loop can come to. -/
def sentTurns : List Turn → List Turn
  | [] => []
  | turn::turns => turn::if turn.refused then [] else sentTurns turns

private theorem sentTurns_first (turns : List Turn) : sentTurns turns <+: turns := by
  induction turns with
  | nil => exact List.prefix_rfl
  | cons turn turns ih =>
    rw [sentTurns,List.prefix_cons_inj]
    split_ifs
    · exact List.nil_prefix
    · exact ih

private theorem runTurns_first (host : Host τ) (turns : List Turn) (w : World τ) :
    (runTurns host turns w).value <+: sentTurns turns := by
  induction turns generalizing w with
  | nil => exact List.prefix_rfl
  | cons turn turns ih =>
    rw [runTurns,Traced.bind_run,Outcome.after_value,sentTurns,Turn.refused]
    cases turn.call with
    | none =>
      rw [Option.any_none,if_neg Bool.false_ne_true]
      simp only [Traced.bind_run,Outcome.after_value]
      exact (List.prefix_cons_inj turn).mpr (ih _)
    | some call =>
      have stopped (w : World τ) (bad : refused call.1 call.2 = true) : (writeParm host call.1 call.2 w).value ≠ 0 := by
        rw [writeParm_refused call.1 call.2 w bad]
        decide
      simp only [Traced.bind_run,Outcome.after_value,Traced.ite_run,Option.any_some]
      by_cases bad : refused call.1 call.2 = true
      · rw [if_pos bad,if_pos (stopped _ bad)]
        exact List.prefix_rfl
      · rw [if_neg bad]
        split_ifs
        · exact (List.prefix_cons_inj turn).mpr List.nil_prefix
        · simp only [Outcome.after_value]
          exact (List.prefix_cons_inj turn).mpr (ih _)

/-- A BMS that acknowledges what it is sent has the loop come to all of them. -/
private theorem reaches_runTurns (turns : List Turn) : Reaches .opened (runTurns replying turns) (sentTurns turns) .opened := by
  induction turns with
  | nil => exact reaches_pure _
  | cons turn turns ih =>
    refine reaches_bind (reaches_find turn.label) ?_
    rw [sentTurns,Turn.refused]
    cases turn.call with
    | none =>
      rw [Option.any_none,if_neg Bool.false_ne_true]
      exact reaches_bind ih (reaches_pure _)
    | some call =>
      cases bad : refused call.1 call.2 with
      | true =>
        refine reaches_bind (reaches_refused call.1 call.2 bad) ?_
        simp only [Option.any_some,bad,if_true]
        exact reaches_pure _
      | false =>
        refine reaches_bind (reaches_write call.1 call.2 bad) ?_
        simp only [Option.any_some,bad]
        exact reaches_bind ih (reaches_pure _)

/-- A text with its terminator at `p` of the 128 bytes. -/
structure TextAt (line : Mem UInt8) (p : Nat) (s : Bytes) : Prop where
  content : Mem.slice line p (s.length + 1) = s ++ [0]
  room : p + s.length + 1 ≤ 128
  text : 0 ∉ s

private theorem skipLine_holds {line : Mem UInt8} {p : Nat} {s : Bytes} (holds : TextAt line p s) (keep : UInt8 → Bool) :
    skipLine keep line p = p + (s.takeWhile keep).length := by
  obtain ⟨content,room,text⟩ := holds
  have parts : 128 - p = s.length + 1 + (128 - p - (s.length + 1)) := by omega
  have stops (s : Bytes) (text : 0 ∉ s) (stale : Bytes) :
      (s ++ [0] ++ stale).takeWhile (fun c => c ≠ 0 && keep c) = s.takeWhile keep := by
    induction s with
    | nil => simp
    | cons c s ih =>
      obtain ⟨here,others⟩ : c ≠ 0 ∧ 0 ∉ s := by simpa [eq_comm] using text
      have rest := ih others
      by_cases kept : keep c = true <;> simp_all
  rw [skipLine,parts,Mem.slice_append,content,stops s text]

/-- A word starts behind the white space at `p`, and is cut off where it ends. -/
private theorem word_holds {line : Mem UInt8} {p : Nat} {s : Bytes} (holds : TextAt line p s) :
    let word := (s.dropWhile isspace).takeWhile (fun c => !isspace c)
    let first := skipLine isspace line p
    let last := skipLine (fun c => !isspace c) line first
    first = p + (s.takeWhile isspace).length ∧ last = first + word.length ∧
      Mem.slice (Mem.overlay line last [0]) first (last - first) = word := by
  intro word first last
  have start : first = p + (s.takeWhile isspace).length := skipLine_holds holds isspace
  have parts := List.takeWhile_append_dropWhile (p := isspace) (l := s)
  have sizes := congrArg List.length parts
  rw [List.length_append] at sizes
  have here : TextAt line first (s.dropWhile isspace) := by
    obtain ⟨content,room,text⟩ := holds
    refine ⟨?_,by omega,fun zero => text ((List.dropWhile_suffix isspace).subset zero)⟩
    have split : s.length + 1 = (s.takeWhile isspace).length + ((s.dropWhile isspace).length + 1) := by omega
    have whole : s ++ [0] = s.takeWhile isspace ++ (s.dropWhile isspace ++ [0]) := by
      rw [← List.append_assoc,parts]
    rw [split,Mem.slice_append,whole] at content
    rw [start]
    exact (List.append_inj content (by simp)).2
  have stop : last = first + word.length := skipLine_holds here (fun c => !isspace c)
  refine ⟨start,stop,?_⟩
  have count : last - first = word.length := by omega
  have kept : Mem.slice (Mem.overlay line last [0]) first word.length = Mem.slice line first word.length := by
    apply Mem.slice_congr
    intro i bound
    exact Mem.overlay_outside line last [0] (first + i) (.inl (by omega))
  have split : (s.dropWhile isspace).length + 1 = word.length + ((s.dropWhile isspace).length + 1 - word.length) := by
    have := (List.takeWhile_prefix (fun c => !isspace c) (l := s.dropWhile isspace)).length_le
    change word.length ≤ _ at this
    omega
  have whole : s.dropWhile isspace ++ [0] = word ++ ((s.dropWhile isspace).dropWhile (fun c => !isspace c) ++ [0]) := by
    rw [← List.append_assoc,List.takeWhile_append_dropWhile]
  have content := here.content
  rw [split,Mem.slice_append,whole] at content
  rw [count,kept]
  exact (List.append_inj content (by simp)).1

private theorem holds_behind {line : Mem UInt8} {p : Nat} {front rest : Bytes} {c : UInt8}
    (holds : TextAt line p (front ++ c::rest)) :
    TextAt (Mem.overlay line (p + front.length) [0]) (p + front.length + 1) rest := by
  obtain ⟨content,room,text⟩ := holds
  rw [List.length_append,List.length_cons] at content room
  refine ⟨?_,by omega,fun zero => text (by simp [zero])⟩
  have kept : Mem.slice (Mem.overlay line (p + front.length) [0]) (p + front.length + 1) (rest.length + 1) =
      Mem.slice line (p + (front.length + 1)) (rest.length + 1) := by
    rw [← Nat.add_assoc]
    apply Mem.slice_congr
    intro i _
    apply Mem.overlay_outside
    simp only [List.length_singleton]
    omega
  have split : front.length + (rest.length + 1) + 1 = (front.length + 1) + (rest.length + 1) := by omega
  have whole : front ++ c::rest ++ [0] = (front ++ [c]) ++ (rest ++ [0]) := by simp
  rw [split,Mem.slice_append,whole] at content
  rw [kept]
  exact (List.append_inj content (by simp)).2

def behindWord (s : Bytes) : Bytes := (s.dropWhile isspace).dropWhile (fun c => !isspace c)

/-- The label is the first token of the piece. The value is the second one if the buffer goes
on behind the label, and nothing at the end of a full buffer. -/
structure Turn.Takes (turn : Turn) (piece : Piece) : Prop where
  here : turn.piece = piece
  label : turn.label = (tokens isspace piece.text).headD []
  unknown : getp turn.label = none → turn.call = none
  known : ∀ pp, getp turn.label = some pp → ∃ value, turn.call = some (pp,value) ∧
    (behindWord piece.text ≠ [] → value = (tokens isspace piece.text).tail.headD []) ∧
    (behindWord piece.text = [] → piece.text.length = 127 → value = [])

private theorem second_word {line : Mem UInt8} {s words : Bytes} (holds : TextAt line 0 s) (front : s = words ++ behindWord s)
    (more : behindWord s ≠ []) :
    let line := Mem.overlay line words.length [0]
    let first := skipLine isspace line (words.length + 1)
    let last := skipLine (fun c => !isspace c) line first
    Mem.slice (Mem.overlay line last [0]) first (last - first) = (tokens isspace s).tail.headD [] := by
  obtain ⟨c,rest,behind⟩ := List.exists_cons_of_ne_nil more
  have space : isspace c = true := by
    have stopped := List.head?_dropWhile_not (fun c => !isspace c) (s.dropWhile isspace)
    rw [behindWord] at behind
    simpa [behind] using stopped
  have next : TextAt (Mem.overlay line words.length [0]) (words.length + 1) rest := by
    rw [front,behind] at holds
    have moved := holds_behind holds
    rwa [Nat.zero_add] at moved
  have second := (word_holds next).2.2
  rwa [(tokens_word rest).1,← tokens_skip rest space,← behind,behindWord,(tokens_word s).2] at second

private theorem fileTurns_cons (piece : Piece) (pieces : List Piece) (line : Mem UInt8) (short : piece.text.length ≤ 127)
    (text : 0 ∉ piece.text) : ∃ turn line', fileTurns (piece::pieces) line = turn::fileTurns pieces line' ∧ turn.Takes piece := by
  have holds : TextAt (Mem.overlay line 0 (piece.text ++ [0])) 0 piece.text := by
    refine ⟨?_,by omega,text⟩
    have whole := Mem.slice_overlay line 0 (piece.text ++ [0])
    rwa [List.length_append] at whole
  obtain ⟨start,stop,word⟩ := word_holds holds
  -- The text up to the end of its first word, in bytes.
  have front : piece.text = (piece.text.takeWhile isspace ++
      (piece.text.dropWhile isspace).takeWhile (fun c => !isspace c)) ++ behindWord piece.text := by
    rw [List.append_assoc,behindWord,List.takeWhile_append_dropWhile,List.takeWhile_append_dropWhile]
  rw [(tokens_word piece.text).1] at word
  rw [fileTurns]
  simp only
  generalize skipLine (fun c => !isspace c) (Mem.overlay line 0 (piece.text ++ [0]))
    (skipLine isspace (Mem.overlay line 0 (piece.text ++ [0])) 0) = p at stop word ⊢
  generalize skipLine isspace (Mem.overlay line 0 (piece.text ++ [0])) 0 = a at start stop word ⊢
  generalize Mem.overlay line 0 (piece.text ++ [0]) = buffer at holds word ⊢
  rw [start,Nat.zero_add,← List.length_append] at stop
  generalize piece.text.takeWhile isspace ++ (piece.text.dropWhile isspace).takeWhile (fun c => !isspace c) = words
    at front stop
  rw [word]
  cases found : getp ((tokens isspace piece.text).headD []) with
  | none =>
    refine ⟨_,_,rfl,rfl,rfl,fun _ => rfl,fun pp known => ?_⟩
    rw [found] at known
    cases known
  | some pp =>
    refine ⟨_,_,rfl,rfl,rfl,fun absurd => ?_,fun other known => ?_⟩
    · rw [found] at absurd
      cases absurd
    rw [found] at known
    cases known
    refine ⟨_,rfl,fun more => ?_,fun ended full => ?_⟩
    · rw [stop]
      exact second_word holds front more
    · have last : p = 127 := by
        rw [ended,List.append_nil] at front
        rw [stop,← front,full]
      have stuck (keep : UInt8 → Bool) : skipLine keep (Mem.overlay buffer p [0]) 128 = 128 := rfl
      rw [last] at stuck ⊢
      rw [stuck,stuck]
      rfl

def lastLine (before : Bytes) : Bytes := before.rtakeWhile (· ≠ 10)

def firstLine (s : Bytes) : Bytes := s.takeWhile (· ≠ 10)

/-- The line of the file that a piece belongs to, without its newline. -/
def Piece.line (piece : Piece) : Bytes := lastLine piece.before ++ firstLine (piece.text ++ piece.after)

/-- A piece ends with the file, with its line, or with the buffer. -/
structure Piece.Cut (piece : Piece) : Prop where
  short : piece.text.length ≤ 127
  clean : 0 ∉ piece.text
  ends : (firstLine (piece.text ++ piece.after) = piece.text) ∨ piece.text.getLast? = some 10 ∨ piece.text.length = 127

/-- What fgets takes of a text is a line without newline, ends with one, or is full. -/
private theorem fgets_ends (s : Bytes) : let text := s.take (min 127 ((firstLine s).length + 1))
    firstLine s = text ∨ text.getLast? = some 10 ∨ text.length = 127 := by
  intro text
  have parts : firstLine s ++ s.dropWhile (fun c => decide (c ≠ 10)) = s := List.takeWhile_append_dropWhile
  have whole := congrArg List.length parts
  rw [List.length_append] at whole
  rcases Nat.lt_or_ge (firstLine s).length 127 with fits | long
  · cases rest : s.dropWhile (fun c => decide (c ≠ 10)) with
    | nil =>
      rw [rest,List.append_nil] at parts
      refine .inl ?_
      simp only [text]
      rw [parts,List.take_of_length_le (by rw [parts] at fits; omega)]
    | cons c tail =>
      have newline : c = 10 := by
        have stopped := List.head?_dropWhile_not (fun c => decide (c ≠ 10)) s
        rw [rest] at stopped
        simpa using stopped
      rw [rest,newline] at parts
      have front : text = firstLine s ++ [10] := by
        have split : firstLine s ++ [10] ++ tail = s := by
          rw [List.append_assoc]
          exact parts
        calc
          text = s.take (firstLine s ++ [10]).length := by
            rw [List.length_append,List.length_singleton]
            exact congrArg (s.take ·) (Nat.min_eq_right (by omega))
          _ = (firstLine s ++ [10] ++ tail).take (firstLine s ++ [10]).length := by rw [split]
          _ = firstLine s ++ [10] := List.take_left
      rw [front]
      exact .inr (.inl (by simp))
  · refine .inr (.inr ?_)
    simp only [text,List.length_take]
    omega

private theorem filePieces_cut (fuel : Nat) (before s : Bytes) (text : 0 ∉ s) :
    ∀ piece ∈ filePieces fuel before s, piece.Cut := by
  induction fuel generalizing before s with
  | zero => simp [filePieces]
  | succ fuel ih =>
    unfold filePieces
    split_ifs with empty
    · simp
    simp only
    intro piece member
    rcases List.mem_cons.mp member with rfl | later
    · refine ⟨by simp only [List.length_take]; omega,fun zero => text (List.mem_of_mem_take zero),?_⟩
      rw [List.take_append_drop]
      exact fgets_ends s
    · exact ih _ _ (fun zero => text (List.mem_of_mem_drop zero)) piece later

/-- The value is the second token of the line, and the parameter's label the first. -/
def SecondToken (piece : Piece) (pp : JbdParams) (value : Bytes) : Prop :=
  (∀ c ∈ lastLine piece.before, isspace c = true) ∧ ∃ rest, tokens isspace piece.line = pp.label::value::rest

/-- If a piece starts with the label of a parameter, its line starts there and it holds the whole second token of
the line. -/
def SelfContained (piece : Piece) : Prop :=
  ∀ label, (tokens isspace piece.text).head? = some label → getp label ≠ none →
    (∀ c ∈ lastLine piece.before, isspace c = true) ∧ ∃ value rest rest',
      tokens isspace piece.text = label::value::rest ∧ tokens isspace piece.line = label::value::rest'

private theorem getp_named {label : Bytes} {pp : JbdParams} (found : getp label = some pp) : pp.label = label ∧ label ≠ [] := by
  have same : pp.label = label := by simpa using List.find?_some found
  refine ⟨same,?_⟩
  rw [← same]
  exact (params_text pp (List.mem_of_find?_eq_some found)).1

/-- A line whose only word ends a piece of less than a full buffer has no second token. -/
private theorem line_ended {piece : Piece} (cut : piece.Cut) (blank : ∀ c ∈ lastLine piece.before, isspace c = true)
    (ended : behindWord piece.text = []) (short : piece.text.length ≠ 127) (label : Bytes)
    (first : (tokens isspace piece.text).head? = some label) : tokens isspace piece.line = [label] := by
  have tail : (tokens isspace piece.text).tail = [] := by
    rw [← (tokens_word piece.text).2]
    change tokens isspace (behindWord piece.text) = []
    rw [ended,tokens_nil]
  have one : tokens isspace piece.text = [label] := by
    cases known : tokens isspace piece.text with
    | nil => simp [known] at first
    | cons t ts => simp_all
  rcases cut.ends with whole | newline | full
  · rw [Piece.line,tokens_separators blank,whole,one]
  · -- The last byte belongs to the label, and is no newline.
    have word : (piece.text.dropWhile isspace).takeWhile (fun c => !isspace c) = label := by
      rw [(tokens_word piece.text).1,one]
      rfl
    have alone : label ∈ tokens isspace piece.text := by rw [one]; exact List.mem_singleton_self label
    have some : label ≠ [] := (mem_tokens alone).1
    have text : piece.text = piece.text.takeWhile isspace ++ label := by
      have parts := List.takeWhile_append_dropWhile (p := fun c => !isspace c) (l := piece.text.dropWhile isspace)
      change _ ++ behindWord piece.text = _ at parts
      rw [ended,List.append_nil,word] at parts
      rw [parts,List.takeWhile_append_dropWhile]
    rw [text,List.getLast?_append_of_ne_nil _ some] at newline
    have inside := List.mem_of_getLast? newline
    rw [← word] at inside
    exact absurd (List.mem_takeWhile_imp inside) (by decide)
  · exact absurd full short

/-- A value that is the second token of its line is in the piece as well. -/
private theorem contained_of_right {turn : Turn} {piece : Piece} (cut : piece.Cut) (takes : turn.Takes piece)
    (right : ∀ pp value, turn.call = some (pp,value) → SecondToken piece pp value) : SelfContained piece := by
  intro name first some
  have label := takes.label
  rw [List.headD_eq_head?_getD,first,Option.getD_some] at label
  obtain ⟨pp,found⟩ := Option.ne_none_iff_exists'.mp some
  rw [← label] at found
  obtain ⟨value,call,more,full⟩ := takes.known pp found
  obtain ⟨blank,rest,line⟩ := right pp value call
  have visible : value ≠ [] := (mem_tokens (by simp [line] : value ∈ tokens isspace piece.line)).1
  rw [(getp_named found).1,label] at line
  refine ⟨blank,value,?_⟩
  by_cases ended : behindWord piece.text = []
  · by_cases size : piece.text.length = 127
    · exact absurd (full ended size) visible
    · rw [line_ended cut blank ended size name first] at line
      simp at line
  · have second := more ended
    cases words : tokens isspace piece.text with
    | nil => simp [words] at first
    | cons t ts =>
      cases ts with
      | nil =>
        rw [words] at second
        exact absurd second visible
      | cons v ts =>
        rw [words] at second first
        cases first
        rw [show v = value from second.symm]
        exact ⟨ts,rest,rfl,line⟩

/-- The value passed on is the second token of a piece that has both. -/
private theorem call_of_contained {turn : Turn} {piece : Piece} (takes : turn.Takes piece) (contained : SelfContained piece)
    (pp : JbdParams) (found : getp turn.label = some pp) : (∀ c ∈ lastLine piece.before, isspace c = true) ∧
      ∃ value rest rest', turn.call = some (pp,value) ∧ tokens isspace piece.text = turn.label::value::rest ∧
        tokens isspace piece.line = turn.label::value::rest' := by
  obtain ⟨value,call,more,-⟩ := takes.known pp found
  have first : (tokens isspace piece.text).head? = some turn.label := by
    have label := takes.label
    cases words : tokens isspace piece.text with
    | nil =>
      rw [words] at label
      exact absurd label (getp_named found).2
    | cons t ts =>
      rw [words] at label
      rw [label]
      rfl
  obtain ⟨blank,v,rest,rest',text,line⟩ := contained turn.label first (by simp [found])
  have ended : behindWord piece.text ≠ [] := by
    intro empty
    have tail := (@tokens_word _ isspace piece.text).2
    change tokens isspace (behindWord piece.text) = _ at tail
    rw [empty,text] at tail
    cases tail
  have second := more ended
  rw [text] at second
  obtain rfl : value = v := second
  exact ⟨blank,value,rest,rest',call,text,line⟩

/-- What the turn passes on is the second token of its line. -/
def Turn.Right (turn : Turn) : Prop := ∀ pp value, turn.call = some (pp,value) → SecondToken turn.piece pp value

private theorem right_iff {turn : Turn} {piece : Piece} (cut : piece.Cut) (takes : turn.Takes piece) :
    turn.Right ↔ SelfContained piece := by
  rw [Turn.Right,takes.here]
  refine ⟨contained_of_right cut takes,fun contained pp value call => ?_⟩
  cases found : getp turn.label with
  | none =>
    rw [takes.unknown found] at call
    cases call
  | some other =>
    obtain ⟨blank,v,rest,rest',same,-,line⟩ := call_of_contained takes contained other found
    rw [same] at call
    cases call
    refine ⟨blank,rest',?_⟩
    rw [line,(getp_named found).1]

/-- Of the first turns each passes the second token of its line exactly when each of the
pieces that starts with a label holds both tokens. -/
private theorem turns_right_iff (pieces : List Piece) (cut : ∀ piece ∈ pieces, piece.Cut) (line : Mem UInt8) (n : Nat) :
    (∀ turn ∈ (fileTurns pieces line).take n, turn.Right) ↔ ∀ piece ∈ pieces.take n, SelfContained piece := by
  induction pieces generalizing line n with
  | nil => simp [fileTurns]
  | cons piece pieces ih =>
    cases n with
    | zero => simp
    | succ n =>
      obtain ⟨first,others⟩ := List.forall_mem_cons.mp cut
      obtain ⟨turn,line',turns,takes⟩ := fileTurns_cons piece pieces line first.short first.clean
      rw [turns,List.take_succ_cons,List.take_succ_cons,List.forall_mem_cons,List.forall_mem_cons,ih others line' n,
        right_iff first takes]

/-- The second token is no value for the parameter that the first one names. -/
def Piece.refused (piece : Piece) : Bool :=
  match tokens isspace piece.text with
  | label::value::_ => (getp label).any (fun pp => Jbdtool.refused pp value)
  | _ => false

/-- The pieces up to the first whose value is refused. -/
def sentPieces : List Piece → List Piece
  | [] => []
  | piece::pieces => piece::if piece.refused then [] else sentPieces pieces

private theorem refused_iff {turn : Turn} {piece : Piece} (takes : turn.Takes piece) (contained : SelfContained piece) :
    turn.refused = piece.refused := by
  rw [Turn.refused,Piece.refused]
  cases found : getp turn.label with
  | none =>
    have label := takes.label
    rw [takes.unknown found,Option.any_none]
    split
    · rename_i name value rest words
      rw [words] at label
      rw [show name = turn.label from label.symm,found,Option.any_none]
    · rfl
  | some pp =>
    obtain ⟨-,value,rest,-,call,text,-⟩ := call_of_contained takes contained pp found
    rw [call,text]
    simp only
    rw [found,Option.any_some,Option.any_some]

private theorem sent_right_iff (pieces : List Piece) (cut : ∀ piece ∈ pieces, piece.Cut) (line : Mem UInt8) :
    (∀ turn ∈ sentTurns (fileTurns pieces line), turn.Right) ↔ ∀ piece ∈ sentPieces pieces, SelfContained piece := by
  induction pieces generalizing line with
  | nil => simp [fileTurns,sentTurns,sentPieces]
  | cons piece pieces ih =>
    obtain ⟨first,others⟩ := List.forall_mem_cons.mp cut
    obtain ⟨turn,line',turns,takes⟩ := fileTurns_cons piece pieces line first.short first.clean
    rw [turns,sentTurns,sentPieces,List.forall_mem_cons,List.forall_mem_cons,right_iff first takes]
    refine and_congr_right fun contained => ?_
    rw [refused_iff takes contained]
    split_ifs
    · simp
    · exact ih others line'

/-- The loop over a text file takes some first turns of the file, one for each piece that it reads. The
calls made in them pass the second token of their line exactly when each of these pieces that
starts with a label holds both tokens; and they do so with every transport exactly when each
piece does up to the first whose value is refused. -/
theorem writeLines_alone_iff (content : Bytes) (text : 0 ∉ content) (line : Mem UInt8) :
    let pieces := filePieces (content.length + 1) [] content
    let turns := fileTurns pieces line
    (∀ (σ : Type) (host : Host σ) (w : World σ), let run := (runTurns host turns w).value
      writeLines host (fgetsLines (content.length + 1) content) line = (do let _ ← runTurns host turns) ∧ run <+: turns ∧
      ((∀ turn ∈ run, turn.Right) ↔ ∀ piece ∈ pieces.take run.length, SelfContained piece)) ∧
    ((∀ (σ : Type) (host : Host σ) (w : World σ), ∀ turn ∈ (runTurns host turns w).value, turn.Right) ↔
      ∀ piece ∈ sentPieces pieces, SelfContained piece) := by
  intro pieces turns
  have cut := filePieces_cut (content.length + 1) [] content text
  refine ⟨?_,?_⟩
  · intro σ host w run
    have same : writeLines host (fgetsLines (content.length + 1) content) line = (do let _ ← runTurns host turns) := by
      rw [← filePieces_text (content.length + 1) [] content]
      exact writeLines_turns host pieces line
    have first : run <+: turns := (runTurns_first host turns w).trans (sentTurns_first turns)
    have right := turns_right_iff pieces cut line run.length
    rw [← List.prefix_iff_eq_take.mp first] at right
    exact ⟨same,first,right⟩
  · rw [← sent_right_iff pieces cut line]
    constructor
    · obtain ⟨replies,reached⟩ := reaches_runTurns turns
      have sent := (reached (World.start replies) [] (List.append_nil replies).symm).1
      intro always
      rw [← sent]
      exact always _ replying (World.start replies)
    · exact fun right σ host w turn member => right turn ((runTurns_first host turns w).subset member)

private theorem acknowledged_fits : (frame 0x11 0 []).length ≤ 256 := by decide

/-- A BMS that acknowledges writes of CycleCapacity. -/
def capacityOnly : Host Nat := scripted (fun _ => .bytes (frame 0x11 0 []) acknowledged_fits) (fun _ _ => 0) (fun _ _ => 0)

theorem writeLines_alone_one :
    let turns := fileTurns (filePieces 17 [] (bytes "CycleCapacity 77")) (fun _ => 65)
    (runTurns capacityOnly turns (World.start 0)).value.length = 1 ∧
      ∀ turn ∈ (runTurns capacityOnly turns (World.start 0)).value, turn.Right := by
  have pieces : filePieces 17 [] (bytes "CycleCapacity 77") = [⟨[],bytes "CycleCapacity 77",[]⟩] := rfl
  have words : tokens isspace (bytes "CycleCapacity 77") = [bytes "CycleCapacity",bytes "77"] := by decide
  have line : tokens isspace (Piece.line ⟨[],bytes "CycleCapacity 77",[]⟩) = [bytes "CycleCapacity",bytes "77"] := by decide
  refine ⟨by decide +kernel,((writeLines_alone_iff (bytes "CycleCapacity 77") (by decide) (fun _ => 65)).1 Nat capacityOnly
    (World.start 0)).2.2.mpr fun piece member => ?_⟩
  have whole : piece ∈ filePieces 17 [] (bytes "CycleCapacity 77") := List.mem_of_mem_take member
  obtain rfl : piece = ⟨[],bytes "CycleCapacity 77",[]⟩ := List.mem_singleton.mp (pieces ▸ whole)
  intro label first known
  rw [words] at first
  cases first
  exact ⟨by simp [lastLine],_,_,_,words,line⟩

/-- The last line has no value, and is given a byte that the line before left behind. -/
theorem writeLines_stale : ¬ ∀ turn ∈ (runTurns capacityOnly
    (fileTurns (filePieces 32 [] (bytes "CycleCapacity 77\nDesignCapacity")) (fun _ => 0)) (World.start 0)).value, turn.Right := by
  have turns : ∃ turn ∈ (runTurns capacityOnly
      (fileTurns (filePieces 32 [] (bytes "CycleCapacity 77\nDesignCapacity")) (fun _ => 0)) (World.start 0)).value,
      turn.call = some (⟨0x10,bytes "DesignCapacity",.uint⟩,bytes "7") ∧
        tokens isspace turn.piece.line = [bytes "DesignCapacity"] := by decide +kernel
  obtain ⟨turn,member,call,line⟩ := turns
  intro right
  obtain ⟨-,rest,second⟩ := right turn member _ _ call
  rw [line] at second
  cases second

end Jbdtool
