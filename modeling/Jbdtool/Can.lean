import Jbdtool.Base.CString
import Jbdtool.Base.Memory

/-! can_read of the CAN transport on the results that read gives it. Its frame starts with
whatever lies there. What it prints is left out. -/
namespace Jbdtool.Can
open CString

/-- The bytes of `struct can_frame`: its identifier, the length of its data and, from
byte 8 on, the data. -/
def frameSize : Nat := 16

def canId (frame : Mem UInt8) : UInt32 :=
  (frame 0).toUInt32 ||| (frame 1).toUInt32 <<< 8 ||| (frame 2).toUInt32 <<< 16 ||| (frame 3).toUInt32 <<< 24

def canDlc (frame : Mem UInt8) : Nat := (frame 4).toNat

/-- What read gives for a frame. -/
inductive FrameRead where
  | error
  | short (content : Bytes) (less : content.length < frameSize)
  | complete (content : Bytes) (whole : content.length = frameSize) (fits : content.getD 4 0 ≤ 8)

namespace FrameRead

def content : FrameRead → Bytes
  | .error => []
  | .short content _ => content
  | .complete content _ _ => content

def into (r : FrameRead) (frame : Mem UInt8) : Mem UInt8 := Mem.overlay frame 0 r.content

end FrameRead

/-- The loop: its frame at the end and the results that are left, or nothing while it waits. -/
def readLoop (id : UInt32) : List FrameRead → Mem UInt8 → Option (Mem UInt8 × List FrameRead)
  | [], _ => none
  | .error::rest, frame => some (frame,rest)
  | r::rest, frame =>
    -- After a short read too, continue goes on to this test.
    if id ≠ 0xFFFF ∧ canId (r.into frame) ≠ id then readLoop id rest (r.into frame) else some (r.into frame,rest)

structure Returned where
  len : Int
  buf : Mem UInt8
  rest : List FrameRead

def canRead (fd : Int) (id : UInt32) (buflen : Nat) (buf frame : Mem UInt8) (results : List FrameRead) : Option Returned :=
  if fd < 0 then some ⟨-1,buf,results⟩ else do
  let (frame,rest) ← readLoop id results frame
  if id = 0xFFFF then
    let len := if buflen < frameSize then buflen else frameSize
    return ⟨len,Mem.overlay buf 0 (Mem.slice frame 0 len),rest⟩
  else
    let len := if buflen > canDlc frame then canDlc frame else buflen
    return ⟨len,Mem.overlay buf 0 (Mem.slice frame 8 len),rest⟩

/-- A complete frame with this identifier. -/
def FrameRead.Has (id : UInt32) : FrameRead → Prop
  | .complete content _ _ => canId (fun i => content.getD i 0) = id
  | _ => False

def Found (id : UInt32) (results before : List FrameRead) (content : Bytes) (rest : List FrameRead) : Prop :=
  ∃ whole fits, results = before ++ .complete content whole fits::rest ∧ (FrameRead.complete content whole fits).Has id ∧
    ∀ r ∈ before, r ≠ .error ∧ ¬ r.Has id

def Failed (id : UInt32) (results before rest : List FrameRead) : Prop :=
  results = before ++ .error::rest ∧ ∀ r ∈ before, r ≠ .error ∧ ¬ r.Has id

def wanted (buflen : Nat) (content : Bytes) : Bytes := (content.drop 8).take (min buflen (content.getD 4 0).toNat)

/-- Only a frame with the identifier, read before any error, gives a length, and its first
one gives its data; an error before it is reported, with the buffer untouched. -/
structure ReadsRight (id : UInt32) (buflen : Nat) (buf : Mem UInt8) (results : List FrameRead) (got : Option Returned) :
    Prop where
  only : ∀ r, got = some r → 0 ≤ r.len → ∃ before content, Found id results before content r.rest
  data : ∀ before content rest, Found id results before content rest →
    got = some ⟨(min buflen (content.getD 4 0).toNat : Nat),Mem.overlay buf 0 (wanted buflen content),rest⟩
  failed : ∀ before rest, Failed id results before rest → ∃ r, got = some r ∧ r.len < 0 ∧ r.buf = buf

/-- Up to the first frame with the identifier there is no error, and no short read leaves
this identifier in the local variable. -/
def Undisturbed (id : UInt32) : List FrameRead → Mem UInt8 → Prop
  | [], _ => True
  | .error::_, _ => False
  | .short content less::rest, frame =>
    canId ((FrameRead.short content less).into frame) ≠ id ∧ Undisturbed id rest ((FrameRead.short content less).into frame)
  | .complete content whole fits::rest, frame => (FrameRead.complete content whole fits).Has id ∨
    Undisturbed id rest ((FrameRead.complete content whole fits).into frame)

section
variable {id : UInt32} {results before rest : List FrameRead} {r : FrameRead} {content : Bytes} {frame : Mem UInt8}

private theorem found_cons : Found id (r::results) before content rest ↔
    (∃ whole fits, before = [] ∧ r = .complete content whole fits ∧ r.Has id ∧ results = rest) ∨
      ∃ before', before = r::before' ∧ r ≠ .error ∧ ¬ r.Has id ∧ Found id results before' content rest := by
  constructor
  · rintro ⟨whole,fits,split,has,front⟩
    cases before with
    | nil =>
      obtain ⟨rfl,rfl⟩ := List.cons.inj split
      exact .inl ⟨whole,fits,rfl,rfl,has,rfl⟩
    | cons first before =>
      obtain ⟨rfl,behind⟩ := List.cons.inj split
      obtain ⟨⟨fine,missing⟩,front⟩ := List.forall_mem_cons.mp front
      exact .inr ⟨before,rfl,fine,missing,whole,fits,behind,has,front⟩
  · rintro (⟨whole,fits,rfl,rfl,has,rfl⟩ | ⟨before',rfl,fine,missing,whole,fits,rfl,has,front⟩)
    · exact ⟨whole,fits,rfl,has,fun r none => by cases none⟩
    · exact ⟨whole,fits,rfl,has,List.forall_mem_cons.mpr ⟨⟨fine,missing⟩,front⟩⟩

private theorem found_shorter (found : Found id results before content rest) : rest.length < results.length := by
  obtain ⟨_,_,rfl,-⟩ := found
  rw [List.length_append,List.length_cons]
  omega

private theorem failed_cons : Failed id (r::results) before rest ↔ (before = [] ∧ r = .error ∧ results = rest) ∨
    ∃ before', before = r::before' ∧ r ≠ .error ∧ ¬ r.Has id ∧ Failed id results before' rest := by
  constructor
  · rintro ⟨split,front⟩
    cases before with
    | nil =>
      obtain ⟨rfl,rfl⟩ := List.cons.inj split
      exact .inl ⟨rfl,rfl,rfl⟩
    | cons first before =>
      obtain ⟨rfl,behind⟩ := List.cons.inj split
      obtain ⟨⟨fine,missing⟩,front⟩ := List.forall_mem_cons.mp front
      exact .inr ⟨before,rfl,fine,missing,behind,front⟩
  · rintro (⟨rfl,rfl,rfl⟩ | ⟨before',rfl,fine,missing,rfl,front⟩)
    · exact ⟨rfl,fun r none => by cases none⟩
    · exact ⟨rfl,List.forall_mem_cons.mpr ⟨⟨fine,missing⟩,front⟩⟩

private theorem into_complete (whole : content.length = frameSize) (fits : content.getD 4 0 ≤ 8) (i : Nat)
    (inside : i < frameSize) :
    (FrameRead.complete content whole fits).into frame i = content.getD i 0 := by
  have there : i < content.length := whole ▸ inside
  have cell := Mem.overlay_inside frame 0 content i there
  rw [Nat.zero_add] at cell
  rw [FrameRead.into,FrameRead.content,cell,List.getD_eq_getElem?_getD,List.getElem?_eq_getElem there,Option.getD_some]

private theorem canId_complete (whole : content.length = frameSize) (fits : content.getD 4 0 ≤ 8) :
    canId ((FrameRead.complete content whole fits).into frame) = id ↔ (FrameRead.complete content whole fits).Has id := by
  have same (i : Nat) (inside : i < 16) := @into_complete content frame whole fits i inside
  rw [canId,same 0 (by omega),same 1 (by omega),same 2 (by omega),same 3 (by omega)]
  rfl

private theorem readLoop_cons (other : id ≠ 0xFFFF) (fine : r ≠ .error) : readLoop id (r::results) frame =
    if canId (r.into frame) = id then some (r.into frame,results) else readLoop id results (r.into frame) := by
  have same : readLoop id (r::results) frame =
      if id ≠ 0xFFFF ∧ canId (r.into frame) ≠ id then readLoop id results (r.into frame) else some (r.into frame,results) := by
    cases r with
    | error => exact (fine rfl).elim
    | short => rfl
    | complete => rfl
  rw [same]
  by_cases stops : canId (r.into frame) = id
  · rw [if_pos stops,if_neg fun both => both.2 stops]
  · rw [if_neg stops,if_pos ⟨other,stops⟩]

private theorem readLoop_only (other : id ≠ 0xFFFF) (calm : Undisturbed id results frame) {frame' : Mem UInt8}
    (ended : readLoop id results frame = some (frame',rest)) : ∃ before content, Found id results before content rest := by
  induction results generalizing frame with
  | nil => cases ended
  | cons r results ih =>
    cases r with
    | error => exact calm.elim
    | short content less =>
      rw [readLoop_cons other (by simp),if_neg calm.1] at ended
      obtain ⟨before,content',found⟩ := ih calm.2 ended
      exact ⟨_,content',found_cons.mpr (.inr ⟨before,rfl,by simp,fun has => has,found⟩)⟩
    | complete content whole fits =>
      rw [readLoop_cons other (by simp)] at ended
      split_ifs at ended with stops
      · have has := (canId_complete whole fits).mp stops
        obtain ⟨-,rfl⟩ := Prod.mk.inj (Option.some.inj ended)
        exact ⟨[],content,found_cons.mpr (.inl ⟨whole,fits,rfl,rfl,has,rfl⟩)⟩
      · have has := mt (canId_complete whole fits).mpr stops
        obtain ⟨before,content',found⟩ := ih (calm.resolve_left has) ended
        exact ⟨_,content',found_cons.mpr (.inr ⟨before,rfl,by simp,has,found⟩)⟩

private theorem readLoop_found (other : id ≠ 0xFFFF) (calm : Undisturbed id results frame)
    (found : Found id results before content rest) : ∃ frame', readLoop id results frame = some (frame',rest) ∧
      ∀ i < frameSize, frame' i = content.getD i 0 := by
  induction results generalizing frame before with
  | nil => exact absurd (found_shorter found) (Nat.not_lt_zero _)
  | cons r results ih =>
    rcases found_cons.mp found with ⟨whole,fits,rfl,rfl,has,rfl⟩ | ⟨before',rfl,fine,missing,found'⟩
    · rw [readLoop_cons other (by simp),if_pos ((canId_complete whole fits).mpr has)]
      exact ⟨_,rfl,into_complete whole fits⟩
    · rw [readLoop_cons other fine]
      cases r with
      | error => exact (fine rfl).elim
      | short content' less =>
        rw [if_neg calm.1]
        exact ih calm.2 found'
      | complete content' whole fits =>
        rw [if_neg (mt (canId_complete whole fits).mp missing)]
        exact ih (calm.resolve_left missing) found'

private theorem undisturbed_failed (calm : Undisturbed id results frame) : ¬ Failed id results before rest := by
  intro failed
  induction results generalizing frame before with
  | nil => simp [Failed] at failed
  | cons r results ih =>
    rcases failed_cons.mp failed with ⟨rfl,rfl,rfl⟩ | ⟨before',rfl,fine,missing,failed'⟩
    · exact calm
    · cases r with
      | error => exact fine rfl
      | short content' less => exact ih calm.2 failed'
      | complete content' whole fits => exact ih (calm.resolve_left missing) failed'

private theorem readLoop_disturbed (other : id ≠ 0xFFFF) (disturbed : ¬ Undisturbed id results frame) :
    ∃ frame' rest, readLoop id results frame = some (frame',rest) ∧ ∀ before content, ¬ Found id results before content rest := by
  induction results generalizing frame with
  | nil => exact (disturbed trivial).elim
  | cons r results ih =>
    -- What was not found behind the first result was not found at all.
    have later (missing : ¬ r.Has id) {rest : List FrameRead} (none : ∀ before content, ¬ Found id results before content rest)
        (before : List FrameRead) (content : Bytes) : ¬ Found id (r::results) before content rest := by
      intro found
      rcases found_cons.mp found with ⟨_,_,-,-,has,-⟩ | ⟨before',-,-,-,found'⟩
      · exact missing has
      · exact none before' content found'
    have past : ∀ before content, ¬ Found id results before content results := fun _ _ found =>
      absurd (found_shorter found) (Nat.lt_irrefl _)
    cases r with
    | error => exact ⟨frame,results,rfl,later (fun has => has) past⟩
    | short content less =>
      rw [readLoop_cons other (by simp)]
      by_cases left : canId ((FrameRead.short content less).into frame) = id
      · rw [if_pos left]
        exact ⟨_,results,rfl,later (fun has => has) past⟩
      · rw [if_neg left]
        obtain ⟨frame',rest,ended,none⟩ := ih fun calm => disturbed ⟨left,calm⟩
        exact ⟨frame',rest,ended,later (fun has => has) none⟩
    | complete content whole fits =>
      have missing : ¬ (FrameRead.complete content whole fits).Has id := fun has => disturbed (.inl has)
      rw [readLoop_cons other (by simp),if_neg (mt (canId_complete whole fits).mp missing)]
      obtain ⟨frame',rest,ended,none⟩ := ih fun calm => disturbed (.inr calm)
      exact ⟨frame',rest,ended,later missing none⟩

private theorem slice_wanted (whole : content.length = frameSize) (fits : content.getD 4 0 ≤ 8) (buflen : Nat)
    (same : ∀ i < frameSize, frame i = content.getD i 0) :
    Mem.slice frame 8 (min buflen (content.getD 4 0).toNat) = wanted buflen content := by
  have few : (content.getD 4 0).toNat ≤ 8 := UInt8.le_iff_toNat_le.mp fits
  unfold frameSize at whole same
  unfold wanted
  apply List.ext_getElem
  · rw [Mem.slice_length,List.length_take,List.length_drop]
    omega
  · intro i inside _
    have below : 8 + i < content.length := by
      rw [Mem.slice_length] at inside
      omega
    rw [Mem.slice_get,same (8 + i) (by omega),List.getElem_take,List.getElem_drop,List.getD_eq_getElem?_getD,
      List.getElem?_eq_getElem below,Option.getD_some]

/-- can_read is right exactly where nothing disturbs it before the frame that it is asked for. -/
theorem canRead_right_iff (fd : Int) (opened : 0 ≤ fd) (id : UInt32) (other : id ≠ 0xFFFF) (buflen : Nat)
    (buf frame : Mem UInt8) (results : List FrameRead) :
    ReadsRight id buflen buf results (canRead fd id buflen buf frame results) ↔ Undisturbed id results frame := by
  have read : canRead fd id buflen buf frame results = (readLoop id results frame).map fun r =>
      ⟨(min buflen (canDlc r.1) : Nat),Mem.overlay buf 0 (Mem.slice r.1 8 (min buflen (canDlc r.1))),r.2⟩ := by
    have least (dlc : Nat) : (if buflen > dlc then dlc else buflen) = min buflen dlc := by
      split_ifs <;> omega
    unfold canRead
    rw [if_neg (by omega)]
    cases readLoop id results frame with
    | none => rfl
    | some r => simp [other,least]
  constructor
  · intro right
    by_contra disturbed
    obtain ⟨frame',rest,ended,none⟩ := readLoop_disturbed other disturbed
    rw [ended] at read
    obtain ⟨before,content,found⟩ := right.only _ read (Int.natCast_nonneg _)
    exact none before content found
  · intro calm
    refine ⟨fun r got _ => ?_,fun before content rest found => ?_,fun before rest failed => ?_⟩
    · rw [read] at got
      obtain ⟨⟨frame',rest⟩,ended,rfl⟩ := Option.map_eq_some_iff.mp got
      exact readLoop_only other calm ended
    · obtain ⟨frame',ended,same⟩ := readLoop_found other calm found
      obtain ⟨whole,fits,-⟩ := found
      have dlc : canDlc frame' = (content.getD 4 0).toNat := congrArg UInt8.toNat (same 4 (by decide))
      rw [read,ended,Option.map_some,dlc,slice_wanted whole fits buflen same]
    · exact (undisturbed_failed calm failed).elim

end

def frameBytes (lo hi : UInt8) : Bytes := [lo,hi,0,0,2,0,0,0,7,8,0,0,0,0,0,0]

theorem canRead_right_third :
    ReadsRight 0x101 8 (fun _ => 0) [.complete (frameBytes 2 1) rfl (by decide),.short [0] (by decide),
        .complete (frameBytes 1 1) rfl (by decide)]
      (canRead 3 0x101 8 (fun _ => 0) (fun _ => 0) [.complete (frameBytes 2 1) rfl (by decide),.short [0] (by decide),
        .complete (frameBytes 1 1) rfl (by decide)]) := by
  refine (canRead_right_iff 3 (by decide) 0x101 (by decide) 8 _ _ _).mpr (.inr ⟨by decide,.inl ?_⟩)
  change canId (fun i => (frameBytes 1 1).getD i 0) = 0x101
  decide

/-- A length is returned for an error, and the buffer filled with what lay in the frame. -/
theorem canRead_right_error : ¬ ReadsRight 0x101 8 (fun _ => 0) [.error] (canRead 3 0x101 8 (fun _ => 0) (fun _ => 1) [.error]) := by
  intro right
  obtain ⟨r,got,negative,-⟩ := right.failed [] [] ⟨rfl,fun r none => by cases none⟩
  have len : (canRead 3 0x101 8 (fun _ => 0) (fun _ => 1) [.error]).map Returned.len = some 1 := rfl
  rw [got,Option.map_some,Option.some.injEq] at len
  omega

end Jbdtool.Can
