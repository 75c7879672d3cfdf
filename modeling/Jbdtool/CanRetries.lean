import Jbdtool.CanBounds

/-! The retries of jbd_can_get on any transport: what each attempt comes to, how many
attempts are made, and when the failed check is reported. -/
namespace Jbdtool
open CString Numbers Traced
variable {τ : Type}

/-- A request written and a frame read for it, or where that failed. -/
inductive Attempt where
  | unsent
  | unread
  | frame (content : Bytes) (fits : content.length ≤ 8)
deriving DecidableEq

namespace Attempt

def events (id : Nat) : Attempt → List Event
  | .unsent => [.canWrote id]
  | .unread => [.canWrote id,.canReceived id .error]
  | .frame content fits => [.canWrote id,.canReceived id (.bytes content fits)]

end Attempt

def padded (content : Bytes) : Bytes := copyInto content (List.replicate 8 0)

def attempt (host : Host τ) (id : Nat) (line : τ) : Attempt × τ :=
  let sent := host.canWrite line id
  if sent.1 < 0 then (.unsent,sent.2) else
  match host.canRead sent.2 id with
  | (.error,next) => (.unread,next)
  | (.bytes content fits,next) => (.frame content fits,next)

def attempts (host : Host τ) (id : Nat) : Nat → τ → List Attempt
  | 0, _ => []
  | n + 1, line => (attempt host id line).1::attempts host id n (attempt host id line).2

/-- All before the k-th are frames that fail the check. -/
def DamagedTo (list : List Attempt) (k : Nat) : Prop :=
  ∀ j < k, ∃ content fits, list[j]? = some (.frame content fits) ∧ canIntact (padded content) = false

/-- The k-th is a frame that passes the check, and these are its bytes. -/
def IntactAt (list : List Attempt) (k : Nat) (data : Bytes) : Prop :=
  ∃ content fits, list[k]? = some (.frame content fits) ∧ data = padded content ∧ canIntact data = true

/-- The first frame that passes the check, where only failed frames come before it. -/
def firstIntact : List Attempt → Option (Nat × Bytes)
  | .frame content _::rest =>
    if canIntact (padded content) then some (0,padded content) else (firstIntact rest).map (fun r => (r.1 + 1,r.2))
  | _ => none

def attemptsMade : List Attempt → Nat
  | .frame content _::rest => if canIntact (padded content) then 1 else attemptsMade rest + 1
  | _::_ => 1
  | [] => 0

def retriesReport (id : Nat) : Event :=
  .printed .stdout (bytes "ERROR: CRC failed retries for ID " ++ showHex 3 id ++ bytes "!\n")

private theorem damagedTo_zero (list : List Attempt) : DamagedTo list 0 := fun _ none => (Nat.not_lt_zero _ none).elim

private theorem damagedTo_cons (a : Attempt) (list : List Attempt) (k : Nat) : DamagedTo (a::list) (k + 1) ↔
    (∃ content fits, a = .frame content fits ∧ canIntact (padded content) = false) ∧ DamagedTo list k := by
  constructor
  · intro damaged
    refine ⟨?_,fun j before => damaged (j + 1) (by omega)⟩
    obtain ⟨content,fits,here,bad⟩ := damaged 0 (by omega)
    exact ⟨content,fits,Option.some.inj here,bad⟩
  · rintro ⟨⟨content,fits,rfl,bad⟩,damaged⟩ j before
    cases j with
    | zero => exact ⟨content,fits,rfl,bad⟩
    | succ j => exact damaged j (by omega)

private theorem damagedTo_frame (content : Bytes) (fits : content.length ≤ 8) (list : List Attempt) (k : Nat) :
    DamagedTo (.frame content fits::list) (k + 1) ↔ canIntact (padded content) = false ∧ DamagedTo list k := by
  rw [damagedTo_cons]
  refine and_congr_left fun _ => ⟨?_,fun bad => ⟨content,fits,rfl,bad⟩⟩
  rintro ⟨content',fits',here,bad⟩
  obtain ⟨rfl⟩ := Attempt.frame.inj here
  exact bad

private theorem intactAt_zero (a : Attempt) (list : List Attempt) (data : Bytes) : IntactAt (a::list) 0 data ↔
    ∃ content fits, a = .frame content fits ∧ data = padded content ∧ canIntact data = true := by
  simp [IntactAt]

private theorem intactAt_succ (a : Attempt) (list : List Attempt) (k : Nat) (data : Bytes) :
    IntactAt (a::list) (k + 1) data ↔ IntactAt list k data := Iff.rfl

theorem firstIntact_iff (list : List Attempt) (k : Nat) (data : Bytes) :
    firstIntact list = some (k,data) ↔ DamagedTo list k ∧ IntactAt list k data := by
  induction list generalizing k with
  | nil => simp [firstIntact,IntactAt]
  | cons a list ih =>
    cases a with
    | unsent => cases k <;> simp [firstIntact,intactAt_zero,damagedTo_cons]
    | unread => cases k <;> simp [firstIntact,intactAt_zero,damagedTo_cons]
    | frame content fits =>
      rw [firstIntact]
      cases k with
      | zero =>
        rw [intactAt_zero,iff_true_intro (damagedTo_zero _),true_and]
        split_ifs with good
        · constructor
          · intro same
            obtain ⟨-,rfl⟩ := Prod.mk.inj (Option.some.inj same)
            exact ⟨content,fits,rfl,rfl,good⟩
          · rintro ⟨content',fits',here,rfl,-⟩
            obtain ⟨rfl⟩ := Attempt.frame.inj here
            rfl
        · constructor
          · simp
          · rintro ⟨content',fits',here,rfl,good'⟩
            obtain ⟨rfl⟩ := Attempt.frame.inj here
            exact (good good').elim
      | succ k =>
        rw [damagedTo_frame,intactAt_succ,and_assoc,← ih]
        split_ifs with good <;> simp [good]

section
variable (host : Host τ) (id : Nat)

/-- What is returned and what happens on the bus: the attempts up to the one that ends the
call, and the report behind a last one that succeeds. -/
private theorem jbdCanGetLoop_attempts (n : Nat) (data : Bytes) (w : World τ) :
    let o := jbdCanGetLoop host id 8 true n data w
    let list := attempts host id n w.line
    (∀ k data, firstIntact list = some (k,data) → o.value = (0,data)) ∧ (firstIntact list = none → o.value.1 = 1) ∧
      o.events = (list.take (attemptsMade list)).flatMap (Attempt.events id) ++
        if (firstIntact list).map Prod.fst = some (n - 1) then [retriesReport id] else [] := by
  induction n generalizing data w with
  | zero => simp [jbdCanGetLoop,attempts,firstIntact]
  | succ n ih =>
    simp only [jbdCanGetLoop,canWrite_bind,attempts,attempt]
    by_cases unsent : (host.canWrite w.line id).1 < 0
    · simp [unsent,firstIntact,attemptsMade,Attempt.events]
    simp only [if_neg unsent,canRead_bind]
    generalize host.canRead (host.canWrite w.line id).2 id = result
    obtain ⟨_ | ⟨content,fits⟩,next⟩ := result
    · simp [firstIntact,attemptsMade,Attempt.events]
    have buffer : copyInto content (List.replicate 8 0) = padded content := rfl
    simp only [buffer,Bool.not_true,Bool.false_or,firstIntact,attemptsMade]
    by_cases good : canIntact (padded content) = true
    · simp only [if_pos good]
      cases n <;> simp [Attempt.events,retriesReport]
    · obtain ⟨value,failed,events⟩ := ih (padded content) {w with line := next}
      simp only [if_neg good,Outcome.after_value,Outcome.after_events]
      refine ⟨fun k data found => ?_,fun none => failed (Option.map_eq_none_iff.mp none),?_⟩
      · obtain ⟨⟨j,d⟩,earlier,same⟩ := Option.map_eq_some_iff.mp found
        obtain ⟨-,rfl⟩ := Prod.mk.inj same
        exact value j d earlier
      · rw [events,List.take_succ_cons,List.flatMap_cons,Option.map_map]
        cases n with
        | zero => simp [attempts,firstIntact,Attempt.events]
        | succ n => cases firstIntact (attempts host id (n + 1) next) <;> simp [Attempt.events]

private theorem attempts_length (n : Nat) (line : τ) : (attempts host id n line).length = n := by
  induction n generalizing line with
  | zero => rfl
  | succ n ih => rw [attempts,List.length_cons,ih]

private theorem damaged_intact {list : List Attempt} {j k : Nat} {data : Bytes} (damaged : DamagedTo list j)
    (intact : IntactAt list k data) : j ≤ k := by
  by_contra before
  obtain ⟨content,fits,there,rfl,good⟩ := intact
  obtain ⟨content',fits',same,bad⟩ := damaged k (by omega)
  rw [there] at same
  obtain ⟨rfl⟩ := Attempt.frame.inj (Option.some.inj same)
  simp [good] at bad

private theorem damagedTo_succ (list : List Attempt) (k : Nat) : DamagedTo list (k + 1) ↔ DamagedTo list k ∧
    ∃ content fits, list[k]? = some (.frame content fits) ∧ canIntact (padded content) = false := by
  constructor
  · exact fun damaged => ⟨fun j before => damaged j (by omega),damaged k (by omega)⟩
  · rintro ⟨damaged,last⟩ j before
    rcases Nat.lt_succ_iff_lt_or_eq.mp before with earlier | rfl
    · exact damaged j earlier
    · exact last

def Event.onBus : Event → Bool
  | .canWrote _ => true
  | .canReceived _ _ => true
  | _ => false

private theorem onBus_attempts (list : List Attempt) :
    (list.flatMap (Attempt.events id)).filter Event.onBus = list.flatMap (Attempt.events id) := by
  refine List.filter_eq_self.mpr fun e member => ?_
  obtain ⟨a,-,inside⟩ := List.mem_flatMap.mp member
  cases a <;> simp only [Attempt.events,List.mem_cons,List.not_mem_nil,or_false] at inside
  · rw [inside]
    rfl
  · rcases inside with rfl | rfl <;> rfl
  · rcases inside with rfl | rfl <;> rfl

private theorem report_silent (list : List Attempt) : retriesReport id ∉ list.flatMap (Attempt.events id) := by
  rw [← onBus_attempts]
  intro member
  have seen := List.of_mem_filter member
  cases seen

/-- At most four attempts, each one write and one read behind it; success exactly with the
first frame that passes the check, before any error and within four; and the report exactly
where all four frames failed the check. -/
structure Retried (w : World τ) : Prop where
  calls : ∃ made ≤ 4, (jbdCanGet host id true w).events.filter Event.onBus =
    ((attempts host id 4 w.line).take made).flatMap (Attempt.events id)
  zero : ∀ data, (jbdCanGet host id true w).value = (0,data) ↔
    ∃ k < 4, DamagedTo (attempts host id 4 w.line) k ∧ IntactAt (attempts host id 4 w.line) k data
  one : (jbdCanGet host id true w).value.1 ≠ 0 → (jbdCanGet host id true w).value.1 = 1
  reported : retriesReport id ∈ (jbdCanGet host id true w).events ↔
    (jbdCanGet host id true w).value.1 = 1 ∧ DamagedTo (attempts host id 4 w.line) 4

private theorem attemptsMade_le (list : List Attempt) : attemptsMade list ≤ list.length := by
  induction list with
  | nil => exact Nat.le_refl 0
  | cons a list ih =>
    cases a with
    | unsent => simp [attemptsMade]
    | unread => simp [attemptsMade]
    | frame content fits =>
      rw [attemptsMade,List.length_cons]
      split_ifs <;> omega

private theorem jbdCanGet_attempts (w : World τ) :
    let o := jbdCanGet host id true w
    let list := attempts host id 4 w.line
    (∀ k data, firstIntact list = some (k,data) → o.value = (0,data)) ∧ (firstIntact list = none → o.value.1 = 1) ∧
      o.events = (list.take (attemptsMade list)).flatMap (Attempt.events id) ++
        if (firstIntact list).map Prod.fst = some 3 then [retriesReport id] else [] :=
  jbdCanGetLoop_attempts host id 4 _ w

private theorem intactAt_inside {list : List Attempt} {k : Nat} {data : Bytes} (intact : IntactAt list k data) :
    k < list.length := by
  obtain ⟨content,fits,there,-⟩ := intact
  exact (List.getElem?_eq_some_iff.mp there).1

theorem jbdCanGet_zero (w : World τ) (data : Bytes) : (jbdCanGet host id true w).value = (0,data) ↔
    ∃ k < 4, DamagedTo (attempts host id 4 w.line) k ∧ IntactAt (attempts host id 4 w.line) k data := by
  obtain ⟨found,missing,-⟩ := jbdCanGet_attempts host id w
  constructor
  · intro value
    cases first : firstIntact (attempts host id 4 w.line) with
    | none =>
      have one := missing first
      rw [value] at one
      cases one
    | some r =>
      obtain ⟨k,d⟩ := r
      obtain ⟨-,rfl⟩ := Prod.mk.inj (value.symm.trans (found k d first))
      have accepted := (firstIntact_iff _ _ _).mp first
      have inside := intactAt_inside accepted.2
      rw [attempts_length] at inside
      exact ⟨k,inside,accepted⟩
  · rintro ⟨k,-,accepted⟩
    exact found k data ((firstIntact_iff _ _ _).mpr accepted)

/-- The report is printed where the fourth frame is the one returned. -/
private theorem jbdCanGet_reported (w : World τ) : retriesReport id ∈ (jbdCanGet host id true w).events ↔
    DamagedTo (attempts host id 4 w.line) 3 ∧ ∃ data, IntactAt (attempts host id 4 w.line) 3 data := by
  obtain ⟨-,-,events⟩ := jbdCanGet_attempts host id w
  rw [events,List.mem_append,or_iff_right (report_silent id _),← exists_and_left]
  simp only [← firstIntact_iff]
  cases firstIntact (attempts host id 4 w.line) with
  | none => simp
  | some r => by_cases last : r.1 = 3 <;> simp [last,Prod.ext_iff]

/-- The protocol is kept exactly where the call does not come to a fourth frame: if that one
is intact a failure is reported, and if it is not, none is. -/
theorem jbdCanGet_retried_iff (w : World τ) : Retried host id w ↔
    ¬ (DamagedTo (attempts host id 4 w.line) 3 ∧
      ∃ content fits, (attempts host id 4 w.line)[3]? = some (.frame content fits)) := by
  obtain ⟨found,missing,events⟩ := jbdCanGet_attempts host id w
  have printed := jbdCanGet_reported host id w
  constructor
  · rintro ⟨-,-,-,reported⟩ ⟨damaged,content,fits,last⟩
    by_cases good : canIntact (padded content) = true
    · have intact : IntactAt (attempts host id 4 w.line) 3 (padded content) := ⟨content,fits,last,rfl,good⟩
      have all := (reported.mp (printed.mpr ⟨damaged,_,intact⟩)).2
      exact absurd (damaged_intact all intact) (by omega)
    · have all : DamagedTo (attempts host id 4 w.line) 4 :=
        (damagedTo_succ _ 3).mpr ⟨damaged,content,fits,last,Bool.eq_false_of_not_eq_true good⟩
      have none : firstIntact (attempts host id 4 w.line) = none := by
        refine Option.eq_none_iff_forall_not_mem.mpr fun r found => ?_
        have intact := ((firstIntact_iff _ r.1 r.2).mp found).2
        have inside := intactAt_inside intact
        rw [attempts_length] at inside
        exact absurd (damaged_intact all intact) (by omega)
      obtain ⟨-,data,intact⟩ := printed.mp (reported.mpr ⟨missing none,all⟩)
      exact absurd (damaged_intact all intact) (by omega)
  · intro early
    have few := (attemptsMade_le _).trans (attempts_length host id 4 w.line).le
    refine ⟨⟨attemptsMade (attempts host id 4 w.line),few,?_⟩,jbdCanGet_zero host id w,?_,?_⟩
    · rw [events,List.filter_append,onBus_attempts]
      split_ifs <;> simp [retriesReport,Event.onBus]
    · intro failed
      cases first : firstIntact (attempts host id 4 w.line) with
      | none => exact missing first
      | some r => exact (failed (congrArg Prod.fst (found r.1 r.2 first))).elim
    · rw [printed]
      constructor
      · rintro ⟨damaged,data,content,fits,last,-⟩
        exact (early ⟨damaged,content,fits,last⟩).elim
      · rintro ⟨-,all⟩
        obtain ⟨damaged,content,fits,last,-⟩ := (damagedTo_succ _ 3).mp all
        exact (early ⟨damaged,content,fits,last⟩).elim

end

def intactLast (n : Nat) : ReadResult 8 := .bytes (List.replicate 6 0 ++ if n < 3 then [0,1] else [0,0]) (by split_ifs <;> simp)

theorem jbdCanGet_retried_last : ¬ Retried (canScripted intactLast) 0x100 (World.start 0) := by
  intro kept
  have printed : retriesReport 0x100 ∈ (jbdCanGet (canScripted intactLast) 0x100 true (World.start 0)).events := by
    decide +kernel
  have failed := (kept.reported.mp printed).1
  revert failed
  decide +kernel

end Jbdtool
