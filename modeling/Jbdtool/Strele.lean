import Jbdtool.Base.CString
import Jbdtool.Base.Split

/-! strele of utils.c, with its cursors as offsets. Reading behind the NUL of a string or
writing past the 1024 bytes of the result has no value. -/
namespace Jbdtool.Strele
open CString Split

/-- `*p`; a string has its NUL behind it. -/
def charAt (s : Bytes) (p : Nat) : Option UInt8 := (s ++ [0])[p]?

def lookAhead (string delimiter : Bytes) : Nat → Nat → Nat → Option (Nat × Nat)
  | 0, _, _ => none
  | n + 1, cptr, dptr => do
    let c ← charAt string cptr
    let d ← charAt delimiter dptr
    if c = d ∧ c ≠ 0 ∧ d ≠ 0 then
      let c ← charAt string (cptr + 1)
      let d ← charAt delimiter (dptr + 1)
      if d = 0 ∨ c = 0 then return (cptr + 1,dptr + 1)
      lookAhead string delimiter n (cptr + 1) (dptr + 1)
    else return (cptr,dptr)

structure Scan where
  string : Bytes
  src : Nat
  eptr : Nat
  count : Nat
  qc : UInt8

def isQuote (c : UInt8) : Bool := c == 34 || c == 39

/-- The loop over the string. The `cptr++` at a quote is left out: it is set anew before
it is used. -/
def scan (num : Int) (delimiter : Bytes) : Nat → Scan → Option Scan
  | 0, _ => none
  | n + 1, s => do
    let c ← charAt s.string s.src
    if c = 0 then return s
    if s.qc ≠ 0 then
      scan num delimiter n {s with src := s.src + 1,qc := if c = s.qc then 0 else s.qc}
    else
    let qc := if isQuote c then c else 0
    let string := if isspace c then s.string.set s.src 32 else s.string
    let c := if isspace c then 32 else c
    let d ← charAt delimiter 0
    if c = d then
      let (cptr,dptr) ← lookAhead string delimiter (delimiter.length + 1) (s.src + 1) 1
      let d ← charAt delimiter dptr
      if d = 0 then
        if s.count = num then return {s with string := string,qc := qc}
        let src := if cptr > s.src + 1 then cptr - 1 else s.src
        let e ← charAt string (src + 1)
        scan num delimiter n
          { string := string
            src := src + 1
            eptr := if isQuote e then src + 2 else src + 1
            count := s.count + 1
            qc := qc }
      else scan num delimiter n {s with string := string,src := s.src + 1,qc := qc}
    else scan num delimiter n {s with string := string,src := s.src + 1,qc := qc}

def copyElement (string : Bytes) : Nat → Nat → Bytes → Option Bytes
  | 0, _, dest => some dest
  | n + 1, eptr, dest => do
    let c ← charAt string eptr
    if isQuote c then return dest
    if dest.length < 1024 then copyElement string n (eptr + 1) (dest ++ [c]) else none

/-- The text in the static buffer, and what the string is afterwards. -/
def strele (num : Int) (delimiter string : Bytes) : Option (Bytes × Bytes) := do
  let s ← scan num delimiter (string.length + 1) ⟨string,0,0,0,0⟩
  let dest ← if s.count = num then copyElement s.string (s.src - s.eptr) s.eptr [] else pure []
  if dest.length < 1024 then return (dest,s.string) else none

def Plain (s : Bytes) : Prop := ∀ c ∈ s, isspace c = false ∧ isQuote c = false ∧ c ≠ 0

theorem charAt_append (pre u : Bytes) : charAt (pre ++ u) pre.length = some (u.headD 0) := by
  unfold charAt
  rw [List.append_assoc,List.getElem?_append_right (Nat.le_refl _),Nat.sub_self]
  cases u <;> rfl

private theorem charAt_end (s : Bytes) : charAt s s.length = some 0 := by
  simpa using charAt_append s []

theorem charAt_next (pre u : Bytes) (c : UInt8) : charAt (pre ++ c::u) (pre.length + 1) = some (u.headD 0) := by
  have shifted := charAt_append (pre ++ [c]) u
  rwa [List.append_assoc,List.length_append] at shifted

private theorem plain_cons {c : UInt8} {s : Bytes} (plain : Plain (c::s)) :
    (isspace c = false ∧ isQuote c = false ∧ c ≠ 0) ∧ Plain s :=
  List.forall_mem_cons.mp plain

private theorem headD_eq_zero {s : Bytes} (plain : Plain s) : s.headD 0 = 0 ↔ s = [] := by
  cases s with
  | nil => simp
  | cons c s =>
    have other := (plain_cons plain).1.2.2
    simpa using other

/-- The look-ahead comes to the end of the delimiter where the string goes on with it. -/
private theorem lookAhead_spec (n : Nat) (pre u dpre v : Bytes) (plain : Plain u) (delimiter : Plain v)
    (enough : v.length < n) :
    ∃ j, lookAhead (pre ++ u) (dpre ++ v) n pre.length dpre.length = some (pre.length + j,dpre.length + j) ∧
      j ≤ v.length ∧ (j = v.length ↔ v <+: u) := by
  induction v generalizing n pre u dpre with
  | nil =>
    obtain ⟨n,rfl⟩ := Nat.exists_eq_add_of_lt enough
    refine ⟨0,?_,Nat.le_refl _,by simp⟩
    simp [lookAhead,charAt_append,charAt_end]
  | cons d v ih =>
    obtain ⟨n,rfl⟩ : ∃ k, n = k + 1 := ⟨n - 1,by simp at enough; omega⟩
    obtain ⟨⟨-,-,held⟩,later⟩ := plain_cons delimiter
    cases u with
    | nil =>
      refine ⟨0,?_,Nat.zero_le _,by simp⟩
      have apart : ¬ (0 : UInt8) = d := Ne.symm held
      simp [lookAhead,charAt_append,charAt_end,apart]
    | cons c u =>
      obtain ⟨-,rest⟩ := plain_cons plain
      by_cases same : c = d
      · subst same
        have first : lookAhead (pre ++ c::u) (dpre ++ c::v) (n + 1) pre.length dpre.length =
            if v.headD 0 = 0 ∨ u.headD 0 = 0 then some (pre.length + 1,dpre.length + 1)
            else lookAhead (pre ++ c::u) (dpre ++ c::v) n (pre.length + 1) (dpre.length + 1) := by
          rw [lookAhead]
          simp only [charAt_append,charAt_next,Option.bind_eq_bind,Option.bind_some,List.headD_cons,held,ne_eq,
            not_false_eq_true,and_self,if_true]
          rfl
        rw [first]
        split_ifs with ended
        · refine ⟨1,rfl,by simp,?_⟩
          rw [headD_eq_zero later,headD_eq_zero rest] at ended
          rw [List.cons_prefix_cons]
          rcases ended with rfl | rfl
          · simp
          · cases v <;> simp
        · obtain ⟨j,found,bound,whole⟩ := ih n (pre ++ [c]) u (dpre ++ [c]) rest later (by simpa using enough)
          simp only [List.append_assoc,List.singleton_append,List.length_append,List.length_singleton] at found
          refine ⟨j + 1,?_,by simpa using bound,?_⟩
          · rw [found]
            simp only [Option.some.injEq,Prod.mk.injEq]
            omega
          · rw [List.cons_prefix_cons,List.length_cons,Nat.add_right_cancel_iff,whole]
            simp
      · refine ⟨0,?_,Nat.zero_le _,?_⟩
        · simp [lookAhead,charAt_append,same]
        · simp [Ne.symm same]

theorem scan_end (num : Int) (delimiter : Bytes) (n : Nat) (s : Bytes) (eptr count : Nat) :
    scan num delimiter (n + 1) ⟨s,s.length,eptr,count,0⟩ = some ⟨s,s.length,eptr,count,0⟩ := by
  rw [scan,charAt_end]
  rfl

section
variable {num : Int} {d0 : UInt8} {v : Bytes} (delimiter : Plain (d0::v))
include delimiter

private theorem scan_step (n : Nat) (pre u : Bytes) (c : UInt8) (eptr count : Nat) (plain : Plain (c::u)) :
    scan num (d0::v) (n + 1) ⟨pre ++ c::u,pre.length,eptr,count,0⟩ =
      if d0::v <+: c::u then
        if count = num then some ⟨pre ++ c::u,pre.length,eptr,count,0⟩
        else scan num (d0::v) n
          ⟨pre ++ c::u,pre.length + (d0::v).length,pre.length + (d0::v).length,count + 1,0⟩
      else scan num (d0::v) n ⟨pre ++ c::u,pre.length + 1,eptr,count,0⟩ := by
  obtain ⟨⟨space,quote,held⟩,rest⟩ := plain_cons plain
  obtain ⟨-,later⟩ := plain_cons delimiter
  have first : charAt (d0::v) 0 = some d0 := rfl
  rw [scan]
  simp only [charAt_append,Option.bind_eq_bind,Option.bind_some,List.headD_cons,held,space,quote,first,if_false,ne_eq,
    not_true_eq_false,Bool.false_eq_true]
  by_cases same : c = d0
  · subst same
    obtain ⟨j,found,bound,whole⟩ := lookAhead_spec ((c::v).length + 1) (pre ++ [c]) u [c] v rest later
      (by rw [List.length_cons]; omega)
    simp only [List.append_assoc,List.singleton_append,List.length_append,List.length_singleton] at found
    simp only [found,if_true,Option.bind_some,List.cons_prefix_cons,true_and]
    by_cases stands : v <+: u
    · obtain rfl := whole.mpr stands
      obtain ⟨w,rfl⟩ := stands
      have ended : charAt (c::v) (1 + v.length) = some 0 := by
        rw [Nat.add_comm]
        exact charAt_end (c::v)
      have behind : charAt (pre ++ c::(v ++ w)) (pre.length + v.length + 1) = some (w.headD 0) := by
        have moved := charAt_append (pre ++ c::v) w
        rwa [List.append_assoc,List.cons_append,List.length_append,List.length_cons,← Nat.add_assoc] at moved
      have moved : (if pre.length + 1 + v.length > pre.length + 1 then pre.length + 1 + v.length - 1 else pre.length) =
          pre.length + v.length := by
        split_ifs <;> omega
      have unquoted : isQuote (w.headD 0) = false := by
        cases w with
        | nil => rfl
        | cons e w => exact (rest e (by simp)).2.1
      simp only [ended,Option.bind_some,if_true,moved,behind,unquoted,Bool.false_eq_true,if_false,
        List.prefix_append,List.length_cons]
      rfl
    · have more : j < v.length := Nat.lt_of_le_of_ne bound fun all => stands (whole.mp all)
      have inside : charAt (c::v) (1 + j) = some v[j] := by
        unfold charAt
        rw [List.getElem?_append_left (by rw [List.length_cons]; omega),Nat.add_comm,List.getElem?_cons_succ,
          List.getElem?_eq_getElem more]
      have held : v[j] ≠ 0 := (later _ (List.getElem_mem more)).2.2
      simp only [inside,Option.bind_some,held,stands,if_false]
  · have missing : ¬ d0::v <+: c::u := fun stands => same (List.cons_prefix_cons.mp stands).1.symm
    simp [same,missing]

private theorem scan_element (n : Nat) (pre e tail : Bytes) (eptr count : Nat) (plain : Plain (e ++ tail))
    (missing : ∀ i < e.length, ¬ d0::v <+: (e ++ tail).drop i) :
    scan num (d0::v) (n + e.length) ⟨pre ++ (e ++ tail),pre.length,eptr,count,0⟩ =
      scan num (d0::v) n ⟨pre ++ (e ++ tail),pre.length + e.length,eptr,count,0⟩ := by
  induction e generalizing pre with
  | nil => rfl
  | cons c e ih =>
    have later := ih (pre ++ [c]) (plain_cons plain).2 fun i below => missing (i + 1) (Nat.succ_lt_succ below)
    rw [List.append_assoc,List.singleton_append,List.length_append,List.length_singleton] at later
    have here : ¬ d0::v <+: c::(e ++ tail) := missing 0 (Nat.zero_lt_succ _)
    have whole : Plain (c::(e ++ tail)) := plain
    rw [List.length_cons,← Nat.add_assoc,List.cons_append,scan_step delimiter _ _ _ _ _ _ whole,if_neg here]
    rw [later,Nat.add_assoc,Nat.add_comm 1]

/-- The loop stops with the element wanted between its cursors, or at the end of the
string where there is no such element. -/
private theorem scan_parts {rest : Bytes} {parts : List Bytes} (splits : Splits (d0::v) rest parts) (k : Nat) (pre : Bytes)
    (plain : Plain rest) (n : Nat) (enough : rest.length < n) (count : Nat) (before : count ≤ k) :
    ∃ s, scan k (d0::v) n ⟨pre ++ rest,pre.length,pre.length,count,0⟩ = some s ∧ s.string = pre ++ rest ∧
      (∀ e, parts[k - count]? = some e → s.count = k ∧ ∃ a b, pre ++ rest = a ++ (e ++ b) ∧ s.eptr = a.length ∧
        s.src = a.length + e.length) ∧ (parts[k - count]? = none → s.count ≠ k) := by
  induction splits generalizing pre n count with
  | @last rest none =>
    obtain ⟨n,rfl⟩ : ∃ m, n = m + 1 + rest.length := ⟨n - rest.length - 1,by omega⟩
    have passed := @scan_element k d0 v delimiter (n + 1) pre rest [] pre.length count (by simpa using plain)
      fun i _ => by simpa using none i
    rw [List.append_nil,← List.length_append,scan_end] at passed
    refine ⟨_,passed,rfl,fun e wanted => ?_,fun past => ?_⟩
    · obtain ⟨here,rfl⟩ := List.getElem?_eq_some_iff.mp wanted
      have same : count = k := by simp at here; omega
      refine ⟨same,pre,[],?_,rfl,?_⟩ <;> simp
    · have beyond := List.getElem?_eq_none_iff.mp past
      rw [List.length_singleton] at beyond
      change count ≠ k
      omega
  | @more e rest parts first others ih =>
    have behind : Plain (d0::v ++ rest) := fun c inside => plain c (List.mem_append_right _ inside)
    rw [List.length_append,List.length_append,List.length_cons] at enough
    obtain ⟨n,rfl⟩ : ∃ m, n = m + 1 + e.length := ⟨n - e.length - 1,by omega⟩
    have passed := @scan_element k d0 v delimiter (n + 1) pre e (d0::v ++ rest) pre.length count plain first
    have step := @scan_step k d0 v delimiter n (pre ++ e) (v ++ rest) d0 pre.length count behind
    have stands : d0::v <+: d0::(v ++ rest) := List.prefix_append (d0::v) rest
    rw [if_pos stands,List.append_assoc,List.length_append] at step
    rw [passed]
    by_cases last : count = k
    · rw [if_pos (by exact_mod_cast last)] at step
      refine ⟨_,step,rfl,fun e' wanted => ?_,fun past => ?_⟩
      · rw [last,Nat.sub_self,List.getElem?_cons_zero] at wanted
        obtain rfl := Option.some.inj wanted
        exact ⟨last,pre,d0::v ++ rest,rfl,rfl,rfl⟩
      · simp [last] at past
    · have whole : pre ++ e ++ (d0::v) ++ rest = pre ++ (e ++ (d0::v ++ rest)) := by simp only [List.append_assoc]
      have count' : k - count = (k - (count + 1)) + 1 := by omega
      obtain ⟨s,found,same,element,past⟩ := ih (pre ++ e ++ (d0::v)) (fun c inside => behind c (List.mem_append_right _ inside))
        n (by omega) (count + 1) (by omega)
      rw [if_neg (by exact_mod_cast last)] at step
      rw [whole] at found same element
      rw [List.length_append,List.length_append] at found
      rw [count',List.getElem?_cons_succ]
      exact ⟨s,step.trans found,same,element,past⟩

end

/-- A text without a quote is copied as far as the result has room. -/
theorem copyElement_text (n : Nat) (a e b dest : Bytes) (unquoted : ∀ c ∈ e, isQuote c = false) (few : dest.length ≤ 1024) :
    copyElement (a ++ (e ++ b)) (n + e.length) a.length dest =
      if dest.length + e.length ≤ 1024 then copyElement (a ++ (e ++ b)) n (a.length + e.length) (dest ++ e) else none := by
  induction e generalizing a dest with
  | nil => simp [few]
  | cons c e ih =>
    obtain ⟨quote,rest⟩ := List.forall_mem_cons.mp unquoted
    have read : charAt (a ++ (c::e ++ b)) a.length = some c := charAt_append a (c::e ++ b)
    rw [List.length_cons,← Nat.add_assoc,copyElement,read]
    simp only [Option.bind_eq_bind,Option.bind_some,quote,Bool.false_eq_true,if_false]
    by_cases room : dest.length < 1024
    · have later := ih (a ++ [c]) (dest ++ [c]) rest (List.length_append ▸ room)
      simp only [List.append_assoc,List.singleton_append,List.length_append,List.length_singleton,Nat.add_assoc,
        Nat.add_comm 1] at later
      rw [if_pos room,List.cons_append,later]
    · rw [if_neg room,if_neg (by omega)]

/-- The k-th element of the split, none behind the last, and the string as it was. -/
theorem strele_split (k : Nat) (delimiter string : Bytes) (some : delimiter ≠ []) (plain : Plain delimiter)
    (plain' : Plain string) (short : ∀ e ∈ split delimiter string, e.length < 1024) :
    strele k delimiter string = Option.some ((split delimiter string).getD k [],string) := by
  obtain ⟨d0,v,rfl⟩ := List.exists_cons_of_ne_nil some
  obtain ⟨s,found,same,element,past⟩ := scan_parts plain (splits_split some string) k [] plain' (string.length + 1)
    (Nat.lt_succ_self _) 0 (Nat.zero_le k)
  rw [List.nil_append] at found same
  have loop : scan k (d0::v) (string.length + 1) ⟨string,0,0,0,0⟩ = Option.some s := found
  rw [strele,loop]
  simp only [Option.bind_eq_bind,Option.bind_some,same]
  cases wanted : (split (d0::v) string)[k]? with
  | none =>
    have other : ¬ (s.count : Int) = k := by exact_mod_cast past wanted
    rw [if_neg other,List.getD_eq_getElem?_getD,wanted]
    rfl
  | some e =>
    obtain ⟨here,a,b,whole,start,stop⟩ := element e wanted
    rw [List.nil_append] at whole
    have few := short e (List.mem_of_getElem? wanted)
    have inside : Plain e := fun c member => plain' c (whole ▸ by simp [member])
    have copied := copyElement_text 0 a e b [] (fun c member => (inside c member).2.1) (Nat.zero_le _)
    rw [Nat.zero_add] at copied
    have reached : (s.count : Int) = k := by exact_mod_cast here
    rw [if_pos reached,start,stop,Nat.add_sub_cancel_left,List.getD_eq_getElem?_getD,wanted,whole,copied]
    simp [few,Nat.le_of_lt few,copyElement]

/-- A delimiter that overlaps itself, in the middle and at the end. -/
theorem strele_split_overlapping :
    strele 1 (bytes "aab") (bytes "xaaabyaab") = some (bytes "y",bytes "xaaabyaab") := by
  refine (strele_split 1 (bytes "aab") (bytes "xaaabyaab") (by decide) ?_ ?_ (by decide)).trans (by decide)
  · unfold Plain
    decide +kernel
  · unfold Plain
    decide +kernel

end Jbdtool.Strele
