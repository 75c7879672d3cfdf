import Jbdtool.Strele

/-! strele on a comma-separated string with elements in quotes. -/
namespace Jbdtool.Strele
open CString

/-- An element as it stands in the string: plain, or between two quotes of one kind. -/
inductive Element where
  | plain (text : Bytes) (clean : ∀ c ∈ text, isspace c = false ∧ isQuote c = false ∧ c ≠ 44 ∧ c ≠ 0)
  | quoted (quote : UInt8) (text : Bytes) (known : isQuote quote = true) (clean : ∀ c ∈ text, isQuote c = false ∧ c ≠ 0)

namespace Element

def text : Element → Bytes
  | plain text _ => text
  | quoted _ text _ _ => text

def isQuoted : Element → Bool
  | plain .. => false
  | quoted .. => true

def written : Element → Bytes
  | plain text _ => text
  | quoted quote text _ _ => quote::(text ++ [quote])

theorem unquoted (e : Element) : ∀ c ∈ e.text, isQuote c = false := by
  cases e with
  | plain text clean => exact fun c inside => (clean c inside).2.1
  | quoted quote text known clean => exact fun c inside => (clean c inside).1

end Element

def behindCommas (others : List Element) : Bytes := others.flatMap (fun e => 44::e.written)

def commaSeparated (first : Element) (others : List Element) : Bytes := first.written ++ behindCommas others

section
variable {num : Int} {pre u : Bytes} {eptr count : Nat}

private theorem isQuote_iff (c : UInt8) : isQuote c = true ↔ c = 34 ∨ c = 39 := by
  simp [isQuote]

private theorem scan_inside (n : Nat) (c qc : UInt8) (within : qc ≠ 0) (held : c ≠ 0) :
    scan num [44] (n + 1) ⟨pre ++ c::u,pre.length,eptr,count,qc⟩ =
      scan num [44] n ⟨pre ++ c::u,pre.length + 1,eptr,count,if c = qc then 0 else qc⟩ := by
  rw [scan,charAt_append]
  simp [held,within]

private theorem scan_outside (n : Nat) (c : UInt8) (space : isspace c = false) (comma : c ≠ 44) (held : c ≠ 0) :
    scan num [44] (n + 1) ⟨pre ++ c::u,pre.length,eptr,count,0⟩ =
      scan num [44] n ⟨pre ++ c::u,pre.length + 1,eptr,count,if isQuote c then c else 0⟩ := by
  have first : charAt [44] 0 = some 44 := rfl
  rw [scan,charAt_append]
  simp [held,space,comma,first]

private theorem scan_plain (n : Nat) (text : Bytes)
    (clean : ∀ c ∈ text, isspace c = false ∧ isQuote c = false ∧ c ≠ 44 ∧ c ≠ 0) :
    scan num [44] (n + text.length) ⟨pre ++ (text ++ u),pre.length,eptr,count,0⟩ =
      scan num [44] n ⟨pre ++ (text ++ u),pre.length + text.length,eptr,count,0⟩ := by
  induction text generalizing pre with
  | nil => rfl
  | cons c text ih =>
    obtain ⟨⟨space,quote,comma,held⟩,rest⟩ := List.forall_mem_cons.mp clean
    have later := @ih (pre ++ [c]) rest
    rw [List.append_assoc,List.singleton_append,List.length_append,List.length_singleton] at later
    rw [List.length_cons,← Nat.add_assoc,List.cons_append,scan_outside _ _ space comma held,quote]
    simp only [Bool.false_eq_true,if_false]
    rw [later,Nat.add_assoc,Nat.add_comm 1]

private theorem scan_text (n : Nat) (quote : UInt8) (text : Bytes) (known : isQuote quote = true)
    (clean : ∀ c ∈ text, isQuote c = false ∧ c ≠ 0) :
    scan num [44] (n + text.length) ⟨pre ++ (text ++ u),pre.length,eptr,count,quote⟩ =
      scan num [44] n ⟨pre ++ (text ++ u),pre.length + text.length,eptr,count,quote⟩ := by
  induction text generalizing pre with
  | nil => rfl
  | cons c text ih =>
    obtain ⟨⟨other,held⟩,rest⟩ := List.forall_mem_cons.mp clean
    have within : quote ≠ 0 := by
      rintro rfl
      cases known
    have apart : c ≠ quote := by
      rintro rfl
      rw [known] at other
      cases other
    have later := @ih (pre ++ [c]) rest
    rw [List.append_assoc,List.singleton_append,List.length_append,List.length_singleton] at later
    rw [List.length_cons,← Nat.add_assoc,List.cons_append,scan_inside _ _ _ within held,if_neg apart]
    rw [later,Nat.add_assoc,Nat.add_comm 1]

/-- Both quotes are passed, and no comma between them is seen. -/
private theorem scan_written (n : Nat) (e : Element) :
    scan num [44] (n + e.written.length) ⟨pre ++ (e.written ++ u),pre.length,eptr,count,0⟩ =
      scan num [44] n ⟨pre ++ (e.written ++ u),pre.length + e.written.length,eptr,count,0⟩ := by
  cases e with
  | plain text clean => exact scan_plain n text clean
  | quoted quote text known clean =>
    obtain ⟨space,comma,held⟩ : isspace quote = false ∧ quote ≠ 44 ∧ quote ≠ 0 := by
      rcases (isQuote_iff quote).mp known with rfl | rfl <;> decide
    have inner := @scan_text num (pre ++ [quote]) (quote::u) eptr count (n + 1) quote text known clean
    have close := @scan_inside num (pre ++ quote::text) u eptr count n quote quote held held
    simp only [List.append_assoc,List.cons_append,List.nil_append,List.length_append,List.length_cons,List.length_nil,
      Nat.zero_add,if_true] at inner close
    simp only [Element.written,List.append_assoc,List.cons_append,List.nil_append,List.length_append,List.length_cons,
      List.length_nil,Nat.zero_add]
    have count' : n + (text.length + 1 + 1) = n + 1 + text.length + 1 := by omega
    rw [count',scan_outside _ _ space comma held,if_pos known,inner]
    have place : pre.length + 1 + text.length = pre.length + (text.length + 1) := by omega
    rw [place,close]
    rfl

private theorem scan_comma (n : Nat) : scan num [44] (n + 1) ⟨pre ++ 44::u,pre.length,eptr,count,0⟩ =
    if count = num then some ⟨pre ++ 44::u,pre.length,eptr,count,0⟩
    else scan num [44] n
      ⟨pre ++ 44::u,pre.length + 1,if isQuote (u.headD 0) then pre.length + 2 else pre.length + 1,count + 1,0⟩ := by
  have first : charAt [44] 0 = some 44 := rfl
  have second : charAt [44] 1 = some 0 := rfl
  have next : charAt (pre ++ 44::u) (pre.length + 1) = some (u.headD 0) := charAt_next pre u 44
  have looked : lookAhead (pre ++ 44::u) [44] 2 (pre.length + 1) 1 = some (pre.length + 1,1) := by
    rw [lookAhead,next,second]
    simp
  have visible : isspace 44 = false ∧ isQuote 44 = false := by decide
  rw [scan,charAt_append]
  simp [first,second,next,looked,visible]

end

private theorem isQuote_head (e : Element) (others : List Element) :
    isQuote ((commaSeparated e others).headD 0) = e.isQuoted := by
  cases e with
  | quoted quote text known clean => exact known
  | plain text clean =>
    cases text with
    | cons c text => exact (clean c List.mem_cons_self).2.1
    | nil => cases others <;> rfl

/-- Where the loop leaves its cursors for the element wanted: `eptr` as it was at the first
one, and behind an opening quote at the others. -/
private theorem scan_elements (k : Nat) (others : List Element) (e : Element) (pre : Bytes) (n eptr count : Nat)
    (enough : e.written.length + (behindCommas others).length < n) (before : count ≤ k) :
    ∃ s, scan k [44] n ⟨pre ++ commaSeparated e others,pre.length,eptr,count,0⟩ = some s ∧
      s.string = pre ++ commaSeparated e others ∧
      (k = count → s.count = k ∧ s.eptr = eptr ∧ s.src = pre.length + e.written.length) ∧
      (∀ i g, k = count + 1 + i → others[i]? = some g → s.count = k ∧ ∃ a b, s.string = a ++ (g.written ++ b) ∧
        s.eptr = (if g.isQuoted then a.length + 1 else a.length) ∧ s.src = a.length + g.written.length) ∧
      (∀ i, k = count + 1 + i → others[i]? = none → s.count ≠ k) := by
  induction others generalizing e pre n eptr count with
  | nil =>
    obtain ⟨n,rfl⟩ : ∃ m, n = m + 1 + e.written.length := ⟨n - e.written.length - 1,by omega⟩
    have passed := @scan_written k pre [] eptr count (n + 1) e
    rw [List.append_nil,← List.length_append,scan_end] at passed
    have whole : commaSeparated e [] = e.written := List.append_nil _
    rw [whole]
    refine ⟨_,passed,rfl,fun same => ⟨same.symm,rfl,List.length_append⟩,fun i g _ there => ?_,fun i later _ same => ?_⟩
    · cases there
    · change count = k at same
      omega
  | cons f others ih =>
    have whole : commaSeparated e (f::others) = e.written ++ 44::commaSeparated f others := rfl
    have length : (behindCommas (f::others)).length = f.written.length + (behindCommas others).length + 1 := by
      simp [behindCommas,Nat.add_right_comm]
    obtain ⟨n,rfl⟩ : ∃ m, n = m + 1 + e.written.length := ⟨n - e.written.length - 1,by omega⟩
    have passed := @scan_written k pre (44::commaSeparated f others) eptr count (n + 1) e
    have comma := @scan_comma k (pre ++ e.written) (commaSeparated f others) eptr count n
    rw [List.append_assoc,List.length_append] at comma
    rw [whole,passed,comma]
    by_cases last : count = k
    · rw [if_pos (by exact_mod_cast last)]
      refine ⟨_,rfl,rfl,fun _ => ⟨last,rfl,rfl⟩,fun i g later _ => ?_,fun i later _ => ?_⟩ <;> omega
    · rw [if_neg (by exact_mod_cast last)]
      obtain ⟨s,found,same,here,others',none⟩ := ih f (pre ++ (e.written ++ [44])) n
        (if f.isQuoted then pre.length + e.written.length + 2 else pre.length + e.written.length + 1) (count + 1)
        (by omega) (by omega)
      have joined : pre ++ (e.written ++ [44]) ++ commaSeparated f others = pre ++ (e.written ++ 44::commaSeparated f others) := by
        simp
      have place : (pre ++ (e.written ++ [44])).length = pre.length + e.written.length + 1 := by
        simp
        omega
      rw [joined,place] at found
      rw [joined] at same
      rw [isQuote_head]
      refine ⟨s,found,same,fun equal => absurd equal.symm last,fun i g later there => ?_,fun i later absent => ?_⟩
      · cases i with
        | zero =>
          obtain rfl := Option.some.inj there
          obtain ⟨reached,eptr',src⟩ := here (by omega)
          refine ⟨reached,pre ++ (e.written ++ [44]),behindCommas others,?_,?_,?_⟩
          · rw [same,← joined]
            rfl
          · rw [eptr',place]
          · exact src
        | succ i => exact others' i g (by omega) there
      · cases i with
        | zero => cases absent
        | succ i => exact none i (by omega) absent

/-- What is copied from the start of an element, or from behind its opening quote. -/
private theorem copyElement_written (e : Element) (a b : Bytes) : (do
    let dest ← copyElement (a ++ (e.written ++ b)) (a.length + e.written.length -
      (if e.isQuoted then a.length + 1 else a.length)) (if e.isQuoted then a.length + 1 else a.length) []
    if dest.length < 1024 then pure (dest,a ++ (e.written ++ b)) else none) =
      if e.text.length < 1024 then some (e.text,a ++ (e.written ++ b)) else none := by
  have ended (s dest : Bytes) : (if dest.length < 1024 then pure (dest,s) else none) =
      if dest.length < 1024 then some (dest,s) else none := rfl
  cases e with
  | plain text clean =>
    have copied := copyElement_text 0 a text b [] (fun c inside => (clean c inside).2.1) (Nat.zero_le _)
    simp only [Element.written,Element.isQuoted,Element.text,Bool.false_eq_true,if_false,Nat.add_sub_cancel_left]
    rw [Nat.zero_add] at copied
    rw [copied]
    by_cases short : text.length < 1024
    · simp [copyElement,short,Nat.le_of_lt short]
    · by_cases full : text.length ≤ 1024 <;> simp [copyElement,short,full]
  | quoted quote text known clean =>
    have copied := copyElement_text 1 (a ++ [quote]) text (quote::b) [] (fun c inside => (clean c inside).1) (Nat.zero_le _)
    have stop : charAt (a ++ quote::(text ++ quote::b)) (a.length + 1 + text.length) = some quote := by
      have read := charAt_append (a ++ quote::text) (quote::b)
      simp only [List.append_assoc,List.cons_append,List.length_append,List.length_cons,List.headD_cons] at read
      rwa [Nat.add_assoc,Nat.add_comm 1]
    have length : a.length + (quote::(text ++ [quote])).length - (a.length + 1) = 1 + text.length := by
      simp
      omega
    simp only [List.append_assoc,List.cons_append,List.nil_append,List.length_append,List.length_cons,List.length_nil,
      Nat.zero_add] at copied
    simp only [Element.written,Element.isQuoted,Element.text,if_true,length,List.append_assoc,List.cons_append,
      List.nil_append]
    rw [copied]
    by_cases short : text.length < 1024
    · simp [copyElement,stop,known,short,Nat.le_of_lt short]
    · by_cases full : text.length ≤ 1024 <;> simp [copyElement,stop,known,short,full]

section
variable (first : Element) (others : List Element)

private theorem strele_behind (k : Nat) : strele (k + 1 : Nat) [44] (commaSeparated first others) = match others[k]? with
    | none => some ([],commaSeparated first others)
    | some e => if e.text.length < 1024 then some (e.text,commaSeparated first others) else none := by
  obtain ⟨s,found,same,-,there,past⟩ := scan_elements (k + 1) others first [] ((commaSeparated first others).length + 1) 0 0
    (by rw [commaSeparated,List.length_append]; omega) (Nat.zero_le _)
  rw [List.nil_append] at found same
  have loop : scan (k + 1 : Nat) [44] ((commaSeparated first others).length + 1) ⟨commaSeparated first others,0,0,0,0⟩ =
    some s := found
  rw [strele,loop]
  simp only [Option.bind_eq_bind,Option.bind_some]
  cases wanted : others[k]? with
  | none =>
    have other : ¬ (s.count : Int) = (k + 1 : Nat) := by exact_mod_cast past k (by omega) wanted
    rw [if_neg other,same]
    rfl
  | some e =>
    obtain ⟨reached,a,b,whole,start,stop⟩ := there k e (by omega) wanted
    have reached' : (s.count : Int) = (k + 1 : Nat) := by exact_mod_cast reached
    have copied := copyElement_written e a b
    rw [← whole,← start,← stop] at copied
    rw [if_pos reached']
    exact copied.trans (same ▸ rfl)

/-- `eptr` is at the opening quote of the first element, where the copy ends at once. -/
private theorem strele_front : strele 0 [44] (commaSeparated first others) =
    if first.isQuoted then some ([],commaSeparated first others)
    else if first.text.length < 1024 then some (first.text,commaSeparated first others) else none := by
  obtain ⟨s,found,same,here,-,-⟩ := scan_elements 0 others first [] ((commaSeparated first others).length + 1) 0 0
    (by rw [commaSeparated,List.length_append]; omega) (Nat.zero_le _)
  rw [List.nil_append] at found same
  have loop : scan 0 [44] ((commaSeparated first others).length + 1) ⟨commaSeparated first others,0,0,0,0⟩ = some s := found
  obtain ⟨reached,start,stop⟩ := here rfl
  have reached' : (s.count : Int) = 0 := by exact_mod_cast reached
  rw [List.length_nil,Nat.zero_add] at stop
  rw [strele,loop]
  simp only [Option.bind_eq_bind,Option.bind_some]
  rw [if_pos reached',start,stop,Nat.sub_zero,same]
  have copied := copyElement_written first [] (behindCommas others)
  cases first with
  | plain text clean =>
    simp only [Element.isQuoted,List.length_nil,Bool.false_eq_true,if_false,Nat.zero_add,Nat.sub_zero] at copied
    exact copied
  | quoted quote text known clean =>
    have front : charAt (commaSeparated (.quoted quote text known clean) others) 0 = some quote := rfl
    simp [Element.written,Element.isQuoted,copyElement,front,known]

/-- The k-th element without its quotes is returned exactly where it has room in the result,
and is not a first one with something between quotes. -/
theorem strele_elements_iff (k : Nat) :
    strele k [44] (commaSeparated first others) =
      some (((first::others).map Element.text).getD k [],commaSeparated first others) ↔
    ∀ e, (first::others)[k]? = some e → e.text.length < 1024 ∧ (k = 0 → e.isQuoted = true → e.text = []) := by
  cases k with
  | zero =>
    have front := strele_front first others
    rw [Nat.cast_zero,front]
    by_cases quoted : first.isQuoted = true
    · by_cases empty : first.text = []
      · simp [quoted,empty]
      · simp [quoted,empty,Ne.symm empty]
    · by_cases short : first.text.length < 1024 <;> simp [quoted,short]
  | succ k =>
    rw [strele_behind]
    simp only [List.map_cons,List.getElem?_cons_succ,List.getD_eq_getElem?_getD,List.getElem?_map]
    cases wanted : others[k]? with
    | none => simp
    | some e => by_cases short : e.text.length < 1024 <;> simp [short]

/-- `'a,b',c`, of which the first element comes out empty. -/
theorem strele_elements_first :
    strele 0 (bytes ",") (bytes "'a,b',c") = some ([],bytes "'a,b',c") ∧
    (∃ first others, (first::others).map Element.text = [bytes "a,b",bytes "c"] ∧
      commaSeparated first others = bytes "'a,b',c") ∧
    ¬ ∀ k : Nat, strele k [44] (bytes "'a,b',c") = some ([bytes "a,b",bytes "c"].getD k [],bytes "'a,b',c") := by
  have empty : strele 0 (bytes ",") (bytes "'a,b',c") = some ([],bytes "'a,b',c") := by decide +kernel
  refine ⟨empty,⟨.quoted 39 (bytes "a,b") (by decide) (by decide +kernel),[.plain (bytes "c") (by decide +kernel)],rfl,
    by decide +kernel⟩,fun all => ?_⟩
  have zero := (all 0).symm.trans empty
  exact absurd zero (by decide)

end

end Jbdtool.Strele
