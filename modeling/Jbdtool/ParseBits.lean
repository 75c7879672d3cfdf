import Jbdtool.Params
import Jbdtool.Base.Tokens
import Jbdtool.Base.Numerals

/-! What parse_bits makes of a text: a number, or the names that its scan cuts out of a
list. -/
namespace Jbdtool
open CString Tokens

/-- The row that the label loop stops at: a token is cut to the 31 bytes `label` has room for. -/
def matching (bits : List JbdBit) (token : Bytes) : Option JbdBit :=
  bits.find? (fun bp => caseEqual bp.label (token.take 31))

def unknownName (bits : List JbdBit) (token : Bytes) : Bytes :=
  bytes "error: unknown bit name: " ++ token.take 31 ++ bytes "\nvalid names are:" ++
    bits.flatMap (fun bp => 32::bp.label) ++ bytes "\n"

/-- The label loop on the tokens of a list. -/
def tokensMask (bits : List JbdBit) : List Bytes → UInt16 → Except Bytes UInt16
  | [], mask => .ok mask
  | token::rest, mask => match matching bits token with
    | none => .error (unknownName bits token)
    | some bp => tokensMask bits rest (mask ||| bp.mask)

def masks (chosen : List JbdBit) (mask : UInt16) : UInt16 := chosen.foldl (fun mask bp => mask ||| bp.mask) mask

private theorem parseLabels_tokens (bits : List JbdBit) (fuel : Nat) (p : Bytes) (mask : UInt16) (enough : p.length < fuel) :
    parseLabels bits fuel p mask = tokensMask bits (tokens isSeparator p) mask := by
  induction fuel generalizing p mask with
  | zero => omega
  | succ fuel ih =>
    rw [← tokens_dropWhile p]
    have shorter := (List.dropWhile_suffix isSeparator (l := p)).length_le
    unfold parseLabels
    by_cases ended : p.dropWhile isSeparator = []
    · simp [ended,tokensMask]
    · have start : ∀ c ∈ (p.dropWhile isSeparator).head?, isSeparator c = false := by
        intro c first
        have stopped := List.head?_dropWhile_not isSeparator p
        rw [Option.mem_def.mp first] at stopped
        simpa using stopped
      obtain ⟨cut,clean⟩ := tokens_takeWhile start ended
      have parts := congrArg List.length
        (List.takeWhile_append_dropWhile (p := fun c => !isSeparator c) (l := p.dropWhile isSeparator))
      have some := List.length_pos_of_ne_nil clean.1
      rw [List.length_append] at parts
      rw [cut]
      simp only [ended,if_false,tokensMask,matching,unknownName]
      cases bits.find? (fun bp => caseEqual bp.label
          (((p.dropWhile isSeparator).takeWhile (fun c => !isSeparator c)).take 31)) with
      | none => rfl
      | some bp => exact ih _ _ (by omega)

theorem tokens_blanks (value : Bytes) : tokens isSeparator (value.dropWhile isspace) = tokens isSeparator value := by
  have front : ∀ c ∈ value.takeWhile isspace, isSeparator c = true := by
    intro c member
    simp [isSeparator,List.mem_takeWhile_imp member]
  calc
    tokens isSeparator (value.dropWhile isspace) =
        tokens isSeparator (value.takeWhile isspace ++ value.dropWhile isspace) := (tokens_separators front _).symm
    _ = tokens isSeparator value := by rw [List.takeWhile_append_dropWhile]

theorem parseBits_blank (value : Bytes) (bits : List JbdBit) (blank : trimmed value = []) :
    ∃ message, parseBits value bits = .error message := by
  have ended : value.dropWhile isspace = [] := by
    rw [List.dropWhile_eq_nil_iff]
    exact (trimmed_eq_nil value).mp blank
  simp [parseBits,ended]

private theorem strtol_value (value : Bytes) (some : trimmed value ≠ []) :
    value.dropWhile isspace ≠ [] ∧ (strtol 0 (value.dropWhile isspace)).1 = (strtol 0 (trimmed value)).1 ∧
      ((strtol 0 (value.dropWhile isspace)).2 ≠ value.dropWhile isspace ∧
        (strtol 0 (value.dropWhile isspace)).2.dropWhile isspace = [] ↔ (strtol 0 (trimmed value)).2 = []) := by
  obtain ⟨blanks,white,parts,first,last⟩ := trimmed_spec value
  obtain ⟨read,suffix⟩ := strtol_blanks 0 (trimmed value) blanks first some white
  rw [parts,read]
  refine ⟨by simp [some],rfl,?_⟩
  rw [List.dropWhile_eq_nil_iff]
  constructor
  · rintro ⟨-,all⟩
    by_contra left
    obtain ⟨front,whole⟩ := suffix
    have final : (trimmed value).getLast? = (strtol 0 (trimmed value)).2.getLast? := by
      conv_lhs => rw [← whole]
      rw [List.getLast?_append_of_ne_nil _ left]
    have space := all _ (List.mem_append_left blanks (List.getLast_mem left))
    rw [List.getLast?_eq_some_getLast left] at final
    rw [last _ final] at space
    cases space
  · intro ended
    rw [ended]
    exact ⟨by simpa using Ne.symm some,white⟩

private theorem clamp_range (n : Int) : (clamp n < 0 ↔ n < 0) ∧ (clamp n > 0xFFFF ↔ n > 0xFFFF) ∧
    (0 ≤ n → n ≤ 0xFFFF → clamp n = n) := by
  unfold clamp longMax
  omega

theorem parseBits_numeral (value : Bytes) (bits : List JbdBit) (n : Int) (number : Signed Constant (trimmed value) n) :
    parseBits value bits = if n < 0 ∨ n > 0xFFFF then .error (bytes "error: value out of range: " ++ value ++ bytes "\n")
      else .ok (UInt16.ofInt n) := by
  obtain ⟨-,-,-,first,-⟩ := trimmed_spec value
  have some : trimmed value ≠ [] := by
    intro empty
    rw [empty,signed_iff 0 Constant reads_constant] at number
    obtain ⟨m,digits,-⟩ := number
    have read := ((reads_constant _ m).mp digits).1
    exact read rfl
  obtain ⟨nonempty,same,whole⟩ := strtol_value value some
  have read := strtol_numeral 0 Constant reads_constant (trimmed value) first n number
  obtain ⟨low,high,inside⟩ := clamp_range n
  unfold parseBits
  simp only
  rw [if_neg nonempty,if_pos (whole.mpr (by rw [read])),same,read]
  simp only [low,high]
  split_ifs with outside
  · rfl
  · rw [inside (by omega) (by omega)]

theorem parseBits_names (value : Bytes) (bits : List JbdBit) (some : trimmed value ≠ [])
    (list : ∀ n, ¬ Signed Constant (trimmed value) n) :
    parseBits value bits = tokensMask bits (tokens isSeparator value) 0 := by
  obtain ⟨-,-,-,first,-⟩ := trimmed_spec value
  obtain ⟨nonempty,-,whole⟩ := strtol_value value some
  have unread := strtol_unread 0 Constant reads_constant (trimmed value) first some list
  unfold parseBits
  simp only
  rw [if_neg nonempty,if_neg (fun read => unread (whole.mp read)),parseLabels_tokens _ _ _ _ (by omega),tokens_blanks]

theorem tokensMask_ok (bits : List JbdBit) (list : List Bytes) (mask result : UInt16) :
    tokensMask bits list mask = .ok result ↔
      ∃ chosen, list.map (matching bits) = chosen.map some ∧ result = masks chosen mask := by
  induction list generalizing mask with
  | nil =>
    constructor
    · intro same
      exact ⟨[],rfl,(Except.ok.inj same).symm⟩
    · rintro ⟨chosen,none,rfl⟩
      obtain rfl : chosen = [] := by simpa using none.symm
      rfl
  | cons token list ih =>
    unfold tokensMask
    cases found : matching bits token with
    | none =>
      simp only [reduceCtorEq,false_iff]
      rintro ⟨chosen,same,-⟩
      cases chosen with
      | nil => cases same
      | cons bp chosen => simp [found] at same
    | some bp =>
      simp only [ih]
      constructor
      · rintro ⟨chosen,same,rfl⟩
        exact ⟨bp::chosen,by simp [found,same],rfl⟩
      · rintro ⟨chosen,same,rfl⟩
        cases chosen with
        | nil => cases same
        | cons other chosen =>
          obtain ⟨first,rest⟩ := List.cons.inj same
          rw [found] at first
          cases first
          exact ⟨chosen,rest,rfl⟩

theorem matching_mem {bits : List JbdBit} {list : List Bytes} {chosen : List JbdBit}
    (same : list.map (matching bits) = chosen.map some) : ∀ bp ∈ chosen, bp ∈ bits := by
  intro bp member
  have found : some bp ∈ list.map (matching bits) := by
    rw [same]
    exact List.mem_map_of_mem member
  obtain ⟨token,-,here⟩ := List.mem_map.mp found
  exact List.mem_of_find?_eq_some here

theorem tokensMask_error (bits : List JbdBit) (list : List Bytes) (mask : UInt16)
    (unknown : ∃ token ∈ list, matching bits token = none) : ∃ message, tokensMask bits list mask = .error message := by
  cases result : tokensMask bits list mask with
  | error message => exact ⟨message,rfl⟩
  | ok m =>
    obtain ⟨chosen,same,-⟩ := (tokensMask_ok bits list mask m).mp result
    obtain ⟨token,member,none⟩ := unknown
    have found := List.mem_map_of_mem (f := matching bits) member
    rw [none,same] at found
    simp at found

def joined (sepstr : Bytes) : List Bytes → Bytes
  | [] => []
  | first::rest => first ++ rest.flatMap (sepstr ++ ·)

private theorem tokensMask_labels (bits chosen : List JbdBit) (mask : UInt16)
    (found : ∀ bp ∈ chosen, (matching bits bp.label).map JbdBit.mask = some bp.mask) :
    tokensMask bits (chosen.map JbdBit.label) mask = .ok (masks chosen mask) := by
  induction chosen generalizing mask with
  | nil => rfl
  | cons bp chosen ih =>
    obtain ⟨here,others⟩ := List.forall_mem_cons.mp found
    obtain ⟨row,known,same⟩ := Option.map_eq_some_iff.mp here
    simp only [List.map_cons,tokensMask,known,same]
    exact ih (mask ||| bp.mask) others

/-- A list of labels, whatever separates them, is the union of their masks. -/
theorem parseBits_labels {bits chosen : List JbdBit} (some : chosen ≠ []) (c : UInt8) (separator : isSeparator c = true)
    (clean : ∀ bp ∈ chosen, Clean isSeparator bp.label)
    (letter : ∀ bp ∈ chosen, ∀ c ∈ bp.label.head?, isdigit c = false ∧ c ≠ 45 ∧ c ≠ 43)
    (found : ∀ bp ∈ chosen, (matching bits bp.label).map JbdBit.mask = .some bp.mask) :
    parseBits (joined [c] (chosen.map JbdBit.label)) bits = .ok (masks chosen 0) := by
  obtain ⟨bp,rest,rfl⟩ := List.exists_cons_of_ne_nil some
  have parts : ∀ t ∈ bp.label::rest.map JbdBit.label, Clean isSeparator t := by
    intro t member
    obtain ⟨other,picked,rfl⟩ := List.mem_map.mp (show t ∈ (bp::rest).map JbdBit.label from member)
    exact clean other picked
  have cut : tokens isSeparator (joined [c] ((bp::rest).map JbdBit.label)) = (bp::rest).map JbdBit.label :=
    tokens_joined separator bp.label (rest.map JbdBit.label) parts
  obtain ⟨nonempty,visible⟩ := clean bp List.mem_cons_self
  obtain ⟨d,tail,label⟩ := List.exists_cons_of_ne_nil nonempty
  have first := letter bp List.mem_cons_self d (by simp [label])
  have space : isspace d = false := by
    have token := visible d (by simp [label])
    simp only [isSeparator,Bool.or_eq_false_iff] at token
    exact token.1.1.1
  obtain ⟨text,start⟩ : ∃ text, trimmed (joined [c] ((bp::rest).map JbdBit.label)) = d::text := by
    rw [List.map_cons,joined,label]
    exact trimmed_cons d _ space
  have list : ∀ n, ¬ Signed Constant (trimmed (joined [c] ((bp::rest).map JbdBit.label))) n := by
    rw [start]
    exact signed_letter d text first
  rw [parseBits_names _ bits (by rw [start]; simp) list,cut]
  exact tokensMask_labels bits (bp::rest) 0 found

end Jbdtool
