import Jbdtool.Json.Accepted

/-! What the serializer prints, compact or pretty, is a text of the value; so it is read
back, and what was read once is read back from what is printed of it. -/
namespace Jbdtool
open CString Numbers
namespace Json

mutual

/-- Distinct names free of NULs, and no nesting the parser would refuse. -/
def WellFormed (nesting : Nat) : Json → Prop
  | .array items => nesting ≤ 2048 ∧ WellFormedItems (nesting + 1) items
  | .object members => nesting ≤ 2048 ∧ (members.map Prod.fst).Nodup ∧ WellFormedMembers (nesting + 1) members
  | .null | .boolean _ | .number _ | .string _ => nesting ≤ 2048

def WellFormedItems (nesting : Nat) : List Json → Prop
  | [] => True
  | item::items => WellFormed nesting item ∧ WellFormedItems nesting items

def WellFormedMembers (nesting : Nat) : List (Bytes × Json) → Prop
  | [] => True
  | (name,value)::members => 0 ∉ name ∧ WellFormed nesting value ∧ WellFormedMembers nesting members

end

mutual

def numbers : Json → List ℚ
  | .number x => [x]
  | .array items => numbersItems items
  | .object members => numbersMembers members
  | .null | .boolean _ | .string _ => []

def numbersItems : List Json → List ℚ
  | [] => []
  | item::items => numbers item ++ numbersItems items

def numbersMembers : List (Bytes × Json) → List ℚ
  | [] => []
  | (_,value)::members => numbers value ++ numbersMembers members

end

private theorem isDecimal_plain (n : Scientific) (plain : n.Plain) : isDecimal n.text = true := by
  obtain ⟨d,digits,whole,zero⟩ := plain
  obtain ⟨-,minus,-,null⟩ := digit_byte d (n.decimal d (by simp [whole]))
  unfold Scientific.text Scientific.signText
  rw [whole]
  by_cases lead : d = 0
  · obtain ⟨rfl,bare⟩ := zero lead
    subst lead
    unfold Scientific.fractionText
    cases fraction : n.fraction with
    | none =>
      have exponent : n.exponentText = [] := by rw [Scientific.exponentText,bare fraction]
      rw [exponent]
      cases n.negative <;> rfl
    | some run => cases n.negative <;> rfl
  · have other : UInt8.ofNat (48 + d) ≠ 48 := fun same => lead (null.mp same)
    rw [digitsText,List.map_cons]
    generalize UInt8.ofNat (48 + d) = c at minus other
    cases n.negative <;> simp [isDecimal,minus,other]

/-- A double that is not subnormal is read back from its seventeen digits. -/
private theorem numeral_showG17 (x : ℚ) (normal : Normal x) : Numeral (showG17 x) x := by
  obtain ⟨n,shown,plain,near,digits⟩ := showG17_text x
  have back := roundDouble_digits x n.value normal.1.1 near
  have front : n.whole ≠ [] := by
    obtain ⟨d,run,whole,-⟩ := plain
    simp [whole]
  refine ⟨n,shown,.inr front,by rw [shown]; exact isDecimal_plain n plain,?_,back.symm⟩
  simp only [outOfRange,back,Bool.or_eq_false_iff,Bool.and_eq_false_iff,decide_eq_false_iff_not,not_le,ne_eq,not_not]
  refine ⟨normal.1.2,?_⟩
  by_cases zero : x = 0
  · have same : n.value = 0 := by
      rw [zero,abs_zero,sub_zero] at near
      have := abs_nonneg n.value
      exact abs_eq_zero.mp (by linarith)
    exact .inr (by rw [zero,same])
  · exact .inl (not_lt.mpr (showG17_normal x n.value normal zero near digits))

private theorem spells_escaped (s : Bytes) : Spells (s.flatMap escape) s :=
  spells_of_processString _ s (fun rest => skipQuotes_text s rest) (processString_text s)

private theorem textItems_behind (nesting : Nat) (items : List Json) (body w : Bytes) (blank : Blank w)
    (text : TextItems nesting items body) : TextItems nesting items (body ++ w) := by
  induction items generalizing body with
  | nil => exact blank_append body w text blank
  | cons item items ih =>
    rw [TextItems] at text ⊢
    obtain ⟨w',t,w₂,tail,rfl,blank',inner,blank₂,⟨rfl,rfl⟩ | ⟨nonempty,more,rfl,later⟩⟩ := text
    · exact ⟨w',t,w₂ ++ w,[],by simp,blank',inner,blank_append w₂ w blank₂ blank,.inl ⟨rfl,rfl⟩⟩
    · exact ⟨w',t,w₂,_,by simp,blank',inner,blank₂,.inr ⟨nonempty,more ++ w,rfl,ih more later⟩⟩

private theorem textMembers_behind (nesting : Nat) (members : List (Bytes × Json)) (body w : Bytes) (blank : Blank w)
    (text : TextMembers nesting members body) : TextMembers nesting members (body ++ w) := by
  induction members generalizing body with
  | nil => exact blank_append body w text blank
  | cons m members ih =>
    obtain ⟨name,value⟩ := m
    rw [TextMembers] at text ⊢
    obtain ⟨w',label,w₁,w₂,t,w₃,tail,rfl,blank',spells,clean,blank₁,blank₂,inner,blank₃,others⟩ := text
    rcases others with ⟨rfl,rfl⟩ | ⟨nonempty,more,rfl,later⟩
    · exact ⟨w',label,w₁,w₂,t,w₃ ++ w,[],by simp,blank',spells,clean,blank₁,blank₂,inner,blank_append w₃ w blank₃ blank,
        .inl ⟨rfl,rfl⟩⟩
    · exact ⟨w',label,w₁,w₂,t,w₃,_,by simp,blank',spells,clean,blank₁,blank₂,inner,blank₃,
        .inr ⟨nonempty,more ++ w,rfl,ih more later⟩⟩

private theorem blank_indent (level : Nat) : Blank (indent level) := by
  intro c member
  obtain ⟨run,four,inside⟩ := List.mem_flatten.mp member
  rw [List.eq_of_mem_replicate four] at inside
  have spaces : (bytes "    ").all isspace = true := by decide
  exact List.all_eq_true.mp spaces c inside

private theorem blank_if (pretty : Bool) (w : Bytes) (blank : Blank w) : Blank (if pretty then w else []) := by
  cases pretty with
  | true => exact blank
  | false => simp [Blank]

mutual

theorem text_serialize (pretty : Bool) : ∀ (v : Json) (nesting level : Nat), WellFormed nesting v →
    (∀ x ∈ numbers v, Normal x) → Text nesting v (serialize pretty level v)
  | .null, nesting, level, formed, _ => by
    rw [WellFormed] at formed
    rw [Text,serialize]
    exact ⟨formed,rfl⟩
  | .boolean b, nesting, level, formed, _ => by
    rw [WellFormed] at formed
    rw [Text,serialize]
    exact ⟨formed,rfl⟩
  | .number x, nesting, level, formed, normal => by
    rw [WellFormed] at formed
    rw [numbers] at normal
    rw [Text,serialize]
    exact ⟨formed,numeral_showG17 x (normal x List.mem_cons_self)⟩
  | .string s, nesting, level, formed, _ => by
    rw [WellFormed] at formed
    rw [Text,serialize]
    exact ⟨formed,s.flatMap escape,by simp [serializeString],spells_escaped s⟩
  | .array [], nesting, level, formed, _ => by
    rw [WellFormed] at formed
    rw [Text,serialize]
    exact ⟨formed.1,[],rfl,by simp [TextItems,Blank]⟩
  | .array (item::items), nesting, level, formed, normal => by
    rw [WellFormed] at formed
    rw [numbers] at normal
    have inner := textItems_serialize pretty (item::items) (nesting + 1) level formed.2 normal
    have line := textItems_blank _ _ (if pretty then [10] else []) _ (blank_if pretty [10] (by simp [Blank]; decide)) inner
    have whole := textItems_behind _ _ _ _ (blank_if pretty _ (blank_indent level)) line
    rw [Text,serialize]
    exact ⟨formed.1,_,by simp,whole⟩
  | .object [], nesting, level, formed, _ => by
    rw [WellFormed] at formed
    rw [Text,serialize]
    exact ⟨formed.1,formed.2.1,[],rfl,by simp [TextMembers,Blank]⟩
  | .object (m::members), nesting, level, formed, normal => by
    rw [WellFormed] at formed
    rw [numbers] at normal
    have inner := textMembers_serialize pretty (m::members) (nesting + 1) level formed.2.2 normal
    have line := textMembers_blank _ _ (if pretty then [10] else []) _ (blank_if pretty [10] (by simp [Blank]; decide)) inner
    have whole := textMembers_behind _ _ _ _ (blank_if pretty _ (blank_indent level)) line
    rw [Text,serialize]
    exact ⟨formed.1,formed.2.1,_,by simp,whole⟩

theorem textItems_serialize (pretty : Bool) : ∀ (items : List Json) (nesting level : Nat), WellFormedItems nesting items →
    (∀ x ∈ numbersItems items, Normal x) → TextItems nesting items (serializeItems pretty level items)
  | [], _, _, _, _ => by
    rw [TextItems,serializeItems]
    simp [Blank]
  | item::items, nesting, level, formed, normal => by
    rw [WellFormedItems] at formed
    rw [numbersItems,List.forall_mem_append] at normal
    have first := text_serialize pretty item nesting (level + 1) formed.1 normal.1
    have others := textItems_serialize pretty items nesting level formed.2 normal.2
    have line : Blank (if pretty then [10] else []) := blank_if pretty [10] (by simp [Blank]; decide)
    rw [TextItems,serializeItems]
    cases items with
    | nil =>
      exact ⟨_,_,_,[],by simp [serializeItems],blank_if pretty _ (blank_indent (level + 1)),first,line,.inl ⟨rfl,rfl⟩⟩
    | cons next items =>
      exact ⟨_,_,[],_,by simp,blank_if pretty _ (blank_indent (level + 1)),first,by simp [Blank],
        .inr ⟨by simp,_,rfl,textItems_blank _ _ _ _ line others⟩⟩

theorem textMembers_serialize (pretty : Bool) : ∀ (members : List (Bytes × Json)) (nesting level : Nat),
    WellFormedMembers nesting members → (∀ x ∈ numbersMembers members, Normal x) →
    TextMembers nesting members (serializeMembers pretty level members)
  | [], _, _, _, _ => by
    rw [TextMembers,serializeMembers]
    simp [Blank]
  | (name,value)::members, nesting, level, formed, normal => by
    rw [WellFormedMembers] at formed
    rw [numbersMembers,List.forall_mem_append] at normal
    have first := text_serialize pretty value nesting (level + 1) formed.2.1 normal.1
    have others := textMembers_serialize pretty members nesting level formed.2.2 normal.2
    have line : Blank (if pretty then [10] else []) := blank_if pretty [10] (by simp [Blank]; decide)
    have space : Blank (if pretty then [32] else []) := blank_if pretty [32] (by simp [Blank]; decide)
    rw [TextMembers,serializeMembers]
    cases members with
    | nil =>
      exact ⟨_,name.flatMap escape,[],_,_,_,[],by simp [serializeMembers,serializeString],blank_if pretty _ (blank_indent (level + 1)),
        spells_escaped name,formed.1,by simp [Blank],space,first,line,.inl ⟨rfl,rfl⟩⟩
    | cons next members =>
      exact ⟨_,name.flatMap escape,[],_,_,[],_,by simp [serializeString],blank_if pretty _ (blank_indent (level + 1)),
        spells_escaped name,formed.1,by simp [Blank],space,first,by simp [Blank],
        .inr ⟨by simp,_,rfl,textMembers_blank _ _ _ _ line others⟩⟩

end

private theorem blank_clean (w : Bytes) (blank : Blank w) : 0 ∉ w := fun member => absurd (blank 0 member) (by decide)

private theorem spells_clean (body s : Bytes) (spells : Spells body s) : 0 ∉ body := by
  have hex (a b c d : UInt8) (n : Nat) (value : hex4 a b c d = some n) : 0 ∉ [a,b,c,d] := by
    unfold hex4 at value
    split_ifs at value with digits
    exact fun member => absurd (List.all_eq_true.mp digits 0 member) (by decide)
  induction spells with
  | nil => simp
  | plain c body s printable _ _ _ ih =>
    refine List.not_mem_cons_of_ne_of_not_mem ?_ ih
    rintro rfl
    exact printable (by decide)
  | named c e body s escape _ ih =>
    refine List.not_mem_cons_of_ne_of_not_mem (by decide) (List.not_mem_cons_of_ne_of_not_mem ?_ ih)
    rintro rfl
    have none : unescape 0 = none := by decide
    rw [none] at escape
    cases escape
  | point a b c d n body s value _ _ ih =>
    have digits := hex a b c d n value
    simp only [List.mem_cons,List.not_mem_nil,or_false,not_or] at digits ⊢
    exact ⟨by decide,by decide,digits.1,digits.2.1,digits.2.2.1,digits.2.2.2,ih⟩
  | pair a b c d e f g h lead trail body s first _ second _ _ ih =>
    have digits := hex a b c d lead first
    have more := hex e f g h trail second
    simp only [List.mem_cons,List.not_mem_nil,or_false,not_or] at digits more ⊢
    exact ⟨by decide,by decide,digits.1,digits.2.1,digits.2.2.1,digits.2.2.2,by decide,by decide,more.1,more.2.1,more.2.2.1,
      more.2.2.2,ih⟩

private theorem numeral_clean (t : Bytes) (x : ℚ) (numeral : Numeral t x) : 0 ∉ t := by
  obtain ⟨n,rfl,-⟩ := numeral
  intro member
  rcases List.mem_append.mp member with sign | chars
  · unfold Scientific.signText at sign
    split_ifs at sign
    · exact absurd (List.mem_singleton.mp sign) (by decide)
    · cases sign
  · exact absurd (n.unsigned_chars 0 chars) (by decide)

mutual

private theorem text_clean : ∀ (v : Json) (nesting : Nat) (t : Bytes), Text nesting v t → 0 ∉ t
  | .null, _, _, text => by
    rw [Text] at text
    rw [text.2]
    decide
  | .boolean b, _, _, text => by
    rw [Text] at text
    rw [text.2]
    cases b <;> decide
  | .number x, _, t, text => by
    rw [Text] at text
    exact numeral_clean t x text.2
  | .string s, _, _, text => by
    rw [Text] at text
    obtain ⟨-,body,rfl,spells⟩ := text
    simp [spells_clean body s spells]
  | .array items, nesting, _, text => by
    rw [Text] at text
    obtain ⟨-,body,rfl,inner⟩ := text
    simp [textItems_clean items (nesting + 1) body inner]
  | .object members, nesting, _, text => by
    rw [Text] at text
    obtain ⟨-,-,body,rfl,inner⟩ := text
    simp [textMembers_clean members (nesting + 1) body inner]

theorem textItems_clean : ∀ (items : List Json) (nesting : Nat) (body : Bytes), TextItems nesting items body → 0 ∉ body
  | [], _, body, text => by
    rw [TextItems] at text
    exact blank_clean body text
  | item::items, nesting, _, text => by
    rw [TextItems] at text
    obtain ⟨w,t,w',tail,rfl,blank,inner,blank',⟨rfl,rfl⟩ | ⟨-,more,rfl,later⟩⟩ := text
    · simp [blank_clean w blank,text_clean item nesting t inner,blank_clean w' blank']
    · simp [blank_clean w blank,text_clean item nesting t inner,blank_clean w' blank',textItems_clean items nesting more later]

theorem textMembers_clean : ∀ (members : List (Bytes × Json)) (nesting : Nat) (body : Bytes),
    TextMembers nesting members body → 0 ∉ body
  | [], _, body, text => by
    rw [TextMembers] at text
    exact blank_clean body text
  | (name,value)::members, nesting, _, text => by
    rw [TextMembers] at text
    obtain ⟨w,label,w₁,w₂,t,w₃,tail,rfl,blank,spells,-,blank₁,blank₂,inner,blank₃,others⟩ := text
    have here := text_clean value nesting t inner
    have clean := spells_clean label name spells
    rcases others with ⟨-,rfl⟩ | ⟨-,more,rfl,later⟩
    · simp [blank_clean w blank,clean,blank_clean w₁ blank₁,blank_clean w₂ blank₂,here,blank_clean w₃ blank₃]
    · simp [blank_clean w blank,clean,blank_clean w₁ blank₁,blank_clean w₂ blank₂,here,blank_clean w₃ blank₃,
        textMembers_clean members nesting more later]

end

private theorem numeral_double (t : Bytes) (x : ℚ) (numeral : Numeral t x) : Double x := by
  obtain ⟨n,-,-,-,inside,rfl⟩ := numeral
  simp only [outOfRange,Bool.or_eq_false_iff,decide_eq_false_iff_not,not_le] at inside
  exact ⟨roundRat_representable 53 (-1074) n.value,inside.1⟩

mutual

private theorem text_wellFormed : ∀ (v : Json) (nesting : Nat) (t : Bytes), Text nesting v t →
    WellFormed nesting v ∧ ∀ x ∈ numbers v, Double x
  | .null, _, _, text => by
    rw [Text] at text
    rw [WellFormed,numbers]
    exact ⟨text.1,by simp⟩
  | .boolean b, _, _, text => by
    rw [Text] at text
    rw [WellFormed,numbers]
    exact ⟨text.1,by simp⟩
  | .number x, _, t, text => by
    rw [Text] at text
    rw [WellFormed,numbers]
    exact ⟨text.1,by simpa using numeral_double t x text.2⟩
  | .string s, _, _, text => by
    rw [Text] at text
    rw [WellFormed,numbers]
    exact ⟨text.1,by simp⟩
  | .array items, nesting, _, text => by
    rw [Text] at text
    obtain ⟨depth,body,-,inner⟩ := text
    obtain ⟨formed,double⟩ := textItems_wellFormed items (nesting + 1) body inner
    rw [WellFormed,numbers]
    exact ⟨⟨depth,formed⟩,double⟩
  | .object members, nesting, _, text => by
    rw [Text] at text
    obtain ⟨depth,distinct,body,-,inner⟩ := text
    obtain ⟨formed,double⟩ := textMembers_wellFormed members (nesting + 1) body inner
    rw [WellFormed,numbers]
    exact ⟨⟨depth,distinct,formed⟩,double⟩

theorem textItems_wellFormed : ∀ (items : List Json) (nesting : Nat) (body : Bytes), TextItems nesting items body →
    WellFormedItems nesting items ∧ ∀ x ∈ numbersItems items, Double x
  | [], _, _, _ => by
    rw [WellFormedItems,numbersItems]
    exact ⟨trivial,by simp⟩
  | item::items, nesting, _, text => by
    rw [TextItems] at text
    obtain ⟨w,t,w',tail,-,-,inner,-,others⟩ := text
    obtain ⟨formed,double⟩ := text_wellFormed item nesting t inner
    have rest : WellFormedItems nesting items ∧ ∀ x ∈ numbersItems items, Double x := by
      rcases others with ⟨rfl,-⟩ | ⟨-,more,-,later⟩
      · rw [WellFormedItems,numbersItems]
        exact ⟨trivial,by simp⟩
      · exact textItems_wellFormed items nesting more later
    rw [WellFormedItems,numbersItems]
    exact ⟨⟨formed,rest.1⟩,List.forall_mem_append.mpr ⟨double,rest.2⟩⟩

theorem textMembers_wellFormed : ∀ (members : List (Bytes × Json)) (nesting : Nat) (body : Bytes),
    TextMembers nesting members body → WellFormedMembers nesting members ∧ ∀ x ∈ numbersMembers members, Double x
  | [], _, _, _ => by
    rw [WellFormedMembers,numbersMembers]
    exact ⟨trivial,by simp⟩
  | (name,value)::members, nesting, _, text => by
    rw [TextMembers] at text
    obtain ⟨w,label,w₁,w₂,t,w₃,tail,-,-,-,clean,-,-,inner,-,others⟩ := text
    obtain ⟨formed,double⟩ := text_wellFormed value nesting t inner
    have rest : WellFormedMembers nesting members ∧ ∀ x ∈ numbersMembers members, Double x := by
      rcases others with ⟨rfl,-⟩ | ⟨-,more,-,later⟩
      · rw [WellFormedMembers,numbersMembers]
        exact ⟨trivial,by simp⟩
      · exact textMembers_wellFormed members nesting more later
    rw [WellFormedMembers,numbersMembers]
    exact ⟨⟨clean,formed,rest.1⟩,List.forall_mem_append.mpr ⟨double,rest.2⟩⟩

end

theorem parseString_of_text (v : Json) (t : Bytes) (text : Text 0 v t) : parseString t = some v := by
  have unmarked : skipBom (cstr t) = t := by
    rw [cstr_clean t (text_clean v 0 t text)]
    obtain ⟨c,s,rfl,-,-,other⟩ := text_head v 0 t text
    unfold skipBom
    split
    · rename_i same
      exact (other (List.cons.inj same).1).elim
    · rfl
  have ended : Behind [] := by
    intro c s same
    cases same
  apply parseString_of_reads t v []
  rw [unmarked]
  exact ⟨[],t,by simp,by simp [Blank],.inl ⟨text,longest_behind v 0 t [] text ended⟩⟩

theorem normal_half : Normal (1 / 2) := by
  have two : (2 : ℚ)^1 ≤ 2^1022 := pow_le_pow_right₀ (by norm_num) (by norm_num)
  have one : (1 : ℚ) < 2^1024 := one_lt_pow₀ (by norm_num) (by norm_num)
  refine ⟨⟨⟨1,-1,by decide,by decide,by norm_num⟩,?_⟩,.inr ?_⟩
  · rw [abs_of_pos (by norm_num)]
    exact lt_trans (by norm_num) one
  · rw [abs_of_pos (by norm_num)]
    calc
      (1 : ℚ) / 2^1022 ≤ 1 / 2^1 := one_div_le_one_div_of_le (by norm_num) two
      _ = 1 / 2 := by norm_num

/-- Every document whose numbers are doubles, none of them subnormal, is read back from either layout. -/
theorem parseString_printed (pretty : Bool) (v : Json) (formed : WellFormed 0 v) (normal : ∀ x ∈ numbers v, Normal x) :
    parseString (serialize pretty 0 v) = some v :=
  parseString_of_text v _ (text_serialize pretty v 0 0 formed normal)

theorem parseString_printed_pack : parseString (serialize true 0 (.object [([86],.array [.number (1 / 2),.string [34,10]])])) =
    some (.object [([86],.array [.number (1 / 2),.string [34,10]])]) := by
  apply parseString_printed
  · simp [WellFormed,WellFormedMembers,WellFormedItems]
  · simpa [numbers,numbersMembers,numbersItems] using normal_half

/-- What the parser accepts is well formed, and is read again from what is printed of it. -/
theorem parseString_reprinted (pretty : Bool) (text : Bytes) (v : Json) (read : parseString text = some v) :
    WellFormed 0 v ∧ (∀ x ∈ numbers v, Double x) ∧
      ((∀ x ∈ numbers v, x = 0 ∨ 1 / 2^1022 ≤ |x|) → parseString (serialize pretty 0 v) = some v) := by
  have known : WellFormed 0 v ∧ ∀ x ∈ numbers v, Double x := by
    obtain ⟨rest,w,t,-,-,⟨spelled,-⟩ | ⟨rfl,-,-⟩⟩ := reads_of_parseString text v read
    · exact text_wellFormed v 0 t spelled
    · have zero : Double 0 := ⟨⟨0,-1074,by decide,by decide,by simp⟩,by rw [abs_zero]; exact pow_pos (by norm_num) 1024⟩
      rw [WellFormed,numbers]
      exact ⟨by decide,by simpa using zero⟩
  obtain ⟨formed,double⟩ := known
  refine ⟨formed,double,fun large => ?_⟩
  exact parseString_of_text v _ (text_serialize pretty v 0 0 formed fun x member => ⟨double x member,large x member⟩)

theorem parseString_reprinted_pack : parseString (serialize false 0 (.array [.boolean true,.number (1 / 2)])) =
    some (.array [.boolean true,.number (1 / 2)]) := by
  have formed : WellFormed 0 (.array [.boolean true,.number (1 / 2)]) := by simp [WellFormed,WellFormedItems]
  have normal : ∀ x ∈ numbers (.array [.boolean true,.number (1 / 2)]), Normal x := by
    simpa [numbers,numbersItems] using normal_half
  have read := parseString_of_text _ _ (text_serialize true _ 0 0 formed normal)
  exact (parseString_reprinted false _ _ read).2.2 fun x member => (normal x member).2

end Json
end Jbdtool
