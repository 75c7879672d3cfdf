import Jbdtool.Json.Grammar

/-! The parser against the grammar: it accepts the texts of values and no others, but for a
minus that no number follows. -/
namespace Jbdtool
open CString Numbers
namespace Json

/-- White space, a text of the value as far as it goes, and the rest. -/
def Reads (nesting : Nat) (v : Json) (s rest : Bytes) : Prop := ∃ w t, s = w ++ (t ++ rest) ∧ Blank w ∧
  (Text nesting v t ∧ Longest v t rest ∨ v = .number 0 ∧ t = [] ∧ LoneMinus rest)

theorem blank_append (w w' : Bytes) (first : Blank w) (second : Blank w') : Blank (w ++ w') := by
  intro c member
  rcases List.mem_append.mp member with front | back
  · exact first c front
  · exact second c back

theorem textItems_blank (nesting : Nat) (items : List Json) (w body : Bytes) (blank : Blank w)
    (text : TextItems nesting items body) : TextItems nesting items (w ++ body) := by
  cases items with
  | nil => exact blank_append w body blank text
  | cons item items =>
    rw [TextItems] at text ⊢
    obtain ⟨w',t,w₂,tail,rfl,inner,others⟩ := text
    exact ⟨w ++ w',t,w₂,tail,by simp,blank_append w w' blank inner,others⟩

theorem textMembers_blank (nesting : Nat) (members : List (Bytes × Json)) (w body : Bytes) (blank : Blank w)
    (text : TextMembers nesting members body) : TextMembers nesting members (w ++ body) := by
  cases members with
  | nil => exact blank_append w body blank text
  | cons m members =>
    obtain ⟨name,value⟩ := m
    rw [TextMembers] at text ⊢
    obtain ⟨w',label,w₁,w₂,t,w₃,tail,rfl,inner,others⟩ := text
    exact ⟨w ++ w',label,w₁,w₂,t,w₃,tail,by simp,blank_append w w' blank inner,others⟩

/-- Behind a lone minus neither a separator nor a closing bracket stands. -/
private theorem reads_before (nesting : Nat) (v : Json) (s rest : Bytes) (c : UInt8) (t : Bytes)
    (reads : Reads nesting v s rest)
    (next : skipSpaces rest = c::t) (other : c ≠ 45) : ∃ w text, s = w ++ (text ++ rest) ∧ Blank w ∧ Text nesting v text := by
  obtain ⟨w,text,split,blank,⟨spelled,-⟩ | ⟨-,-,minus,-⟩⟩ := reads
  · exact ⟨w,text,split,blank,spelled⟩
  · obtain ⟨later,rfl⟩ : ∃ later, rest = 45::later := by
      cases rest with
      | nil => cases minus
      | cons d later => exact ⟨later,by rw [Option.some.inj minus]⟩
    rw [skipSpaces_cons 45 later (by decide)] at next
    exact (other (List.cons.inj next).1.symm).elim

private theorem skipToken_some (token s rest : Bytes) (taken : skipToken token s = some rest) : s = token ++ rest := by
  unfold skipToken at taken
  split_ifs at taken with front
  obtain ⟨t,rfl⟩ := List.isPrefixOf_iff_prefix.mp front
  rw [List.drop_left] at taken
  rw [Option.some.inj taken]

theorem skipToken_token (token rest : Bytes) : skipToken token (token ++ rest) = some rest := by
  unfold skipToken
  rw [if_pos (List.isPrefixOf_iff_prefix.mpr (List.prefix_append token rest)),List.drop_left]

private theorem parseBoolean_some (s : Bytes) (v : Json) (rest : Bytes) (read : parseBoolean s = some (v,rest)) :
    ∃ b, v = .boolean b ∧ s = (if b then bytes "true" else bytes "false") ++ rest := by
  unfold parseBoolean at read
  split at read
  · rename_i left taken
    obtain ⟨rfl,rfl⟩ := Prod.mk.inj (Option.some.inj read)
    exact ⟨true,rfl,skipToken_some _ _ _ taken⟩
  · obtain ⟨left,taken,same⟩ := Option.map_eq_some_iff.mp read
    obtain ⟨rfl,rfl⟩ := Prod.mk.inj same
    exact ⟨false,rfl,skipToken_some _ _ _ taken⟩

/-- The first character decides what is read. -/
private theorem parseValue_step (fuel nesting : Nat) (s : Bytes) (v : Json) (rest : Bytes)
    (read : parseValue (fuel + 1) nesting s = some (v,rest)) : ∃ c left, skipSpaces s = c::left ∧ nesting ≤ 2048 ∧
      ((c = 123 ∧ (skipSpaces left = 125::rest ∧ v = .object [] ∨ parseMembers fuel (nesting + 1) [] (skipSpaces left) = some (v,rest))) ∨
        (c = 91 ∧ (skipSpaces left = 93::rest ∧ v = .array [] ∨ parseItems fuel (nesting + 1) [] (skipSpaces left) = some (v,rest))) ∨
        (c = 34 ∧ ∃ t, v = .string t ∧ getQuotedString (c::left) = some (t,rest)) ∨
        ((c = 102 ∨ c = 116) ∧ parseBoolean (c::left) = some (v,rest)) ∨
        ((c = 45 ∨ isdigit c = true) ∧ parseNumber (c::left) = some (v,rest)) ∨
        (c = 110 ∧ parseNull (c::left) = some (v,rest))) := by
  rw [parseValue] at read
  by_cases deep : nesting > 2048
  · rw [if_pos deep] at read
    cases read
  rw [if_neg deep] at read
  split at read
  · cases read
  rename_i c left first
  refine ⟨c,left,first,by omega,?_⟩
  by_cases brace : c = 123
  · rw [if_pos brace] at read
    apply Or.inl
    refine ⟨brace,?_⟩
    split at read
    · rename_i t same
      obtain ⟨rfl,rfl⟩ := Prod.mk.inj (Option.some.inj read)
      exact .inl ⟨same,rfl⟩
    · exact .inr read
  rw [if_neg brace] at read
  by_cases bracket : c = 91
  · rw [if_pos bracket] at read
    apply Or.inr ∘ Or.inl
    refine ⟨bracket,?_⟩
    split at read
    · rename_i t same
      obtain ⟨rfl,rfl⟩ := Prod.mk.inj (Option.some.inj read)
      exact .inl ⟨same,rfl⟩
    · exact .inr read
  rw [if_neg bracket] at read
  by_cases quote : c = 34
  · rw [if_pos quote] at read
    obtain ⟨⟨t,left'⟩,quoted,same⟩ := Option.map_eq_some_iff.mp read
    obtain ⟨rfl,rfl⟩ := Prod.mk.inj same
    exact .inr (.inr (.inl ⟨quote,t,rfl,quoted⟩))
  rw [if_neg quote] at read
  by_cases letter : c = 102 ∨ c = 116
  · rw [if_pos letter] at read
    exact .inr (.inr (.inr (.inl ⟨letter,read⟩)))
  rw [if_neg letter] at read
  by_cases digit : c = 45 ∨ isdigit c = true
  · rw [if_pos digit] at read
    exact .inr (.inr (.inr (.inr (.inl ⟨digit,read⟩))))
  rw [if_neg digit] at read
  by_cases null : c = 110
  · rw [if_pos null] at read
    exact .inr (.inr (.inr (.inr (.inr ⟨null,read⟩))))
  · rw [if_neg null] at read
    cases read

/-- One element of an array, and what the loop goes on with. -/
private theorem parseItems_step (fuel nesting : Nat) (done : List Json) (s : Bytes) (v : Json) (rest : Bytes)
    (read : parseItems (fuel + 1) nesting done s = some (v,rest)) : ∃ item behind, parseValue fuel nesting s = some (item,behind) ∧
      ((∃ more, skipSpaces behind = 44::more ∧ parseItems fuel nesting (done ++ [item]) (skipSpaces more) = some (v,rest)) ∨
        skipSpaces behind = 93::rest ∧ v = .array (done ++ [item])) := by
  rw [parseItems] at read
  cases value : parseValue fuel nesting s with
  | none =>
    rw [value] at read
    cases read
  | some r =>
    obtain ⟨item,behind⟩ := r
    rw [value] at read
    refine ⟨item,behind,rfl,?_⟩
    simp only at read
    split at read
    · rename_i more same
      exact .inl ⟨more,same,read⟩
    · rename_i left same
      obtain ⟨rfl,rfl⟩ := Prod.mk.inj (Option.some.inj read)
      exact .inr ⟨same,rfl⟩
    · cases read

private theorem parseMembers_step (fuel nesting : Nat) (done : List (Bytes × Json)) (s : Bytes) (v : Json) (rest : Bytes)
    (read : parseMembers (fuel + 1) nesting done s = some (v,rest)) : ∃ name label colon value behind,
      getQuotedString s = some (name,label) ∧ 0 ∉ name ∧ skipSpaces label = 58::colon ∧
      parseValue fuel nesting colon = some (value,behind) ∧ name ∉ done.map Prod.fst ∧
      ((∃ more, skipSpaces behind = 44::more ∧
          parseMembers fuel nesting (done ++ [(name,value)]) (skipSpaces more) = some (v,rest)) ∨
        skipSpaces behind = 125::rest ∧ v = .object (done ++ [(name,value)])) := by
  rw [parseMembers] at read
  split at read
  · cases read
  rename_i name label quoted
  by_cases null : name.contains 0 = true
  · rw [if_pos null] at read
    cases read
  rw [if_neg null] at read
  split at read
  swap
  · cases read
  rename_i colon marked
  split at read
  · cases read
  rename_i value behind parsed
  by_cases double : (done.any fun m => m.1 == name) = true
  · rw [if_pos double] at read
    cases read
  rw [if_neg double] at read
  refine ⟨name,label,colon,value,behind,quoted,by simpa using null,marked,parsed,by simpa using double,?_⟩
  split at read
  · rename_i more same
    exact .inl ⟨more,same,read⟩
  · rename_i left same
    obtain ⟨rfl,rfl⟩ := Prod.mk.inj (Option.some.inj read)
    exact .inr ⟨same,rfl⟩
  · cases read

private theorem parse_sound (fuel : Nat) :
    (∀ nesting v s rest, parseValue fuel nesting s = some (v,rest) → Reads nesting v s rest) ∧
    (∀ nesting done v s rest, parseItems fuel nesting done s = some (v,rest) → ∃ items body, v = .array (done ++ items) ∧
      items ≠ [] ∧ s = body ++ 93::rest ∧ TextItems nesting items body) ∧
    (∀ nesting done v s rest, parseMembers fuel nesting done s = some (v,rest) → (done.map Prod.fst).Nodup →
      ∃ members body, v = .object (done ++ members) ∧ members ≠ [] ∧ ((done ++ members).map Prod.fst).Nodup ∧
        s = body ++ 125::rest ∧ TextMembers nesting members body) := by
  induction fuel with
  | zero =>
    refine ⟨?_,?_,?_⟩
    · intro nesting v s rest read
      cases read
    · intro nesting done v s rest read
      cases read
    · intro nesting done v s rest read
      cases read
  | succ fuel ih =>
    obtain ⟨values,lists,objects⟩ := ih
    refine ⟨?_,?_,?_⟩
    · intro nesting v s rest read
      obtain ⟨w,blank,split⟩ := skipSpaces_split s
      obtain ⟨c,left,first,depth,kind⟩ := parseValue_step fuel nesting s v rest read
      have whole (t : Bytes) (here : c::left = t ++ rest) (text : Text nesting v t) (longest : Longest v t rest) :
          Reads nesting v s rest := ⟨w,t,by rw [split,first,here],blank,.inl ⟨text,longest⟩⟩
      rcases kind with ⟨rfl,kind⟩ | ⟨rfl,kind⟩ | ⟨rfl,t,rfl,quoted⟩ | ⟨-,bool⟩ | ⟨shape,number⟩ | ⟨-,null⟩
      · obtain ⟨w',blank',left'⟩ := skipSpaces_split left
        rcases kind with ⟨closed,rfl⟩ | members
        · apply whole (123::(w' ++ [125]))
          · rw [left',closed]
            simp
          · rw [Text]
            exact ⟨depth,List.nodup_nil,w',rfl,blank'⟩
          · exact trivial
        · obtain ⟨inner,body,rfl,-,distinct,same,text⟩ := objects (nesting + 1) [] v _ rest members List.nodup_nil
          apply whole (123::(w' ++ body ++ [125]))
          · rw [left',same]
            simp
          · rw [List.nil_append,Text]
            exact ⟨depth,distinct,w' ++ body,rfl,textMembers_blank _ inner w' body blank' text⟩
          · exact trivial
      · obtain ⟨w',blank',left'⟩ := skipSpaces_split left
        rcases kind with ⟨closed,rfl⟩ | items
        · apply whole (91::(w' ++ [93]))
          · rw [left',closed]
            simp
          · rw [Text]
            exact ⟨depth,w',rfl,blank'⟩
          · exact trivial
        · obtain ⟨inner,body,rfl,-,same,text⟩ := lists (nesting + 1) [] v _ rest items
          apply whole (91::(w' ++ body ++ [93]))
          · rw [left',same]
            simp
          · rw [List.nil_append,Text]
            exact ⟨depth,w' ++ body,rfl,textItems_blank _ inner w' body blank' text⟩
          · exact trivial
      · obtain ⟨body,same,spells⟩ := (getQuotedString_iff _ t rest).mp quoted
        apply whole (34::(body ++ [34]))
        · rw [same]
          simp
        · rw [Text]
          exact ⟨depth,body,rfl,spells⟩
        · exact trivial
      · obtain ⟨b,rfl,same⟩ := parseBoolean_some _ v rest bool
        apply whole _ same
        · rw [Text]
          exact ⟨depth,rfl⟩
        · exact trivial
      · obtain ⟨t,x,rfl,same,⟨numeral,longest⟩ | ⟨rfl,rfl,minus⟩⟩ := parseNumber_some c left v rest shape number
        · apply whole t same _ longest
          rw [Text]
          exact ⟨depth,numeral⟩
        · exact ⟨w,[],by rw [split,first,same],blank,.inr ⟨rfl,rfl,minus⟩⟩
      · obtain ⟨left',taken,same⟩ := Option.map_eq_some_iff.mp null
        obtain ⟨rfl,rfl⟩ := Prod.mk.inj same
        apply whole (bytes "null") (skipToken_some _ _ _ taken)
        · rw [Text]
          exact ⟨depth,rfl⟩
        · exact trivial
    · intro nesting done v s rest read
      obtain ⟨item,behind,parsed,more | last⟩ := parseItems_step fuel nesting done s v rest read
      · obtain ⟨more,next,looped⟩ := more
        obtain ⟨w,t,rfl,blank,text⟩ := reads_before nesting item s behind 44 more (values nesting item s behind parsed) next (by decide)
        obtain ⟨items,body,rfl,nonempty,split,others⟩ := lists nesting _ v _ rest looped
        obtain ⟨w',blank',behind'⟩ := skipSpaces_split behind
        obtain ⟨w₂,blank₂,more'⟩ := skipSpaces_split more
        refine ⟨item::items,w ++ (t ++ (w' ++ 44::(w₂ ++ body))),by simp,by simp,?_,?_⟩
        · rw [behind',next,more',split]
          simp
        · rw [TextItems]
          exact ⟨w,t,w',_,rfl,blank,text,blank',.inr ⟨nonempty,_,rfl,textItems_blank nesting items w₂ body blank₂ others⟩⟩
      · obtain ⟨next,rfl⟩ := last
        obtain ⟨w,t,rfl,blank,text⟩ := reads_before nesting item s behind 93 rest (values nesting item s behind parsed) next (by decide)
        obtain ⟨w',blank',behind'⟩ := skipSpaces_split behind
        refine ⟨[item],w ++ (t ++ (w' ++ [])),rfl,by simp,?_,?_⟩
        · rw [behind',next]
          simp
        · rw [TextItems]
          exact ⟨w,t,w',[],rfl,blank,text,blank',.inl ⟨rfl,rfl⟩⟩
    · intro nesting done v s rest read distinct
      obtain ⟨name,label,colon,value,behind,quoted,clean,marked,parsed,fresh,next⟩ := parseMembers_step fuel nesting done s v rest read
      have grown : ((done ++ [(name,value)]).map Prod.fst).Nodup := by
        rw [List.map_append,List.nodup_append]
        refine ⟨distinct,by simp,?_⟩
        intro old member new same
        rw [List.map_cons,List.map_nil,List.mem_singleton] at same
        exact fun equal => fresh (by rwa [equal,same] at member)
      obtain ⟨body,rfl,spells⟩ := (getQuotedString_iff s name label).mp quoted
      obtain ⟨w₁,blank₁,label'⟩ := skipSpaces_split label
      obtain ⟨w₃,blank₃,behind'⟩ := skipSpaces_split behind
      rcases next with ⟨more,next,looped⟩ | ⟨next,rfl⟩
      · obtain ⟨w₂,t,rfl,blank₂,text⟩ := reads_before nesting value colon behind 44 more (values nesting value colon behind parsed) next (by decide)
        obtain ⟨members,inner,rfl,nonempty,names,split,others⟩ := objects nesting _ v _ rest looped grown
        obtain ⟨w,blank,more'⟩ := skipSpaces_split more
        refine ⟨(name,value)::members,34::(body ++ 34::(w₁ ++ 58::(w₂ ++ (t ++ (w₃ ++ 44::(w ++ inner)))))),by simp,by simp,
          by simpa using names,?_,?_⟩
        · rw [label',marked,behind',next,more',split]
          simp
        · rw [TextMembers]
          exact ⟨[],body,w₁,w₂,t,w₃,_,rfl,by simp [Blank],spells,clean,blank₁,blank₂,text,blank₃,
            .inr ⟨nonempty,_,rfl,textMembers_blank nesting members w inner blank others⟩⟩
      · obtain ⟨w₂,t,rfl,blank₂,text⟩ := reads_before nesting value colon behind 125 rest (values nesting value colon behind parsed) next (by decide)
        refine ⟨[(name,value)],34::(body ++ 34::(w₁ ++ 58::(w₂ ++ (t ++ (w₃ ++ []))))),rfl,by simp,grown,?_,?_⟩
        · rw [label',marked,behind',next]
          simp
        · rw [TextMembers]
          exact ⟨[],body,w₁,w₂,t,w₃,[],rfl,by simp [Blank],spells,clean,blank₁,blank₂,text,blank₃,.inl ⟨rfl,rfl⟩⟩

private theorem parseValue_blank (fuel nesting : Nat) (w s : Bytes) (blank : Blank w) :
    parseValue fuel nesting (w ++ s) = parseValue fuel nesting s := by
  cases fuel with
  | zero => rfl
  | succ fuel => rw [parseValue,parseValue,skipSpaces_blank w s blank]

private theorem parseValue_skipSpaces (fuel nesting : Nat) (s : Bytes) :
    parseValue fuel nesting (skipSpaces s) = parseValue fuel nesting s := by
  cases fuel with
  | zero => rfl
  | succ fuel => rw [parseValue,parseValue,skipSpaces_skipSpaces]

private theorem behind_blank (w : Bytes) (c : UInt8) (s : Bytes) (blank : Blank w) (mark : c = 44 ∨ c = 93 ∨ c = 125) :
    Behind (w ++ c::s) := by
  intro d t same
  cases w with
  | nil =>
    obtain ⟨rfl,-⟩ := List.cons.inj same
    exact .inr mark
  | cons e w =>
    obtain ⟨rfl,-⟩ := List.cons.inj same
    exact .inl (blank e List.mem_cons_self)

theorem text_head (v : Json) (nesting : Nat) (t : Bytes) (text : Text nesting v t) :
    ∃ c s, t = c::s ∧ isspace c = false ∧ c ≠ 93 ∧ c ≠ 0xEF := by
  cases v with
  | null =>
    rw [Text] at text
    obtain ⟨-,rfl⟩ := text
    exact ⟨110,_,rfl,by decide⟩
  | boolean b =>
    rw [Text] at text
    obtain ⟨-,rfl⟩ := text
    cases b <;> exact ⟨_,_,rfl,by decide⟩
  | number x =>
    rw [Text] at text
    obtain ⟨c,s,rfl,shape⟩ := numeral_head t x text.2
    refine ⟨c,s,rfl,(numeral_char c shape).1,?_,?_⟩ <;>
      · rintro rfl
        exact absurd shape (by decide)
  | string s =>
    rw [Text] at text
    obtain ⟨-,body,rfl,-⟩ := text
    exact ⟨34,_,rfl,by decide⟩
  | array items =>
    rw [Text] at text
    obtain ⟨-,body,rfl,-⟩ := text
    exact ⟨91,_,rfl,by decide⟩
  | object members =>
    rw [Text] at text
    obtain ⟨-,-,body,rfl,-⟩ := text
    exact ⟨123,_,rfl,by decide⟩

private theorem textItems_head (item : Json) (items : List Json) (nesting : Nat) (body rest : Bytes)
    (text : TextItems nesting (item::items) body) : ∃ c s, skipSpaces (body ++ rest) = c::s ∧ c ≠ 93 := by
  rw [TextItems] at text
  obtain ⟨w,t,w',tail,rfl,blank,inner,-⟩ := text
  obtain ⟨c,s,rfl,visible,other,-⟩ := text_head item nesting t inner
  rw [List.append_assoc,skipSpaces_blank w _ blank]
  exact ⟨c,_,skipSpaces_cons c _ visible,other⟩

private theorem textMembers_head (m : Bytes × Json) (members : List (Bytes × Json)) (nesting : Nat) (body rest : Bytes)
    (text : TextMembers nesting (m::members) body) : ∃ s, skipSpaces (body ++ rest) = 34::s := by
  obtain ⟨name,value⟩ := m
  rw [TextMembers] at text
  obtain ⟨w,label,w₁,w₂,t,w₃,tail,rfl,blank,-⟩ := text
  rw [List.append_assoc,skipSpaces_blank w _ blank]
  exact ⟨_,skipSpaces_cons 34 _ (by decide)⟩

mutual

private theorem parseValue_of_text : ∀ (v : Json) (nesting fuel : Nat) (t rest : Bytes), Text nesting v t → t.length < fuel →
    Longest v t rest → parseValue fuel nesting (t ++ rest) = some (v,rest)
  | _, _, 0, _, _, _, enough, _ => by omega
  | .null, nesting, fuel + 1, t, rest, text, _, _ => by
    rw [Text] at text
    obtain ⟨depth,rfl⟩ := text
    have first : bytes "null" ++ rest = 110::117::108::108::rest := rfl
    rw [first,parseValue_scalar fuel nesting _ _ depth (by decide) (by decide)]
    rfl
  | .boolean b, nesting, fuel + 1, t, rest, text, _, _ => by
    rw [Text] at text
    obtain ⟨depth,rfl⟩ := text
    cases b with
    | true =>
      have first : bytes "true" ++ rest = 116::114::117::101::rest := rfl
      rw [if_pos rfl,first,parseValue_scalar fuel nesting _ _ depth (by decide) (by decide)]
      rfl
    | false =>
      have first : bytes "false" ++ rest = 102::97::108::115::101::rest := rfl
      rw [if_neg (by decide),first,parseValue_scalar fuel nesting _ _ depth (by decide) (by decide)]
      rfl
  | .number x, nesting, fuel + 1, t, rest, text, _, longest => by
    rw [Text] at text
    obtain ⟨depth,numeral⟩ := text
    have read := parseNumber_numeral t x rest numeral longest
    obtain ⟨c,s,rfl,shape⟩ := numeral_head t x numeral
    obtain ⟨visible,brace,bracket,quote,letter⟩ := numeral_char c shape
    rw [List.cons_append] at read ⊢
    rw [parseValue_scalar fuel nesting c _ depth visible ⟨brace,bracket⟩,if_neg quote,if_neg letter,if_pos shape,read]
  | .string s, nesting, fuel + 1, t, rest, text, _, _ => by
    rw [Text] at text
    obtain ⟨depth,body,rfl,spells⟩ := text
    have read := (getQuotedString_iff (34::(body ++ 34::rest)) s rest).mpr ⟨body,rfl,spells⟩
    have quoted : 34::(body ++ [34]) ++ rest = 34::(body ++ 34::rest) := by simp
    rw [quoted,parseValue_scalar fuel nesting _ _ depth (by decide) (by decide),if_pos rfl,read]
    rfl
  | .array items, nesting, fuel + 1, t, rest, text, enough, _ => by
    rw [Text] at text
    obtain ⟨depth,body,rfl,inner⟩ := text
    have whole : 91::(body ++ [93]) ++ rest = 91::(body ++ 93::rest) := by simp
    rw [whole,parseValue,if_neg (by omega),skipSpaces_cons 91 _ (by decide)]
    simp only [show ¬ ((91 : UInt8) = 123) by decide,if_false,if_true]
    cases items with
    | nil =>
      rw [skipSpaces_blank body _ inner,skipSpaces_cons 93 _ (by decide)]
      rfl
    | cons item items =>
      have read := parseItems_of_text (item::items) [] (nesting + 1) fuel body rest (by simp) inner
        (by simp only [List.length_cons,List.length_append,List.length_nil] at enough; omega)
      obtain ⟨c,s,first,other⟩ := textItems_head item items (nesting + 1) body (93::rest) inner
      rw [List.nil_append,first] at read
      rw [first,← read]
      split
      · rename_i same
        exact (other (List.cons.inj same).1).elim
      · rfl
  | .object members, nesting, fuel + 1, t, rest, text, enough, _ => by
    rw [Text] at text
    obtain ⟨depth,distinct,body,rfl,inner⟩ := text
    have whole : 123::(body ++ [125]) ++ rest = 123::(body ++ 125::rest) := by simp
    rw [whole,parseValue,if_neg (by omega),skipSpaces_cons 123 _ (by decide)]
    simp only [if_true]
    cases members with
    | nil =>
      rw [skipSpaces_blank body _ inner,skipSpaces_cons 125 _ (by decide)]
      rfl
    | cons m members =>
      have read := parseMembers_of_text (m::members) [] (nesting + 1) fuel body rest (by simp) distinct inner
        (by simp only [List.length_cons,List.length_append,List.length_nil] at enough; omega)
      obtain ⟨s,first⟩ := textMembers_head m members (nesting + 1) body (125::rest) inner
      rw [List.nil_append,first] at read
      rw [first,← read]
      rfl

theorem parseItems_of_text : ∀ (items done : List Json) (nesting fuel : Nat) (body rest : Bytes), items ≠ [] →
    TextItems nesting items body → body.length + 1 < fuel →
    parseItems fuel nesting done (skipSpaces (body ++ 93::rest)) = some (.array (done ++ items),rest)
  | [], _, _, _, _, _, nonempty, _, _ => (nonempty rfl).elim
  | _, _, _, 0, _, _, _, _, enough => by omega
  | item::items, done, nesting, fuel + 1, body, rest, _, text, enough => by
    rw [TextItems] at text
    obtain ⟨w,t,w',tail,rfl,blank,inner,blank',others⟩ := text
    simp only [List.length_append] at enough
    rw [parseItems,parseValue_skipSpaces,List.append_assoc,parseValue_blank fuel nesting w _ blank,List.append_assoc,List.append_assoc]
    rcases others with ⟨rfl,rfl⟩ | ⟨nonempty,more,rfl,later⟩
    · have read := parseValue_of_text item nesting fuel t (w' ++ 93::rest) inner (by omega)
        (longest_behind item nesting t _ inner (behind_blank w' 93 rest blank' (by decide)))
      rw [List.nil_append,read]
      simp only [skipSpaces_blank w' _ blank',skipSpaces_cons 93 _ (by decide)]
    · have read := parseValue_of_text item nesting fuel t (w' ++ 44::(more ++ 93::rest)) inner (by omega)
        (longest_behind item nesting t _ inner (behind_blank w' 44 _ blank' (by decide)))
      rw [List.cons_append,read]
      simp only [skipSpaces_blank w' _ blank',skipSpaces_cons 44 _ (by decide)]
      rw [List.length_cons] at enough
      rw [parseItems_of_text items (done ++ [item]) nesting fuel more rest nonempty later (by omega),List.append_assoc]
      rfl

theorem parseMembers_of_text : ∀ (members done : List (Bytes × Json)) (nesting fuel : Nat) (body rest : Bytes), members ≠ [] →
    ((done ++ members).map Prod.fst).Nodup → TextMembers nesting members body → body.length + 1 < fuel →
    parseMembers fuel nesting done (skipSpaces (body ++ 125::rest)) = some (.object (done ++ members),rest)
  | [], _, _, _, _, _, nonempty, _, _, _ => (nonempty rfl).elim
  | _, _, _, 0, _, _, _, _, _, enough => by omega
  | (name,value)::members, done, nesting, fuel + 1, body, rest, _, distinct, text, enough => by
    rw [TextMembers] at text
    obtain ⟨w,label,w₁,w₂,t,w₃,tail,rfl,blank,spells,clean,blank₁,blank₂,inner,blank₃,others⟩ := text
    simp only [List.length_append,List.length_cons] at enough
    have fresh : done.any (fun m => m.1 == name) = false := by
      rw [List.map_append,List.nodup_append] at distinct
      simp only [List.any_eq_false,beq_iff_eq]
      intro m member same
      exact distinct.2.2 m.1 (List.mem_map_of_mem member) name (by simp) same
    have named : name.contains 0 = false := by simpa using clean
    -- What the loop does with the member, whatever follows it.
    have step (c : UInt8) (s : Bytes) (mark : c = 44 ∨ c = 93 ∨ c = 125) :
        skipSpaces (w ++ 34::(label ++ 34::(w₁ ++ 58::(w₂ ++ (t ++ (w₃ ++ c::s)))))) =
          34::(label ++ 34::(w₁ ++ 58::(w₂ ++ (t ++ (w₃ ++ c::s))))) ∧
        getQuotedString (34::(label ++ 34::(w₁ ++ 58::(w₂ ++ (t ++ (w₃ ++ c::s)))))) =
          some (name,w₁ ++ 58::(w₂ ++ (t ++ (w₃ ++ c::s)))) ∧
        skipSpaces (w₁ ++ 58::(w₂ ++ (t ++ (w₃ ++ c::s)))) = 58::(w₂ ++ (t ++ (w₃ ++ c::s))) ∧
        parseValue fuel nesting (w₂ ++ (t ++ (w₃ ++ c::s))) = some (value,w₃ ++ c::s) := by
      refine ⟨?_,(getQuotedString_iff _ _ _).mpr ⟨label,rfl,spells⟩,?_,?_⟩
      · rw [skipSpaces_blank w _ blank,skipSpaces_cons 34 _ (by decide)]
      · rw [skipSpaces_blank w₁ _ blank₁,skipSpaces_cons 58 _ (by decide)]
      · rw [parseValue_blank fuel nesting w₂ _ blank₂]
        exact parseValue_of_text value nesting fuel t _ inner (by omega)
          (longest_behind value nesting t _ inner (behind_blank w₃ c s blank₃ mark))
    rcases others with ⟨rfl,rfl⟩ | ⟨nonempty,more,rfl,later⟩
    · obtain ⟨start,quoted,colon,parsed⟩ := step 125 rest (by decide)
      have text : w ++ 34::(label ++ 34::(w₁ ++ 58::(w₂ ++ (t ++ (w₃ ++ []))))) ++ 125::rest =
          w ++ 34::(label ++ 34::(w₁ ++ 58::(w₂ ++ (t ++ (w₃ ++ 125::rest))))) := by simp
      rw [text,start,parseMembers,quoted]
      simp only [named,colon,parsed,fresh,skipSpaces_blank w₃ _ blank₃,skipSpaces_cons 125 _ (by decide)]
      rfl
    · obtain ⟨start,quoted,colon,parsed⟩ := step 44 (more ++ 125::rest) (by decide)
      have text : w ++ 34::(label ++ 34::(w₁ ++ 58::(w₂ ++ (t ++ (w₃ ++ 44::more))))) ++ 125::rest =
          w ++ 34::(label ++ 34::(w₁ ++ 58::(w₂ ++ (t ++ (w₃ ++ 44::(more ++ 125::rest)))))) := by simp
      rw [List.length_cons] at enough
      rw [text,start,parseMembers,quoted]
      simp only [named,colon,parsed,fresh,skipSpaces_blank w₃ _ blank₃,skipSpaces_cons 44 _ (by decide)]
      have looped := parseMembers_of_text members (done ++ [(name,value)]) nesting fuel more rest nonempty (by simpa using distinct)
        later (by omega)
      rw [List.append_assoc] at looped
      exact looped

end

theorem reads_of_parseString (text : Bytes) (v : Json) (read : parseString text = some v) :
    ∃ rest, Reads 0 v (skipBom (cstr text)) rest := by
  obtain ⟨⟨v',rest⟩,parsed,rfl⟩ := Option.map_eq_some_iff.mp read
  exact ⟨rest,(parse_sound _).1 0 v' _ rest parsed⟩

theorem parseString_of_reads (text : Bytes) (v : Json) (rest : Bytes) (reads : Reads 0 v (skipBom (cstr text)) rest) :
    parseString text = some v := by
  unfold parseString
  simp only
  obtain ⟨w,t,split,blank,⟨spelled,longest⟩ | ⟨rfl,rfl,minus,unread,decimal⟩⟩ := reads
  · have read := parseValue_of_text v 0 ((skipBom (cstr text)).length + 1) t rest spelled
      (by rw [split]; simp only [List.length_append]; omega) longest
    rw [split] at read ⊢
    rw [parseValue_blank _ 0 w _ blank,read]
    rfl
  · obtain ⟨later,rfl⟩ : ∃ later, rest = 45::later := by
      cases rest with
      | nil => cases minus
      | cons d later => exact ⟨later,by rw [Option.some.inj minus]⟩
    have zero : parseNumber (45::later) = some (.number 0,45::later) := by
      have range : outOfRange 0 = false := by decide +kernel
      have none : isDecimal [] = true := rfl
      simp only [parseNumber,unread,decimal,range,Nat.sub_self,List.take_zero,none]
      rfl
    rw [split,parseValue_blank _ 0 w _ blank,List.nil_append,
      parseValue_scalar _ 0 45 later (by decide) (by decide) (by decide),if_neg (by decide),if_neg (by decide),if_pos (by decide),zero]
    rfl

end Json
end Jbdtool
