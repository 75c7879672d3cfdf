import Jbdtool.Names
import Jbdtool.Requests
import Jbdtool.Main

/-! Arrays of bit names in a settings file: what the join keeps of them, what parse_bits
makes of the text, and what is written. -/
namespace Jbdtool
open CString Numbers Tokens
variable {τ : Type}

/-- The strings that the join takes up when `temp` holds `len` bytes, and the elements from
the first on that has no room. -/
def keptNames : Nat → List Json → List Bytes × List Json
  | _, [] => ([],[])
  | len, .string s::items =>
    let ap := Json.cstr s
    if len + ap.length + 2 > 128 then ([],.string s::items) else
    let rest := keptNames (len + (if len = 0 then 0 else 1) + ap.length) items
    (ap::rest.1,rest.2)
  | len, _::items => keptNames len items

def appendName (temp ap : Bytes) : Bytes := temp ++ (if temp = [] then [] else [44]) ++ ap

private theorem appendName_length (temp ap : Bytes) :
    (appendName temp ap).length = temp.length + (if temp.length = 0 then 0 else 1) + ap.length := by
  unfold appendName
  by_cases empty : temp = []
  · simp [empty]
  · have some : temp.length ≠ 0 := by simpa using empty
    rw [if_neg empty,if_neg some,List.length_append,List.length_append,List.length_singleton]

private theorem joinNames_kept (items : List Json) (temp : Bytes) :
    joinNames items temp = (keptNames temp.length items).1.foldl appendName temp := by
  induction items generalizing temp with
  | nil => rfl
  | cons e items ih =>
    cases e with
    | string s =>
      by_cases full : temp.length + (Json.cstr s).length + 2 > 128
      · simp [joinNames,keptNames,full]
      · simp only [joinNames,keptNames,full,if_false,List.foldl_cons,← appendName_length]
        exact ih (appendName temp (Json.cstr s))
    | null | boolean | number | array | object => exact ih temp

private theorem foldl_appendName (names : List Bytes) :
    names.foldl appendName [] = joined [44] (names.dropWhile List.isEmpty) := by
  have behind (names : List Bytes) (temp : Bytes) (some : temp ≠ []) :
      names.foldl appendName temp = temp ++ names.flatMap ([44] ++ ·) := by
    induction names generalizing temp with
    | nil => simp
    | cons name names ih =>
      have longer : appendName temp name = temp ++ ([44] ++ name) := by
        rw [appendName,if_neg some,List.append_assoc]
      rw [List.foldl_cons,longer,ih _ (by simp),List.flatMap_cons,List.append_assoc]
  induction names with
  | nil => rfl
  | cons name names ih =>
    have first : appendName [] name = name := by simp [appendName]
    rw [List.foldl_cons,first]
    by_cases empty : name = []
    · rw [empty,ih]
      rfl
    · rw [behind names name empty,List.dropWhile_cons_of_neg (by simpa using empty)]
      rfl

private theorem mem_trimmed {value : Bytes} {c : UInt8} (member : c ∈ value) (visible : isspace c = false) :
    c ∈ trimmed value := by
  obtain ⟨blanks,white,parts,-,-⟩ := trimmed_spec value
  have split := List.takeWhile_append_dropWhile (p := isspace) (l := value)
  rw [← split,parts] at member
  rcases List.mem_append.mp member with front | rest
  · rw [List.mem_takeWhile_imp front] at visible
    cases visible
  · rcases List.mem_append.mp rest with inside | behind
    · exact inside
    · rw [white c behind] at visible
      cases visible

private theorem comma_list {value : Bytes} (comma : 44 ∈ value) (n : Int) : ¬ Signed Constant (trimmed value) n := by
  have inside := mem_trimmed comma (by decide)
  generalize trimmed value = text at inside
  intro number
  cases number with
  | bare digits => exact absurd ((constant_clean _ _ digits).1.2 44 inside) (by decide)
  | plus digits =>
    rcases List.mem_cons.mp inside with same | inside
    · exact absurd same (by decide)
    · exact absurd ((constant_clean _ _ digits).1.2 44 inside) (by decide)
  | minus digits =>
    rcases List.mem_cons.mp inside with same | inside
    · exact absurd same (by decide)
    · exact absurd ((constant_clean _ _ digits).1.2 44 inside) (by decide)

def maskOf (bits : List JbdBit) (name : Bytes) : UInt16 := (parseBits name bits).toOption.getD 0

private theorem maskOf_named {bits : List JbdBit} (readable : Readable bits) (name : Bytes)
    (known : AllNamed bits (tokens isSeparator name)) :
    maskOf bits name = union ((tokens isSeparator name).map (maskNamed bits)) := by
  unfold maskOf
  by_cases blank : trimmed name = []
  · obtain ⟨message,refused⟩ := parseBits_blank name bits blank
    have none : tokens isSeparator name = [] := by rw [← tokens_trimmed,blank,tokens_nil]
    rw [refused,none]
    rfl
  · rw [parseBits_named readable name blank known]
    rfl

private theorem union_flatMap (bits : List JbdBit) (names : List Bytes) :
    union ((names.flatMap (tokens isSeparator)).map (maskNamed bits)) =
      union (names.map (fun name => union ((tokens isSeparator name).map (maskNamed bits)))) := by
  induction names with
  | nil => rfl
  | cons name names ih => rw [List.flatMap_cons,List.map_append,union_append,List.map_cons,union_cons,ih]

private theorem parseBits_several {bits : List JbdBit} (readable : Readable bits) (first second : Bytes) (rest : List Bytes) :
    ((∀ name ∈ first::second::rest, AllNamed bits (tokens isSeparator name)) →
      parseBits (joined [44] (first::second::rest)) bits = .ok (union ((first::second::rest).map (maskOf bits)))) ∧
    (¬ (∀ name ∈ first::second::rest, AllNamed bits (tokens isSeparator name)) →
      ∃ message, parseBits (joined [44] (first::second::rest)) bits = .error message) := by
  have comma : 44 ∈ joined [44] (first::second::rest) := by simp [joined]
  have cut : tokens isSeparator (joined [44] (first::second::rest)) =
      (first::second::rest).flatMap (tokens isSeparator) := tokens_flatMap (by decide) first (second::rest)
  have all : AllNamed bits (tokens isSeparator (joined [44] (first::second::rest))) ↔
      ∀ name ∈ first::second::rest, AllNamed bits (tokens isSeparator name) := by
    rw [cut]
    unfold AllNamed
    simp only [List.mem_flatMap]
    constructor
    · exact fun known name member token inside => known token ⟨name,member,inside⟩
    · rintro known token ⟨name,member,inside⟩
      exact known name member token inside
  rw [← all]
  constructor
  · intro known
    have visible : trimmed (joined [44] (first::second::rest)) ≠ [] :=
      List.ne_nil_of_mem (mem_trimmed comma (by decide))
    have each : (first::second::rest).map (maskOf bits) =
        (first::second::rest).map (fun name => union ((tokens isSeparator name).map (maskNamed bits))) :=
      List.map_congr_left fun name member => maskOf_named readable name (all.mp known name member)
    rw [parseBits_named readable _ visible known,cut,union_flatMap,each]
  · exact parseBits_unnamed readable.short _ (comma_list comma)

/-- What parse_bits takes of the names in one text: a lone one that it takes by itself, or
several made of known names; empty ones in front leave no trace. -/
def TakenTogether (bits : List JbdBit) (names : List Bytes) : Prop :=
  match names.dropWhile List.isEmpty with
  | [] => False
  | [name] => ∃ m, parseBits name bits = .ok m
  | several => ∀ name ∈ several, AllNamed bits (tokens isSeparator name)

private theorem union_dropWhile (bits : List JbdBit) (names : List Bytes) :
    union ((names.dropWhile List.isEmpty).map (maskOf bits)) = union (names.map (maskOf bits)) := by
  induction names with
  | nil => rfl
  | cons name names ih =>
    by_cases empty : name = []
    · have none : maskOf bits name = 0 := by
        rw [empty]
        rfl
      rw [List.dropWhile_cons_of_pos (by simp [empty]),ih,List.map_cons,union_cons,none,UInt16.zero_or]
    · rw [List.dropWhile_cons_of_neg (by simpa using empty)]

private theorem parseBits_together {bits : List JbdBit} (readable : Readable bits) (names : List Bytes) :
    (TakenTogether bits names →
      parseBits (names.foldl appendName []) bits = .ok (union (names.map (maskOf bits)))) ∧
    (¬ TakenTogether bits names → ∃ message, parseBits (names.foldl appendName []) bits = .error message) := by
  rw [foldl_appendName,← union_dropWhile]
  unfold TakenTogether
  split
  · rename_i none
    rw [none]
    exact ⟨False.elim,fun _ => ⟨_,rfl⟩⟩
  · rename_i name one
    have text : joined [44] [name] = name := by simp [joined]
    rw [one,text]
    constructor
    · rintro ⟨m,parsed⟩
      have mask : maskOf bits name = m := by rw [maskOf,parsed]; rfl
      rw [List.map_singleton,mask,parsed]
      simp [union]
    · intro refused
      cases parsed : parseBits name bits with
      | error message => exact ⟨message,rfl⟩
      | ok m => exact absurd ⟨m,parsed⟩ refused
  · rename_i some lone
    cases names' : names.dropWhile List.isEmpty with
    | nil => exact absurd names' some
    | cons first rest =>
      cases rest with
      | nil => exact absurd names' (lone first)
      | cons second rest => exact parseBits_several readable first second rest

/-- The two rows of the table that take bit names. -/
def BitField (pp : JbdParams) (bits : List JbdBit) : Prop :=
  (pp = ⟨0x2D,bytes "BatteryConfig",.func⟩ ∧ bits = funcBits) ∨ (pp = ⟨0x2E,bytes "NtcConfig",.ntc⟩ ∧ bits = ntcBits)

private theorem BitField.readable {pp : JbdParams} {bits : List JbdBit} (field : BitField pp bits) : Readable bits := by
  rcases field with ⟨-,rfl⟩ | ⟨-,rfl⟩
  · exact tables_readable.1
  · exact tables_readable.2

private theorem writeParm_bits {pp : JbdParams} {bits : List JbdBit} (field : BitField pp bits) (host : Host τ) (value : Bytes)
    (w : World τ) :
    (∀ message, parseBits value bits = .error message → writeFrames (writeParm host pp value w).events = []) ∧
    ∀ mask, parseBits value bits = .ok mask → ∃ n, writeFrames (writeParm host pp value w).events =
      List.replicate (n + 1) (frame jbdCmdWrite pp.reg (shortPayload mask.toNat)) := by
  have run (data : Mem UInt8) : writeParmFrom host data pp value = writeBits host pp data value bits := by
    rcases field with ⟨rfl,rfl⟩ | ⟨rfl,rfl⟩ <;> rfl
  rw [writeParm_events,run]
  unfold writeBits
  constructor
  · intro message refused
    rw [refused]
    rfl
  · intro mask parsed
    rw [parsed]
    exact writeFrames_sendParm host pp.reg _ (shortPayload mask.toNat) _ (by simp [shortPayload])

private theorem lift_bind_events {α β : Type} (m : Program τ α) (k : α → Main τ β) (w : World τ) :
    (((liftM m : Main τ α) >>= k).run w).events = (m w).events ++ ((k (m w).value).run (m w).state).events := by
  have lifted : ((liftM m : Main τ α).run w).events = (m w).events := List.append_nil _
  rw [← lifted]
  rfl

/-- The frames written for one member, an array. -/
private theorem writeMembers_array {pp : JbdParams} {bits : List JbdBit} (field : BitField pp bits) (host : Host τ)
    (object : List (Bytes × Json)) (v : Json) (items : List Json)
    (given : Json.getValue object pp.label = some (.array items)) (w : World τ) :
    writeFrames ((writeMembers host object [(pp.label,v)]).run w).events =
      writeFrames (writeParm host pp (joinNames items []) w).events := by
  have named : (findParm pp.label w).value = some pp := by
    rcases field with ⟨rfl,-⟩ | ⟨rfl,-⟩ <;> rfl
  have text : memberText object pp.label = .ok (joinNames items []) := by
    unfold memberText
    rw [given]
    rfl
  -- Whatever write_parm returns, the loop ends behind the only member.
  have ends (r : Int) (after : World τ) :
      (((if r ≠ 0 then return () else writeMembers host object []) : Main τ Unit).run after).events = [] := by
    split_ifs <;> rfl
  have looked : writeFrames (findParm pp.label w).events = [] := rfl
  have unmoved : (findParm pp.label w).state = w := rfl
  unfold writeMembers
  rw [lift_bind_events,writeFrames_append,looked,named,unmoved]
  simp only [text,lift_bind_events]
  rw [ends]
  simp

/-- A WRITE only if every element is a string that parse_bits accepts on its own, and then of
the union of their masks. -/
def WholeOrNot (bits : List JbdBit) (reg : UInt8) (items : List Json) (sent : List Bytes) : Prop :=
  sent ≠ [] → ∃ marks : List UInt16,
    List.Forall₂ (fun e m => ∃ s, e = .string s ∧ parseBits (Json.cstr s) bits = .ok m) items marks ∧
    ∀ packet ∈ sent, packet = frame jbdCmdWrite reg (shortPayload (union marks).toNat)

/-- Every element is a string, none that is kept is blank, and those cut off are lists of
their own that name nothing new. -/
structure NothingLost (bits : List JbdBit) (items : List Json) : Prop where
  strings : ∀ e ∈ items, ∃ s, e = .string s
  visible : ∀ name ∈ (keptNames 0 items).1, trimmed name ≠ []
  late : ∀ e ∈ (keptNames 0 items).2, ∃ s m, e = .string s ∧ parseBits (Json.cstr s) bits = .ok m ∧
    m ||| union ((keptNames 0 items).1.map (maskOf bits)) = union ((keptNames 0 items).1.map (maskOf bits))

private theorem mem_keptNames (len : Nat) (items : List Json) :
    (∀ name ∈ (keptNames len items).1, ∃ s, .string s ∈ items ∧ name = Json.cstr s) ∧
    (∀ e ∈ (keptNames len items).2, e ∈ items) ∧
    ∀ s, .string s ∈ items → Json.cstr s ∈ (keptNames len items).1 ∨ .string s ∈ (keptNames len items).2 := by
  induction items generalizing len with
  | nil => simp [keptNames]
  | cons e items ih =>
    cases e with
    | string s =>
      by_cases full : len + (Json.cstr s).length + 2 > 128
      · simp [keptNames,full]
      · obtain ⟨names,late,split⟩ := ih (len + (if len = 0 then 0 else 1) + (Json.cstr s).length)
        simp only [keptNames,full,if_false]
        refine ⟨?_,fun e member => List.mem_cons_of_mem _ (late e member),?_⟩
        · intro name member
          rcases List.mem_cons.mp member with rfl | member
          · exact ⟨s,List.mem_cons_self,rfl⟩
          · obtain ⟨t,inside,same⟩ := names name member
            exact ⟨t,List.mem_cons_of_mem _ inside,same⟩
        · intro t member
          rcases List.mem_cons.mp member with same | member
          · cases same
            exact .inl List.mem_cons_self
          · rcases split t member with kept | behind
            · exact .inl (List.mem_cons_of_mem _ kept)
            · exact .inr behind
    | null | boolean | number | array | object =>
      obtain ⟨names,late,split⟩ := ih len
      refine ⟨?_,fun e member => List.mem_cons_of_mem _ (late e member),?_⟩
      · intro name member
        obtain ⟨t,inside,same⟩ := names name member
        exact ⟨t,List.mem_cons_of_mem _ inside,same⟩
      · intro t member
        rcases List.mem_cons.mp member with same | member
        · cases same
        · exact split t member

/-- Names that are taken together and not blank are accepted one by one. -/
private theorem together_alone {bits : List JbdBit} (readable : Readable bits) {names : List Bytes}
    (together : TakenTogether bits names) (visible : ∀ name ∈ names, trimmed name ≠ []) :
    ∀ name ∈ names, parseBits name bits = .ok (maskOf bits name) := by
  have full : names.dropWhile List.isEmpty = names := by
    cases names with
    | nil => rfl
    | cons name names =>
      have some : name ≠ [] := by
        rintro rfl
        exact visible [] List.mem_cons_self rfl
      exact List.dropWhile_cons_of_neg (by simpa using some)
  unfold TakenTogether at together
  rw [full] at together
  intro name member
  split at together
  · cases member
  · obtain ⟨m,parsed⟩ := together
    rw [List.mem_singleton.mp member,maskOf,parsed]
    rfl
  · have known := together name member
    rw [maskOf_named readable name known]
    exact parseBits_named readable name (visible name member) known

def elementMask (bits : List JbdBit) : Json → UInt16
  | .string s => maskOf bits (Json.cstr s)
  | _ => 0

private theorem union_le {masks : List UInt16} {m : UInt16} (member : m ∈ masks) : m ||| union masks = union masks :=
  (union_absorbs masks (union masks)).mp UInt16.or_self m member

private theorem NothingLost.union {bits : List JbdBit} {items : List Json} (whole : NothingLost bits items) :
    Jbdtool.union (items.map (elementMask bits)) = Jbdtool.union ((keptNames 0 items).1.map (maskOf bits)) := by
  obtain ⟨names,late,split⟩ := mem_keptNames 0 items
  have below : Jbdtool.union (items.map (elementMask bits)) ||| Jbdtool.union ((keptNames 0 items).1.map (maskOf bits)) =
      Jbdtool.union ((keptNames 0 items).1.map (maskOf bits)) := by
    rw [union_absorbs]
    intro m member
    obtain ⟨e,inside,rfl⟩ := List.mem_map.mp member
    obtain ⟨s,rfl⟩ := whole.strings e inside
    rcases split s inside with kept | behind
    · exact union_le (List.mem_map_of_mem kept)
    · obtain ⟨t,m,same,parsed,absorbed⟩ := whole.late _ behind
      cases same
      have mask : elementMask bits (.string s) = m := by
        rw [elementMask,maskOf,parsed]
        rfl
      rwa [mask]
  have above : Jbdtool.union ((keptNames 0 items).1.map (maskOf bits)) ||| Jbdtool.union (items.map (elementMask bits)) =
      Jbdtool.union (items.map (elementMask bits)) := by
    rw [union_absorbs]
    intro m member
    obtain ⟨name,kept,rfl⟩ := List.mem_map.mp member
    obtain ⟨s,inside,rfl⟩ := names name kept
    exact union_le (List.mem_map_of_mem (f := elementMask bits) inside)
  rw [← above,UInt16.or_comm,below]

private theorem forall₂_mem {α β : Type} {r : α → β → Prop} {as : List α} {bs : List β} (all : List.Forall₂ r as bs) :
    ∀ a ∈ as, ∃ b ∈ bs, r a b := by
  induction all with
  | nil => simp
  | cons here _ ih =>
    rw [List.forall_mem_cons]
    refine ⟨⟨_,List.mem_cons_self,here⟩,fun a member => ?_⟩
    obtain ⟨b,inside,known⟩ := ih a member
    exact ⟨b,List.mem_cons_of_mem _ inside,known⟩

/-- What the join loses is written nevertheless: the array is written whole or not at all exactly
when the names kept are not taken together, or nothing was lost. -/
theorem array_written_iff {pp : JbdParams} {bits : List JbdBit} (field : BitField pp bits) (host : Host τ)
    (object : List (Bytes × Json)) (v : Json) (items : List Json)
    (given : Json.getValue object pp.label = some (.array items)) (w : World τ) :
    WholeOrNot bits pp.reg items (writeFrames ((writeMembers host object [(pp.label,v)]).run w).events) ↔
      (TakenTogether bits (keptNames 0 items).1 → NothingLost bits items) := by
  have readable := field.readable
  have text : joinNames items [] = (keptNames 0 items).1.foldl appendName [] := joinNames_kept items []
  obtain ⟨refused,accepted⟩ := writeParm_bits field host (joinNames items []) w
  obtain ⟨taken,other⟩ := parseBits_together readable (keptNames 0 items).1
  rw [← text] at taken other
  rw [writeMembers_array field host object v items given w]
  by_cases together : TakenTogether bits (keptNames 0 items).1
  swap
  · obtain ⟨message,parsed⟩ := other together
    rw [refused message parsed]
    exact ⟨fun _ absurd => (together absurd).elim,fun _ sent => (sent rfl).elim⟩
  obtain ⟨n,sent⟩ := accepted _ (taken together)
  rw [sent]
  obtain ⟨names,late,split⟩ := mem_keptNames 0 items
  constructor
  · intro whole _
    obtain ⟨marks,each,packets⟩ := whole (by simp)
    have same : union ((keptNames 0 items).1.map (maskOf bits)) = union marks :=
      shortPayload_inj (frame_inj rfl (packets _ (List.mem_replicate.mpr ⟨by omega,rfl⟩)))
    have alone : ∀ e ∈ items, ∃ s, e = .string s ∧ ∃ m ∈ marks, parseBits (Json.cstr s) bits = .ok m := by
      intro e member
      obtain ⟨m,mark,s,same,parsed⟩ := forall₂_mem each e member
      exact ⟨s,same,m,mark,parsed⟩
    refine ⟨fun e member => ?_,fun name member blank => ?_,fun e member => ?_⟩
    · obtain ⟨s,same,-⟩ := alone e member
      exact ⟨s,same⟩
    · obtain ⟨s,inside,rfl⟩ := names name member
      obtain ⟨t,same,m,-,parsed⟩ := alone _ inside
      cases same
      obtain ⟨message,error⟩ := parseBits_blank _ bits blank
      rw [error] at parsed
      cases parsed
    · obtain ⟨s,same',m,mark,parsed⟩ := alone e (late e member)
      exact ⟨s,m,same',parsed,by rw [same]; exact union_le mark⟩
  · intro lossless _
    have whole := lossless together
    have alone := together_alone readable together whole.visible
    refine ⟨items.map (elementMask bits),?_,?_⟩
    · rw [List.forall₂_map_right_iff,List.forall₂_same]
      intro e member
      obtain ⟨s,rfl⟩ := whole.strings e member
      refine ⟨s,rfl,?_⟩
      rcases split s member with kept | behind
      · exact alone _ kept
      · obtain ⟨t,m,same,parsed,-⟩ := whole.late _ behind
        cases same
        rw [elementMask,maskOf,parsed]
        rfl
    · intro packet member
      rw [List.eq_of_mem_replicate member,whole.union]

def batteryConfig : JbdParams := ⟨0x2D,bytes "BatteryConfig",.func⟩

theorem array_written_two : WholeOrNot funcBits 0x2D [.string (bytes "SCRL"),.string (bytes "balance_en")]
    (writeFrames ((writeMembers unanswered
      [(bytes "BatteryConfig",.array [.string (bytes "SCRL"),.string (bytes "balance_en")])]
      [(bytes "BatteryConfig",.null)]).run (World.start 0)).events) := by
  have field : BitField batteryConfig funcBits := .inl ⟨rfl,rfl⟩
  have nothing : NothingLost funcBits [.string (bytes "SCRL"),.string (bytes "balance_en")] := by
    have kept : keptNames 0 [.string (bytes "SCRL"),.string (bytes "balance_en")] =
        ([bytes "SCRL",bytes "balance_en"],[]) := rfl
    refine ⟨by simp,?_,?_⟩
    · rw [kept]
      decide
    · rw [kept]
      simp
  exact (array_written_iff field unanswered [(bytes "BatteryConfig",.array [.string (bytes "SCRL"),.string (bytes "balance_en")])]
    .null _ rfl (World.start 0)).mpr fun _ => nothing

/-- A number beside a name is skipped, and the mask of the name alone is written. -/
theorem array_number_skipped : ¬ WholeOrNot funcBits 0x2D [.string (bytes "SCRL"),.number 4]
    (writeFrames ((writeMembers unanswered [(bytes "BatteryConfig",.array [.string (bytes "SCRL"),.number 4])]
      [(bytes "BatteryConfig",.null)]).run (World.start 0)).events) := by
  have field : BitField batteryConfig funcBits := .inl ⟨rfl,rfl⟩
  have frames := writeMembers_array field unanswered [(bytes "BatteryConfig",.array [.string (bytes "SCRL"),.number 4])]
    .null _ rfl (World.start 0)
  obtain ⟨n,sent⟩ := (writeParm_bits field unanswered (joinNames [.string (bytes "SCRL"),.number 4] []) (World.start 0)).2 2 rfl
  intro whole
  have some : List.replicate (n + 1) (frame jbdCmdWrite 0x2D (shortPayload ((2 : UInt16).toNat : Int))) ≠ [] := by simp
  obtain ⟨marks,each,-⟩ := whole fun none => some ((frames.trans sent).symm.trans none)
  obtain ⟨m,-,s,same,-⟩ := forall₂_mem each (.number 4) (by simp)
  cases same

end Jbdtool
