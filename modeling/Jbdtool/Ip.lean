import Jbdtool.Base.CString
import Jbdtool.Base.Memory

/-! The ip transport: which targets are taken for addresses, and ip_read on a stream that
arrives in pieces. -/
namespace Jbdtool.Ip
open CString Traced Mem

def isIpFrom : Bytes → Nat → Nat → Int
  | [], dots, _ => if dots = 4 then 1 else 0
  | c::ptr, dots, digits =>
    if c = 46 then
      if digits = 0 then 0
      else if dots + 1 > 4 then 0
      else isIpFrom ptr (dots + 1) 0
    else if isdigit c then
      if digits + 1 > 3 then 0 else isIpFrom ptr dots (digits + 1)
    else isIpFrom ptr dots digits

def isIp (string : Bytes) : Int := isIpFrom string 0 0

def Group (g : Bytes) : Prop := g ≠ [] ∧ g.length ≤ 3 ∧ ∀ c ∈ g, isdigit c = true

def DottedQuad (s : Bytes) : Prop := ∃ a b c d, Group a ∧ Group b ∧ Group c ∧ Group d ∧
  s = a ++ 46::(b ++ 46::(c ++ 46::d))

def counted (s : Bytes) : Bytes := s.filter (fun c => c = 46 || isdigit c)

/-- This many groups, each with a dot behind it, and at most three more digits. -/
def Dotted (dots : Nat) (s : Bytes) : Prop := ∃ (groups : List Bytes) (last : Bytes), groups.length = dots ∧ (∀ g ∈ groups, Group g) ∧
  last.length ≤ 3 ∧ (∀ c ∈ last, isdigit c = true) ∧ s = groups.flatMap (· ++ [46]) ++ last

section
variable {dots : Nat} {front s u : Bytes}

private theorem noDot (digits : ∀ c ∈ front, isdigit c = true) : (46 : UInt8) ∉ front := fun inside =>
  absurd (digits 46 inside) (by decide)

private theorem before_dot {g : Bytes} (clean : (46 : UInt8) ∉ g) (clean' : (46 : UInt8) ∉ front)
    (same : g ++ 46::u = front ++ 46::s) : g = front ∧ u = s := by
  induction g generalizing front with
  | nil =>
    cases front with
    | nil => exact ⟨rfl,List.tail_eq_of_cons_eq same⟩
    | cons d front => exact absurd (List.head_eq_of_cons_eq same) fun equal => clean' (by simp [equal])
  | cons c g ih =>
    obtain ⟨here,clean⟩ : 46 ≠ c ∧ 46 ∉ g := by simpa using clean
    cases front with
    | nil => exact absurd (List.head_eq_of_cons_eq same).symm here
    | cons d front =>
      obtain ⟨rfl,rest⟩ := List.cons.inj same
      obtain ⟨rfl,rfl⟩ := ih clean (fun inside => clean' (List.mem_cons_of_mem _ inside)) rest
      exact ⟨rfl,rfl⟩

private theorem dotted_last (digits : ∀ c ∈ front, isdigit c = true) (short : front.length ≤ 3) :
    Dotted dots front ↔ dots = 0 := by
  constructor
  · rintro ⟨groups,last,rfl,-,-,-,same⟩
    cases groups with
    | nil => rfl
    | cons g groups =>
      have inside : (46 : UInt8) ∈ front := by simp [same]
      exact (noDot digits inside).elim
  · rintro rfl
    exact ⟨[],front,rfl,nofun,short,digits,rfl⟩

private theorem dotted_dot (digits : ∀ c ∈ front, isdigit c = true) :
    Dotted (dots + 1) (front ++ 46::s) ↔ Group front ∧ Dotted dots s := by
  constructor
  · rintro ⟨groups,last,count,all,short,decimal,same⟩
    obtain ⟨g,groups,rfl⟩ := List.exists_cons_of_length_eq_add_one count
    obtain ⟨group,others⟩ := List.forall_mem_cons.mp all
    rw [List.flatMap_cons,List.append_assoc,List.append_assoc,List.singleton_append] at same
    obtain ⟨rfl,rest⟩ := before_dot (noDot digits) (noDot group.2.2) same
    exact ⟨group,groups,last,by simpa using count,others,short,decimal,rest⟩
  · rintro ⟨group,groups,last,rfl,others,short,decimal,rfl⟩
    refine ⟨front::groups,last,rfl,List.forall_mem_cons.mpr ⟨group,others⟩,short,decimal,?_⟩
    rw [List.flatMap_cons,List.append_assoc,List.append_assoc,List.singleton_append]

private theorem dotted_long (digits : ∀ c ∈ front, isdigit c = true) (long : 3 < front.length) :
    ¬ Dotted dots (front ++ s) := by
  rintro ⟨groups,last,-,all,short,-,same⟩
  cases groups with
  | nil =>
    have length := congrArg List.length same
    simp at length
    omega
  | cons g groups =>
    have group := all g List.mem_cons_self
    rw [List.flatMap_cons,List.append_assoc,List.append_assoc,List.singleton_append] at same
    have inside : (46 : UInt8) ∈ front := by
      have four : (front ++ s)[g.length]? = some 46 := by rw [same]; simp
      rw [List.getElem?_append_left (by have := group.2.1; omega)] at four
      exact List.mem_of_getElem? four
    exact noDot digits inside

private theorem dotted_none : ¬ Dotted 0 (front ++ 46::s) := by
  rintro ⟨groups,last,count,-,-,decimal,same⟩
  obtain rfl := List.eq_nil_of_length_eq_zero count
  have inside : (46 : UInt8) ∈ last := by
    have whole : front ++ 46::s = last := same
    simp [← whole]
  exact noDot decimal inside

end

private theorem isIpFrom_iff (s front : Bytes) (dots : Nat) (few : dots ≤ 4) (digits : ∀ c ∈ front, isdigit c = true)
    (short : front.length ≤ 3) : isIpFrom s dots front.length = 1 ↔ Dotted (4 - dots) (front ++ counted s) := by
  induction s generalizing front dots with
  | nil =>
    have whole : front ++ counted [] = front := List.append_nil _
    rw [whole,dotted_last digits short,isIpFrom]
    split_ifs <;> simp <;> omega
  | cons c s ih =>
    rw [isIpFrom]
    by_cases dot : c = 46
    · subst dot
      have seen : counted (46::s) = 46::counted s := rfl
      rw [if_pos rfl,seen]
      by_cases full : dots = 4
      · subst full
        have none := @dotted_none front (counted s)
        split_ifs <;> simp_all
      · obtain ⟨more,enough⟩ : 4 - dots = 4 - (dots + 1) + 1 ∧ ¬ dots + 1 > 4 := by omega
        have next := ih [] (dots + 1) (by omega) nofun (Nat.zero_le _)
        rw [List.length_nil,List.nil_append] at next
        rw [more,dotted_dot digits,if_neg enough,← next]
        by_cases empty : front = []
        · simp [empty,Group]
        · have group : Group front := ⟨empty,short,digits⟩
          simp [empty,group]
    · rw [if_neg dot]
      by_cases digit : isdigit c = true
      · have seen : front ++ counted (c::s) = (front ++ [c]) ++ counted s := by simp [counted,digit]
        have digits' : ∀ d ∈ front ++ [c], isdigit d = true := List.forall_mem_append.mpr ⟨digits,by simpa using digit⟩
        rw [if_pos digit,seen]
        by_cases full : front.length + 1 > 3
        · have none := @dotted_long (4 - dots) (front ++ [c]) (counted s) digits' (by simpa using full)
          rw [if_pos full]
          exact iff_of_false (by decide) none
        · have next := ih (front ++ [c]) dots few digits' (by simpa using full)
          rw [List.length_append,List.length_singleton] at next
          rw [if_neg full,next]
      · have seen : counted (c::s) = counted s := by simp [counted,dot,digit]
        rw [if_neg digit,seen]
        exact ih front dots few digits short

private theorem isIp_iff (s : Bytes) : isIp s = 1 ↔ Dotted 4 (counted s) :=
  isIpFrom_iff s [] 0 (Nat.zero_le _) nofun (Nat.zero_le _)

private theorem count_dots {s : Bytes} (digits : ∀ c ∈ s, isdigit c = true) : s.count 46 = 0 :=
  List.count_eq_zero.mpr (noDot digits)

private theorem quad_dots {s : Bytes} (quad : DottedQuad s) : s.count 46 = 3 := by
  obtain ⟨a,b,c,d,first,second,third,fourth,rfl⟩ := quad
  simp [count_dots first.2.2,count_dots second.2.2,count_dots third.2.2,count_dots fourth.2.2]

private theorem dotted_dots {dots : Nat} {s : Bytes} (dotted : Dotted dots (counted s)) : s.count 46 = dots := by
  obtain ⟨groups,last,rfl,all,-,decimal,whole⟩ := dotted
  have seen : (counted s).count 46 = s.count 46 := List.count_filter (by decide)
  rw [← seen,whole,List.count_append,count_dots decimal,Nat.add_zero]
  clear whole seen
  induction groups with
  | nil => rfl
  | cons g groups ih =>
    obtain ⟨group,others⟩ := List.forall_mem_cons.mp all
    rw [List.flatMap_cons,List.count_append,ih others,List.count_append,count_dots group.2.2]
    simp [Nat.add_comm]

/-- A dotted quad has three dots, and is_ip wants four: it is right about a string exactly
where it says no and that is so. -/
theorem isIp_quad_iff (s : Bytes) : (isIp s = 1 ↔ DottedQuad s) ↔ ¬ DottedQuad s ∧ ¬ Dotted 4 (counted s) := by
  have apart : DottedQuad s → ¬ Dotted 4 (counted s) := fun quad dotted => by
    have three := quad_dots quad
    rw [dotted_dots dotted] at three
    cases three
  rw [isIp_iff]
  tauto

theorem isIp_quad_address : isIp (bytes "10.0.0.7") = 0 ∧ isIp (bytes "10.0.0.7.") = 1 ∧
    ¬ ∀ s, isIp s = 1 ↔ DottedQuad s := by
  have quad : DottedQuad (bytes "10.0.0.7") := by
    refine ⟨bytes "10",bytes "0",bytes "0",bytes "7",?_,?_,?_,?_,by decide +kernel⟩ <;> unfold Group <;> decide +kernel
  refine ⟨by decide +kernel,by decide +kernel,fun all => ?_⟩
  exact absurd ((all _).mpr quad) (by decide +kernel)

/-- What recv gives: bytes, none of which are the end of the stream, or an error, of which
EAGAIN is one. -/
inductive Recv where
  | bytes (data : Bytes)
  | again
  | failed
deriving DecidableEq

/-- `while(1)`, with `buf` as an offset; select comes to its timeout behind the last result.
The number returned, and where `buf` is then. -/
def readLoop : List Recv → Nat → Int → Int → Traced (Mem UInt8) Access (Int × Nat)
  | [], buf, _, bidx => pure (bidx,buf)
  | .again::results, buf, buflen, bidx => readLoop results buf buflen bidx
  | .failed::_, buf, _, _ => pure (-1,buf)
  | .bytes data::results, buf, buflen, bidx => do
    if data = [] then return (bidx,buf)
    Mem.storeBlock buf data
    if buflen - data.length < 1 then return (bidx + data.length,buf + data.length)
    readLoop results (buf + data.length) (buflen - data.length) (bidx + data.length)

def bindump (buf : Nat) (len : Int) : Traced (Mem UInt8) Access Unit := fun mem =>
  ⟨(),mem,(List.range len.toNat).map (fun i => .load (buf + i))⟩

def ipRead (debug sock : Int) (results : List Recv) (buflen : Int) : Traced (Mem UInt8) Access Int := do
  if sock = -1 then return -1
  let r ← readLoop results 0 buflen 0
  if debug ≥ 5 then bindump r.2 r.1
  return r.1

/-- The results that ip_read can get while these bytes arrive, with this much space left:
pieces of them in turn up to the end, the last of them followed by the timeout or by the
end of the stream. No space left to begin with gives no bytes. -/
inductive Delivers : Nat → Bytes → List Recv → Prop
  | timeout (space : Nat) : Delivers space [] []
  | closed (space : Nat) : Delivers space [] [.bytes []]
  | empty (stream : Bytes) : Delivers 0 stream [.bytes []]
  | piece {space : Nat} {data rest : Bytes} {results : List Recv} (some : data ≠ []) (fits : data.length < space)
      (more : Delivers (space - data.length) rest results) : Delivers space (data ++ rest) (.bytes data::results)
  | full {data : Bytes} (some : data ≠ []) (rest : Bytes) : Delivers data.length (data ++ rest) [.bytes data]
  | again {space : Nat} {stream : Bytes} {results : List Recv} (more : Delivers space stream results) :
      Delivers space stream (.again::results)
  | failed (space : Nat) (stream : Bytes) : Delivers space stream [.failed]

section
variable {space : Nat} {stream : Bytes} {results : List Recv}

private theorem stores_block (base : Nat) (data : Bytes) (i : Nat)
    (stored : Access.store i ∈ (List.range data.length).map (fun i => Access.store (base + i))) : i < base + data.length := by
  obtain ⟨j,inside,same⟩ := List.mem_map.mp stored
  have few := List.mem_range.mp inside
  obtain rfl := Access.store.inj same
  omega

private theorem readLoop_piece {data : Bytes} (some : data ≠ []) (buf : Nat) (bidx : Int) (buffer : Mem UInt8) :
    readLoop (.bytes data::results) buf space bidx buffer =
      (if (space : Int) - data.length < 1 then
          ⟨(bidx + data.length,buf + data.length),Mem.overlay buffer buf data,[]⟩
        else readLoop results (buf + data.length) ((space : Int) - data.length) (bidx + data.length)
          (Mem.overlay buffer buf data)).after ((List.range data.length).map (fun i => .store (buf + i))) := by
  rw [readLoop,if_neg some]
  simp only [Mem.storeBlock_bind]
  split_ifs <;> rfl

private theorem readLoop_delivered (delivers : Delivers space stream results) (buf : Nat) (bidx : Int) (buffer : Mem UInt8) :
    (∀ i, .store i ∈ (readLoop results buf space bidx buffer).events → i < buf + space) ∧
    (.failed ∈ results → (readLoop results buf space bidx buffer).value.1 = -1) ∧
    (.failed ∉ results → (readLoop results buf space bidx buffer).value =
        (bidx + min stream.length space,buf + min stream.length space) ∧
      (readLoop results buf space bidx buffer).state = Mem.overlay buffer buf (stream.take space)) := by
  have nothing (buf : Nat) (buffer : Mem UInt8) : Mem.overlay buffer buf [] = buffer := by
    funext i
    exact Mem.overlay_outside _ _ _ _ (by simp; omega)
  induction delivers generalizing buf bidx buffer with
  | timeout space => simp [readLoop,nothing]
  | closed space => simp [readLoop,nothing]
  | empty stream => simp [readLoop,nothing]
  | again more ih => simpa [readLoop] using ih buf bidx buffer
  | failed space stream => simp [readLoop]
  | @full data some rest =>
    rw [readLoop_piece some,if_pos (by omega)]
    refine ⟨fun i stored => ?_,by simp,fun _ => ?_⟩
    · exact stores_block buf data i (by simpa using stored)
    · simp
  | @piece space data rest results some fits more ih =>
    have left : (space : Int) - data.length = (space - data.length : Nat) := by omega
    obtain ⟨stores,fails,ends⟩ := ih (buf + data.length) (bidx + data.length) (Mem.overlay buffer buf data)
    rw [readLoop_piece some,if_neg (by omega),left]
    refine ⟨fun i stored => ?_,fun failed => fails (by simpa using failed),fun fine => ?_⟩
    · rcases List.mem_append.mp stored with here | later
      · have below := stores_block buf data i here
        omega
      · have below := stores i later
        omega
    · obtain ⟨value,state⟩ := ends (by simpa using fine)
      have length : (data ++ rest).take space = data ++ rest.take (space - data.length) := by
        rw [List.take_append,List.take_of_length_le (Nat.le_of_lt fits)]
      have total : min (data ++ rest).length space = data.length + min rest.length (space - data.length) := by
        rw [List.length_append]
        omega
      rw [Outcome.after_value,Outcome.after_state,value,state,Mem.overlay_append,length,total]
      refine ⟨?_,rfl⟩
      simp only [Prod.mk.injEq]
      omega

/-- However the stream is cut into pieces, its front is stored in order up to the space
there is, and nothing behind that. -/
theorem ipRead_delivered (debug sock : Int) (opened : sock ≠ -1) (delivers : Delivers space stream results)
    (buffer : Mem UInt8) :
    (∀ i, .store i ∈ (ipRead debug sock results space buffer).events → i < space) ∧
    (.failed ∈ results → (ipRead debug sock results space buffer).value = -1) ∧
    (.failed ∉ results → (ipRead debug sock results space buffer).value = (min stream.length space : Nat) ∧
      (ipRead debug sock results space buffer).state = Mem.overlay buffer 0 (stream.take space)) := by
  obtain ⟨stores,fails,ends⟩ := readLoop_delivered delivers 0 0 buffer
  have run : ∃ dumped : List Access, (∀ i, .store i ∉ dumped) ∧ ipRead debug sock results space buffer =
      ⟨(readLoop results 0 space 0 buffer).value.1,(readLoop results 0 space 0 buffer).state,
        (readLoop results 0 space 0 buffer).events ++ dumped⟩ := by
    unfold ipRead
    rw [if_neg opened,bind_run]
    by_cases dumps : debug ≥ 5
    · rw [if_pos dumps]
      generalize readLoop results 0 space 0 buffer = o
      exact ⟨(List.range o.value.1.toNat).map (fun i => .load (o.value.2 + i)) ++ [],by simp,rfl⟩
    · rw [if_neg dumps]
      exact ⟨[],nofun,rfl⟩
  obtain ⟨dumped,clean,same⟩ := run
  rw [same]
  refine ⟨fun i stored => ?_,fails,fun fine => ?_⟩
  · rcases List.mem_append.mp stored with here | later
    · have below := stores i here
      omega
    · exact (clean i later).elim
  · obtain ⟨value,state⟩ := ends fine
    refine ⟨?_,state⟩
    rw [value]
    simp

/-- Six bytes in three pieces into a buffer of four. -/
theorem ipRead_delivered_pieces :
    (ipRead 5 3 [.bytes [1],.again,.bytes [2,3],.bytes [4]] 4 (fun _ => 0)).value = 4 ∧
    (ipRead 5 3 [.bytes [1],.again,.bytes [2,3],.bytes [4]] 4 (fun _ => 0)).state =
      Mem.overlay (fun _ => 0) 0 [1,2,3,4] := by
  have pieces : Delivers 4 [1,2,3,4,5,6] [.bytes [1],.again,.bytes [2,3],.bytes [4]] :=
    @Delivers.piece 4 [1] _ _ (by decide) (by decide) (.again (@Delivers.piece 3 [2,3] _ _ (by decide) (by decide)
      (@Delivers.full [4] (by decide) [5,6])))
  exact (ipRead_delivered 5 3 (by decide) pieces (fun _ => 0)).2.2 (by decide)

end

end Jbdtool.Ip
