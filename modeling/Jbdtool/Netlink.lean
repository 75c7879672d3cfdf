import Jbdtool.Base.Attributes
import Mathlib.Data.List.GetD

/-! The netlink messages of the can transport: the request that sets the bit timing of an
interface, and the reply that the current one is read from. -/
namespace Jbdtool.Netlink
open CString Traced Mem Attributes

def iflaIfname : Nat := 3
def iflaLinkinfo : Nat := 18
def iflaInfoKind : Nat := 1
def iflaInfoData : Nat := 2
def iflaCanBittiming : Nat := 1
def iflaCanCtrlmode : Nat := 5
def iflaCanRestartMs : Nat := 6
def iflaCanRestart : Nat := 7
def iflaCanMax : Nat := 10

/-- The largest types that the headers of the build name. -/
structure Headers where
  iflaMax : Nat
  infoMax : Nat
  links : iflaLinkinfo ≤ iflaMax
  data : iflaInfoData ≤ infoMax

def nlmsgHdrlen : Nat := 16
def ifinfomsgSize : Nat := 16
def ifaddrmsgSize : Nat := 8
def setReqSize : Nat := nlmsgHdrlen + ifinfomsgSize + 1024
def rtmNewlink : Nat := 16
def nlmsgDone : Nat := 3
def iffUp : Nat := 1

def dword (n : UInt32) : Bytes := word (n.toNat % 65536) ++ word (n.toNat / 65536)

structure Bittiming where
  bitrate : UInt32
  samplePoint : UInt32
  tq : UInt32
  propSeg : UInt32
  phaseSeg1 : UInt32
  phaseSeg2 : UInt32
  sjw : UInt32
  brp : UInt32

def Bittiming.bytes (bt : Bittiming) : Bytes := dword bt.bitrate ++ (dword bt.samplePoint ++ (dword bt.tq ++
  (dword bt.propSeg ++ (dword bt.phaseSeg1 ++ (dword bt.phaseSeg2 ++ (dword bt.sjw ++ dword bt.brp))))))

structure Ctrlmode where
  mask : UInt32
  flags : UInt32

def Ctrlmode.bytes (cm : Ctrlmode) : Bytes := dword cm.mask ++ dword cm.flags

structure ReqInfo where
  restart : UInt8
  disableAutorestart : UInt8
  restartMs : UInt32
  ctrlmode : Option Ctrlmode
  bittiming : Option Bittiming

/-- The header of a request; its attributes are in memory, from byte 32 on. -/
structure SetReq where
  nlmsgLen : Nat
  nlmsgType : Nat
  nlmsgFlags : Nat
  ifiFamily : Nat
  ifiIndex : Nat
  ifiChange : Nat
  ifiFlags : Nat

/-- `addattr_l`, with what nlmsg_len is afterwards. -/
def addattrL (maxlen type : Nat) (data : Bytes) (nlmsgLen : Nat) : Traced (Mem UInt8) Access (Int × Nat) :=
  if maxlen < align nlmsgLen + align (data.length + 4) then pure (-1,nlmsgLen) else do
    Mem.storeBlock (align nlmsgLen) (word (data.length + 4) ++ word type)
    Mem.storeBlock (align nlmsgLen + 4) data
    return (0,align nlmsgLen + align (data.length + 4))

/-- `addattr32` -/
def addattr32 (maxlen type : Nat) (data : UInt32) (nlmsgLen : Nat) : Traced (Mem UInt8) Access (Int × Nat) :=
  if maxlen < align nlmsgLen + 8 then pure (-1,nlmsgLen) else do
    Mem.storeBlock (align nlmsgLen) (word 8 ++ word type)
    Mem.storeBlock (align nlmsgLen + 4) (dword data)
    return (0,align nlmsgLen + 8)

def addRestartMs (info : ReqInfo) (n : Nat) : Traced (Mem UInt8) Access Nat :=
  if 0 < info.restartMs ∨ 0 < info.disableAutorestart then Prod.snd <$> addattr32 1024 iflaCanRestartMs info.restartMs n
  else pure n

def addRestart (info : ReqInfo) (n : Nat) : Traced (Mem UInt8) Access Nat :=
  if 0 < info.restart then Prod.snd <$> addattr32 1024 iflaCanRestart 1 n else pure n

def addBittiming (info : ReqInfo) (n : Nat) : Traced (Mem UInt8) Access Nat := match info.bittiming with
  | some bt => Prod.snd <$> addattrL 1024 iflaCanBittiming bt.bytes n
  | none => pure n

def addCtrlmode (info : ReqInfo) (n : Nat) : Traced (Mem UInt8) Access Nat := match info.ctrlmode with
  | some cm => Prod.snd <$> addattrL 1024 iflaCanCtrlmode cm.bytes n
  | none => pure n

/-- The attributes of the data section, one after the other; their statuses are not looked at. -/
def addData (info : ReqInfo) (n : Nat) : Traced (Mem UInt8) Access Nat := do
  let n ← addRestartMs info n
  let n ← addRestart info n
  let n ← addBittiming info n
  addCtrlmode info n

/-- `do_set_nl_link` up to sending, over the zeroed request: with IF_UP 1 and IF_DOWN 2, the index that
if_nametoindex gave, and the request info where there is one. -/
def doSetNlLink (ifState ifIndex : Nat) (reqInfo : Option ReqInfo) : Traced (Mem UInt8) Access (Option SetReq) :=
  if ifIndex = 0 then pure none else
  if 2 < ifState then pure none else
  let req : SetReq := ⟨nlmsgHdrlen + ifinfomsgSize,rtmNewlink,5,0,ifIndex,if ifState = 0 then 0 else iffUp,
    if ifState = 1 then iffUp else 0⟩
  match reqInfo with
  | none => pure (some req)
  | some info => do
    let linkinfo := align req.nlmsgLen
    let n ← Prod.snd <$> addattrL setReqSize iflaLinkinfo [] req.nlmsgLen
    let n ← Prod.snd <$> addattrL setReqSize iflaInfoKind (bytes "can") n
    let data := align n
    let n ← Prod.snd <$> addattrL setReqSize iflaInfoData [] n
    let n ← addData info n
    Mem.storeBlock data (word (align n - data))
    Mem.storeBlock linkinfo (word (align n - linkinfo))
    return some {req with nlmsgLen := n}

/-- `parse_rtattr`; the table has the address of the last attribute of each type. -/
def parseRtattr (max : Nat) (mem : Mem UInt8) (rta len : Nat) (tb : Nat → Option Nat) : Nat → Option Nat :=
  if _ok : Whole mem rta len then
    parseRtattr max mem (rta + align (readWord mem rta)) (len - align (readWord mem rta))
      (if readWord mem (rta + 2) ≤ max then fun k => if k = readWord mem (rta + 2) then some rta else tb k else tb)
  else tb
termination_by len
decreasing_by
  obtain ⟨some,least,-⟩ := _ok
  unfold align
  omega

def parseRtattrNested (max : Nat) (mem : Mem UInt8) (rta : Nat) : Nat → Option Nat :=
  parseRtattr max mem (rta + 4) (readWord mem rta - 4) fun _ => none

structure Got where
  ret : Int
  done : Bool
  bt : Option Bytes

inductive Next where
  | go (got : Got)
  | returned (got : Got)
  /-- A null attribute is read, or the walk leaves the datagram. -/
  | astray

/-- A message of type RTM_NEWLINK, for GET_BITTIMING. -/
def newLink (h : Headers) (name : Bytes) (nlbuf : Mem UInt8) (nlMsg nlmsgLen : Nat) (got : Got) : Next :=
  let tb := parseRtattr h.iflaMax nlbuf (nlMsg + nlmsgHdrlen + ifinfomsgSize) (nlmsgLen - (nlmsgHdrlen + ifaddrmsgSize))
    fun _ => none
  match tb iflaIfname with
  | none => .astray
  | some ifname =>
    if slice nlbuf (ifname + 4) (name.length + 1) ≠ name ++ [0] then .go got else
    match tb iflaLinkinfo with
    | none => .go {got with done := true}
    | some link => match parseRtattrNested h.infoMax nlbuf link iflaInfoData with
      | none => .returned {got with done := true}
      | some data => match parseRtattrNested iflaCanMax nlbuf data iflaCanBittiming with
        | some bt => .go ⟨0,true,some (slice nlbuf (bt + 4) 32)⟩
        | none => .go {got with done := true}

def readDword (mem : Mem UInt8) (a : Nat) : Nat := readWord mem a + 65536 * readWord mem (a + 2)

/-- The messages of one datagram; its length is unsigned, so it must not become negative. -/
def messages (h : Headers) (name : Bytes) (nlbuf : Mem UInt8) (nlMsg msglen : Nat) (got : Got) : Next :=
  if _ok : nlmsgHdrlen ≤ msglen ∧ nlmsgHdrlen ≤ readDword nlbuf nlMsg ∧ readDword nlbuf nlMsg ≤ msglen then
    let next : Next :=
      if readWord nlbuf (nlMsg + 4) = nlmsgDone then .go {got with done := true} else
      if readWord nlbuf (nlMsg + 4) ≠ rtmNewlink then .go got else
      newLink h name nlbuf nlMsg (readDword nlbuf nlMsg) got
    match next with
    | .go got =>
      if msglen < align (readDword nlbuf nlMsg) then .astray else
      messages h name nlbuf (nlMsg + align (readDword nlbuf nlMsg)) (msglen - align (readDword nlbuf nlMsg)) got
    | stop => stop
  else .go got
termination_by msglen
decreasing_by
  obtain ⟨some,least,-⟩ := _ok
  unfold align
  simp only [nlmsgHdrlen] at least some
  omega

/-- A datagram, and whether it was cut off; anything else ends the reading. -/
structure Datagram where
  content : Bytes
  cut : Bool

/-- `do_get_nl_link` behind its request, for GET_BITTIMING, on the datagrams that recvmsg gives. -/
def doGetNlLink (h : Headers) (name : Bytes) : List Datagram → Mem UInt8 → Got → Next
  | [], _, got => .returned got
  | d::ds, nlbuf, got =>
    if got.done then .returned got else
    if d.cut then .returned {got with ret := -1} else
    match messages h name (overlay nlbuf 0 d.content) 0 d.content.length got with
    | .go got => doGetNlLink h name ds (overlay nlbuf 0 d.content) got
    | stop => stop

/-- `can_get_bittiming`: its status, and what the timing is set to. -/
def canGetBittiming (h : Headers) (name : Bytes) (datagrams : List Datagram) (stack : Mem UInt8) : Option (Int × Option Bytes) :=
  match doGetNlLink h name datagrams stack ⟨-1,false,none⟩ with
  | .go got | .returned got => some (got.ret,got.bt)
  | .astray => none

@[simp] theorem dword_length (n : UInt32) : (dword n).length = 4 := rfl

@[simp] theorem Bittiming.bytes_length (bt : Bittiming) : bt.bytes.length = 32 := rfl

@[simp] theorem Ctrlmode.bytes_length (cm : Ctrlmode) : cm.bytes.length = 8 := rfl

private theorem map_run {σ ω α β : Type} (f : α → β) (m : Traced σ ω α) (s : σ) :
    (f <$> m) s = ⟨f (m s).value,(m s).state,(m s).events⟩ := by
  rw [map_eq_pure_bind,bind_run]
  simp [Outcome.after]

/-- The bytes of an attribute of any content. -/
def raw (type : Nat) (data : Bytes) : Bytes := word (data.length + 4) ++ word type ++ (data ++ padding (data.length + 4))

private theorem raw_length (type : Nat) (data : Bytes) : (raw type data).length = align (data.length + 4) := by
  have := align_ge (data.length + 4)
  simp only [raw,padding,word,List.length_append,List.length_replicate,List.length_cons,List.length_nil]
  omega

private theorem overlay_zeros (zero : Mem UInt8) (null : ∀ i, zero i = 0) (base : Nat) (xs : Bytes) (k : Nat) :
    overlay zero base (xs ++ List.replicate k 0) = overlay zero base xs := by
  rw [← overlay_append]
  funext i
  by_cases inside : base + xs.length ≤ i ∧ i < base + xs.length + k
  · obtain ⟨j,rfl⟩ := Nat.exists_eq_add_of_le inside.1
    rw [overlay_inside _ _ _ j (by simp; omega),overlay_outside zero _ _ _ (.inr (by omega)),null]
    simp
  · rw [overlay_outside _ _ _ _ (by rw [List.length_replicate]; omega)]

private theorem below_stores (base count size : Nat) (fits : base + count ≤ size) :
    Below size ((List.range count).map (fun i => .store (base + i))) := by
  intro access member
  obtain ⟨i,inside,rfl⟩ := List.mem_map.mp member
  have := List.mem_range.mp inside
  simp only [Access.store_index]
  omega

/-- A step that takes the length of the message and appends these bytes to its attributes. -/
structure Appends (bound : Nat) (m : Nat → Traced (Mem UInt8) Access Nat) (bs : Bytes) : Prop where
  aligned : bs.length % 4 = 0
  run : ∀ (zero : Mem UInt8) (body : Bytes), (∀ i, zero i = 0) → body.length % 4 = 0 → 32 + body.length + bs.length ≤ bound →
    (m (32 + body.length) (overlay zero 32 body)).value = 32 + (body ++ bs).length ∧
    (m (32 + body.length) (overlay zero 32 body)).state = overlay zero 32 (body ++ bs) ∧
    Below bound (m (32 + body.length) (overlay zero 32 body)).events

private theorem appends_same (bound : Nat) : Appends bound pure [] := by
  refine ⟨rfl,fun zero body _ _ _ => ?_⟩
  simp

private theorem appends_bind {bound : Nat} {m k : Nat → Traced (Mem UInt8) Access Nat} {bs cs : Bytes}
    (first : Appends bound m bs) (next : Appends bound k cs) : Appends bound (fun n => m n >>= k) (bs ++ cs) := by
  refine ⟨?_,fun zero body null aligned fits => ?_⟩
  · have := first.aligned
    have := next.aligned
    rw [List.length_append]
    omega
  · rw [List.length_append] at fits
    have whole : (body ++ bs).length % 4 = 0 := by
      have := first.aligned
      rw [List.length_append]
      omega
    obtain ⟨value,state,small⟩ := first.run zero body null aligned (by omega)
    obtain ⟨value',state',small'⟩ := next.run zero (body ++ bs) null whole (by rw [List.length_append]; omega)
    rw [bind_run,value,state]
    refine ⟨?_,?_,?_⟩
    · rw [Outcome.after_value,value',List.append_assoc]
    · rw [Outcome.after_state,state',List.append_assoc]
    · rw [Outcome.after_events,below_append]
      exact ⟨small,small'⟩

private theorem appends_addattrL (bound maxlen : Nat) (room : bound ≤ maxlen) (type : Nat) (data : Bytes) :
    Appends bound (fun n => Prod.snd <$> addattrL maxlen type data n) (raw type data) := by
  have size := raw_length type data
  refine ⟨by rw [size]; exact align_mod _,fun zero body null aligned fits => ?_⟩
  have start : align (32 + body.length) = 32 + body.length := align_of_mod _ (by omega)
  have enough : ¬ maxlen < 32 + body.length + align (data.length + 4) := by omega
  have least := align_ge (data.length + 4)
  have state : overlay (overlay (overlay zero 32 body) (32 + body.length) (word (data.length + 4) ++ word type))
      (32 + body.length + 4) data = overlay zero 32 (body ++ raw type data) := by
    have four : 32 + body.length + 4 = 32 + body.length + (word (data.length + 4) ++ word type).length := rfl
    rw [four,overlay_append,overlay_append,raw,padding,← List.append_assoc (word _ ++ word _),
      ← List.append_assoc body (word _ ++ word _ ++ data),overlay_zeros zero null]
  rw [map_run]
  simp only [addattrL,start,if_neg enough]
  rw [storeBlock_bind,storeBlock_bind,pure_run]
  refine ⟨?_,state,?_⟩
  · change 32 + body.length + align (data.length + 4) = _
    rw [List.length_append,size,Nat.add_assoc]
  · simp only [Outcome.after_events,below_append,below_nil,and_true]
    exact ⟨below_stores _ _ _ (by simp [word]; omega),below_stores _ _ _ (by omega)⟩

private theorem appends_addattr32 (bound maxlen : Nat) (room : bound ≤ maxlen) (type : Nat) (data : UInt32) :
    Appends bound (fun n => Prod.snd <$> addattr32 maxlen type data n) (raw type (dword data)) := by
  have same (n : Nat) : addattr32 maxlen type data n = addattrL maxlen type (dword data) n := by
    have eight : align ((dword data).length + 4) = 8 := by rw [dword_length]; rfl
    rw [addattr32,addattrL,eight]
    rfl
  simp only [same]
  exact appends_addattrL bound maxlen room type (dword data)

private theorem appends_if {bound : Nat} {c : Prop} [Decidable c] {m : Nat → Traced (Mem UInt8) Access Nat} {bs : Bytes}
    (appends : Appends bound m bs) : Appends bound (fun n => if c then m n else pure n) (if c then bs else []) := by
  split_ifs
  · exact appends
  · exact appends_same bound

/-- What a step leaves, once its value and its memory are known. -/
private theorem run_of {m : Traced (Mem UInt8) Access α} {mem mem' : Mem UInt8} {a : α} (value : (m mem).value = a)
    (state : (m mem).state = mem') : m mem = ⟨a,mem',(m mem).events⟩ := by
  rw [← value,← state]

private theorem overlay_patch (mem : Mem UInt8) (base : Nat) (p old new r : Bytes) (same : old.length = new.length) :
    overlay (overlay mem base (p ++ (old ++ r))) (base + p.length) new = overlay mem base (p ++ (new ++ r)) := by
  funext i
  by_cases inside : base + p.length ≤ i ∧ i < base + p.length + new.length
  · obtain ⟨j,rfl⟩ := Nat.exists_eq_add_of_le inside.1
    have within : j < new.length := by omega
    rw [overlay_inside _ _ _ j within,Nat.add_assoc,overlay_inside _ _ _ (p.length + j) (by simp; omega),
      List.getElem_append_right (by omega)]
    simp [within]
  · rw [overlay_outside _ _ _ _ (by omega)]
    unfold overlay
    have lengths : (p ++ (old ++ r)).length = (p ++ (new ++ r)).length := by simp [same]
    rw [lengths]
    split_ifs with there
    · rcases Nat.lt_or_ge i (base + p.length) with before | behind
      · rw [List.getD_append _ _ _ _ (by omega),List.getD_append _ _ _ _ (by omega)]
      · have far : base + p.length + new.length ≤ i := by omega
        rw [List.getD_append_right _ _ _ _ (by omega),List.getD_append_right _ _ _ _ (by omega),
          List.getD_append_right _ _ _ _ (by omega),List.getD_append_right _ _ _ _ (by omega),same]
    · rfl

def bittimingAttributes (info : ReqInfo) : List Attribute := match info.bittiming with
  | some bt => [⟨iflaCanBittiming,bt.bytes,by decide,by simp [Bittiming.bytes,dword,word]⟩]
  | none => []

def ctrlmodeAttributes (info : ReqInfo) : List Attribute := match info.ctrlmode with
  | some cm => [⟨iflaCanCtrlmode,cm.bytes,by decide,by simp [Ctrlmode.bytes,dword,word]⟩]
  | none => []

def restartAttributes (info : ReqInfo) : List Attribute :=
  (if 0 < info.restartMs ∨ 0 < info.disableAutorestart then
    [⟨iflaCanRestartMs,dword info.restartMs,by decide,by simp [dword,word]⟩] else []) ++
  if 0 < info.restart then [⟨iflaCanRestart,dword 1,by decide,by decide⟩] else []

def dataAttributes (info : ReqInfo) : List Attribute :=
  restartAttributes info ++ (bittimingAttributes info ++ ctrlmodeAttributes info)

private theorem encode_raw (a : Attribute) : encode [a] = raw a.type a.payload := by
  simp [encode,Attribute.bytes,raw,header]

private theorem appends_addBittiming (info : ReqInfo) :
    Appends 1024 (addBittiming info) (encode (bittimingAttributes info)) := by
  unfold addBittiming bittimingAttributes
  cases info.bittiming with
  | none => exact appends_same 1024
  | some bt =>
    simp only [encode_raw]
    exact appends_addattrL 1024 1024 le_rfl _ _

private theorem appends_addCtrlmode (info : ReqInfo) : Appends 1024 (addCtrlmode info) (encode (ctrlmodeAttributes info)) := by
  unfold addCtrlmode ctrlmodeAttributes
  cases info.ctrlmode with
  | none => exact appends_same 1024
  | some cm =>
    simp only [encode_raw]
    exact appends_addattrL 1024 1024 le_rfl _ _

private theorem appends_addData (info : ReqInfo) : Appends 1024 (addData info) (encode (dataAttributes info)) := by
  have restartMs := appends_if (c := 0 < info.restartMs ∨ 0 < info.disableAutorestart)
    (appends_addattr32 1024 1024 le_rfl iflaCanRestartMs info.restartMs)
  have restart := appends_if (c := 0 < info.restart) (appends_addattr32 1024 1024 le_rfl iflaCanRestart 1)
  have all := appends_bind restartMs (appends_bind restart
    (appends_bind (appends_addBittiming info) (appends_addCtrlmode info)))
  have same : encode (dataAttributes info) = (if 0 < info.restartMs ∨ 0 < info.disableAutorestart then
      raw iflaCanRestartMs (dword info.restartMs) else []) ++ ((if 0 < info.restart then raw iflaCanRestart (dword 1) else []) ++
      (encode (bittimingAttributes info) ++ encode (ctrlmodeAttributes info))) := by
    simp only [dataAttributes,restartAttributes,encode_append,List.append_assoc]
    congr 1
    · split_ifs
      · exact encode_raw _
      · rfl
    congr 1
    split_ifs
    · exact encode_raw _
    · rfl
  rw [same]
  exact all

private theorem dataAttributes_length (info : ReqInfo) : (encode (dataAttributes info)).length ≤ 64 := by
  have sizes (c : Prop) [Decidable c] (a : Attribute) (n : Nat) (size : (encode [a]).length ≤ n) :
      (encode (if c then [a] else [])).length ≤ n := by
    split_ifs
    · exact size
    · exact Nat.zero_le n
  have bittiming : (encode (bittimingAttributes info)).length ≤ 36 := by
    unfold bittimingAttributes
    cases info.bittiming with
    | none => exact Nat.zero_le _
    | some bt =>
      simp only [encode_raw,raw_length,Bittiming.bytes_length]
      exact le_refl 36
  have ctrlmode : (encode (ctrlmodeAttributes info)).length ≤ 12 := by
    unfold ctrlmodeAttributes
    cases info.ctrlmode with
    | none => exact Nat.zero_le _
    | some cm =>
      simp only [encode_raw,raw_length,Ctrlmode.bytes_length]
      exact le_refl 12
  have restartMs := sizes (0 < info.restartMs ∨ 0 < info.disableAutorestart)
    ⟨iflaCanRestartMs,dword info.restartMs,by decide,by simp [dword,word]⟩ 8 (by rw [encode_raw,raw_length,dword_length]; exact le_refl 8)
  have restart := sizes (0 < info.restart) ⟨iflaCanRestart,dword 1,by decide,by decide⟩ 8
    (by rw [encode_raw,raw_length,dword_length]; exact le_refl 8)
  simp only [dataAttributes,restartAttributes,encode_append,List.length_append] at *
  omega

def kindAttribute : Attribute := ⟨iflaInfoKind,bytes "can",by decide,by decide⟩

def dataAttribute (info : ReqInfo) : Attribute := ⟨iflaInfoData,encode (dataAttributes info),by decide,by
  have := dataAttributes_length info
  omega⟩

private theorem sections_length (info : ReqInfo) :
    (encode [kindAttribute,dataAttribute info]).length = 12 + (encode (dataAttributes info)).length := by
  have aligned := encode_aligned (dataAttributes info)
  have data : (dataAttribute info).bytes.length = 4 + (encode (dataAttributes info)).length := by
    rw [Attributes.bytes_length,dataAttribute,align_of_mod _ (by simp only; omega),Nat.add_comm]
  have kind : kindAttribute.bytes.length = 8 := by
    rw [Attributes.bytes_length]
    decide
  rw [encode_cons,encode_cons,encode,List.flatMap_nil,List.length_append,List.length_append,data,kind,List.length_nil]
  omega

def linkAttribute (info : ReqInfo) : Attribute := ⟨iflaLinkinfo,encode [kindAttribute,dataAttribute info],by decide,by
  have := dataAttributes_length info
  rw [sections_length]
  omega⟩

/-- The request that is sent: one attribute, with the kind of the link and its data section inside it. -/
private theorem doSetNlLink_message (ifState ifIndex : Nat) (info : ReqInfo) (zero : Mem UInt8) (null : ∀ i, zero i = 0)
    (found : ifIndex ≠ 0) (known : ifState ≤ 2) :
    (doSetNlLink ifState ifIndex (some info) zero).value = some ⟨32 + (linkAttribute info).bytes.length,rtmNewlink,5,0,ifIndex,
      if ifState = 0 then 0 else iffUp,if ifState = 1 then iffUp else 0⟩ ∧
    (doSetNlLink ifState ifIndex (some info) zero).state = overlay zero 32 (linkAttribute info).bytes ∧
    Below setReqSize (doSetNlLink ifState ifIndex (some info) zero).events := by
  have few := dataAttributes_length info
  have aligned := encode_aligned (dataAttributes info)
  have empty (type : Nat) : raw type [] = word 4 ++ word type := rfl
  have kindLength : (raw iflaInfoKind (bytes "can")).length = 8 := by rw [raw_length]; decide
  have start : overlay zero 32 [] = zero := by
    funext i
    exact overlay_outside zero 32 [] i (by simp only [List.length_nil]; omega)
  -- The sections are opened with empty attributes and the data is appended.
  obtain ⟨value,state,small⟩ := (appends_addattrL 1024 setReqSize (by decide) iflaLinkinfo []).run zero [] null rfl (by decide)
  rw [start,List.nil_append] at state
  rw [start] at value small
  obtain ⟨value',state',small'⟩ := (appends_addattrL 1024 setReqSize (by decide) iflaInfoKind (bytes "can")).run zero
    (raw iflaLinkinfo []) null rfl (by rw [kindLength]; decide)
  obtain ⟨value'',state'',small''⟩ := (appends_addattrL 1024 setReqSize (by decide) iflaInfoData []).run zero
    (raw iflaLinkinfo [] ++ raw iflaInfoKind (bytes "can")) null (by rw [List.length_append,kindLength]; rfl)
    (by rw [List.length_append,kindLength]; decide)
  obtain ⟨value₃,state₃,small₃⟩ := (appends_addData info).run zero
    (raw iflaLinkinfo [] ++ raw iflaInfoKind (bytes "can") ++ raw iflaInfoData []) null
    (by rw [List.length_append,List.length_append,kindLength]; rfl)
    (by rw [List.length_append,List.length_append,kindLength,empty,empty]; simp [word]; omega)
  have opened : 32 + ([] : Bytes).length = nlmsgHdrlen + ifinfomsgSize := rfl
  rw [List.nil_append,opened] at value
  rw [opened] at state small
  rw [doSetNlLink,if_neg found,if_neg (by omega)]
  dsimp only
  rw [bind_of_run (run_of value state),bind_of_run (run_of value' state'),bind_of_run (run_of value'' state''),
    bind_of_run (run_of value₃ state₃),storeBlock_bind,storeBlock_bind,pure_run]
  -- What is left is to write the two lengths that were not known before.
  have here : align (32 + (raw iflaLinkinfo [] ++ raw iflaInfoKind (bytes "can")).length) = 44 := by
    rw [List.length_append,kindLength]
    rfl
  have first : align (nlmsgHdrlen + ifinfomsgSize) = 32 := rfl
  have total : (raw iflaLinkinfo [] ++ raw iflaInfoKind (bytes "can") ++ raw iflaInfoData [] ++
      encode (dataAttributes info)).length = 16 + (encode (dataAttributes info)).length := by
    simp only [List.length_append,kindLength,empty]
    rfl
  have end' : align (32 + (16 + (encode (dataAttributes info)).length)) = 32 + (16 + (encode (dataAttributes info)).length) :=
    align_of_mod _ (by omega)
  rw [here,first,total,end']
  have front : word 4 ++ word iflaLinkinfo ++ raw iflaInfoKind (bytes "can") ++ (word 4 ++ word iflaInfoData) ++
      encode (dataAttributes info) = (word 4 ++ (word iflaLinkinfo ++ raw iflaInfoKind (bytes "can"))) ++
        (word 4 ++ (word iflaInfoData ++ encode (dataAttributes info))) := by simp only [List.append_assoc]
  have inner := overlay_patch zero 32 (word 4 ++ (word iflaLinkinfo ++ raw iflaInfoKind (bytes "can"))) (word 4)
    (word (32 + (16 + (encode (dataAttributes info)).length) - 44)) (word iflaInfoData ++ encode (dataAttributes info)) rfl
  have place : 32 + (word 4 ++ (word iflaLinkinfo ++ raw iflaInfoKind (bytes "can"))).length = 44 := by
    rw [List.length_append,List.length_append,kindLength]
    rfl
  have outer := overlay_patch zero 32 [] (word 4) (word (32 + (16 + (encode (dataAttributes info)).length) - 32))
    (word iflaLinkinfo ++ raw iflaInfoKind (bytes "can") ++ (word (32 + (16 + (encode (dataAttributes info)).length) - 44) ++
      (word iflaInfoData ++ encode (dataAttributes info)))) rfl
  have lengths : 32 + (16 + (encode (dataAttributes info)).length) - 44 = (encode (dataAttributes info)).length + 4 ∧
      32 + (16 + (encode (dataAttributes info)).length) - 32 = 12 + (encode (dataAttributes info)).length + 4 := by omega
  have built : (linkAttribute info).bytes = word (12 + (encode (dataAttributes info)).length + 4) ++ (word iflaLinkinfo ++
      raw iflaInfoKind (bytes "can") ++ (word ((encode (dataAttributes info)).length + 4) ++
        (word iflaInfoData ++ encode (dataAttributes info)))) := by
    have none (n : Nat) (whole : n % 4 = 0) : padding n = [] := by
      rw [padding,align_of_mod n whole,Nat.sub_self]
      rfl
    have link := encode_raw (linkAttribute info)
    have data := encode_raw (dataAttribute info)
    have kind := encode_raw kindAttribute
    rw [encode_cons,encode,List.flatMap_nil,List.append_nil] at link data kind
    have split : encode [kindAttribute,dataAttribute info] = kindAttribute.bytes ++ (dataAttribute info).bytes := by
      rw [encode_cons,encode_cons,encode,List.flatMap_nil,List.append_nil]
    rw [link,raw]
    simp only [linkAttribute]
    rw [sections_length,none _ (by omega),split,kind,data,List.append_nil]
    simp only [raw,dataAttribute,kindAttribute]
    rw [none ((encode (dataAttributes info)).length + 4) (by omega),List.append_nil]
    simp only [List.append_assoc]
  rw [List.nil_append,List.nil_append,List.length_nil,Nat.add_zero] at outer
  rw [place] at inner
  refine ⟨?_,?_,?_⟩
  · rw [Outcome.after_value,Outcome.after_value,Outcome.after_value,Outcome.after_value,Outcome.after_value,Outcome.after_value,
      Attributes.bytes_length]
    simp only [linkAttribute]
    rw [sections_length,align_of_mod _ (by omega)]
    congr 2
    omega
  · simp only [Outcome.after_state]
    rw [empty,empty,front,inner,List.append_assoc,outer,built,lengths.1,lengths.2]
  · simp only [Outcome.after_events,below_append,below_nil,and_true]
    have wide (events : List Access) (below : Below 1024 events) : Below setReqSize events :=
      fun access member => Nat.lt_trans (below access member) (by decide)
    refine ⟨wide _ small,wide _ small',wide _ small'',wide _ small₃,?_,?_⟩
    · exact below_stores 44 2 setReqSize (by decide)
    · exact below_stores 32 2 setReqSize (by decide)

private theorem lastOf_cons (mem : Mem UInt8) (a : Nat) (found : List Nat) (type : Nat) : lastOf mem (a::found) type =
    (lastOf mem found type).or (if readWord mem (a + 2) = type then some a else none) := by
  unfold lastOf
  rw [List.reverse_cons,List.find?_append,List.find?_singleton]
  congr 1
  simp only [beq_iff_eq]

private theorem parseRtattr_walk (max : Nat) (mem : Mem UInt8) (rta len : Nat) (tb : Nat → Option Nat) (type : Nat) :
    parseRtattr max mem rta len tb type = if type ≤ max then (lastOf mem (walk mem rta len) type).or (tb type) else tb type := by
  induction len using Nat.strongRecOn generalizing rta tb with
  | ind len ih =>
    rw [parseRtattr,walk]
    by_cases whole : Whole mem rta len
    · have shorter : len - align (readWord mem rta) < len := by
        have := align_ge (readWord mem rta)
        obtain ⟨some,least,-⟩ := whole
        omega
      rw [dif_pos whole,dif_pos whole,ih _ shorter,lastOf_cons,Option.or_assoc]
      by_cases known : type ≤ max
      · rw [if_pos known,if_pos known]
        congr 1
        by_cases here : readWord mem (rta + 2) = type
        · subst here
          simp [known]
        · rw [if_neg here,Option.none_or]
          split_ifs
          · exact if_neg (Ne.symm here)
          · rfl
      · rw [if_neg known,if_neg known]
        split_ifs with small
        · exact if_neg fun (same : type = readWord mem (rta + 2)) => known (same ▸ small)
        · rfl
    · rw [dif_neg whole,dif_neg whole]
      split_ifs <;> simp [lastOf]

/-- The last attribute of a type. -/
def Last (as : List Attribute) (type : Nat) (a : Attribute) : Prop :=
  ∃ front back, as = front ++ a::back ∧ a.type = type ∧ ∀ b ∈ back, b.type ≠ type

private theorem parse_last (max : Nat) (mem : Mem UInt8) (base len : Nat) (as : List Attribute) (type : Nat) (a : Attribute)
    (known : type ≤ max) (holds : Holds mem base (encode as)) (visited : walk mem base len = places base as)
    (last : Last as type a) : ∃ p, parseRtattr max mem base len (fun _ => none) type = some p ∧
      readWord mem p = a.payload.length + 4 ∧ Holds mem (p + 4) a.payload := by
  obtain ⟨front,back,rfl,rfl,others⟩ := last
  obtain ⟨found,length,payload⟩ := lastOf_some front back a holds others
  refine ⟨_,?_,length,payload⟩
  rw [parseRtattr_walk,if_pos known,visited,found]
  rfl

private theorem parse_nested (max : Nat) (mem : Mem UInt8) (p : Nat) (as : List Attribute) (type : Nat) (a : Attribute)
    (known : type ≤ max) (length : readWord mem p = (encode as).length + 4) (holds : Holds mem (p + 4) (encode as))
    (last : Last as type a) : ∃ q, parseRtattrNested max mem p type = some q ∧
      readWord mem q = a.payload.length + 4 ∧ Holds mem (q + 4) a.payload := by
  unfold parseRtattrNested
  rw [length,Nat.add_sub_cancel]
  exact parse_last max mem (p + 4) _ as type a known holds (walk_all as holds) last

/-- A message about an interface: behind its type stands what is not looked at, and then its attributes. -/
def reply (rest as : Bytes) : Bytes :=
  dword (UInt32.ofNat (6 + rest.length + as.length)) ++ (word rtmNewlink ++ (rest ++ as))

private theorem readDword_dword (mem : Mem UInt8) (base n : Nat) (small : n < 2^32)
    (holds : Holds mem base (dword (UInt32.ofNat n))) :
    readDword mem base = n := by
  obtain ⟨low,high⟩ := (holds_append (word _) _).mp holds
  rw [UInt32.toNat_ofNat',Nat.mod_eq_of_lt small] at low high
  have first := readWord_word (n % 65536) (Nat.mod_lt _ (by decide)) low
  have second := readWord_word (n / 65536) (by omega) high
  rw [readDword,first,show base + 2 = base + (word (n % 65536)).length from rfl,second]
  omega

section
variable {h : Headers} {name rest : Bytes} {as : List Attribute} {stack : Mem UInt8} {got : Got}

private theorem reply_length (rest as : Bytes) : (reply rest as).length = 6 + rest.length + as.length := by
  simp only [reply,List.length_append,dword_length]
  simp only [word,List.length_cons,List.length_nil]
  omega

/-- One whole message about the interface comes to its attributes, and to nothing behind them. -/
private theorem messages_reply (h : Headers) (name : Bytes) (stack : Mem UInt8) (got : Got) (start : rest.length = 26)
    (size : 32 + (encode as).length < 2^32) :
    Holds (overlay stack 0 (reply rest (encode as))) 32 (encode as) ∧
    messages h name (overlay stack 0 (reply rest (encode as))) 0 (reply rest (encode as)).length got =
      newLink h name (overlay stack 0 (reply rest (encode as))) 0 (32 + (encode as).length) got := by
  have whole : Holds (overlay stack 0 (reply rest (encode as))) 0 (reply rest (encode as)) := slice_overlay stack 0 _
  have length : (reply rest (encode as)).length = 32 + (encode as).length := by rw [reply_length,start]
  generalize overlay stack 0 (reply rest (encode as)) = nlbuf at whole ⊢
  have aligned := encode_aligned as
  obtain ⟨head,body⟩ := (holds_append (dword _) _).mp whole
  obtain ⟨type,body⟩ := (holds_append (word _) _).mp body
  obtain ⟨-,attributes⟩ := (holds_append rest _).mp body
  have len : readDword nlbuf 0 = 32 + (encode as).length := by
    rw [readDword_dword nlbuf 0 _ (by omega) head,start]
  have kind : readWord nlbuf (0 + 4) = rtmNewlink := readWord_word rtmNewlink (by decide) type
  have place : 0 + (dword (UInt32.ofNat (6 + rest.length + (encode as).length))).length + (word rtmNewlink).length + rest.length = 32 := by
    rw [start]
    rfl
  rw [place] at attributes
  refine ⟨attributes,?_⟩
  have fits : nlmsgHdrlen ≤ 32 + (encode as).length := Nat.le_add_right_of_le (by decide)
  rw [messages,length,len,dif_pos ⟨fits,fits,le_rfl⟩,align_of_mod _ (by omega),Nat.sub_self]
  simp only [kind,if_neg (show ¬ rtmNewlink = nlmsgDone by decide),ne_eq,not_true_eq_false,if_false,lt_irrefl]
  cases newLink h name nlbuf 0 (32 + (encode as).length) got with
  | go got =>
    have none : ¬ (nlmsgHdrlen ≤ 0 ∧ nlmsgHdrlen ≤ readDword nlbuf (0 + (32 + (encode as).length)) ∧
        readDword nlbuf (0 + (32 + (encode as).length)) ≤ 0) := fun some => absurd some.1 (by decide)
    dsimp only
    rw [messages,dif_neg none]
  | returned got => rfl
  | astray => rfl

/-- Attributes of the interface with its bit timing, whatever else there is among them. -/
structure Carries (name : Bytes) (as : List Attribute) (bt : Bytes) where
  named : Attribute
  hasName : Last as iflaIfname named
  more : Bytes
  spelled : named.payload = name ++ 0::more
  link : Attribute
  hasLink : Last as iflaLinkinfo link
  sections : List Attribute
  linkSections : link.payload = encode sections
  data : Attribute
  hasData : Last sections iflaInfoData data
  items : List Attribute
  dataItems : data.payload = encode items
  timing : Attribute
  hasTiming : Last items iflaCanBittiming timing
  timed : timing.payload = bt
  whole : bt.length = 32

private theorem spelled_name {mem : Mem UInt8} {p : Nat} (more : Bytes) (holds : Holds mem p (name ++ 0::more)) :
    slice mem p (name.length + 1) = name ++ [0] := by
  have split : name ++ 0::more = (name ++ [0]) ++ more := by simp
  rw [split] at holds
  have front := ((holds_append (name ++ [0]) more).mp holds).1
  rwa [Holds,List.length_append,List.length_singleton] at front

private theorem newLink_carries {nlbuf : Mem UInt8} {bt : Bytes} (carries : Carries name as bt)
    (holds : Holds nlbuf 32 (encode as)) (visited : walk nlbuf 32 ((encode as).length + 8) = places 32 as) :
    newLink h name nlbuf 0 (32 + (encode as).length) got = .go ⟨0,true,some bt⟩ := by
  have length : 32 + (encode as).length - (nlmsgHdrlen + ifaddrmsgSize) = (encode as).length + 8 := by
    simp only [nlmsgHdrlen,ifaddrmsgSize]
    omega
  obtain ⟨pn,foundName,-,spelled⟩ := parse_last h.iflaMax nlbuf 32 _ as iflaIfname carries.named
    (le_trans (by decide) h.links) holds visited carries.hasName
  obtain ⟨pl,foundLink,linkLength,linkHolds⟩ := parse_last h.iflaMax nlbuf 32 _ as iflaLinkinfo carries.link
    h.links holds visited carries.hasLink
  rw [carries.linkSections] at linkLength linkHolds
  obtain ⟨pd,foundData,dataLength,dataHolds⟩ := parse_nested h.infoMax nlbuf pl _ iflaInfoData carries.data
    h.data linkLength linkHolds carries.hasData
  rw [carries.dataItems] at dataLength dataHolds
  obtain ⟨pt,foundTiming,-,timingHolds⟩ := parse_nested iflaCanMax nlbuf pd _ iflaCanBittiming carries.timing
    (by decide) dataLength dataHolds carries.hasTiming
  rw [carries.timed] at timingHolds
  rw [carries.spelled] at spelled
  have copied : slice nlbuf (pt + 4) 32 = bt := by rw [← carries.whole]; exact timingHolds
  rw [newLink,length]
  simp only [Nat.zero_add,nlmsgHdrlen,ifinfomsgSize,foundName,spelled_name carries.more spelled,ne_eq,not_true_eq_false,if_false,
    foundLink,foundData,foundTiming,copied]

/-- What stands behind the message is what was in the buffer before. -/
private theorem behind_reply (stack : Mem UInt8) (as : List Attribute) (start : rest.length = 26) (i : Nat) :
    overlay stack 0 (reply rest (encode as)) (32 + (encode as).length + i) = stack (32 + (encode as).length + i) := by
  apply overlay_outside
  rw [reply_length,start]
  omega

private theorem readWord_behind (stack : Mem UInt8) (as : List Attribute) (start : rest.length = 26) (i : Nat) :
    readWord (overlay stack 0 (reply rest (encode as))) (32 + (encode as).length + i) =
      readWord stack (32 + (encode as).length + i) := by
  have low := behind_reply stack as start i
  have high := behind_reply stack as start (i + 1)
  rw [readWord,readWord,low]
  exact congrArg (fun c : UInt8 => (stack (32 + (encode as).length + i)).toNat + 256 * c.toNat) high

private theorem doGetNlLink_one (content : Bytes) (others : List Datagram) (got' : Got) (done : got'.done = true)
    (message : messages h name (overlay stack 0 content) 0 content.length ⟨-1,false,none⟩ = .go got' ∨
      messages h name (overlay stack 0 content) 0 content.length ⟨-1,false,none⟩ = .returned got') :
    canGetBittiming h name (⟨content,false⟩::others) stack = some (got'.ret,got'.bt) := by
  rw [canGetBittiming,doGetNlLink]
  simp only [Bool.false_eq_true,if_false]
  rcases message with go | returned
  · rw [go]
    cases others with
    | nil => rfl
    | cons d ds =>
      simp only [doGetNlLink]
      rw [if_pos done]
  · rw [returned]

/-- The reply is read to its timing, wherever its attributes stand, if the eight bytes behind it are no attribute. -/
private theorem canGetBittiming_timing {bt : Bytes} (carries : Carries name as bt) (start : rest.length = 26)
    (size : 32 + (encode as).length < 2^32) (others : List Datagram) (calm : ¬ Whole stack (32 + (encode as).length) 8) :
    canGetBittiming h name (⟨reply rest (encode as),false⟩::others) stack = some (0,some bt) := by
  obtain ⟨holds,message⟩ := messages_reply h name stack ⟨-1,false,none⟩ start size
  have words := readWord_behind stack as start 0
  rw [Nat.add_zero] at words
  have past : ¬ Whole (overlay stack 0 (reply rest (encode as))) (32 + (encode as).length) 8 := by rwa [Whole,words]
  have none : walk (overlay stack 0 (reply rest (encode as))) (32 + (encode as).length) 8 = [] := by
    rw [walk,dif_neg past]
  have visited := walk_encode as 8 holds
  rw [none,List.append_nil] at visited
  exact doGetNlLink_one _ others _ rfl (.inl (message.trans (newLink_carries carries holds visited)))

private theorem lastOf_snoc (mem : Mem UInt8) (found : List Nat) (a type : Nat) : lastOf mem (found ++ [a]) type =
    if readWord mem (a + 2) = type then some a else lastOf mem found type := by
  rw [lastOf,lastOf,List.reverse_append,List.reverse_singleton,List.singleton_append,List.find?_cons]
  by_cases here : readWord mem (a + 2) = type
  · simp [here]
  · rw [if_neg here,beq_false_of_ne here]

/-- Inside four bytes there is an empty attribute at most. -/
private theorem nested_short {mem : Mem UInt8} {p q : Nat} (max type : Nat) (eight : readWord mem p = 8)
    (found : parseRtattrNested max mem p type = some q) : readWord mem q = 4 := by
  rw [parseRtattrNested,parseRtattr_walk,eight,walk] at found
  by_cases whole : Whole mem (p + 4) (8 - 4)
  · obtain ⟨-,least,most⟩ := whole
    have four : readWord mem (p + 4) = 4 := by omega
    have behind : ¬ Whole mem (p + 4 + align 4) (8 - 4 - align 4) := fun some => absurd some.1 (by decide)
    rw [dif_pos ⟨le_rfl,least,most⟩,four,walk,dif_neg behind] at found
    have here : lastOf mem [p + 4] type = some q := by
      split_ifs at found
      rwa [Option.or_none] at found
    obtain rfl := List.mem_singleton.mp (List.mem_reverse.mp (List.mem_of_find?_eq_some here))
    exact four
  · rw [dif_neg whole] at found
    split_ifs at found
    cases found

private theorem nested_empty {mem : Mem UInt8} {p : Nat} (max type : Nat) (four : readWord mem p = 4) :
    parseRtattrNested max mem p type = none := by
  have none : ¬ Whole mem (p + 4) (4 - 4) := fun some => absurd some.1 (by decide)
  rw [parseRtattrNested,parseRtattr_walk,four,walk,dif_neg none]
  split_ifs <;> rfl

/-- Eight stale bytes that look like the link hide it. -/
private theorem canGetBittiming_stale {bt : Bytes} (carries : Carries name as bt) (start : rest.length = 26)
    (size : 32 + (encode as).length < 2^32) (others : List Datagram) (eight : readWord stack (32 + (encode as).length) = 8)
    (link : readWord stack (32 + (encode as).length + 2) = iflaLinkinfo) :
    canGetBittiming h name (⟨reply rest (encode as),false⟩::others) stack = some (-1,none) := by
  obtain ⟨holds,message⟩ := messages_reply h name stack ⟨-1,false,none⟩ start size
  have length := readWord_behind stack as start 0
  have type := readWord_behind stack as start 2
  rw [Nat.add_zero,eight] at length
  rw [link] at type
  generalize same : overlay stack 0 (reply rest (encode as)) = nlbuf at holds message length type
  have whole : Whole nlbuf (32 + (encode as).length) 8 := by
    rw [Whole,length]
    decide
  have behind : ¬ Whole nlbuf (32 + (encode as).length + align 8) (8 - align 8) := fun some => absurd some.1 (by decide)
  have one : walk nlbuf (32 + (encode as).length) 8 = [32 + (encode as).length] := by
    rw [walk,dif_pos whole,length,walk,dif_neg behind]
  have visited := walk_encode as 8 holds
  rw [one] at visited
  have size' : 32 + (encode as).length - (nlmsgHdrlen + ifaddrmsgSize) = (encode as).length + 8 := by
    simp only [nlmsgHdrlen,ifaddrmsgSize]
    omega
  -- The name is found as without the stale bytes, but they are the last that looks like the link.
  obtain ⟨front,back,split,typed,others'⟩ := carries.hasName
  have named := lastOf_some front back carries.named (by rwa [← split]) (by rwa [typed])
  rw [← split,typed] at named
  obtain ⟨foundName,-,spelled⟩ := named
  rw [carries.spelled] at spelled
  have ifname : parseRtattr h.iflaMax nlbuf 32 ((encode as).length + 8) (fun _ => none) iflaIfname =
      some (32 + (encode front).length) := by
    rw [parseRtattr_walk,if_pos (le_trans (by decide) h.links),visited,lastOf_snoc,type,if_neg (by decide),foundName]
    rfl
  have stale : parseRtattr h.iflaMax nlbuf 32 ((encode as).length + 8) (fun _ => none) iflaLinkinfo =
      some (32 + (encode as).length) := by
    rw [parseRtattr_walk,if_pos h.links,visited,lastOf_snoc,if_pos type]
    rfl
  rw [newLink,size'] at message
  simp only [Nat.zero_add,nlmsgHdrlen,ifinfomsgSize,ifname,spelled_name carries.more spelled,ne_eq,not_true_eq_false,if_false,
    stale] at message
  rw [← same] at message
  cases found : parseRtattrNested h.infoMax (overlay stack 0 (reply rest (encode as))) (32 + (encode as).length) iflaInfoData with
  | none =>
    rw [found] at message
    exact doGetNlLink_one _ others ⟨-1,true,none⟩ rfl (.inr message)
  | some q =>
    rw [← same] at length
    have nothing := nested_empty iflaCanMax iflaCanBittiming (nested_short h.infoMax iflaInfoData length found)
    rw [found] at message
    simp only [nothing] at message
    exact doGetNlLink_one _ others ⟨-1,true,none⟩ rfl (.inl message)

/-- What can_open learns about the bit timing: that of the reply, unless the eight bytes behind the reply, which
the kernel did not write, say that they are the link. -/
theorem canGetBittiming_exact {bt : Bytes} (carries : Carries name as bt) (start : rest.length = 26)
    (size : 32 + (encode as).length < 2^32) (others : List Datagram) :
    (¬ Whole stack (32 + (encode as).length) 8 →
      canGetBittiming h name (⟨reply rest (encode as),false⟩::others) stack = some (0,some bt)) ∧
    (readWord stack (32 + (encode as).length) = 8 → readWord stack (32 + (encode as).length + 2) = iflaLinkinfo →
      canGetBittiming h name (⟨reply rest (encode as),false⟩::others) stack = some (-1,none)) :=
  ⟨canGetBittiming_timing carries start size others,canGetBittiming_stale carries start size others⟩

end

def timingAttribute (timing : Bittiming) : Attribute := ⟨iflaCanBittiming,timing.bytes,by decide,by
  rw [Bittiming.bytes_length]
  decide⟩

private theorem last_timing (info : ReqInfo) (timing : Bittiming) (asked : info.bittiming = some timing) :
    Last (dataAttributes info) iflaCanBittiming (timingAttribute timing) := by
  refine ⟨restartAttributes info,ctrlmodeAttributes info,?_,rfl,fun b member => ?_⟩
  · rw [dataAttributes,bittimingAttributes,asked]
    rfl
  · unfold ctrlmodeAttributes at member
    cases mode : info.ctrlmode with
    | none =>
      rw [mode] at member
      cases member
    | some cm =>
      rw [mode] at member
      rw [List.mem_singleton.mp member]
      exact (show iflaCanCtrlmode ≠ iflaCanBittiming by decide)

private theorem last_append {as : List Attribute} {type : Nat} {a : Attribute} (b : Attribute) (last : Last as type a)
    (other : b.type ≠ type) : Last (as ++ [b]) type a := by
  obtain ⟨front,back,rfl,typed,others⟩ := last
  refine ⟨front,back ++ [b],by simp,typed,fun c member => ?_⟩
  rcases List.mem_append.mp member with before | here
  · exact others c before
  · rw [List.mem_singleton.mp here]
    exact other

/-- The link of a request, behind attributes with the name. -/
def carriesLink (info : ReqInfo) (timing : Bittiming) (name more : Bytes) (front : List Attribute) (named : Attribute)
    (asked : info.bittiming = some timing) (hasName : Last front iflaIfname named) (spelled : named.payload = name ++ 0::more) :
    Carries name (front ++ [linkAttribute info]) timing.bytes where
  named := named
  hasName := last_append _ hasName (show iflaLinkinfo ≠ iflaIfname by decide)
  more := more
  spelled := spelled
  link := linkAttribute info
  hasLink := ⟨front,[],rfl,rfl,nofun⟩
  sections := [kindAttribute,dataAttribute info]
  linkSections := rfl
  data := dataAttribute info
  hasData := ⟨[kindAttribute],[],rfl,rfl,nofun⟩
  items := dataAttributes info
  dataItems := rfl
  timing := timingAttribute timing
  hasTiming := last_timing info timing asked
  timed := rfl
  whole := Bittiming.bytes_length timing

/-- The attributes of the request as they lie in memory. -/
def requested (ifState ifIndex : Nat) (info : ReqInfo) (zero : Mem UInt8) : Bytes :=
  match (doSetNlLink ifState ifIndex (some info) zero).value with
  | some req => slice (doSetNlLink ifState ifIndex (some info) zero).state 32 (req.nlmsgLen - 32)
  | none => []

def bitrateOf (bt : Bytes) : Nat := readDword (fun i => bt.getD i 0) 0

private theorem bitrateOf_bytes (timing : Bittiming) : bitrateOf timing.bytes = timing.bitrate.toNat := by
  have low := timing.bitrate.toNat_lt
  simp only [bitrateOf,readDword,readWord,Bittiming.bytes,dword,word,List.cons_append,List.nil_append,List.getD_cons_zero,
    List.getD_cons_succ,UInt8.toNat_ofNat']
  omega

/-- `can_set_bitrate` -/
def bitrateInfo (bitrate : UInt32) : ReqInfo := ⟨0,0,0,none,some ⟨bitrate,0,0,0,0,0,0,0⟩⟩

/-- The request stays in its struct, and what it says about the link is read as the timing that was asked for. -/
theorem doSetNlLink_read (ifState ifIndex : Nat) (info : ReqInfo) (timing : Bittiming) (zero stack : Mem UInt8) (h : Headers)
    (name rest : Bytes) (front : List Attribute) (named : Attribute) (more : Bytes) (others : List Datagram)
    (null : ∀ i, zero i = 0) (found : ifIndex ≠ 0) (known : ifState ≤ 2) (asked : info.bittiming = some timing)
    (hasName : Last front iflaIfname named) (spelled : named.payload = name ++ 0::more) (start : rest.length = 26)
    (size : (encode front).length < 2^31) (calm : ¬ Whole stack (32 + (encode front ++ requested ifState ifIndex info zero).length) 8) :
    Below setReqSize (doSetNlLink ifState ifIndex (some info) zero).events ∧
    canGetBittiming h name (⟨reply rest (encode front ++ requested ifState ifIndex info zero),false⟩::others) stack =
      some (0,some timing.bytes) ∧ bitrateOf timing.bytes = timing.bitrate.toNat := by
  obtain ⟨value,state,small⟩ := doSetNlLink_message ifState ifIndex info zero null found known
  have few := dataAttributes_length info
  have bytes : requested ifState ifIndex info zero = encode [linkAttribute info] := by
    have all := slice_overlay zero 32 (linkAttribute info).bytes
    rw [requested,value,state]
    simp only [Nat.add_sub_cancel_left]
    rw [all,encode_cons,encode,List.flatMap_nil,List.append_nil]
  have long : (encode [linkAttribute info]).length ≤ 80 := by
    rw [encode_raw,raw_length]
    simp only [linkAttribute]
    rw [sections_length]
    unfold align
    omega
  rw [bytes,← encode_append] at calm ⊢
  have carries := carriesLink info timing name more front named asked hasName spelled
  refine ⟨small,canGetBittiming_timing carries start ?_ others calm,bitrateOf_bytes timing⟩
  rw [encode_append,List.length_append]
  omega

def canHeaders : Headers := ⟨50,5,by decide,by decide⟩

def can0 : Attribute := ⟨iflaIfname,bytes "can0" ++ [0],by decide,by decide⟩

theorem canGetBittiming_exact_can0 : canGetBittiming canHeaders (bytes "can0")
      [⟨reply (List.replicate 26 0) (encode [can0,linkAttribute (bitrateInfo 250000)]),false⟩] (fun _ => 0) =
    some (0,some (Bittiming.bytes ⟨250000,0,0,0,0,0,0,0⟩)) :=
  (canGetBittiming_exact (carriesLink (bitrateInfo 250000) _ (bytes "can0") [] [can0] can0 rfl ⟨[],[],rfl,rfl,nofun⟩ rfl) rfl
    (by decide +kernel) []).1 fun whole => absurd whole.2.1 (show ¬ 4 ≤ 0 by decide)

theorem doSetNlLink_read_can0 : Below setReqSize (doSetNlLink 0 3 (some (bitrateInfo 250000)) fun _ => 0).events ∧
    canGetBittiming canHeaders (bytes "can0") [⟨reply (List.replicate 26 0) (encode [can0] ++
      requested 0 3 (bitrateInfo 250000) fun _ => 0),false⟩] (fun _ => 0) =
        some (0,some (Bittiming.bytes ⟨250000,0,0,0,0,0,0,0⟩)) ∧
    bitrateOf (Bittiming.bytes ⟨250000,0,0,0,0,0,0,0⟩) = (250000 : UInt32).toNat :=
  doSetNlLink_read 0 3 (bitrateInfo 250000) _ (fun _ => 0) (fun _ => 0) canHeaders (bytes "can0") _ [can0] can0 [] []
    (fun _ => rfl) (by decide) (by decide) rfl ⟨[],[],rfl,rfl,nofun⟩ rfl rfl (by decide)
    fun whole => absurd whole.2.1 (show ¬ 4 ≤ 0 by decide)

end Jbdtool.Netlink
