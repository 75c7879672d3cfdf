import Jbdtool.Base.Descriptors
import Jbdtool.Ip

/-! The sessions of the transports and the descriptors they have open, under calls in any
order. What the kernel and the network answer to an open comes with the call. -/
namespace Jbdtool.Transports
open CString Descriptors

/-- A call through the module table. A read and a write use the descriptor alike. -/
inductive Call (ω : Type) where
  | opens (answers : ω)
  | transfer
  | close

/-- The functions of a module that use a descriptor. -/
structure Module (σ ω : Type) where
  opens : ω → Uses σ Int
  transfer : Uses σ Int
  close : Uses σ Int

section
variable {σ ω : Type}

def Module.exec (m : Module σ ω) : Call ω → Uses σ Int
  | .opens answers => m.opens answers
  | .transfer => m.transfer
  | .close => m.close

def Module.run (m : Module σ ω) (w : Process σ) (calls : List (Call ω)) : Option (Process σ) :=
  Runs.run (step m.exec) w calls

def start (session : σ) : Process σ := ⟨session,∅,0⟩

end

/-- The session, and whether the kernel has connected its socket. -/
structure IpSession where
  sock : Int
  target : Bytes
  port : Int
  connected : Bool

/-- `ip_new`: the target as far as its colon, and the port behind it. -/
def ipNew (target : Bytes) : IpSession :=
  let p := target.dropWhile (· ≠ 58)
  let port := if p = [] then 0 else atoi (p.drop 1)
  ⟨-1,(target.takeWhile (· ≠ 58)).take 63,if port = 0 then 23 else port,false⟩

structure Network where
  gethostbyname : Bytes → Option (UInt8 × UInt8 × UInt8 × UInt8)
  connect : Bytes → UInt16 → Bool

/-- The text for inet_addr. -/
def Network.temp (net : Network) (target : Bytes) : Bytes :=
  if Ip.isIp target ≠ 0 then target else
  match net.gethostbyname target with
  | some (a,b,c,d) => showNat a.toNat ++ 46::(showNat b.toNat ++ 46::(showNat c.toNat ++ 46::showNat d.toNat))
  | none => target

def Network.reaches (net : Network) (s : IpSession) : Bool := net.connect (net.temp s.target) (UInt16.ofInt s.port)

def ipOpen (kernel : Kernel) (net : Network) : Uses IpSession Int := do
  let s ← session
  if s.sock ≠ -1 then return 0 else do
  let sock ← acquire kernel
  update (fun s => {s with sock := sock})
  if sock = -1 then return 1 else do
  touch sock
  if net.reaches s then do
    update (fun s => {s with connected := true})
    return 0
  else return 1

/-- `ip_read` and `ip_write`, as far as the socket goes. -/
def ipTransfer : Uses IpSession Int := do
  let s ← session
  if s.sock = -1 then return -1 else do
  touch s.sock
  return 0

def ipClose : Uses IpSession Int := do
  let s ← session
  if s.sock ≠ -1 then do
    release s.sock
    update (fun s => {s with sock := -1,connected := false})
    return 0
  else return 0

def ip (kernel : Kernel) : Module IpSession Network := ⟨ipOpen kernel,ipTransfer,ipClose⟩

/-- The session, and the device that its descriptor was opened on. -/
structure SerialSession where
  fd : Int
  target : Bytes
  device : Bytes

/-- `serial_new`: the element of the target before the first comma. -/
def serialNew (element : Bytes) : SerialSession := ⟨-1,element.take 31,[]⟩

/-- The path that is opened, if `access` finds the target. -/
def serialPath (access : Bytes → Bool) (target : Bytes) : Bytes :=
  if access target ∧ target.take 4 ≠ bytes "/dev" then bytes "/dev/" ++ target else target

def serialOpen (kernel : Kernel) (access : Bytes → Bool) : Uses SerialSession Int := do
  let fd ← acquire kernel
  update (fun s => {s with fd := fd,device := serialPath access s.target})
  if fd < 0 then return 1 else do
  -- set_interface_attribs, whose result is not looked at
  touch fd
  return 0

/-- `serial_read` and `serial_write` do not look whether the session is open. -/
def serialTransfer : Uses SerialSession Int := do
  let s ← session
  touch s.fd
  return 0

def serialClose : Uses SerialSession Int := do
  let s ← session
  if s.fd ≥ 0 then do
    release s.fd
    update (fun s => {s with fd := -1})
    return 0
  else return 0

def serial (kernel : Kernel) : Module SerialSession (Bytes → Bool) := ⟨serialOpen kernel,serialTransfer,serialClose⟩

/-- What is asked of the kernel about an interface. -/
inductive Request where
  | setBitrate (rate : UInt32)
  | setFlags (up : Bool)
deriving DecidableEq

/-- The session, and a record of what it has done: the requests made with what the kernel answered, and
the netlink sockets that it could not bind. -/
structure CanSession where
  fd : Int
  interface : Bytes
  bitrate : Int
  filter : Bool
  requests : List (Request × Bool)
  unbound : Finset Int

/-- `can_new`, with the two elements of its target. Nothing sets a filter. -/
def canNew (interface p : Bytes) : CanSession := ⟨-1,interface.take 16,if p = [] then 250000 else atoi p,false,[],∅⟩

/-- What the kernel answers to the calls inside `can_open`: whether the interface is up, whether the
netlink sockets bind, the bitrate in the timing, and whether the others work. `up`, `down` and
`upAgain` are those of up_down_up. -/
structure CanAnswers where
  getFlags : Option Bool
  getSocket : Bool
  timing : Option UInt32
  clearFlags : Bool
  setSocket : Bool
  setRequest : Bool
  up : Bool
  down : Bool
  upAgain : Bool
  getIndex : Bool
  bind : Bool
  setFilter : Bool

/-- `open_nl_sock`: a socket on which bind or getsockname fails is not closed. -/
def openNlSock (kernel : Kernel) (works : Bool) : Uses CanSession Int := do
  let fd ← acquire kernel
  if fd < 0 then return -1 else do
  touch fd
  if works then return fd else do
  update (fun s => {s with unbound := insert fd s.unbound})
  return -1

/-- `can_get_bittiming`: the bitrate in the timing. -/
def canGetBittiming (kernel : Kernel) (answers : CanAnswers) : Uses CanSession (Option UInt32) := do
  let fd ← openNlSock kernel answers.getSocket
  if fd < 0 then return none else do
  touch fd
  release fd
  return answers.timing

def record (request : Request) (works : Bool) : Uses CanSession Unit :=
  update (fun s => {s with requests := s.requests ++ [(request,works)]})

def canSetBitrate (kernel : Kernel) (answers : CanAnswers) : Uses CanSession Int := do
  let fd ← openNlSock kernel answers.setSocket
  if fd < 0 then return -1 else do
  touch fd
  let s ← session
  record (.setBitrate (UInt32.ofInt s.bitrate)) answers.setRequest
  release fd
  return if answers.setRequest then 0 else -1

/-- SIOCSIFFLAGS with or without IFF_UP. -/
def setFlags (up works : Bool) : Uses CanSession Bool := do
  let s ← session
  touch s.fd
  record (.setFlags up) works
  return works

def upDownUp (answers : CanAnswers) : Uses CanSession Int := do
  let up ← setFlags true answers.up
  if !up then return 1 else do
  let down ← setFlags false answers.down
  if !down then return 1 else do
  let upAgain ← setFlags true answers.upAgain
  if !upAgain then return 1 else return 0

def canOpenError : Uses CanSession Int := do
  let s ← session
  release s.fd
  update (fun s => {s with fd := -1})
  return 1

/-- From SIOCGIFINDEX to the end. -/
def canBind (answers : CanAnswers) : Uses CanSession Int := do
  let s ← session
  touch s.fd
  if !answers.getIndex then canOpenError else do
  touch s.fd
  if !answers.bind then canOpenError else do
  if s.filter && !answers.setFilter then canOpenError else return 0

def canSetUp (kernel : Kernel) (answers : CanAnswers) : Uses CanSession Int := do
  let set ← canSetBitrate kernel answers
  if set < 0 then canOpenError else do
  let _ ← upDownUp answers
  canBind answers

def canCheck (kernel : Kernel) (answers : CanAnswers) : Uses CanSession Int := do
  let bt ← canGetBittiming kernel answers
  match bt with
  | none => canOpenError
  | some bitrate => do
    let s ← session
    if bitrate = UInt32.ofInt s.bitrate then canBind answers else do
    let down ← setFlags false answers.clearFlags
    if !down then canOpenError else canSetUp kernel answers

def canOpen (kernel : Kernel) (answers : CanAnswers) : Uses CanSession Int := do
  let s ← session
  if s.fd ≥ 0 then return 0 else do
  let fd ← acquire kernel
  update (fun s => {s with fd := fd})
  if fd < 0 then return 1 else do
  touch fd
  match answers.getFlags with
  | none => canOpenError
  | some up => if up then canCheck kernel answers else canSetUp kernel answers

def canTransfer : Uses CanSession Int := do
  let s ← session
  if s.fd < 0 then return -1 else do
  touch s.fd
  return 0

def canClose : Uses CanSession Int := do
  let s ← session
  if s.fd ≥ 0 then do
    release s.fd
    update (fun s => {s with fd := -1})
    return 0
  else return 0

def can (kernel : Kernel) : Module CanSession CanAnswers := ⟨canOpen kernel,canTransfer,canClose⟩

section
variable {kernel : Kernel}

/-- The kernel has the session's socket open and no other, and a peer only with a socket. -/
structure IpSound (w : Process IpSession) : Prop where
  owns : Owns w.session.sock w.live
  tight : w.live = own w.session.sock
  connected : w.session.connected = true → 0 ≤ w.session.sock

/-- The session is closed, or its socket has a peer. -/
def Linked (w : Process IpSession) : Prop := w.session.sock ≠ -1 → w.session.connected = true

/-- An open on a closed session gets no socket, or connects it. -/
def Connects (kernel : Kernel) (w : Process IpSession) : Call Network → Prop
  | .opens net => w.session.sock = -1 → kernel.pick w.opens w.live = -1 ∨ net.reaches w.session = true
  | _ => True

private theorem ipOpen_ends (net : Network) (w : Process IpSession) (sound : IpSound w) :
    Ends (ipOpen kernel net) (fun r w' => IpSound w' ∧ (r = 0 → 0 ≤ w'.session.sock) ∧
      (w.session.sock ≠ -1 → r = 0 ∧ w' = w) ∧ (Linked w → (Linked w' ↔ Connects kernel w (.opens net)))) w := by
  rw [ipOpen,ends_bind,ends_session]
  refine ends_ite (fun open' => ?_) fun open' => ?_
  · rw [ends_pure]
    exact ⟨sound,fun _ => owns_there sound.owns open',fun _ => ⟨rfl,rfl⟩,
      fun linked => iff_of_true linked fun closed => absurd closed open'⟩
  have closed : w.session.sock = -1 := not_not.mp open'
  have owns := sound.owns
  have tight := sound.tight
  rw [closed] at owns tight
  have idle : w.session.connected ≠ true := by
    intro connected
    have := sound.connected connected
    omega
  rw [ends_bind]
  refine ends_acquire (fun failed => ?_) fun sock picked there new => ?_
  · rw [ends_bind,ends_update,if_pos rfl,ends_pure]
    refine ⟨⟨owns,tight,fun connected => absurd connected idle⟩,fun zero => absurd zero (by decide),
      fun there => absurd there open',fun _ => ?_⟩
    exact iff_of_true (fun there => absurd rfl there) fun _ => .inl failed
  have given : sock ≠ -1 := by omega
  have opened := owns_open owns there
  have alone : insert sock w.live = own sock := by
    rw [tight] at new ⊢
    exact (insert_own there new).mpr (by decide)
  rw [ends_bind,ends_update,if_neg given,ends_bind,ends_touch]
  refine ⟨Finset.mem_insert_self sock w.live,ends_ite (fun reached => ?_) fun lost => ?_⟩
  · rw [ends_bind,ends_update,ends_pure]
    exact ⟨⟨opened,alone,fun _ => there⟩,fun _ => there,fun there => absurd there open',
      fun _ => iff_of_true (fun _ => rfl) fun _ => .inr reached⟩
  · rw [ends_pure]
    refine ⟨⟨opened,alone,fun _ => there⟩,fun zero => absurd zero (by decide),fun there => absurd there open',
      fun _ => iff_of_false ?_ fun connects => ?_⟩
    · exact fun linked => idle (linked given)
    · rcases connects closed with failed | reached
      · exact given (picked.symm.trans failed)
      · exact lost reached

private theorem ipTransfer_ends (w : Process IpSession) (sound : IpSound w) : Ends ipTransfer (fun _ w' => w' = w) w := by
  rw [ipTransfer,ends_bind,ends_session]
  refine ends_ite (fun closed => ends_pure.mpr rfl) fun open' => ?_
  rw [ends_bind,ends_touch,ends_pure]
  exact ⟨sound.owns.inside (owns_there sound.owns open'),rfl⟩

private theorem ipClose_ends (w : Process IpSession) (sound : IpSound w) :
    Ends ipClose (fun _ w' => IpSound w' ∧ w'.session.sock = -1) w := by
  rw [ipClose,ends_bind,ends_session]
  refine ends_ite (fun open' => ?_) fun closed => ?_
  · rw [ends_bind,ends_release,ends_bind,ends_update,ends_pure]
    refine ⟨sound.owns.inside (owns_there sound.owns open'),⟨owns_close sound.owns,?_,?_⟩,rfl⟩
    · exact (congrArg (fun live => live.erase w.session.sock) sound.tight).trans (own_erase _)
    · exact fun connected => absurd connected Bool.false_ne_true
  · rw [ends_pure]
    exact ⟨sound,not_not.mp closed⟩

private theorem ipSound_start (target : Bytes) : IpSound (start (ipNew target)) :=
  ⟨owns_start,rfl,fun connected => absurd connected Bool.false_ne_true⟩

private theorem ip_ends (call : Call Network) (w : Process IpSession) (sound : IpSound w) :
    Ends ((ip kernel).exec call) (fun _ w' => IpSound w' ∧ (Linked w → (Linked w' ↔ Connects kernel w call))) w := by
  cases call with
  | opens net => exact (ipOpen_ends net w sound).mono fun _ _ known => ⟨known.1,known.2.2.2⟩
  | transfer =>
    refine (ipTransfer_ends w sound).mono ?_
    rintro _ w' rfl
    exact ⟨sound,fun linked => iff_of_true linked trivial⟩
  | close =>
    refine (ipClose_ends w sound).mono fun _ w' known => ⟨known.1,fun _ => iff_of_true ?_ trivial⟩
    exact fun there => absurd known.2 there

/-- In any order of calls no socket is used or closed that is not open, and the session's is the only
one open; a close leaves none. A session is open without a peer exactly after a connect that failed;
the next open returns 0 on it. -/
theorem ip_calls (kernel : Kernel) (target : Bytes) (calls : List (Call Network)) :
    (∃ w, (ip kernel).run (start (ipNew target)) calls = some w ∧ w.live = own w.session.sock ∧
      ∀ net, Ends (ipOpen kernel net) (fun r w' => (r = 0 → w'.session.sock ∈ w'.live) ∧
        (w.session.sock ≠ -1 → r = 0 ∧ w' = w)) w) ∧
    (∃ w, (ip kernel).run (start (ipNew target)) (calls ++ [.close]) = some w ∧ w.live = ∅) ∧
    (Runs.After (step (ip kernel).exec) Linked (start (ipNew target)) calls ↔
      Runs.Meets (step (ip kernel).exec) (Connects kernel) (start (ipNew target)) calls) := by
  have begun := ipSound_start target
  have kept (call : Call Network) (w : Process IpSession) (sound : IpSound w) : Ends ((ip kernel).exec call) (fun _ => IpSound) w :=
    (ip_ends call w sound).mono fun _ _ known => known.1
  obtain ⟨w,reached,sound⟩ := run_ends IpSound (fun _ _ => True) (fun call w sound _ => kept call w sound) _ calls begun
    (Runs.meets_everywhere _ _ fun _ _ _ => trivial)
  refine ⟨⟨w,reached,sound.tight,fun net => ?_⟩,?_,?_⟩
  · exact (ipOpen_ends net w sound).mono fun r w' known =>
      ⟨fun zero => known.1.owns.inside (known.2.1 zero),known.2.2.1⟩
  · obtain ⟨r,w',ran,closed,none⟩ := ipClose_ends w sound
    refine ⟨w',?_,by rw [closed.tight,none,own_none]⟩
    have taken : step (ip kernel).exec w Call.close = some w' := congrArg (Option.map Prod.snd) ran
    refine (Runs.run_append _ calls [.close]).trans ?_
    rw [show Runs.run (step (ip kernel).exec) (start (ipNew target)) calls = some w from reached,Option.bind_some]
    exact Runs.run_cons w w' Call.close [] taken
  · refine Runs.after_iff (fun w => IpSound w ∧ Linked w) Linked ?_ ?_ _ w calls ⟨begun,fun open' => absurd rfl open'⟩ reached
    · rintro s t call ⟨sound,linked⟩ taken
      obtain ⟨r,known⟩ := step_ends (ip_ends call s sound) taken
      exact known.2 linked
    · rintro s t call ⟨sound,linked⟩ allowed taken
      obtain ⟨r,known⟩ := step_ends (ip_ends call s sound) taken
      exact ⟨known.1,(known.2 linked).mpr allowed⟩

/-- Only an open session is read and written. -/
def Attached (w : Process SerialSession) : Call (Bytes → Bool) → Prop
  | .transfer => 0 ≤ w.session.fd
  | _ => True

/-- Only a closed session is opened. -/
def Detached (w : Process SerialSession) : Call (Bytes → Bool) → Prop
  | .opens _ => w.session.fd = -1
  | _ => True

/-- The kernel has open what the session has, and nothing else. -/
def Tight (w : Process SerialSession) : Prop := w.live = own w.session.fd

theorem serialOpen_ends (access : Bytes → Bool) (w : Process SerialSession) :
    Ends (serialOpen kernel access) (fun _ w' => w'.session.fd = kernel.pick w.opens w.live ∧
      ((w'.session.fd = -1 ∧ w'.live = w.live) ∨
        (0 ≤ w'.session.fd ∧ w'.session.fd ∉ w.live ∧ w'.live = insert w'.session.fd w.live))) w := by
  rw [serialOpen,ends_bind]
  refine ends_acquire (fun failed => ?_) fun fd picked there new => ?_
  · rw [ends_bind,ends_update,if_pos (by decide),ends_pure]
    exact ⟨failed.symm,.inl ⟨rfl,rfl⟩⟩
  · rw [ends_bind,ends_update,if_neg (not_lt.mpr there),ends_bind,ends_touch,ends_pure]
    exact ⟨Finset.mem_insert_self fd w.live,picked.symm,.inr ⟨there,new,rfl⟩⟩

theorem serialTransfer_ends (w : Process SerialSession) (open' : w.session.fd ∈ w.live) :
    Ends serialTransfer (fun _ w' => w' = w) w := by
  rw [serialTransfer,ends_bind,ends_session,ends_bind,ends_touch,ends_pure]
  exact ⟨open',rfl⟩

theorem serialClose_ends (w : Process SerialSession) (owns : Owns w.session.fd w.live) :
    Ends serialClose (fun _ w' => w'.session.fd = -1 ∧ w'.live = w.live.erase w.session.fd) w := by
  rw [serialClose,ends_bind,ends_session]
  refine ends_ite (fun there => ?_) fun closed => ?_
  · rw [ends_bind,ends_release,ends_bind,ends_update,ends_pure]
    exact ⟨owns.inside there,rfl,rfl⟩
  · have none := owns.closed (not_le.mp closed)
    rw [ends_pure]
    exact ⟨none,(owns_erase owns none).symm⟩

private theorem serial_enabled (call : Call (Bytes → Bool)) (w : Process SerialSession) (owns : Owns w.session.fd w.live)
    (allowed : Attached w call) :
    Ends ((serial kernel).exec call) (fun _ w' => step (serial kernel).exec w call = some w') w := by
  have taken {post : Int → Process SerialSession → Prop} (known : Ends ((serial kernel).exec call) post w) :
      Ends ((serial kernel).exec call) (fun _ w' => step (serial kernel).exec w call = some w') w := by
    obtain ⟨r,w',ran,-⟩ := known
    exact ⟨r,w',ran,congrArg (Option.map Prod.snd) ran⟩
  cases call with
  | opens access => exact taken (serialOpen_ends access w)
  | transfer => exact taken (serialTransfer_ends w (owns.inside allowed))
  | close => exact taken (serialClose_ends w owns)

/-- What a call does to the descriptors, where it is none too many. -/
theorem serial_effect (call : Call (Bytes → Bool)) (w w' : Process SerialSession) (owns : Owns w.session.fd w.live)
    (taken : step (serial kernel).exec w call = some w') : Owns w'.session.fd w'.live ∧
      (Tight w → (Tight w' ↔ Detached w call)) ∧ ∀ d ∈ w.live, d ≠ w.session.fd → d ∈ w'.live ∧ d ≠ w'.session.fd := by
  cases call with
  | opens access =>
    obtain ⟨-,-,⟨failed,same⟩ | ⟨there,new,more⟩⟩ := step_ends (serialOpen_ends access w) taken
    · rw [Tight,Tight,failed,same]
      refine ⟨owns_closed owns.none,fun tight => ?_,fun d inside other => ⟨inside,owns_apart owns inside⟩⟩
      rw [tight,own_none,own_empty,owns_negative owns]
      rfl
    · rw [Tight,Tight,more]
      refine ⟨owns_open owns there,fun tight => ?_,fun d inside other => ⟨Finset.mem_insert_of_mem inside,?_⟩⟩
      · rw [tight] at new
        rw [tight,insert_own there new,owns_negative owns]
        rfl
      · rintro rfl
        exact new inside
  | transfer =>
    have ran : Ends serialTransfer (fun _ t => t = w') w := ends_step taken
    rw [serialTransfer,ends_bind,ends_session,ends_bind,ends_touch,ends_pure] at ran
    obtain ⟨-,rfl⟩ := ran
    exact ⟨owns,fun tight => iff_of_true tight trivial,fun d inside other => ⟨inside,other⟩⟩
  | close =>
    obtain ⟨-,closed,left⟩ := step_ends (serialClose_ends w owns) taken
    rw [Tight,Tight,closed,left]
    refine ⟨owns_close owns,fun tight => iff_of_true ?_ trivial,fun d inside other => ?_⟩
    · rw [tight,own_none,own_erase]
    · exact ⟨Finset.mem_erase.mpr ⟨other,inside⟩,owns_apart owns inside⟩

/-- A session that is read and written only while it is open never misuses a descriptor. The kernel
has open just what the session has exactly as long as no open session is opened: a descriptor
lost so stays open. -/
theorem serial_calls (kernel : Kernel) (element : Bytes) (calls : List (Call (Bytes → Bool)))
    (attached : Runs.Meets (step (serial kernel).exec) Attached (start (serialNew element)) calls) :
    (∃ w, (serial kernel).run (start (serialNew element)) calls = some w ∧
      (0 ≤ w.session.fd → w.session.fd ∈ w.live) ∧
      ∀ d ∈ w.live, d ≠ w.session.fd → ∀ later, Runs.Meets (step (serial kernel).exec) Attached w later →
        ∃ w', (serial kernel).run w later = some w' ∧ d ∈ w'.live ∧ d ≠ w'.session.fd) ∧
    (Runs.After (step (serial kernel).exec) Tight (start (serialNew element)) calls ↔
      Runs.Meets (step (serial kernel).exec) Detached (start (serialNew element)) calls) := by
  have begun : Owns (start (serialNew element)).session.fd (start (serialNew element)).live := owns_start
  have kept (inv : Process SerialSession → Prop) (known : ∀ w w' call, Owns w.session.fd w.live → inv w →
      step (serial kernel).exec w call = some w' → inv w') (call : Call (Bytes → Bool)) (w : Process SerialSession)
      (both : Owns w.session.fd w.live ∧ inv w) (allowed : Attached w call) :
      Ends ((serial kernel).exec call) (fun _ w' => Owns w'.session.fd w'.live ∧ inv w') w :=
    (serial_enabled call w both.1 allowed).mono fun _ w' taken =>
      ⟨(serial_effect call w w' both.1 taken).1,known w w' call both.1 both.2 taken⟩
  obtain ⟨w,reached,owns,-⟩ := run_ends _ Attached (kept (fun _ => True) fun _ _ _ _ _ _ => trivial) _ calls
    ⟨begun,trivial⟩ attached
  refine ⟨⟨w,reached,owns.inside,fun d inside other later meets => ?_⟩,?_⟩
  · obtain ⟨w',reached',-,inside',other'⟩ := run_ends _ Attached (kept (fun w => d ∈ w.live ∧ d ≠ w.session.fd)
      fun w w' call owns lost taken => (serial_effect call w w' owns taken).2.2 d lost.1 lost.2) w later
      ⟨owns,inside,other⟩ meets
    exact ⟨w',reached',inside',other'⟩
  · refine Runs.after_iff (fun w => Owns w.session.fd w.live ∧ Tight w) Tight ?_ ?_ _ w calls ⟨begun,rfl⟩ reached
    · rintro s t call ⟨owns,tight⟩ taken
      exact (serial_effect call s t owns taken).2.1 tight
    · rintro s t call ⟨owns,tight⟩ allowed taken
      obtain ⟨owns',exact',-⟩ := serial_effect call s t owns taken
      exact ⟨owns',(exact' tight).mpr allowed⟩

/-- The kernel of a process that may open two files beside its standard streams. -/
def twoFiles : Kernel where
  pick _ live := if 3 ∈ live then if 4 ∈ live then -1 else 4 else 3
  fresh n live := by
    split_ifs with three four
    · exact .inl rfl
    · exact .inr ⟨by decide,four⟩
    · exact .inr ⟨by decide,three⟩

theorem serial_calls_reopened : (∃ w, (serial twoFiles).run (start (serialNew (bytes "/dev/ttyUSB0")))
      [.opens fun _ => true,.opens fun _ => true,.transfer,.close] = some w ∧ (0 ≤ w.session.fd → w.session.fd ∈ w.live)) ∧
    ¬ Runs.After (step (serial twoFiles).exec) Tight (start (serialNew (bytes "/dev/ttyUSB0")))
      [.opens fun _ => true,.opens fun _ => true,.transfer,.close] := by
  have attached : Runs.Meets (step (serial twoFiles).exec) Attached (start (serialNew (bytes "/dev/ttyUSB0")))
      [.opens fun _ => true,.opens fun _ => true,.transfer,.close] := by
    refine ⟨trivial,fun s first => ⟨trivial,fun t second => ⟨?_,fun u third => ⟨trivial,fun v fourth => trivial⟩⟩⟩⟩
    obtain rfl := Option.some.inj first
    obtain rfl := Option.some.inj second
    exact (by decide : (0 : Int) ≤ 4)
  obtain ⟨⟨w,reached,inside,-⟩,tight⟩ := serial_calls twoFiles (bytes "/dev/ttyUSB0") _ attached
  refine ⟨⟨w,reached,inside⟩,fun after => ?_⟩
  obtain ⟨-,later⟩ := tight.mp after
  have again : (3 : Int) = -1 := (later _ rfl).1
  exact absurd again (by decide)

/-- The session has its own socket, and beside it the kernel has open the netlink sockets that it did not bind. -/
structure CanSound (w : Process CanSession) : Prop where
  owns : Owns w.session.fd w.live
  others : w.live.erase w.session.fd = w.session.unbound

def wanted (w : Process CanSession) : UInt32 := UInt32.ofInt w.session.bitrate

/-- What is left after these requests. -/
structure Made (w : Process CanSession) (requests : List (Request × Bool)) (w' : Process CanSession) : Prop where
  sound : CanSound w'
  grows : w.session.unbound ⊆ w'.session.unbound
  asked : w'.session.bitrate = w.session.bitrate
  recorded : w'.session.requests = w.session.requests ++ requests

section
variable {answers : CanAnswers}

private theorem made_nothing {w w' : Process CanSession} (sound : CanSound w')
    (unbound : w'.session.unbound = w.session.unbound)
    (asked : w'.session.bitrate = w.session.bitrate) (recorded : w'.session.requests = w.session.requests) : Made w [] w' :=
  ⟨sound,unbound ▸ subset_rfl,asked,recorded.trans (List.append_nil _).symm⟩

private theorem made_refl {w : Process CanSession} (sound : CanSound w) : Made w [] w := made_nothing sound rfl rfl rfl

private theorem made_trans {w w' w'' : Process CanSession} {first next : List (Request × Bool)} (made : Made w first w')
    (made' : Made w' next w'') : Made w (first ++ next) w'' :=
  ⟨made'.sound,made.grows.trans made'.grows,made'.asked.trans made.asked,
    by rw [made'.recorded,made.recorded,List.append_assoc]⟩

private theorem made_wanted {w w' : Process CanSession} {requests : List (Request × Bool)} (made : Made w requests w') :
    wanted w' = wanted w := congrArg UInt32.ofInt made.asked

/-- The session is open on its socket, or the socket is closed again. -/
def Opened (d r : Int) (w : Process CanSession) : Prop :=
  (r = 0 ∧ w.session.fd = d ∧ d ∈ w.live) ∨ (r = 1 ∧ w.session.fd = -1 ∧ d ∉ w.live)

/-- There is no netlink socket, or one that is not bound stays open, or a new one is bound. -/
private theorem openNlSock_ends (works : Bool) (w : Process CanSession) (sound : CanSound w) :
    Ends (openNlSock kernel works) (fun fd w' =>
      (fd = -1 ∧ Made w [] w' ∧ w'.session.fd = w.session.fd) ∨
        (0 ≤ fd ∧ fd ∉ w.live ∧ w'.session = w.session ∧ w'.live = insert fd w.live)) w := by
  rw [openNlSock,ends_bind]
  refine ends_acquire (fun failed => ?_) fun fd picked there new => ?_
  · rw [if_pos (by decide),ends_pure]
    exact .inl ⟨rfl,made_nothing ⟨sound.owns,sound.others⟩ rfl rfl rfl,rfl⟩
  · rw [if_neg (not_lt.mpr there),ends_bind,ends_touch]
    refine ⟨Finset.mem_insert_self fd w.live,ends_ite (fun _ => ?_) fun _ => ?_⟩
    · rw [ends_pure]
      exact .inr ⟨there,new,rfl,rfl⟩
    · rw [ends_bind,ends_update,ends_pure]
      have other : fd ≠ w.session.fd := by
        rintro rfl
        exact new (sound.owns.inside there)
      refine .inl ⟨rfl,⟨⟨owns_more sound.owns there,?_⟩,Finset.subset_insert _ _,rfl,(List.append_nil _).symm⟩,rfl⟩
      exact (Finset.erase_insert_of_ne other).trans (congrArg (insert fd ·) sound.others)

/-- A netlink socket that is used is closed again. -/
private theorem withNlSock_ends {α : Type} (works : Bool) (failed : α) (rest : Int → Uses CanSession α) (w : Process CanSession)
    (sound : CanSound w) {post : α → Process CanSession → Prop}
    (refused : ∀ w', Made w [] w' → w'.session.fd = w.session.fd → post failed w')
    (used : ∀ fd w', fd ∉ w.live → w'.session = w.session → w'.live = insert fd w.live → Ends (rest fd) post w') :
    Ends (do
      let fd ← openNlSock kernel works
      if fd < 0 then return failed else rest fd) post w := by
  rw [ends_bind]
  refine (openNlSock_ends works w sound).mono ?_
  rintro fd w' (⟨rfl,made,same⟩ | ⟨there,new,same,more⟩)
  · rw [if_pos (by decide),ends_pure]
    exact refused w' made same
  · rw [if_neg (not_lt.mpr there)]
    exact used fd w' new same more

private theorem canGetBittiming_ends (w : Process CanSession) (sound : CanSound w) :
    Ends (canGetBittiming kernel answers) (fun r w' => Made w [] w' ∧ w'.session.fd = w.session.fd ∧
      ∀ b, r = some b → answers.timing = some b) w := by
  refine withNlSock_ends answers.getSocket none _ w sound ?_ fun fd w' new same more => ?_
  · exact fun w' made same => ⟨made,same,nofun⟩
  rw [ends_bind,ends_touch,ends_bind,ends_release,ends_pure,same,more,Finset.erase_insert new]
  have inside := Finset.mem_insert_self fd w.live
  exact ⟨inside,inside,made_nothing ⟨sound.owns,sound.others⟩ rfl rfl rfl,rfl,fun b got => got⟩

private theorem canSetBitrate_ends (w : Process CanSession) (sound : CanSound w) :
    Ends (canSetBitrate kernel answers) (fun r w' => ∃ requests, Made w requests w' ∧ w'.session.fd = w.session.fd ∧
      (r < 0 ∨ (.setBitrate (wanted w),true) ∈ requests)) w := by
  refine withNlSock_ends answers.setSocket (-1) _ w sound ?_ fun fd w' new same more => ?_
  · exact fun w' made same => ⟨[],made,same,.inl (by decide)⟩
  rw [ends_bind,ends_touch,ends_bind,ends_session,ends_bind,record,ends_update,ends_bind,ends_release,ends_pure,same,more,
    Finset.erase_insert new]
  have inside := Finset.mem_insert_self fd w.live
  refine ⟨inside,inside,_,⟨⟨sound.owns,sound.others⟩,subset_rfl,rfl,rfl⟩,rfl,?_⟩
  cases answers.setRequest with
  | false => exact .inl (by decide)
  | true => exact .inr (List.mem_singleton_self _)

private theorem setFlags_ends (up works : Bool) (w : Process CanSession) (sound : CanSound w) (open' : 0 ≤ w.session.fd) :
    Ends (setFlags up works) (fun _ w' => ∃ requests, Made w requests w' ∧ w'.session.fd = w.session.fd) w := by
  rw [setFlags,ends_bind,ends_session,ends_bind,ends_touch,ends_bind,record,ends_update,ends_pure]
  exact ⟨sound.owns.inside open',_,⟨⟨sound.owns,sound.others⟩,subset_rfl,rfl,rfl⟩,rfl⟩

private theorem upDownUp_ends (w : Process CanSession) (sound : CanSound w) (open' : 0 ≤ w.session.fd) :
    Ends (upDownUp answers) (fun _ w' => ∃ requests, Made w requests w' ∧ w'.session.fd = w.session.fd) w := by
  rw [upDownUp,ends_bind]
  refine (setFlags_ends true answers.up w sound open').mono ?_
  rintro up s ⟨first,made,same⟩
  refine ends_ite (fun _ => ends_pure.mpr ⟨first,made,same⟩) fun _ => ?_
  rw [ends_bind]
  refine (setFlags_ends false answers.down s made.sound (same ▸ open')).mono ?_
  rintro down t ⟨next,made',same'⟩
  have both := made_trans made made'
  refine ends_ite (fun _ => ends_pure.mpr ⟨_,both,same'.trans same⟩) fun _ => ?_
  rw [ends_bind]
  refine (setFlags_ends true answers.upAgain t made'.sound (by rwa [same',same])).mono ?_
  rintro again u ⟨last,made'',same''⟩
  have whole := made_trans both made''
  have kept := same''.trans (same'.trans same)
  exact ends_ite (fun _ => ends_pure.mpr ⟨_,whole,kept⟩) fun _ => ends_pure.mpr ⟨_,whole,kept⟩

private theorem canOpenError_ends (w : Process CanSession) (sound : CanSound w) (open' : 0 ≤ w.session.fd) :
    Ends canOpenError (fun r w' => r = 1 ∧ Made w [] w' ∧ Opened w.session.fd r w') w := by
  rw [canOpenError,ends_bind,ends_session,ends_bind,ends_release,ends_bind,ends_update,ends_pure]
  have closed := owns_close sound.owns
  refine ⟨sound.owns.inside open',rfl,made_nothing ⟨closed,?_⟩ rfl rfl rfl,.inr ⟨rfl,rfl,?_⟩⟩
  · exact (owns_erase closed rfl).trans sound.others
  · exact Finset.notMem_erase w.session.fd w.live

private theorem canBind_ends (w : Process CanSession) (sound : CanSound w) (open' : 0 ≤ w.session.fd) :
    Ends (canBind answers) (fun r w' => Made w [] w' ∧ Opened w.session.fd r w') w := by
  have failed := (canOpenError_ends w sound open').mono fun r w' known => known.2
  have inside := sound.owns.inside open'
  rw [canBind,ends_bind,ends_session,ends_bind,ends_touch]
  refine ⟨inside,ends_ite (fun _ => failed) fun _ => ?_⟩
  rw [ends_bind,ends_touch]
  refine ⟨inside,ends_ite (fun _ => failed) fun _ => ends_ite (fun _ => failed) fun _ => ?_⟩
  exact ends_pure.mpr ⟨made_refl sound,.inl ⟨rfl,rfl,inside⟩⟩

/-- The part of `can_open` that sets the bitrate returns 0 only behind a request for it that was accepted. -/
private theorem canSetUp_ends (w : Process CanSession) (sound : CanSound w) (open' : 0 ≤ w.session.fd) :
    Ends (canSetUp kernel answers) (fun r w' => ∃ requests, Made w requests w' ∧ Opened w.session.fd r w' ∧
      (r = 0 → (.setBitrate (wanted w),true) ∈ requests)) w := by
  rw [canSetUp,ends_bind]
  refine (canSetBitrate_ends w sound).mono ?_
  rintro set s ⟨first,made,same,worked⟩
  have open'' : 0 ≤ s.session.fd := same ▸ open'
  refine ends_ite (fun _ => ?_) fun accepted => ?_
  · refine (canOpenError_ends s made.sound open'').mono ?_
    rintro r t ⟨rfl,made',opened⟩
    exact ⟨_,made_trans made made',same ▸ opened,fun zero => absurd zero (by decide)⟩
  rw [ends_bind]
  refine (upDownUp_ends s made.sound open'').mono ?_
  rintro - t ⟨next,made',same'⟩
  refine (canBind_ends t made'.sound (by rwa [same'])).mono ?_
  rintro r u ⟨made'',opened⟩
  refine ⟨_,made_trans (made_trans made made') made'',?_,fun _ => ?_⟩
  · rwa [same',same] at opened
  · exact List.mem_append_left _ (List.mem_append_left _ (worked.resolve_left accepted))

private theorem canCheck_ends (w : Process CanSession) (sound : CanSound w) (open' : 0 ≤ w.session.fd) :
    Ends (canCheck kernel answers) (fun r w' => ∃ requests, Made w requests w' ∧ Opened w.session.fd r w' ∧
      (answers.timing = some (wanted w) → requests = []) ∧
      (r = 0 → answers.timing = some (wanted w) ∨ (.setBitrate (wanted w),true) ∈ requests)) w := by
  rw [canCheck,ends_bind]
  refine (canGetBittiming_ends w sound).mono ?_
  rintro bt s ⟨made,same,found⟩
  have open'' : 0 ≤ s.session.fd := same ▸ open'
  cases bt with
  | none =>
    refine (canOpenError_ends s made.sound open'').mono ?_
    rintro r t ⟨rfl,made',opened⟩
    exact ⟨_,made_trans made made',same ▸ opened,fun _ => rfl,fun zero => absurd zero (by decide)⟩
  | some bitrate =>
    have timing := found bitrate rfl
    have asked : UInt32.ofInt s.session.bitrate = wanted w := made_wanted made
    rw [ends_bind,ends_session,asked]
    refine ends_ite (fun right => ?_) fun wrong => ?_
    · refine (canBind_ends s made.sound open'').mono ?_
      rintro r t ⟨made',opened⟩
      exact ⟨_,made_trans made made',same ▸ opened,fun _ => rfl,fun _ => .inl (right ▸ timing)⟩
    have other : answers.timing ≠ some (wanted w) := fun same => wrong (Option.some.inj (timing.symm.trans same))
    rw [ends_bind]
    refine (setFlags_ends false answers.clearFlags s made.sound open'').mono ?_
    rintro down t ⟨cleared,made',same'⟩
    have both := made_trans made made'
    have stays : 0 ≤ t.session.fd := by rwa [same']
    refine ends_ite (fun _ => ?_) fun _ => ?_
    · refine (canOpenError_ends t made'.sound stays).mono ?_
      rintro r u ⟨rfl,made'',opened⟩
      rw [same',same] at opened
      exact ⟨_,made_trans both made'',opened,fun right => absurd right other,fun zero => absurd zero (by decide)⟩
    · refine (canSetUp_ends t made'.sound stays).mono ?_
      rintro r u ⟨requests,made'',opened,set⟩
      rw [same',same] at opened
      rw [made_wanted both] at set
      exact ⟨_,made_trans both made'',opened,fun right => absurd right other,
        fun zero => .inr (List.mem_append_right _ (set zero))⟩

/-- The interface is found up at this bitrate. -/
def CanAnswers.Found (answers : CanAnswers) (rate : UInt32) : Prop :=
  answers.getFlags = some true ∧ answers.timing = some rate

private theorem canOpen_ends (w : Process CanSession) (sound : CanSound w) (closed : w.session.fd = -1) :
    Ends (canOpen kernel answers) (fun r w' => ∃ requests, Made w requests w' ∧
      Opened (kernel.pick w.opens w.live) r w' ∧ (answers.Found (wanted w) → requests = []) ∧
      (r = 0 → answers.Found (wanted w) ∨ (.setBitrate (wanted w),true) ∈ requests)) w := by
  have owns := sound.owns
  have others : w.live = w.session.unbound := (owns_erase owns closed).symm.trans sound.others
  rw [canOpen,ends_bind,ends_session]
  refine ends_ite (fun open' => absurd open' (by rw [closed]; decide)) fun _ => ?_
  rw [ends_bind]
  refine ends_acquire (fun failed => ?_) fun fd picked there new => ?_
  · rw [ends_bind,ends_update,if_pos (by decide),ends_pure,failed]
    refine ⟨[],made_nothing ⟨owns_closed owns.none,?_⟩ rfl rfl rfl,.inr ⟨rfl,rfl,owns.none⟩,
      fun _ => rfl,fun zero => absurd zero (by decide)⟩
    exact (owns_erase (owns_closed owns.none) rfl).trans others
  rw [ends_bind,ends_update,if_neg (not_lt.mpr there),ends_bind,ends_touch,picked]
  refine ⟨Finset.mem_insert_self fd w.live,?_⟩
  generalize same : (⟨{w.session with fd := fd},insert fd w.live,w.opens + 1⟩ : Process CanSession) = s
  have alone : CanSound s := by
    rw [← same]
    exact ⟨owns_open owns there,(Finset.erase_insert new).trans others⟩
  have made : Made w [] s := made_nothing alone (same ▸ rfl) (same ▸ rfl) (same ▸ rfl)
  have own : s.session.fd = fd := same ▸ rfl
  have open' : 0 ≤ s.session.fd := own ▸ there
  cases flags : answers.getFlags with
  | none =>
    refine (canOpenError_ends s alone open').mono ?_
    rintro r t ⟨rfl,made',opened⟩
    exact ⟨_,made_trans made made',own ▸ opened,fun _ => rfl,fun zero => absurd zero (by decide)⟩
  | some up =>
    cases up with
    | true =>
      refine (canCheck_ends s alone open').mono ?_
      rintro r t ⟨requests,made',opened,idle,set⟩
      rw [own] at opened
      rw [made_wanted made] at idle set
      exact ⟨_,made_trans made made',opened,fun found => idle found.2,fun zero => (set zero).imp_left fun timing => ⟨flags,timing⟩⟩
    | false =>
      refine (canSetUp_ends s alone open').mono ?_
      rintro r t ⟨requests,made',opened,set⟩
      rw [own] at opened
      rw [made_wanted made] at set
      refine ⟨_,made_trans made made',opened,fun found => ?_,fun zero => .inr (set zero)⟩
      cases flags.symm.trans found.1

private theorem canTransfer_ends (w : Process CanSession) (owns : Owns w.session.fd w.live) :
    Ends canTransfer (fun _ w' => w' = w) w := by
  rw [canTransfer,ends_bind,ends_session]
  refine ends_ite (fun closed => ends_pure.mpr rfl) fun open' => ?_
  rw [ends_bind,ends_touch,ends_pure]
  exact ⟨owns.inside (not_lt.mp open'),rfl⟩

private theorem canClose_ends (w : Process CanSession) (sound : CanSound w) :
    Ends canClose (fun _ w' => Made w [] w' ∧ w'.session.fd = -1) w := by
  rw [canClose,ends_bind,ends_session]
  refine ends_ite (fun there => ?_) fun closed => ?_
  · rw [ends_bind,ends_release,ends_bind,ends_update,ends_pure]
    have owns := owns_close sound.owns
    refine ⟨sound.owns.inside there,made_nothing ⟨owns,?_⟩ rfl rfl rfl,rfl⟩
    exact (owns_erase owns rfl).trans sound.others
  · rw [ends_pure]
    exact ⟨made_refl sound,sound.owns.closed (not_le.mp closed)⟩

/-- An open session is left as it is. -/
private theorem canOpen_again (w : Process CanSession) (open' : 0 ≤ w.session.fd) :
    Ends (canOpen kernel answers) (fun r w' => r = 0 ∧ w' = w) w := by
  rw [canOpen,ends_bind,ends_session]
  exact ends_ite (fun _ => ends_pure.mpr ⟨rfl,rfl⟩) fun closed => absurd open' closed

end

private theorem can_ends (call : Call CanAnswers) (w : Process CanSession) (sound : CanSound w) :
    Ends ((can kernel).exec call) (fun _ w' => ∃ requests, Made w requests w') w := by
  cases call with
  | opens answers =>
    by_cases closed : w.session.fd = -1
    · exact (canOpen_ends w sound closed).mono fun _ _ ⟨requests,made,_⟩ => ⟨requests,made⟩
    · refine (canOpen_again w (owns_there sound.owns closed)).mono ?_
      rintro r w' ⟨-,rfl⟩
      exact ⟨[],made_refl sound⟩
  | transfer =>
    refine (canTransfer_ends w sound.owns).mono ?_
    rintro r w' rfl
    exact ⟨[],made_refl sound⟩
  | close => exact (canClose_ends w sound).mono fun _ _ known => ⟨[],known.1⟩

private theorem canSound_live {w : Process CanSession} (sound : CanSound w) :
    w.live = own w.session.fd ∪ w.session.unbound := by
  rw [← sound.others]
  by_cases there : 0 ≤ w.session.fd
  · rw [own_open there,← Finset.insert_eq,Finset.insert_erase (sound.owns.inside there)]
  · rw [(own_empty _).mpr (not_le.mp there),Finset.empty_union,owns_erase sound.owns (sound.owns.closed (not_le.mp there))]

/-- In any order of calls no descriptor is misused, and beside the session's own only netlink sockets
that did not bind stay open. An open on a closed session ends with the session open on its new socket and
the interface found up at the bitrate asked for, or a request for that bitrate accepted; or it ends with that
socket closed again. An interface that is found up at that bitrate gets no request. -/
theorem can_calls (kernel : Kernel) (interface p : Bytes) (calls : List (Call CanAnswers)) :
    ∃ w, (can kernel).run (start (canNew interface p)) calls = some w ∧ (0 ≤ w.session.fd → w.session.fd ∈ w.live) ∧
      w.live = own w.session.fd ∪ w.session.unbound ∧
      (w.session.fd = -1 → ∀ answers, Ends (canOpen kernel answers) (fun r w' => ∃ requests,
        w'.session.requests = w.session.requests ++ requests ∧ Opened (kernel.pick w.opens w.live) r w' ∧
        w'.live = own w'.session.fd ∪ w'.session.unbound ∧
        (answers.Found (UInt32.ofInt (canNew interface p).bitrate) → requests = []) ∧
        (r = 0 → answers.Found (UInt32.ofInt (canNew interface p).bitrate) ∨
          (.setBitrate (UInt32.ofInt (canNew interface p).bitrate),true) ∈ requests)) w) := by
  have begun : CanSound (start (canNew interface p)) := ⟨owns_start,rfl⟩
  obtain ⟨w,reached,sound,rate⟩ := run_ends (fun w => CanSound w ∧ w.session.bitrate = (canNew interface p).bitrate)
    (fun _ _ => True)
    (fun call w known _ => (can_ends call w known.1).mono fun _ _ ⟨_,made⟩ => ⟨made.sound,made.asked.trans known.2⟩)
    _ calls ⟨begun,rfl⟩ (Runs.meets_everywhere _ _ fun _ _ _ => trivial)
  refine ⟨w,reached,sound.owns.inside,canSound_live sound,fun closed answers => ?_⟩
  refine (canOpen_ends w sound closed).mono ?_
  rintro r w' ⟨requests,made,opened,idle,set⟩
  rw [wanted,rate] at idle set
  exact ⟨requests,made.recorded,opened,canSound_live made.sound,idle,set⟩

end

end Jbdtool.Transports
