import Jbdtool.Base.Strings
import Jbdtool.Options

/-! init_pack: four strings copied into fields of the pack that lie next to each other, and what
the transport's new function is then called with. -/
namespace Jbdtool.InitPack
open CString Traced Mem

def packSize : Nat := 896

def typeAt : Nat := 85

def transportAt : Nat := 117

def targetAt : Nat := 149

def optsAt : Nat := 181

def handleAt : Nat := 848

/-- The pointers to the functions open, read and close follow each other. -/
def openAt : Nat := 856

structure Pointer where
  bytes : Bytes
  width : bytes.length = 8
deriving DecidableEq

def Pointer.null : Pointer := ⟨[0,0,0,0,0,0,0,0],rfl⟩

/-- What init_pack uses of the BMS module. -/
structure Module where
  openFn : Pointer
  readFn : Pointer
  closeFn : Pointer

def Module.functions (cp : Module) : Bytes := cp.openFn.bytes ++ cp.readFn.bytes ++ cp.closeFn.bytes

/-- Strings or null pointers, as main passes them. -/
structure Arguments where
  type : Bytes
  transport : Option Bytes
  target : Option Bytes
  opts : Option Bytes
  clean : ∀ arg ∈ [some type,transport,target,opts], 0 ∉ arg.getD []

def strcpy (p : Nat) : Option Bytes → Traced (Mem UInt8) Access Unit
  | none => pure ()
  | some text => Mem.storeBlock p (text ++ [0])

/-- memset and the copies. -/
def copies (args : Arguments) : Traced (Mem UInt8) Access Unit := do
  Mem.storeBlock 0 (List.replicate packSize 0)
  strcpy typeAt (some args.type)
  strcpy transportAt args.transport
  strcpy targetAt args.target
  strcpy optsAt args.opts

def readField (p : Nat) : Traced (Mem UInt8) Access Bytes := fun pack =>
  ⟨stringFrom packSize pack p,pack,(List.range ((stringFrom packSize pack p).length + 1)).map (fun i => .load (p + i))⟩

/-- `jbd_new`, with what calloc gives and the new function of the transport: the handle, and
what that function has been called with. -/
def jbdNew (calloc : Option Pointer) (new : Bytes → Bytes → Pointer) :
    Traced (Mem UInt8) Access (Pointer × Option (Bytes × Bytes)) :=
  match calloc with
  | none => pure (.null,none)
  | some session => do
    let target ← readField targetAt
    let opts ← readField optsAt
    let handle := new target opts
    return (if handle = .null then .null else session,some (target,opts))

def initPack (args : Arguments) (cp : Module) (calloc : Option Pointer) (new : Bytes → Bytes → Pointer) :
    Traced (Mem UInt8) Access (Int × Option (Bytes × Bytes)) := do
  copies args
  Mem.storeBlock openAt cp.openFn.bytes
  Mem.storeBlock (openAt + 8) cp.readFn.bytes
  Mem.storeBlock (openAt + 16) cp.closeFn.bytes
  let made ← jbdNew calloc new
  Mem.storeBlock handleAt made.1.bytes
  return (0,made.2)

/-- The copies stay in the pack, the fields hold what was given, empty for null, and so does
what is handed on. -/
structure Stored (args : Arguments) (cp : Module) (calloc : Option Pointer) (new : Bytes → Bytes → Pointer)
    (pack : Mem UInt8) : Prop where
  inside : Below packSize (copies args pack).events
  type : StringAt (copies args pack).state typeAt args.type
  transport : StringAt (copies args pack).state transportAt (args.transport.getD [])
  target : StringAt (copies args pack).state targetAt (args.target.getD [])
  opts : StringAt (copies args pack).state optsAt (args.opts.getD [])
  handed : ∀ call ∈ (initPack args cp calloc new pack).value.2, call = (args.target.getD [],args.opts.getD [])

/-- Each string ends in its field or goes on as the next one. The options end in the pack, and
where they reach the pointers stored behind them, these are what the options have there. -/
structure Fits (args : Arguments) (cp : Module) : Prop where
  type : Reaches 32 args.type (args.transport.getD [])
  transport : Reaches 32 (args.transport.getD []) (args.target.getD [])
  target : Reaches 32 (args.target.getD []) (args.opts.getD [])
  inside : (args.opts.getD []).length < packSize - optsAt
  pointers : ((args.opts.getD [] ++ [0]).drop (openAt - optsAt)).take 24 <+: cp.functions

section
variable {args : Arguments} {cp : Module} {pack : Mem UInt8}

def Arguments.list (args : Arguments) : List (Option Bytes) := [some args.type,args.transport,args.target,args.opts]

private theorem strcpy_run (p : Nat) (arg : Option Bytes) (pack : Mem UInt8) (rest : List (Option Bytes)) :
    strcpys 32 p (arg::rest) pack = strcpys 32 (p + 32) rest (strcpy p arg pack).state := by
  cases arg <;> rfl

private theorem copies_run (args : Arguments) (pack : Mem UInt8) : ∃ one two three,
    one = (strcpy typeAt (some args.type) (overlay pack 0 (List.replicate packSize 0))) ∧
    two = (strcpy transportAt args.transport one.state) ∧ three = (strcpy targetAt args.target two.state) ∧
    copies args pack = ((((strcpy optsAt args.opts three.state).after three.events).after two.events).after one.events).after
      ((List.range (List.replicate packSize (0 : UInt8)).length).map (fun i => .store (0 + i))) := by
  refine ⟨_,_,_,rfl,rfl,rfl,?_⟩
  rw [copies,Mem.storeBlock_bind,bind_run,bind_run,bind_run]

private theorem copies_state (args : Arguments) (pack : Mem UInt8) :
    (copies args pack).state = strcpys 32 typeAt args.list (overlay pack 0 (List.replicate packSize 0)) := by
  obtain ⟨one,two,three,rfl,rfl,rfl,run⟩ := copies_run args pack
  have transport : typeAt + 32 = transportAt := rfl
  have target : transportAt + 32 = targetAt := rfl
  have opts : targetAt + 32 = optsAt := rfl
  rw [run,Arguments.list,strcpy_run,strcpy_run,strcpy_run,strcpy_run,transport,target,opts,strcpys]
  simp only [Outcome.after_state]

private theorem zeroed (pack : Mem UInt8) (i : Nat) (inside : i < packSize) :
    overlay pack 0 (List.replicate packSize 0) i = 0 := by
  have here := overlay_inside pack 0 (List.replicate packSize 0) i (by rwa [List.length_replicate])
  rw [Nat.zero_add] at here
  rw [here,List.getElem_replicate]

private theorem below_strcpy (p : Nat) (arg : Option Bytes) (start : p < packSize) (pack : Mem UInt8) :
    Below packSize (strcpy p arg pack).events ↔ p + (arg.getD []).length < packSize := by
  cases arg with
  | none => simpa [strcpy] using start
  | some text =>
    have span := below_span Access.store Access.store_index p text.length packSize
    have events : (strcpy p (some text) pack).events = (List.range (text.length + 1)).map (fun i => .store (p + i)) := by
      rw [← List.length_singleton (a := (0 : UInt8)),← List.length_append]
      rfl
    rwa [events]

private theorem copies_inside (args : Arguments) (pack : Mem UInt8) : Below packSize (copies args pack).events ↔
    typeAt + args.type.length < packSize ∧ transportAt + (args.transport.getD []).length < packSize ∧
      targetAt + (args.target.getD []).length < packSize ∧ optsAt + (args.opts.getD []).length < packSize := by
  obtain ⟨one,two,three,rfl,rfl,rfl,run⟩ := copies_run args pack
  have cleared : Below packSize ((List.range (List.replicate packSize (0 : UInt8)).length).map (fun i => .store (0 + i))) := by
    have span := below_span Access.store Access.store_index 0 (packSize - 1) packSize
    rw [List.length_replicate]
    exact span.mpr (by decide)
  rw [run]
  simp only [Outcome.after_events,below_append]
  rw [below_strcpy _ _ (by decide),below_strcpy _ _ (by decide),below_strcpy _ _ (by decide),below_strcpy _ _ (by decide)]
  simp only [cleared,true_and,Option.getD_some]

/-- The four fields hold what was given exactly where the strings can lie in a row. -/
private theorem copies_fields (args : Arguments) (pack : Mem UInt8) :
    (StringAt (copies args pack).state typeAt args.type ∧
      StringAt (copies args pack).state transportAt (args.transport.getD []) ∧
      StringAt (copies args pack).state targetAt (args.target.getD []) ∧
      StringAt (copies args pack).state optsAt (args.opts.getD [])) ↔
    Reaches 32 args.type (args.transport.getD []) ∧ Reaches 32 (args.transport.getD []) (args.target.getD []) ∧
      Reaches 32 (args.target.getD []) (args.opts.getD []) := by
  have room : typeAt + 32 * 4 ≤ packSize := by decide
  have row := @strcpys_row_iff 32 typeAt (overlay pack 0 (List.replicate packSize 0)) args.list packSize (zeroed pack) room
    (by decide) args.clean
  rw [← copies_state] at row
  simpa [Arguments.list,Row,List.isChain_cons_cons,typeAt,transportAt,targetAt,optsAt] using row

private theorem functions_length (cp : Module) : cp.functions.length = 24 := by
  simp [Module.functions,cp.openFn.width,cp.readFn.width,cp.closeFn.width]

def filled (args : Arguments) (cp : Module) (pack : Mem UInt8) : Mem UInt8 :=
  overlay (copies args pack).state openAt cp.functions

private theorem readField_run (p : Nat) (pack : Mem UInt8) : ∃ loads,
    readField p pack = ⟨stringFrom packSize pack p,pack,loads⟩ := ⟨_,rfl⟩

private theorem jbdNew_call (calloc : Option Pointer) (new : Bytes → Bytes → Pointer) (pack : Mem UInt8) :
    (jbdNew calloc new pack).value.2 =
      calloc.map fun _ => (stringFrom packSize pack targetAt,stringFrom packSize pack optsAt) := by
  cases calloc with
  | none => rfl
  | some session =>
    obtain ⟨_,target⟩ := readField_run targetAt pack
    obtain ⟨_,opts⟩ := readField_run optsAt pack
    rw [jbdNew,bind_of_run target,Outcome.after_value,bind_of_run opts,Outcome.after_value,pure_run,Option.map_some]

private theorem initPack_value (args : Arguments) (cp : Module) (calloc : Option Pointer) (new : Bytes → Bytes → Pointer)
    (pack : Mem UInt8) : (initPack args cp calloc new pack).value = (0,calloc.map fun _ =>
      (stringFrom packSize (filled args cp pack) targetAt,stringFrom packSize (filled args cp pack) optsAt)) := by
  have stored : overlay (overlay (overlay (copies args pack).state openAt cp.openFn.bytes) (openAt + 8) cp.readFn.bytes)
      (openAt + 16) cp.closeFn.bytes = filled args cp pack := by
    rw [overlay_next _ openAt (openAt + 8) _ _ (by rw [cp.openFn.width]),
      overlay_next _ openAt (openAt + 16) _ _ (by rw [List.length_append,cp.openFn.width,cp.readFn.width])]
    rfl
  rw [initPack,bind_run,Outcome.after_value,Mem.storeBlock_bind,Outcome.after_value,Mem.storeBlock_bind,Outcome.after_value,
    Mem.storeBlock_bind,Outcome.after_value,stored,bind_run,Outcome.after_value,Mem.storeBlock_bind,Outcome.after_value,
    pure_run,jbdNew_call]

private theorem handed_iff (held : StringAt (copies args pack).state targetAt (args.target.getD []))
    (held' : StringAt (copies args pack).state optsAt (args.opts.getD [])) (reaches : Reaches 32 (args.target.getD []) (args.opts.getD []))
    (inside : (args.opts.getD []).length < packSize - optsAt) :
    (∀ calloc new, ∀ call ∈ (initPack args cp calloc new pack).value.2, call = (args.target.getD [],args.opts.getD [])) ↔
      ((args.opts.getD [] ++ [0]).drop (openAt - optsAt)).take 24 <+: cp.functions := by
  have place : openAt = optsAt + (openAt - optsAt) := rfl
  have size : optsAt < packSize := by decide
  have kept : StringAt (filled args cp pack) optsAt (args.opts.getD []) ↔
      ((args.opts.getD [] ++ [0]).drop (openAt - optsAt)).take 24 <+: cp.functions := by
    have overlaid := stringAt_overlay_iff held' cp.functions (openAt - optsAt)
    rwa [← place,functions_length] at overlaid
  rw [← kept]
  constructor
  · intro all
    have call := all (some .null) (fun _ _ => .null) _ (congrArg Prod.snd (initPack_value args cp _ _ pack))
    have read := congrArg Prod.snd call
    dsimp only at read
    rw [← read]
    exact stringAt_stringFrom packSize _ optsAt (by rw [read]; omega)
  · intro opts calloc new call made
    have next : StringAt (filled args cp pack) (targetAt + 32) (args.opts.getD []) := opts
    have target : StringAt (filled args cp pack) targetAt (args.target.getD []) := by
      refine stringAt_reaching held next reaches fun i few => overlay_outside _ _ _ _ (.inl ?_)
      have before : targetAt + 32 ≤ openAt := by decide
      omega
    have short : targetAt + (args.target.getD []).length < packSize := by
      have row : targetAt + 32 = optsAt := rfl
      rcases reaches with short | long
      · omega
      · have length := congrArg List.length long
        rw [List.length_drop] at length
        omega
    rw [initPack_value] at made
    obtain ⟨-,-,rfl⟩ := Option.mem_map.mp made
    rw [stringAt_read short target]
    exact congrArg _ (stringAt_read (by omega) opts)

/-- The pack holds what it is given, and hands it on, whatever calloc and the transport do,
exactly where the strings fit. -/
theorem initPack_stored_iff (args : Arguments) (cp : Module) (pack : Mem UInt8) :
    (∀ calloc new, (initPack args cp calloc new pack).value.1 ≠ 0 ∨ Stored args cp calloc new pack) ↔ Fits args cp := by
  constructor
  · intro all
    have stored (calloc : Option Pointer) (new : Bytes → Bytes → Pointer) : Stored args cp calloc new pack :=
      (all calloc new).resolve_left (not_not.mpr (congrArg Prod.fst (initPack_value args cp calloc new pack)))
    have ⟨inside,type,transport,target,opts,_⟩ := stored none fun _ _ => .null
    obtain ⟨first,second,third⟩ := (copies_fields args pack).mp ⟨type,transport,target,opts⟩
    have short : (args.opts.getD []).length < packSize - optsAt := by
      have last := ((copies_inside args pack).mp inside).2.2.2
      omega
    exact ⟨first,second,third,short,(handed_iff target opts third short).mp fun calloc new => (stored calloc new).handed⟩
  · rintro ⟨first,second,third,short,pointers⟩ calloc new
    obtain ⟨type,transport,target,opts⟩ := (copies_fields args pack).mpr ⟨first,second,third⟩
    refine .inr ⟨(copies_inside args pack).mpr ?_,type,transport,target,opts,?_⟩
    · have size : typeAt + 32 = transportAt ∧ transportAt + 32 = targetAt ∧ targetAt + 32 = optsAt ∧ optsAt + 32 < packSize := by
        decide
      have length {s t : Bytes} (reaches : Reaches 32 s t) : s.length < 32 ∨ s.length = 32 + t.length := by
        rcases reaches with short | rfl
        · exact .inl short
        · rw [List.length_drop]
          omega
      have first := length first
      have second := length second
      have third := length third
      omega
    · exact (handed_iff target opts third short).mpr pointers calloc new

end

/-- A serial port by its id, without options: its 32 first characters fill the field. -/
def serialById : Arguments where
  type := bytes "jbd"
  transport := some (bytes "serial")
  target := some (bytes "/dev/serial/by-id/usb-FTDI_FT232R_USB_UART_A50285BI-if00-port0")
  opts := none
  clean := by decide +kernel

theorem initPack_spilled : stringFrom packSize (copies serialById (fun _ => 0)).state optsAt = bytes "R_USB_UART_A50285BI-if00-port0" ∧
    ¬ ∀ (args : Arguments) (cp : Module) (calloc : Option Pointer) (new : Bytes → Bytes → Pointer) (pack : Mem UInt8),
      (initPack args cp calloc new pack).value.1 ≠ 0 ∨ Stored args cp calloc new pack := by
  have read : stringFrom packSize (copies serialById (fun _ => 0)).state optsAt = bytes "R_USB_UART_A50285BI-if00-port0" := by
    decide +kernel
  refine ⟨read,fun all => ?_⟩
  have stored := (all serialById ⟨.null,.null,.null⟩ none (fun _ _ => .null) (fun _ => 0)).resolve_left fun failed =>
    failed (congrArg Prod.fst (initPack_value serialById _ _ _ _))
  have inside : optsAt + ([] : Bytes).length < packSize := by decide
  have empty := stringAt_read inside stored.opts
  rw [read] at empty
  exact absurd empty (by decide +kernel)

/-- Everything from the first comma on is options, unless there are some. -/
def mainTarget (target : Bytes) : Bytes := target.takeWhile (· ≠ 44)

def mainOpts (target : Bytes) : Option Bytes → Option Bytes
  | some opts => some opts
  | none => if target.contains 44 then some ((target.dropWhile (· ≠ 44)).drop 1) else none

private theorem mainOpts_clean {target : Bytes} {opts : Option Bytes} (clean : 0 ∉ target) (clean' : 0 ∉ opts.getD []) :
    0 ∉ (mainOpts target opts).getD [] := by
  cases opts with
  | some opts => exact clean'
  | none =>
    unfold mainOpts
    split_ifs
    · exact fun member => clean ((List.dropWhile_sublist _).subset (List.mem_of_mem_drop member))
    · exact List.not_mem_nil

/-- The strings of a command line have no NUL in them. -/
structure Clean (s : Settings) : Prop where
  transport : 0 ∉ s.transport.getD []
  target : 0 ∉ s.target
  opts : 0 ∉ s.opts.getD []

private theorem Clean.arguments {s : Settings} (clean : Clean s) :
    ∀ arg ∈ [some (bytes "jbd"),s.transport,some (mainTarget s.target),mainOpts s.target s.opts], 0 ∉ arg.getD [] := by
  have target : 0 ∉ mainTarget s.target := fun member => clean.target ((List.takeWhile_sublist _).subset member)
  have type : 0 ∉ bytes "jbd" := by decide +kernel
  simpa using ⟨type,clean.transport,target,mainOpts_clean clean.target clean.opts⟩

def mainArguments (s : Settings) (clean : Clean s) : Arguments where
  type := bytes "jbd"
  transport := s.transport
  target := some (mainTarget s.target)
  opts := mainOpts s.target s.opts
  clean := clean.arguments

/-- The names that mybmm_load_module knows. -/
def moduleNames : List Bytes := [bytes "jbd",bytes "bt",bytes "can",bytes "ip",bytes "serial"]

private theorem moduleNames_short : ∀ name ∈ moduleNames, name.length < 32 := by decide +kernel

/-- With options that end before the pointers only the target can be too long. -/
theorem mainArguments_fit (s : Settings) (clean : Clean s) (cp : Module) (name : Bytes) (given : s.transport = some name)
    (loaded : name ∈ moduleNames) (short : ((mainOpts s.target s.opts).getD []).length < openAt - optsAt) :
    Fits (mainArguments s clean) cp ↔
      (mainTarget s.target).length < 32 ∨ (mainTarget s.target).drop 32 = (mainOpts s.target s.opts).getD [] := by
  constructor
  · exact fun fits => fits.target
  · intro target
    have type : (bytes "jbd").length < 32 := by decide +kernel
    have transport : (s.transport.getD []).length < 32 := by
      rw [given]
      exact moduleNames_short name loaded
    have less : openAt - optsAt < packSize - optsAt := by decide
    refine ⟨.inl type,.inl transport,target,short.trans less,?_⟩
    have none : ((mainOpts s.target s.opts).getD [] ++ [0]).drop (openAt - optsAt) = [] := by
      rw [List.drop_eq_nil_iff,List.length_append,List.length_singleton]
      exact short
    have nothing : ((mainArguments s clean).opts.getD [] ++ [0]).drop (openAt - optsAt) = [] := none
    rw [nothing]
    exact List.nil_prefix

end Jbdtool.InitPack
