import Jbdtool.EepromExact

/-! Frames for registers on the CAN bus. The two actions on parameters refuse that
transport; what main does before its action does not. -/
namespace Jbdtool
open CString Numbers Monitor Traced
variable {τ : Type}

def Event.Frame : Event → Prop
  | .rwCall _ _ => True
  | _ => False

instance : DecidablePred Event.Frame
  | .rwCall _ _ => .isTrue trivial
  | .opened _ | .closed | .wrote _ _ | .received _ | .canWrote _ | .canReceived _ _ | .rwReturn _ _ _ | .enter _
  | .leave _ _ | .touch _ _ _ | .getp _ _ | .printed _ _ | .usage => .isFalse id

/-- The transport loaded is the can module exactly where `-t` names it. -/
def LoadedBy (host : Host τ) (args : List Bytes) : Prop :=
  ∀ s operands, readOptions args = .ok (s,operands) → (host.can = true ↔ s.transport = some (bytes "can"))

/-- Nothing but the action is asked for: no `-g`, `-G` or `-X`, and no `-D` that is
carried out. -/
def onlyAction (env : Env) (s : Settings) : Bool :=
  s.charge < 0 && s.discharge < 0 && !s.reset && !(created env s && s.dump)

def FramesRefused (env : Env) (args : List Bytes) : Prop :=
  match readOptions args with
  | .error _ => True
  | .ok (s,_) => s.transport = some (bytes "can") → env.loads → env.locks (lockfile s.target) !s.dontWait →
      onlyAction env s

def frameless (_ : Unit) : Event → Option Unit
  | .rwCall _ _ => none
  | _ => some ()

private theorem frameless_other (e : Event) (other : ¬ e.Frame) : frameless () e = some () := by
  cases e <;> first | rfl | exact (other trivial).elim

private theorem frameless_accepts (events : List Event) (accepted : Runs.run frameless () events ≠ none) :
    ∀ e ∈ events, ¬ e.Frame := by
  induction events with
  | nil => simp
  | cons e events ih =>
    by_cases frame : e.Frame
    · cases e <;> first | exact frame.elim | exact (accepted rfl).elim
    · rw [Runs.run_cons () () e events (frameless_other e frame)] at accepted
      exact List.forall_mem_cons.mpr ⟨frame,ih accepted⟩

instance : Routine (fun e : Event => ¬ e.Frame) where
  plain e known := by cases e <;> first | exact id | exact known.elim

section
variable {host : Host τ} {α : Type}

abbrev Frameless (m : Main τ α) : Prop :=
  Guarded frameless (fun _ => True) m (fun _ _ => True) (fun _ _ => True)

private theorem frameless_throw {code : Int} : Frameless (throw code : Main τ α) := guarded_throw fun _ _ => trivial

private theorem frameless_same {a : α} : Frameless (pure a : Main τ α) := guarded_pure fun _ _ => trivial

private theorem frameless_lift {m : Program τ α} (other : Emits (fun e => ¬ e.Frame) m) :
    Frameless (liftM m : Main τ α) :=
  guarded_lift (triple_unseen (fun _ e _ unseen => frameless_other e unseen) other)

private theorem packOpen_frameless : Emits (fun e => ¬ e.Frame) (packOpen host) :=
  emits_bind emits_get fun _ => emits_bind (emits_modify _) fun _ => emits_bind (emits_emit id) fun _ => emits_pure _

private theorem packClose_frameless : Emits (fun e => ¬ e.Frame) (packClose host) :=
  emits_bind (emits_modify _) fun _ => emits_emit id

/-- Both actions on parameters return at once, and a status is read from CAN frames. -/
private theorem runAction_frameless (env : Env) (s : Settings) (operands : List Bytes) (info : JbdInfo)
    (can : host.can = true) (named : s.transport = some (bytes "can")) :
    Frameless (runAction host env s operands info) := by
  have returns (text : Bytes) (rest : Main τ Unit) : Frameless (failWith text >>= fun _ : Unit => rest) :=
    guarded_exit (guarded_bind (frameless_lift calls_print) fun _ => guarded_throw fun _ _ => trivial)
  unfold runAction
  cases s.action with
  | info =>
    have shown : Emits (fun e => ¬ e.Frame) (showInfo host s.fmt info) :=
      emits_bind (calls_canInfo can) fun _ => emits_ite (fun _ => calls_displayInfo) fun _ => emits_pure _
    have opened : Frameless (openOrReturn host) :=
      guarded_bind (frameless_lift packOpen_frameless) fun _ =>
        guarded_ite (fun _ => frameless_throw) fun _ => frameless_same
    exact guarded_bind opened fun _ => guarded_bind (frameless_lift shown) fun _ => frameless_lift packClose_frameless
  | read =>
    dsimp only
    unfold readAction
    rw [if_pos named]
    exact returns _ _
  | write =>
    dsimp only
    unfold writeAction
    rw [if_pos named]
    exact returns _ _

private theorem transport_output (s : Settings) : s.output.transport = s.transport := by
  unfold Settings.output
  split
  · split_ifs <;> rfl
  · rfl

private theorem mainBody_frameless (env : Env) (s : Settings) (operands : List Bytes) (can : host.can = true)
    (named : s.transport = some (bytes "can"))
    (only : env.loads → env.locks (lockfile s.target) !s.dontWait → onlyAction env s) :
    Frameless (mainBody host env s operands) := by
  have gone (code : Int) (rest : Main τ Unit) : Frameless (throw code >>= fun _ : Unit => rest) :=
    guarded_exit (guarded_throw fun _ _ => trivial)
  refine guarded_ite (fun _ => gone _ _) fun loads => guarded_ite (fun _ => gone _ _) fun locks => ?_
  simp only [Bool.not_eq_true',Bool.not_eq_false] at loads locks
  have alone := only loads locks
  simp only [onlyAction,Bool.and_eq_true,decide_eq_true_eq,Bool.not_eq_true'] at alone
  obtain ⟨⟨⟨charge,discharge⟩,reset⟩,dump⟩ := alone
  refine guarded_ite (fun set => by omega) fun _ => guarded_bind frameless_same fun info => ?_
  refine guarded_ite (fun on => by simp [reset] at on) fun _ => ?_
  by_cases made : created env s
  · rw [openOutput_created env s made]
    have started : Emits (fun e => ¬ e.Frame) (startDocument : Program τ Unit) := emits_modify _
    refine guarded_bind (guarded_ite (fun _ => frameless_lift started) fun _ => frameless_same) fun _ => ?_
    refine guarded_ite (fun on => by simp [made,on] at dump) fun _ => ?_
    refine guarded_bind (runAction_frameless env s.output operands info can ?_) fun _ =>
      frameless_lift calls_printDocument
    rw [transport_output,named]
  · rw [openOutput_failed env s made]
    exact gone _ _

end

private theorem main_frameless {host : Host τ} (env : Env) (args : List Bytes) (loaded : LoadedBy host args)
    (can : host.can = true) (refused : FramesRefused env args) (w : World τ) :
    ∀ e ∈ (main host env args w).events, ¬ e.Frame := by
  suffices watched : Triple frameless (fun _ => True) (main host env args) (fun _ _ => True) by
    obtain ⟨p,run,-⟩ := watched () trivial w
    exact frameless_accepts _ (run ▸ Option.some_ne_none p)
  unfold main
  unfold FramesRefused at refused
  cases read : readOptions args with
  | error e =>
    refine triple_unseen (fun _ e _ unseen => frameless_other e unseen) ?_
    have usage : Emits (fun e => ¬ e.Frame) (do
        if e.usage then Traced.emit .usage
        return e.code : Program τ Int) :=
      emits_ite (fun _ => emits_bind (emits_emit id) fun _ => emits_pure _) fun _ => emits_pure _
    exact emits_ite (fun _ => emits_bind calls_print fun _ => usage) fun _ => usage
  | ok given =>
    obtain ⟨s,operands⟩ := given
    simp only [read] at refused
    have named := (loaded s operands read).mp can
    refine triple_bind (mainBody_frameless env s operands can named (refused named)) fun r => ?_
    cases r <;> exact triple_pure fun _ _ => trivial

/-- A pack on the CAN bus that answers every identifier with zeros. -/
def zeroCan : Host Unit where
  can := true
  opens _ := (0,())
  closes _ := (0,())
  write _ _ len := (len,())
  read _ := (.error,())
  canWrite _ _ := (0,())
  canRead _ _ := (.bytes (List.replicate 8 0) (by decide),())
  single := roundSingle
  double := roundDouble
  infoText := []
  lineBuf := fun _ => 0
  rwBuf := fun _ _ => 0
  parmData := fun _ _ => 0

section
variable {host : Host τ} {α β : Type} {w : World τ}

private theorem jbdRw_shows (action reg : UInt8) (data : Bytes) : Shows Event.Frame (jbdRw host action reg data) w := by
  rw [Shows,jbdRw_run]
  exact ⟨_,List.mem_cons_self,trivial⟩

private theorem jbdEepromStart_shows : Shows Event.Frame (jbdEepromStart host) w := shows_rest (shows_first (jbdRw_shows _ _ _))

private theorem jbdSetMosfet_shows (val : Int) : Shows Event.Frame (jbdSetMosfet host val) w :=
  shows_rest (shows_first jbdEepromStart_shows)

private theorem shows_part {m : Main τ α} {next : α → Main τ β} (shown : Shows Event.Frame m.run w) :
    Shows Event.Frame (m >>= next).run w :=
  shows_first shown

private theorem shows_next {m : Main τ α} {next : α → Main τ β} {a : α} (value : (m.run w).value = .ok a)
    (shown : Shows Event.Frame (next a).run (m.run w).state) : Shows Event.Frame (m >>= next).run w := by
  have continued : Shows Event.Frame (ExceptT.bindCont next (m.run w).value) (m.run w).state := by rwa [value]
  exact shows_rest continued

private theorem shows_lift {m : Program τ α} (shown : Shows Event.Frame m w) : Shows Event.Frame (liftM m : Main τ α).run w :=
  shows_first shown

private theorem shows_after {m : Program τ α} {next : α → Main τ β}
    (shown : Shows Event.Frame (next (m w).value).run (m w).state) :
    Shows Event.Frame ((liftM m : Main τ α) >>= next).run w :=
  shows_next rfl shown

private theorem shows_pos {c : Prop} [Decidable c] {m n : Main τ α} (holds : c) (shown : Shows Event.Frame m.run w) :
    Shows Event.Frame (if c then m else n).run w := by
  rwa [if_pos holds]

private theorem shows_neg {c : Prop} [Decidable c] {m n : Main τ α} (fails : ¬ c) (shown : Shows Event.Frame n.run w) :
    Shows Event.Frame (if c then m else n).run w := by
  rwa [if_neg fails]

end

section
variable {w : World Unit}

private theorem openOrReturn_zeroCan : ((openOrReturn zeroCan).run w).value = .ok () := rfl

private theorem jbdGetInfo_zeroCan : (jbdGetInfo zeroCan .zero (World.start ())).value.1 = 0 := by decide +kernel

private theorem setFets_shows (s : Settings) : Shows Event.Frame (setFets zeroCan s .zero).run (World.start ()) := by
  unfold setFets
  refine shows_next openOrReturn_zeroCan ?_
  have state : ((openOrReturn zeroCan).run (World.start ())).state = World.start () := rfl
  rw [state]
  apply shows_after
  apply shows_pos jbdGetInfo_zeroCan
  exact shows_part (shows_lift (jbdSetMosfet_shows _))

private theorem resetBms_shows : Shows Event.Frame (resetBms zeroCan).run w :=
  shows_next rfl (shows_next openOrReturn_zeroCan (shows_part (shows_lift jbdEepromStart_shows)))

private theorem dumpAll_shows : Shows Event.Frame (dumpAll zeroCan).run w :=
  shows_next openOrReturn_zeroCan (shows_part (shows_part (shows_lift jbdEepromStart_shows)))

/-- Whatever else is asked for sends a frame. -/
private theorem mainBody_shows (env : Env) (s : Settings) (operands : List Bytes) (loads : env.loads = true)
    (locks : env.locks (lockfile s.target) (!s.dontWait) = true) (more : onlyAction env s ≠ true) :
    Shows Event.Frame (mainBody zeroCan env s operands).run (World.start ()) := by
  unfold mainBody
  apply shows_neg (by simp [loads])
  apply shows_neg (by simp [locks])
  by_cases fets : s.charge ≥ 0 ∨ s.discharge ≥ 0
  · exact shows_pos fets (shows_part (setFets_shows s))
  apply shows_neg fets
  refine shows_next rfl ?_
  by_cases reset : s.reset = true
  · exact shows_pos reset (shows_part resetBms_shows)
  apply shows_neg reset
  have dump : created env s = true ∧ s.dump = true := by
    by_contra none
    refine more ?_
    simp only [onlyAction,Bool.and_eq_true,decide_eq_true_eq,Bool.not_eq_true']
    refine ⟨⟨⟨by omega,by omega⟩,Bool.eq_false_of_not_eq_true reset⟩,?_⟩
    exact Bool.eq_false_of_not_eq_true fun both => none (Bool.and_eq_true_iff.mp both)
  have opened : ((openOutput env s : Main Unit Unit).run (World.start ())).value = .ok () := by
    rw [openOutput_created env s dump.1]
    split_ifs <;> rfl
  exact shows_next opened (shows_pos dump.2 (shows_part dumpAll_shows))

end

/-- No frame for a register goes out on the CAN bus, whatever is on it, exactly where
main is asked for its action alone. -/
theorem main_canFrames (env : Env) (args : List Bytes) :
    (∀ (τ : Type) (host : Host τ) (w : World τ), LoadedBy host args → host.can = true →
      ∀ e ∈ (main host env args w).events, ¬ e.Frame) ↔ FramesRefused env args := by
  refine ⟨fun never => ?_,fun refused τ host w loaded can => main_frameless env args loaded can refused w⟩
  unfold FramesRefused
  cases read : readOptions args with
  | error e => trivial
  | ok given =>
    obtain ⟨s,operands⟩ := given
    intro named loads locks
    by_contra more
    have loaded : LoadedBy zeroCan args := by
      intro s' operands' same
      rw [read] at same
      obtain ⟨rfl,rfl⟩ := Prod.mk.inj (Except.ok.inj same)
      exact ⟨fun _ => named,fun _ => rfl⟩
    obtain ⟨e,member,frame⟩ : Shows Event.Frame (main zeroCan env args) (World.start ()) := by
      unfold main
      rw [read]
      exact shows_first (mainBody_shows env s operands loads locks more)
    exact never Unit zeroCan (World.start ()) loaded rfl e member frame

/-- `jbdtool -t can:can0 -D` -/
def dumpOverCan : List Bytes := [bytes "-t",bytes "can:can0",bytes "-D"]

theorem dumpOverCan_frames : LoadedBy zeroCan dumpOverCan ∧ zeroCan.can = true ∧
    ¬ ∀ e ∈ (main zeroCan plainEnv dumpOverCan (World.start ())).events, ¬ e.Frame := by
  refine ⟨fun s operands read => ⟨fun _ => ?_,fun _ => rfl⟩,rfl,by decide +kernel⟩
  have named : (readOptions dumpOverCan).toOption.bind (fun given => given.1.transport) = some (bytes "can") := by
    decide +kernel
  rwa [read] at named

end Jbdtool
