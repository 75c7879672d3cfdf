import Jbdtool.Base.Runs
import Mathlib.Data.Finset.Basic
import Mathlib.Data.Finset.Lattice.Lemmas

/-! Programs that get descriptors from a kernel, use them and give them back. A program that
uses or closes what is not open has no result, so a result is a proof that it did not. -/
namespace Descriptors

/-- A new descriptor is none of the open ones; there may be none to be had. -/
structure Kernel where
  pick : Nat → Finset Int → Int
  fresh : ∀ n live, pick n live = -1 ∨ 0 ≤ pick n live ∧ pick n live ∉ live

structure Process (σ : Type) where
  session : σ
  live : Finset Int
  opens : Nat

abbrev Uses (σ α : Type) := StateT (Process σ) Option α

section
variable {σ α β : Type}

def acquire (kernel : Kernel) : Uses σ Int := fun w =>
  let d := kernel.pick w.opens w.live
  some (d,{w with live := if d = -1 then w.live else insert d w.live,opens := w.opens + 1})

def release (d : Int) : Uses σ Unit := fun w => if d ∈ w.live then some ((),{w with live := w.live.erase d}) else none

def touch (d : Int) : Uses σ Unit := fun w => if d ∈ w.live then some ((),w) else none

def session : Uses σ σ := fun w => some (w.session,w)

def update (f : σ → σ) : Uses σ Unit := fun w => some ((),{w with session := f w.session})

/-- The program has a result from here, and it is as promised. -/
def Ends (m : Uses σ α) (post : α → Process σ → Prop) (w : Process σ) : Prop := ∃ a w', m w = some (a,w') ∧ post a w'

variable {w : Process σ}

private theorem ends_given {m : Uses σ α} {post : α → Process σ → Prop} {a : α} {w' : Process σ} (ran : m w = some (a,w')) :
    Ends m post w ↔ post a w' := by
  constructor
  · rintro ⟨b,w'',same,final⟩
    obtain ⟨rfl,rfl⟩ := Prod.mk.inj (Option.some.inj (ran.symm.trans same))
    exact final
  · exact fun final => ⟨a,w',ran,final⟩

@[simp] theorem ends_pure {a : α} {post : α → Process σ → Prop} : Ends (pure a : Uses σ α) post w ↔ post a w :=
  ends_given rfl

@[simp] theorem ends_bind {m : Uses σ α} {k : α → Uses σ β} {post : β → Process σ → Prop} :
    Ends (m >>= k) post w ↔ Ends m (fun a => Ends (k a) post) w := by
  constructor
  · rintro ⟨b,w'',ran,final⟩
    obtain ⟨⟨a,w'⟩,first,next⟩ := Option.bind_eq_some_iff.mp ran
    exact ⟨a,w',first,b,w'',next,final⟩
  · rintro ⟨a,w',first,b,w'',next,final⟩
    exact ⟨b,w'',Option.bind_eq_some_iff.mpr ⟨(a,w'),first,next⟩,final⟩

theorem Ends.mono {m : Uses σ α} {post post' : α → Process σ → Prop} (known : Ends m post w)
    (weaker : ∀ a w', post a w' → post' a w') : Ends m post' w := by
  obtain ⟨a,w',ran,final⟩ := known
  exact ⟨a,w',ran,weaker a w' final⟩

theorem ends_ite {c : Prop} [Decidable c] {m n : Uses σ α} {post : α → Process σ → Prop}
    (yes : c → Ends m post w) (no : ¬ c → Ends n post w) : Ends (if c then m else n) post w := by
  split_ifs with holds
  · exact yes holds
  · exact no holds

@[simp] theorem ends_session {post : σ → Process σ → Prop} : Ends session post w ↔ post w.session w := ends_given rfl

@[simp] theorem ends_update {f : σ → σ} {post : Unit → Process σ → Prop} :
    Ends (update f) post w ↔ post () {w with session := f w.session} :=
  ends_given rfl

@[simp] theorem ends_touch {d : Int} {post : Unit → Process σ → Prop} : Ends (touch d) post w ↔ d ∈ w.live ∧ post () w := by
  by_cases there : d ∈ w.live
  · rw [ends_given (if_pos there),and_iff_right there]
  · simp [Ends,touch,there]

@[simp] theorem ends_release {d : Int} {post : Unit → Process σ → Prop} :
    Ends (release d) post w ↔ d ∈ w.live ∧ post () {w with live := w.live.erase d} := by
  by_cases there : d ∈ w.live
  · rw [ends_given (if_pos there),and_iff_right there]
  · simp [Ends,release,there]

/-- Either there is no descriptor, or a new one. -/
theorem ends_acquire {kernel : Kernel} {post : Int → Process σ → Prop}
    (none : kernel.pick w.opens w.live = -1 → post (-1) {w with opens := w.opens + 1})
    (some : ∀ d, kernel.pick w.opens w.live = d → 0 ≤ d → d ∉ w.live →
      post d {w with live := insert d w.live,opens := w.opens + 1}) :
    Ends (acquire kernel) post w := by
  refine ⟨kernel.pick w.opens w.live,_,rfl,?_⟩
  rcases kernel.fresh w.opens w.live with failed | ⟨there,new⟩
  · simpa only [failed,if_true] using none failed
  · have given : kernel.pick w.opens w.live ≠ -1 := by omega
    simpa only [if_neg given] using some _ rfl there new

variable {γ : Type}

def step (exec : γ → Uses σ α) (w : Process σ) (call : γ) : Option (Process σ) := (exec call w).map Prod.snd

theorem ends_step {exec : γ → Uses σ α} {w t : Process σ} {call : γ} (taken : step exec w call = some t) :
    Ends (exec call) (fun _ w' => w' = t) w := by
  obtain ⟨⟨a,w'⟩,ran,rfl⟩ := Option.map_eq_some_iff.mp taken
  exact ⟨a,w',ran,rfl⟩

theorem step_ends {exec : γ → Uses σ α} {w t : Process σ} {call : γ} {post : α → Process σ → Prop}
    (known : Ends (exec call) post w) (taken : step exec w call = some t) : ∃ a, post a t := by
  obtain ⟨a,w',ran,final⟩ := known
  rw [step,ran] at taken
  obtain rfl := Option.some.inj taken
  exact ⟨a,final⟩

/-- Calls that keep an invariant where they are allowed have a result each, and keep it in any order. -/
theorem run_ends {exec : γ → Uses σ α} (inv : Process σ → Prop) (allowed : Process σ → γ → Prop)
    (each : ∀ call w, inv w → allowed w call → Ends (exec call) (fun _ => inv) w) (w : Process σ) (calls : List γ)
    (start : inv w) (meets : Runs.Meets (step exec) allowed w calls) :
    ∃ w', Runs.run (step exec) w calls = some w' ∧ inv w' := by
  induction calls generalizing w with
  | nil => exact ⟨w,rfl,start⟩
  | cons call calls ih =>
    obtain ⟨here,later⟩ := meets
    obtain ⟨a,next,ran,kept⟩ := each call w start here
    have enabled : step exec w call = some next := by
      rw [step,ran]
      rfl
    obtain ⟨w',reached,final⟩ := ih next kept (later next enabled)
    exact ⟨w',(Runs.run_cons w next call calls enabled).trans reached,final⟩

def own (fd : Int) : Finset Int := if 0 ≤ fd then {fd} else ∅

@[simp] theorem own_none : own (-1) = ∅ := rfl

theorem own_open {fd : Int} (there : 0 ≤ fd) : own fd = {fd} := if_pos there

theorem own_empty (fd : Int) : own fd = ∅ ↔ fd < 0 := by
  by_cases there : 0 ≤ fd
  · rw [own_open there]
    exact iff_of_false (Finset.singleton_ne_empty fd) (not_lt.mpr there)
  · exact iff_of_true (if_neg there) (not_le.mp there)

theorem own_erase (fd : Int) : (own fd).erase fd = ∅ := by
  by_cases there : 0 ≤ fd
  · rw [own_open there,Finset.erase_singleton]
  · rw [(own_empty fd).mpr (not_le.mp there),Finset.erase_empty]

theorem insert_own {fd d : Int} (there : 0 ≤ d) (new : d ∉ own fd) : insert d (own fd) = own d ↔ fd < 0 := by
  rw [← own_empty fd,own_open there]
  constructor
  · intro same
    rw [← Finset.erase_insert new,same,Finset.erase_singleton]
  · intro none
    rw [none]
    rfl

/-- A session is closed, or the kernel has its descriptor open. -/
structure Owns (fd : Int) (live : Finset Int) : Prop where
  closed : fd < 0 → fd = -1
  inside : 0 ≤ fd → fd ∈ live
  none : (-1 : Int) ∉ live

section
variable {fd d : Int} {live : Finset Int}

theorem owns_start : Owns (-1) ∅ := ⟨fun _ => rfl,fun there => absurd there (by decide),Finset.notMem_empty _⟩

theorem owns_closed (none : (-1 : Int) ∉ live) : Owns (-1) live :=
  ⟨fun _ => rfl,fun there => absurd there (by decide),none⟩

theorem owns_open (owns : Owns fd live) (there : 0 ≤ d) : Owns d (insert d live) := by
  refine ⟨fun below => absurd there (not_le.mpr below),fun _ => Finset.mem_insert_self d live,?_⟩
  rw [Finset.mem_insert,not_or]
  exact ⟨by omega,owns.none⟩

theorem owns_more (owns : Owns fd live) (there : 0 ≤ d) : Owns fd (insert d live) :=
  ⟨owns.closed,fun open' => Finset.mem_insert_of_mem (owns.inside open'),(owns_open owns there).none⟩

theorem owns_close (owns : Owns fd live) : Owns (-1) (live.erase fd) :=
  owns_closed fun inside => owns.none (Finset.mem_of_mem_erase inside)

theorem owns_negative (owns : Owns fd live) : fd < 0 ↔ fd = -1 :=
  ⟨owns.closed,fun closed => closed ▸ by decide⟩

theorem owns_there (owns : Owns fd live) (open' : fd ≠ -1) : 0 ≤ fd :=
  not_lt.mp fun below => open' (owns.closed below)

theorem owns_apart (owns : Owns fd live) (inside : d ∈ live) : d ≠ -1 := by
  rintro rfl
  exact owns.none inside

/-- With its own taken away nothing is left just when there was nothing else. -/
theorem owns_tight (owns : Owns fd live) : live.erase fd = ∅ ↔ live = own fd := by
  by_cases there : 0 ≤ fd
  · rw [own_open there]
    constructor
    · intro none
      rw [← Finset.insert_erase (owns.inside there),none]
      rfl
    · intro alone
      rw [alone,Finset.erase_singleton]
  · have closed := owns.closed (not_le.mp there)
    rw [Finset.erase_eq_of_notMem (closed ▸ owns.none),(own_empty fd).mpr (not_le.mp there)]

/-- Closing a closed session erases nothing. -/
theorem owns_erase (owns : Owns fd live) (closed : fd = -1) : live.erase fd = live :=
  Finset.erase_eq_of_notMem (closed ▸ owns.none)

end

end

end Descriptors
