import Jbdtool.Balance
import Jbdtool.Base.Extremes
import Mathlib.Algebra.BigOperators.Group.Finset.Basic
import Mathlib.Algebra.Order.BigOperators.Group.Finset
import Mathlib.Tactic.IntervalCases

/-! The cell statistics of a status: one scan over the cell voltages that starts from the
fixed voltages 4.2 and 0. -/
namespace Jbdtool
open CString Numbers Extremes
variable {τ : Type}

/-- The same surroundings with floats that are never rounded. -/
def Host.exact (host : Host τ) : Host τ := {host with single := id,double := id}

namespace JbdInfo

def cells (info : JbdInfo) : Set ℚ := info.cellvolt '' Set.Iio info.strings

/-- Least, greatest, sum, spread and mean of the cell voltages. -/
structure CellsRight (info : JbdInfo) : Prop where
  least : IsLeast info.cells info.cellMin
  greatest : IsGreatest info.cells info.cellMax
  total : info.cellTotal = ∑ i ∈ Finset.range info.strings, info.cellvolt i
  diff : info.cellDiff = info.cellMax - info.cellMin ∧ 0 ≤ info.cellDiff
  avg : ∃ mean, info.cellAvg = some mean ∧ mean = info.cellTotal / info.strings ∧
    info.cellMin ≤ mean ∧ mean ≤ info.cellMax

/-- The statistics are those of the cells, and without a cell nothing is divided by zero. -/
structure StatsRight (info : JbdInfo) : Prop where
  cells : 1 ≤ info.strings → info.CellsRight
  none : info.strings = 0 → info.cellAvg ≠ none

end JbdInfo

theorem scanCells_value (host : Host τ) (cellvolt : Mem ℚ) (count i : Nat) (stats : CellStats) (w : World τ) :
    (scanCells host cellvolt count i stats w).value = (Mem.slice cellvolt i count).foldl (CellStats.add host) stats := by
  induction count generalizing i stats with
  | zero => rfl
  | succ count ih => rw [scanCells,emitTouch_bind,Outcome.after_value,ih,Mem.slice_succ,List.foldl_cons]

def withStats (host : Host τ) (status : Program τ (Int × JbdInfo)) : Program τ (Int × JbdInfo) := do
  let r ← status
  if r.1 ≠ 0 then return r
  let stats ← scanCells host r.2.cellvolt r.2.strings 0 ⟨host.single (42 / 10),0,0⟩
  return (0,r.2.setStats host stats)

theorem jbdGetInfo_withStats (host : Host τ) (info : JbdInfo) : jbdGetInfo host info =
    withStats host (if host.can then jbdCanGetInfo host info else jbdStdGetInfo host info) := by
  unfold jbdGetInfo
  split_ifs <;> rfl

private theorem jbdGetInfo_scan (host : Host τ) (info : JbdInfo) (w : World τ) (read : (jbdGetInfo host info w).value.1 = 0) :
    ∃ base : JbdInfo, (jbdGetInfo host info w).value.2 = base.setStats host
      ((Mem.slice base.cellvolt 0 base.strings).foldl (CellStats.add host) ⟨host.single (42 / 10),0,0⟩) := by
  rw [jbdGetInfo_withStats] at read ⊢
  generalize (if host.can then jbdCanGetInfo host info else jbdStdGetInfo host info) = status at read ⊢
  unfold withStats at read ⊢
  simp only [Traced.bind_run status,Outcome.after_value,Traced.ite_run] at read ⊢
  split_ifs at read ⊢ with failed
  · exact (failed read).elim
  · refine ⟨(status w).value.2,?_⟩
    rw [Traced.bind_run,Outcome.after_value,scanCells_value]
    rfl

section
variable (host : Host τ) (list : List ℚ) (start : CellStats)

private theorem scan_least : (list.foldl (CellStats.add host) start).least =
    list.foldl (fun m v => if v < m then v else m) start.least :=
  (List.foldl_hom CellStats.least (fun _ _ => rfl)).symm

private theorem scan_greatest : (list.foldl (CellStats.add host) start).greatest =
    list.foldl (fun m v => if v > m then v else m) start.greatest :=
  (List.foldl_hom CellStats.greatest (fun _ _ => rfl)).symm

private theorem scan_total : (list.foldl (CellStats.add host.exact) start).total = start.total + list.sum := by
  induction list generalizing start with
  | nil => simp
  | cons v list ih =>
    rw [List.foldl_cons,ih,List.sum_cons,← add_assoc]
    rfl

end

private theorem mem_slice (mem : Mem ℚ) (n : Nat) : {v | v ∈ Mem.slice mem 0 n} = mem '' Set.Iio n := by
  ext v
  simp [Mem.slice]

private theorem mean_between {n : Nat} (some : 1 ≤ n) (values : Nat → ℚ) {least greatest : ℚ}
    (lower : IsLeast (values '' Set.Iio n) least) (upper : IsGreatest (values '' Set.Iio n) greatest) :
    least ≤ (∑ i ∈ Finset.range n, values i) / n ∧ (∑ i ∈ Finset.range n, values i) / n ≤ greatest := by
  have positive : (0 : ℚ) < n := by exact_mod_cast some
  have inside (i : Nat) (below : i ∈ Finset.range n) : values i ∈ values '' Set.Iio n := ⟨i,Finset.mem_range.mp below,rfl⟩
  constructor
  · rw [le_div_iff₀ positive]
    have sum := Finset.card_nsmul_le_sum (Finset.range n) values least fun i below => lower.2 (inside i below)
    simpa [mul_comm] using sum
  · rw [div_le_iff₀ positive]
    have sum := Finset.sum_le_card_nsmul (Finset.range n) values greatest fun i below => upper.2 (inside i below)
    simpa [mul_comm] using sum

private theorem sum_slice (values : Mem ℚ) (n : Nat) : (Mem.slice values 0 n).sum = ∑ i ∈ Finset.range n, values i := by
  induction n with
  | zero => rfl
  | succ n ih =>
    have last : Mem.slice values n 1 = [values n] := rfl
    rw [Mem.slice_append,List.sum_append,ih,Nat.zero_add,last,List.sum_singleton,Finset.sum_range_succ]

private theorem setStats_right_iff (host : Host τ) (base : JbdInfo) (stats : CellStats)
    (least : IsLeast (insert (42 / 10) base.cells) stats.least) (greatest : IsGreatest (insert 0 base.cells) stats.greatest)
    (total : stats.total = ∑ i ∈ Finset.range base.strings, base.cellvolt i) (positive : ∀ v ∈ base.cells, 0 ≤ v) :
    (base.setStats host.exact stats).StatsRight ↔ ∃ v ∈ base.cells, v ≤ 42 / 10 := by
  constructor
  · rintro ⟨cells,none⟩
    have some : 1 ≤ base.strings := by
      by_contra zero
      have empty : base.strings = 0 := by omega
      exact none empty (if_pos empty)
    exact (isLeast_insert_iff least).mp (cells some).least
  · rintro ⟨v,inside,below⟩
    have lower := (isLeast_insert_iff least).mpr ⟨v,inside,below⟩
    have upper := (isGreatest_insert_iff greatest).mpr ⟨v,inside,positive v inside⟩
    have some : 1 ≤ base.strings := by
      obtain ⟨i,under,-⟩ := inside
      exact Nat.one_le_iff_ne_zero.mpr (Nat.ne_zero_of_lt under)
    have between := mean_between some base.cellvolt lower upper
    rw [← total] at between
    refine ⟨fun _ => ⟨lower,upper,total,⟨rfl,sub_nonneg.mpr (lower.2 upper.1)⟩,stats.total / base.strings,?_,rfl,between⟩,fun zero => ?_⟩
    · exact if_neg (by omega)
    · change base.strings = 0 at zero
      omega

/-- The statistics of a status are right exactly where a cell is at 4.2 V or below. -/
theorem jbdGetInfo_stats_iff (host : Host τ) (info : JbdInfo) (w : World τ)
    (read : (jbdGetInfo host.exact info w).value.1 = 0)
    (cells : ∀ v ∈ (jbdGetInfo host.exact info w).value.2.cells, 0 ≤ v) :
    (jbdGetInfo host.exact info w).value.2.StatsRight ↔
      ∃ v ∈ (jbdGetInfo host.exact info w).value.2.cells, v ≤ 42 / 10 := by
  obtain ⟨base,scan⟩ := jbdGetInfo_scan host.exact info w read
  have same : ((jbdGetInfo host.exact info w).value.2).cells = base.cells := by
    rw [scan]
    rfl
  rw [same] at cells ⊢
  rw [scan]
  apply setStats_right_iff host base _ _ _ _ cells
  · rw [scan_least,JbdInfo.cells,← mem_slice]
    exact foldl_least _ _
  · rw [scan_greatest,JbdInfo.cells,← mem_slice]
    exact foldl_greatest _ _
  · rw [scan_total,zero_add,sum_slice]

private theorem counted_fits (count : UInt8) : (frame jbdCmdHwinfo 0 (List.replicate 21 0 ++ [count,0])).length ≤ 256 := by
  simp [frame_length]

private theorem volts_fit (volts : Bytes) (fits : volts.length ≤ 64) : (frame jbdCmdCellinfo 0 volts).length ≤ 256 := by
  rw [frame_length]
  omega

def cellsStatus (count : UInt8) (volts : Bytes) (fits : volts.length ≤ 64) : Nat → ReadResult 256
  | 0 => .bytes (frame jbdCmdHwinfo 0 (List.replicate 21 0 ++ [count,0])) (counted_fits count)
  | 1 => .bytes (frame jbdCmdCellinfo 0 volts) (volts_fit volts fits)
  | 2 => .bytes (frame jbdCmdHwver 0 []) hwver_fits
  | _ => .error

def cellsHost (count : UInt8) (volts : Bytes) (fits : volts.length ≤ 64) : Host Nat :=
  scripted (cellsStatus count volts fits) (fun _ _ => 0) (fun _ _ => 0)

def cellsInfo (count : UInt8) (volts : Bytes) (fits : volts.length ≤ 64) : Int × JbdInfo :=
  (jbdGetInfo (cellsHost count volts fits).exact .zero (World.start 0)).value

theorem jbdGetInfo_stats_two : (cellsInfo 2 [0x0C,0xE4,0x10,0xCC] (by decide)).2.StatsRight := by
  have strings : (cellsInfo 2 [0x0C,0xE4,0x10,0xCC] (by decide)).2.strings = 2 := by decide +kernel
  have read : (cellsInfo 2 [0x0C,0xE4,0x10,0xCC] (by decide)).1 = 0 := by decide +kernel
  have low : (cellsInfo 2 [0x0C,0xE4,0x10,0xCC] (by decide)).2.cellvolt 0 ≤ 42 / 10 := by decide +kernel
  have positive : ∀ v ∈ (cellsInfo 2 [0x0C,0xE4,0x10,0xCC] (by decide)).2.cells, 0 ≤ v := by
    rintro v ⟨i,below,rfl⟩
    have few : i < 2 := strings ▸ below
    interval_cases i <;> decide +kernel
  have first : (0 : Nat) ∈ Set.Iio (cellsInfo 2 [0x0C,0xE4,0x10,0xCC] (by decide)).2.strings := strings ▸ Nat.zero_lt_two
  unfold cellsInfo at *
  exact (jbdGetInfo_stats_iff _ _ _ read positive).mpr ⟨_,⟨0,first,rfl⟩,low⟩

/-- The least of one cell at 4.25 V comes out as 4.2 V; and without a cell the mean is divided by zero. -/
theorem jbdGetInfo_stats_overcharged :
    ((cellsInfo 1 [0x10,0x9A] (by decide)).1 = 0 ∧ (cellsInfo 1 [0x10,0x9A] (by decide)).2.cells = {17 / 4} ∧
      ¬ (cellsInfo 1 [0x10,0x9A] (by decide)).2.StatsRight) ∧
    ((cellsInfo 0 [] (by decide)).1 = 0 ∧ ¬ (cellsInfo 0 [] (by decide)).2.StatsRight) := by
  have strings : (cellsInfo 1 [0x10,0x9A] (by decide)).2.strings = 1 := by decide +kernel
  have volts : (cellsInfo 1 [0x10,0x9A] (by decide)).2.cellvolt 0 = 17 / 4 := by decide +kernel
  have cells : (cellsInfo 1 [0x10,0x9A] (by decide)).2.cells = {17 / 4} := by
    have only : Set.Iio 1 = ({0} : Set Nat) := by ext i; simp
    rw [JbdInfo.cells,strings,only,Set.image_singleton,volts]
  refine ⟨⟨by decide +kernel,cells,fun right => ?_⟩,by decide +kernel,fun right => ?_⟩
  · have least := (right.cells strings.ge).least.1
    have minimum : (cellsInfo 1 [0x10,0x9A] (by decide)).2.cellMin = 42 / 10 := by decide +kernel
    rw [cells,minimum,Set.mem_singleton_iff] at least
    norm_num at least
  · exact right.none (by decide +kernel) (by decide +kernel)

end Jbdtool
