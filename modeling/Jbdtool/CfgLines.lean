import Jbdtool.Cfg
import Mathlib.Data.List.Basic

/-! What cfg_read sees of a file: its lines, without the blanks around them. -/
namespace Jbdtool.Cfg
open CString

def printable (c : UInt8) : Bool := 32 ≤ c && c ≤ 126

def strip (line : Bytes) : Bytes := (line.dropWhile isspace).rdropWhile isspace

section
variable {size : Nat} {raw line tail rest : Bytes}

private theorem readFrom_append (ascii : ∀ c ∈ raw, c < 128) (single : 10 ∉ raw) (some : line ≠ [])
    (fits : line.length + raw.length ≤ size - 1) : readFrom size (raw ++ tail) line = readFrom size tail (line ++ raw) := by
  induction raw generalizing line with
  | nil => rw [List.append_nil,List.nil_append]
  | cons c raw ih =>
    obtain ⟨here,later⟩ := List.forall_mem_cons.mp ascii
    obtain ⟨other,others⟩ : 10 ≠ c ∧ 10 ∉ raw := by simpa using single
    rw [List.length_cons] at fits
    have room : line.length < size - 1 := by omega
    rw [List.cons_append,readFrom,if_neg (UInt8.not_le.mpr here),if_neg (Ne.symm other),if_pos some,if_pos room,
      ih later others (by simp) (by simp; omega),List.append_assoc,List.singleton_append]

private theorem readFrom_start (ascii : ∀ c ∈ raw, c < 128) (single : 10 ∉ raw) (fits : raw.length ≤ size - 1) :
    readFrom size (raw ++ tail) [] = readFrom size tail (raw.dropWhile isspace) := by
  induction raw with
  | nil => rfl
  | cons c raw ih =>
    obtain ⟨here,later⟩ := List.forall_mem_cons.mp ascii
    obtain ⟨other,others⟩ : 10 ≠ c ∧ 10 ∉ raw := by simpa using single
    rw [List.length_cons] at fits
    rw [List.cons_append,readFrom,if_neg (UInt8.not_le.mpr here),if_neg (Ne.symm other),if_neg (not_not.mpr rfl)]
    by_cases blank : isspace c = true
    · rw [if_pos blank,ih later others (by omega),List.dropWhile_cons_of_pos blank]
    · rw [if_neg blank,readFrom_append later others (List.cons_ne_nil c []) (by simp; omega),
        List.dropWhile_cons_of_neg blank,List.singleton_append]

theorem printable_ascii {c : UInt8} (text : printable c = true) : c < 128 ∧ c ≠ 10 ∧ c ≠ 0 := by
  obtain ⟨low,high⟩ : 32 ≤ c ∧ c ≤ 126 := by simpa [printable] using text
  rw [UInt8.le_iff_toNat_le] at low high
  refine ⟨UInt8.lt_iff_toNat_lt.mpr (high.trans_lt (by decide)),?_,?_⟩
  · rintro rfl
    exact absurd low (by decide)
  · rintro rfl
    exact absurd low (by decide)

theorem printable_toupper (c : UInt8) : printable (toupper c) = printable c :=
  forall_byte (fun c => printable (toupper c) = printable c) (by decide +kernel) c

theorem strip_sublist (line : Bytes) : (strip line).Sublist line :=
  (List.rdropWhile_prefix isspace _).sublist.trans (List.dropWhile_suffix isspace).sublist

theorem readline_some (size : Nat) (rest : Bytes) : readline size (some rest) =
    some (((readFrom size rest []).1.rdropWhile isspace).takeWhile (· ≠ 0),(readFrom size rest []).2) :=
  rfl

private theorem readline_line (text : ∀ c ∈ raw, printable c) (fits : raw.length ≤ 1021) :
    readline 1022 (some (raw ++ 10::rest)) = some (strip raw,some rest) ∧
    readline 1022 (some raw) = some (strip raw,none) := by
  have ascii : ∀ c ∈ raw, c < 128 := fun c inside => (printable_ascii (text c inside)).1
  have single : 10 ∉ raw := fun inside => (printable_ascii (text 10 inside)).2.1 rfl
  have whole : (strip raw).takeWhile (· ≠ 0) = strip raw := by
    refine List.takeWhile_eq_self_iff.mpr fun c inside => ?_
    simpa using (printable_ascii (text c ((strip_sublist raw).subset inside))).2.2
  constructor
  · have read := @readFrom_start 1022 raw (10::rest) ascii single fits
    have stops : readFrom 1022 (10::rest) (raw.dropWhile isspace) = (raw.dropWhile isspace,some rest) := by
      rw [readFrom,if_neg (by decide),if_pos rfl]
    rw [readline_some,read,stops]
    exact congrArg (fun l => some (l,some rest)) whole
  · have read := @readFrom_start 1022 raw [] ascii single fits
    rw [List.append_nil] at read
    rw [readline_some,read]
    exact congrArg (fun l => some (l,none)) whole

theorem mem_splitOn (newline : UInt8) (file line : Bytes) (part : line ∈ file.splitOn newline) :
    ∀ c ∈ line, c ∈ file ∧ c ≠ newline := by
  induction file generalizing line with
  | nil => rw [List.mem_singleton.mp part]; exact nofun
  | cons d file ih =>
    rw [List.splitOn_cons_eq_if_modifyHead] at part
    obtain ⟨first,others,split⟩ := List.exists_cons_of_ne_nil (List.splitOn_ne_nil newline file)
    rw [split] at part ih
    intro c inside
    by_cases same : d = newline
    · rw [if_pos (by simpa using same)] at part
      rcases List.mem_cons.mp part with rfl | part
      · cases inside
      · exact (ih line part c inside).imp_left (List.mem_cons_of_mem d)
    · rw [if_neg (by simpa using same)] at part
      rcases List.mem_cons.mp part with rfl | part
      · rcases List.mem_cons.mp inside with rfl | inside
        · exact ⟨List.mem_cons_self,same⟩
        · exact (ih first List.mem_cons_self c inside).imp_left (List.mem_cons_of_mem d)
      · exact (ih line (List.mem_cons_of_mem _ part) c inside).imp_left (List.mem_cons_of_mem d)

private theorem readAll_lines (n : Nat) (file : Bytes) (enough : file.length + 1 < n) (r : Reader)
    (text : ∀ c ∈ file, c = 10 ∨ printable c) (short : ∀ line ∈ file.splitOn 10, line.length ≤ 1021) :
    readAll n (some file) r = ((file.splitOn 10).map strip).foldlM processLine r := by
  induction n generalizing file r with
  | zero => omega
  | succ n ih =>
    have clean (raw : Bytes) (part : raw ⊆ file) (single : 10 ∉ raw) : ∀ c ∈ raw, printable c := fun c inside =>
      (text c (part inside)).resolve_left fun newline => single (newline ▸ inside)
    by_cases more : 10 ∈ file
    · obtain ⟨raw,rest,rfl,single⟩ := List.eq_append_cons_of_mem more
      have split : (raw ++ 10::rest).splitOn 10 = raw::rest.splitOn 10 :=
        List.splitOn_append_cons_self_of_not_mem single rest
      rw [split] at short ⊢
      have read := (@readline_line raw rest (clean raw (by simp) single) (short raw List.mem_cons_self)).1
      rw [readAll,read,List.map_cons,List.foldlM_cons]
      refine bind_congr fun r => ?_
      refine ih rest (by simp at enough; omega) r (fun c inside => text c (by simp [inside])) fun line inside => ?_
      exact short line (List.mem_cons_of_mem _ inside)
    · have split : file.splitOn 10 = [file] := List.splitOn_eq_singleton more
      rw [split] at short ⊢
      have read := (@readline_line file [] (clean file (List.Subset.refl _) more) (short file List.mem_cons_self)).2
      obtain ⟨n,rfl⟩ : ∃ k, n = k + 1 := ⟨n - 1,by omega⟩
      rw [readAll,read,List.map_cons,List.foldlM_cons]
      rfl

theorem cfgRead_lines (file : Bytes) (text : ∀ c ∈ file, c = 10 ∨ printable c)
    (short : ∀ line ∈ file.splitOn 10, line.length ≤ 1021) :
    cfgRead file = (((file.splitOn 10).map strip).foldlM processLine ⟨[],none,[]⟩).map fun r => ⟨r.sections⟩ := by
  unfold cfgRead
  rw [readAll_lines _ file (by omega) _ text short]
  exact Option.map_eq_bind.symm

end

end Jbdtool.Cfg
