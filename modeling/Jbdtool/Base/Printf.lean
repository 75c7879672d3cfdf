import Jbdtool.Base.CString
import Jbdtool.Base.Numbers
import Mathlib.Data.Int.Log

/-! The printf conversions beyond `%d`: unsigned, hexadecimal, padded, `%.nf` and
`%1.17g` of an exactly known value. -/
namespace CString
open Numbers

/-- `%u` of a 32-bit int. -/
def showUnsigned (n : Int) : Bytes := showNat (n % 4294967296).toNat

def padLeft (width : Nat) (fill : UInt8) (s : Bytes) : Bytes := List.replicate (width - s.length) fill ++ s

/-- `%-25s` and the like. -/
def padRight (width : Nat) (s : Bytes) : Bytes := s ++ List.replicate (width - s.length) 32

/-- `%04d` of a number that is not negative. -/
def showPadded (width n : Nat) : Bytes := padLeft width 48 (showNat n)

/-- `%04x` -/
def showHex (width n : Nat) : Bytes :=
  padLeft width 48 ((Nat.toDigits 16 n).map (fun c => c.toNat.toUInt8))

/-- `%.nf` with `digits` places. -/
def showFixed (digits : Nat) (q : ℚ) : Bytes :=
  let n := (roundHalfEven (|q| * 10^digits)).toNat
  let fraction := if digits = 0 then [] else 46::showPadded digits (n % 10^digits)
  (if q < 0 then [45] else []) ++ showNat (n / 10^digits) ++ fraction

def stripZeros (s : Bytes) : Bytes := (s.reverse.dropWhile (· == 48)).reverse

/-- Digits after a point, without a point when none are left. -/
def showFraction (s : Bytes) : Bytes := if stripZeros s = [] then [] else 46::stripZeros s

/-- `%1.17g`. A whole number of at most 17 digits is printed as such. -/
def showG17 (q : ℚ) : Bytes :=
  if q.den = 1 ∧ q.num.natAbs < 10^17 then showInt q.num else
  let x := Int.log 10 |q|
  let n := (roundHalfEven (|q| / 10^(x - 16))).toNat
  let (n,x) := if n = 10^17 then (10^16,x + 1) else (n,x)
  let digits := showNat n
  let sign : Bytes := if q < 0 then [45] else []
  if x < -4 ∨ 17 ≤ x then
    sign ++ digits.take 1 ++ showFraction (digits.drop 1) ++
      [101,if x < 0 then 45 else 43] ++ showPadded 2 x.natAbs
  else if x < 0 then
    sign ++ [48] ++ showFraction (List.replicate (x.natAbs - 1) 48 ++ digits)
  else sign ++ digits.take (x.toNat + 1) ++ showFraction (digits.drop (x.toNat + 1))

theorem showG17_int (n : Int) (small : n.natAbs < 10^17) : showG17 n = showInt n := by
  unfold showG17
  exact if_pos ⟨rfl,small⟩

end CString
