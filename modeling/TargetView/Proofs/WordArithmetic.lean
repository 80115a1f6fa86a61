import Mathlib.Algebra.Order.Ring.Int
import Mathlib.Data.Int.Bitwise
import Mathlib.Tactic.Ring
import TargetView.Scalar.Arithmetic

/-! # Arithmetic modulo `2 ^ 64`

What the operators on 64-bit integers mean for the integers that these stand
for (`Word.Gives`): sums, differences, products and quotients are exact and then
reduced to the signed range, bitwise operators act on the bits of the two's
complement, and a shift multiplies or divides by the power of two of its count,
however large the count is (`Word.toInt_shiftLeft` and the two lemmas behind it).
-/
namespace TargetView.Word

/-- What an operator gives for two integers, with results modulo `2 ^ 64` where
the exact ones do not fit.  A negative count reverses the direction of a shift. -/
def Gives (op : BinaryOp) (a b r : Int) : Prop :=
  match op with
  | .mul => r = (a * b).bmod (2 ^ 64)
  | .div => r = (a.tdiv b).bmod (2 ^ 64)
  | .mod => r = (a.tmod b).bmod (2 ^ 64)
  | .add => r = (a + b).bmod (2 ^ 64)
  | .sub => r = (a - b).bmod (2 ^ 64)
  | .shl => r = if 0 ≤ b then (a * 2 ^ b.natAbs).bmod (2 ^ 64) else a.fdiv (2 ^ b.natAbs)
  | .shr => r = if 0 ≤ b then a.fdiv (2 ^ b.natAbs) else (a * 2 ^ b.natAbs).bmod (2 ^ 64)
  | .ushr => r = if 0 ≤ b then ((a % 2 ^ 64).fdiv (2 ^ b.natAbs)).bmod (2 ^ 64)
      else (a * 2 ^ b.natAbs).bmod (2 ^ 64)
  | .bitAnd => ∀ i, r.testBit i = (a.testBit i && b.testBit i)
  | .bitXor => ∀ i, r.testBit i = (a.testBit i ^^ b.testBit i)
  | .bitOr => ∀ i, r.testBit i = (a.testBit i || b.testBit i)
  | .lt | .le | .gt | .ge | .eq | .ne | .and | .or => False

/-! ## Bits -/

/-- The bits of an integer are those of its word, and the sign bit behind them. -/
theorem testBit_toInt {w : Nat} (x : BitVec w) (i : Nat) :
    x.toInt.testBit i = if i < w then x.getLsbD i else x.msb := by
  have hlt := x.isLt
  rw [BitVec.toInt_eq_msb_cond]
  by_cases hmsb : x.msb = true
  · have hneg : (x.toNat : Int) - ((2 ^ w : Nat) : Int) =
        Int.negSucc (2 ^ w - (x.toNat + 1)) := by
      rw [Int.negSucc_eq]
      omega
    rw [if_pos hmsb, hneg, hmsb]
    show (!(2 ^ w - (x.toNat + 1)).testBit i) = _
    rw [Nat.testBit_two_pow_sub_succ hlt, BitVec.testBit_toNat]
    by_cases hi : i < w <;> simp [hi]
  · rw [if_neg hmsb, Bool.eq_false_iff.mpr hmsb]
    show x.toNat.testBit i = _
    rw [BitVec.testBit_toNat]
    by_cases hi : i < w
    · rw [if_pos hi]
    · rw [if_neg hi, BitVec.getLsbD_of_ge x i (Nat.le_of_not_lt hi)]

section Bitwise

variable (a b : Int64) (i : Nat)

theorem testBit_and :
    (a &&& b).toInt.testBit i = (a.toInt.testBit i && b.toInt.testBit i) := by
  simp only [← Int64.toInt_toBitVec, Int64.toBitVec_and, testBit_toInt]
  split
  · exact BitVec.getLsbD_and
  · exact BitVec.msb_and

theorem testBit_or :
    (a ||| b).toInt.testBit i = (a.toInt.testBit i || b.toInt.testBit i) := by
  simp only [← Int64.toInt_toBitVec, Int64.toBitVec_or, testBit_toInt]
  split
  · exact BitVec.getLsbD_or
  · exact BitVec.msb_or

theorem testBit_xor :
    (a ^^^ b).toInt.testBit i = (a.toInt.testBit i ^^ b.toInt.testBit i) := by
  simp only [← Int64.toInt_toBitVec, Int64.toBitVec_xor, testBit_toInt]
  split
  · exact BitVec.getLsbD_xor
  · exact BitVec.msb_xor

end Bitwise

/-! ## Moving bits -/

/-- A count below 64 is taken as it is. -/
theorem smod_ofNat {n : Nat} (h : n < 64) :
    ((Int64.ofNat n).toBitVec.smod 64).toNat = n := by
  have hall : ∀ m : Fin 64, ((Int64.ofNat m).toBitVec.smod 64).toNat = m := by decide
  exact hall ⟨n, h⟩

/-- A word stands for an integer of 64 bits. -/
theorem toNat_toUInt64 (a : Int64) : (a.toUInt64.toNat : Int) = a.toInt % 2 ^ 64 := by
  rw [← Int64.toNat_toBitVec, ← Int64.toInt_toBitVec, BitVec.toInt_eq_toNat_bmod]
  have hlt := a.toBitVec.isLt
  have hmod := Int.bmod_emod (x := (a.toBitVec.toNat : Int)) (m := 2 ^ 64)
  omega

/-- The power of two of a count that moves all bits out. -/
theorem two_pow_dvd {n : Nat} (h : 64 ≤ n) : (2 ^ 64 : Int) ∣ 2 ^ n :=
  pow_dvd_pow 2 h

theorem two_pow_64_le {n : Nat} (h : 64 ≤ n) : (2 ^ 64 : Int) ≤ 2 ^ n :=
  pow_le_pow_right₀ (by decide) h

theorem toInt_up (a : Int64) (n : Nat) : (up a n).toInt = (a.toInt * 2 ^ n).bmod (2 ^ 64) := by
  unfold up
  by_cases h : n < 64
  · rw [if_pos h, ← Int64.toInt_toBitVec, Int64.toBitVec_shiftLeft, BitVec.shiftLeft_eq',
      smod_ofNat h, BitVec.toInt_shiftLeft, ← Int64.toInt_toBitVec a,
      BitVec.toInt_eq_toNat_bmod a.toBitVec, Int.bmod_mul_bmod, Nat.shiftLeft_eq]
    push_cast
    rfl
  · -- Every bit is moved out: the product is a multiple of the modulus.
    rw [if_neg h, Int.bmod_eq_zero_of_dvd]
    · rfl
    · exact Dvd.dvd.mul_left (two_pow_dvd (Nat.le_of_not_lt h)) _

theorem toInt_down (a : Int64) (n : Nat) : (down a n).toInt = a.toInt.fdiv (2 ^ n) := by
  have hpos : (0 : Int) < 2 ^ n := Int.pow_pos (by decide)
  rw [Int.fdiv_eq_ediv_of_nonneg _ hpos.le]
  unfold down
  by_cases h : n < 64
  · rw [if_pos h, ← Int64.toInt_toBitVec, Int64.toBitVec_shiftRight, BitVec.sshiftRight_eq',
      smod_ofNat h, BitVec.toInt_sshiftRight, Int64.toInt_toBitVec, Int.shiftRight_eq_div_pow]
    push_cast
    rfl
  · -- The divisor exceeds the integer, so the sign alone is left.
    have hlo := a.le_toInt
    have hhi := a.toInt_lt
    have hpow := two_pow_64_le (Nat.le_of_not_lt h)
    rw [if_neg h]
    by_cases hneg : a < 0
    · have hsign : a.toInt < 0 := Int64.lt_iff_toInt_lt.mp hneg
      have hquot : a.toInt / 2 ^ n = -1 ∧ a.toInt % 2 ^ n = a.toInt + 2 ^ n :=
        (Int.ediv_emod_unique hpos).mpr ⟨by ring, by omega, by omega⟩
      rw [if_pos hneg, hquot.1]
      rfl
    · have hsign : 0 ≤ a.toInt := Int64.le_iff_toInt_le.mp (Int64.not_lt.mp hneg)
      rw [if_neg hneg, Int.ediv_eq_zero_of_lt hsign (by omega)]
      rfl

theorem toInt_downUnsigned (a : Int64) (n : Nat) :
    (downUnsigned a n).toInt = ((a.toInt % 2 ^ 64).fdiv (2 ^ n)).bmod (2 ^ 64) := by
  have hpos : (0 : Int) < 2 ^ n := Int.pow_pos (by decide)
  rw [Int.fdiv_eq_ediv_of_nonneg _ hpos.le, ← toNat_toUInt64]
  unfold downUnsigned
  by_cases h : n < 64
  · have hcount : (UInt64.ofNat n).toNat = n :=
      UInt64.toNat_ofNat_of_lt' (Nat.lt_trans h (by decide))
    rw [if_pos h, ← Int64.toInt_toBitVec, UInt64.toBitVec_toInt64, BitVec.toInt_eq_toNat_bmod,
      UInt64.toNat_toBitVec, UInt64.toNat_shiftRight, hcount, Nat.mod_eq_of_lt h,
      Nat.shiftRight_eq_div_pow]
    push_cast
    rfl
  · have hlt := a.toUInt64.toNat_lt
    have hpow := two_pow_64_le (Nat.le_of_not_lt h)
    rw [if_neg h, Int.ediv_eq_zero_of_lt (by omega) (by omega)]
    rfl

/-! ## Shifts by any count -/

/-- The sign of the count decides. -/
theorem ite_count_lt_zero {α : Type} (count : Int64) (x y : α) :
    (if count < 0 then x else y) = if 0 ≤ count.toInt then y else x := by
  have hsign : count < 0 ↔ ¬0 ≤ count.toInt := by
    rw [Int64.lt_iff_toInt_lt, Int.not_le]
    rfl
  by_cases h : count < 0
  · rw [if_pos h, if_neg (hsign.mp h)]
  · rw [if_neg h, if_pos (not_not.mp (mt hsign.mpr h))]

section Shifts

variable (a count : Int64)

theorem toInt_shiftLeft : (shiftLeft a count).toInt =
    if 0 ≤ count.toInt then (a.toInt * 2 ^ count.toInt.natAbs).bmod (2 ^ 64)
    else a.toInt.fdiv (2 ^ count.toInt.natAbs) := by
  rw [shiftLeft, ite_count_lt_zero, apply_ite Int64.toInt, toInt_up, toInt_down, distance]

theorem toInt_shiftRight : (shiftRight a count).toInt =
    if 0 ≤ count.toInt then a.toInt.fdiv (2 ^ count.toInt.natAbs)
    else (a.toInt * 2 ^ count.toInt.natAbs).bmod (2 ^ 64) := by
  rw [shiftRight, ite_count_lt_zero, apply_ite Int64.toInt, toInt_up, toInt_down, distance]

theorem toInt_shiftRightUnsigned : (shiftRightUnsigned a count).toInt =
    if 0 ≤ count.toInt then ((a.toInt % 2 ^ 64).fdiv (2 ^ count.toInt.natAbs)).bmod (2 ^ 64)
    else (a.toInt * 2 ^ count.toInt.natAbs).bmod (2 ^ 64) := by
  rw [shiftRightUnsigned, ite_count_lt_zero, apply_ite Int64.toInt, toInt_up, toInt_downUnsigned,
    distance]

end Shifts

/-! ## All operators -/

/-- Whether an operator divides. -/
def Divides (op : BinaryOp) : Prop := op = .div ∨ op = .mod

/-- A division by zero fails. -/
theorem binary_zero {op : BinaryOp} (h : Divides op) (a : Int64) :
    ∃ fault, binary op a 0 = .error fault := by
  rcases h with rfl | rfl
  · exact ⟨.divisionByZero, rfl⟩
  · exact ⟨.moduloByZero, rfl⟩

/-- Every other operation gives what it should. -/
theorem binary_gives {op : BinaryOp} (hop : op.isAssignable = true) (a b : Int64)
    (h : ¬(Divides op ∧ b = 0)) :
    ∃ r, binary op a b = .ok r ∧ Gives op a.toInt b.toInt r.toInt := by
  cases op with
  | mul => exact ⟨a * b, rfl, Int64.toInt_mul a b⟩
  | div =>
    have hb : b ≠ 0 := fun hb => h ⟨.inl rfl, hb⟩
    exact ⟨a / b, if_neg hb, Int64.toInt_div a b⟩
  | mod =>
    have hb : b ≠ 0 := fun hb => h ⟨.inr rfl, hb⟩
    refine ⟨a % b, if_neg hb, ?_⟩
    -- A remainder fits as it is.
    show (a % b).toInt = _
    rw [← Int64.toInt_mod]
    exact (Int64.toInt_bmod _).symm
  | add => exact ⟨a + b, rfl, Int64.toInt_add a b⟩
  | sub => exact ⟨a - b, rfl, Int64.toInt_sub a b⟩
  | shl => exact ⟨shiftLeft a b, rfl, toInt_shiftLeft a b⟩
  | shr => exact ⟨shiftRight a b, rfl, toInt_shiftRight a b⟩
  | ushr => exact ⟨shiftRightUnsigned a b, rfl, toInt_shiftRightUnsigned a b⟩
  | bitAnd => exact ⟨a &&& b, rfl, testBit_and a b⟩
  | bitXor => exact ⟨a ^^^ b, rfl, testBit_xor a b⟩
  | bitOr => exact ⟨a ||| b, rfl, testBit_or a b⟩
  | lt | le | gt | ge | eq | ne | and | or => cases hop

end TargetView.Word

namespace TargetView.Scalar

/-- Arithmetic between two 64-bit integers is that of their words. -/
theorem binary_int {op : BinaryOp} (hop : op.isAssignable = true) (a b : Int64) :
    binary op (.int a) (.int b) = (Word.binary op a b).map .int := by
  cases op with
  | lt | le | gt | ge | eq | ne | and | or => cases hop
  | _ => rfl

/-- **Arithmetic on 64-bit integers is arithmetic modulo `2 ^ 64`.**  It fails for
a division by zero and for nothing else; the least integer is divided by minus
one, and shifted by any count. -/
theorem integer_arithmetic (op : BinaryOp) (hop : op.isAssignable = true) (a b : Int64) :
    (Word.Divides op ∧ b = 0 → ∃ fault, binary op (.int a) (.int b) = .error fault) ∧
    (¬(Word.Divides op ∧ b = 0) → ∃ r, binary op (.int a) (.int b) = .ok (.int r) ∧
      Word.Gives op a.toInt b.toInt r.toInt) := by
  rw [binary_int hop]
  constructor
  · rintro ⟨hdiv, rfl⟩
    obtain ⟨fault, hfault⟩ := Word.binary_zero hdiv a
    exact ⟨fault, by rw [hfault]; rfl⟩
  · intro h
    obtain ⟨r, hr, hgives⟩ := Word.binary_gives hop a b h
    exact ⟨r, by rw [hr]; rfl, hgives⟩

/-- The quotient that does not fit. -/
theorem integer_arithmetic_least : BinaryOp.isAssignable .div = true ∧
    ¬(Word.Divides .div ∧ (-1 : Int64) = 0) ∧
    ∃ r, binary .div (.int Int64.minValue) (.int (-1)) = .ok (.int r) ∧
      Word.Gives .div Int64.minValue.toInt (-1) r.toInt :=
  have hne : ¬(Word.Divides .div ∧ (-1 : Int64) = 0) := fun h => absurd h.2 (by decide)
  ⟨rfl, hne, (integer_arithmetic .div rfl Int64.minValue (-1)).2 hne⟩

end TargetView.Scalar
