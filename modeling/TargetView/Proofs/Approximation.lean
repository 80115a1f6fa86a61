import TargetView.Proofs.Rounding

/-! # Integers as numbers

A 64-bit integer becomes a number that is an integer again, and no number lies
between the two (`decode_ofInt`).  So comparing the rounded integer with a number
is as good as comparing the integer itself, unless the rounded integer is that
number (`order_ofInt`): rounding may make an integer equal to a number, but it
never takes it past one.
-/
namespace TargetView.Binary64

open Float.Model Float.Model.UnpackedFloat

/-! ## Numbers without a fraction -/

namespace Parts

/-- A number with a negative exponent is a fraction. -/
theorem magnitude_eq_div {d : Parts} {k : Nat} (he : d.exponent = -(k : Int)) :
    d.magnitude = d.significand / 2 ^ k := by
  rw [magnitude, he, zpow_neg, zpow_natCast, div_eq_mul_inv]

theorem magnitude_eq_mul {d : Parts} {k : Nat} (he : d.exponent = k) :
    d.magnitude = (d.significand * 2 ^ k : Nat) := by
  rw [magnitude, he, zpow_natCast]
  push_cast
  rfl

/-- What is left of the magnitude without its fraction. -/
theorem magnitude_of_isIntegral {d : Parts} (h : d.isIntegral = true) :
    d.magnitude = d.floorMagnitude := by
  unfold isIntegral at h
  unfold floorMagnitude
  by_cases he : 0 ≤ d.exponent
  · obtain ⟨k, hk⟩ := Int.eq_ofNat_of_zero_le he
    rw [if_pos he, magnitude_eq_mul hk, hk, Int.toNat_natCast, Nat.shiftLeft_eq]
  · obtain ⟨k, hk⟩ := Int.exists_eq_neg_ofNat (Int.le_of_not_le he)
    have hdvd : 2 ^ k ∣ d.significand := by
      rw [hk, Int.neg_neg, Int.toNat_natCast, Nat.one_shiftLeft] at h
      simpa [← hk, he, Nat.dvd_iff_mod_eq_zero] using h
    rw [if_neg he, magnitude_eq_div hk, hk, Int.neg_neg, Int.toNat_natCast,
      Nat.shiftRight_eq_div_pow, Nat.cast_div hdvd (by positivity)]
    push_cast
    rfl

theorem value_of_isIntegral {d : Parts} (h : d.isIntegral = true) : d.value = d.truncate := by
  unfold value truncate
  rw [magnitude_of_isIntegral h]
  split
  · push_cast
    rfl
  · rfl

/-- A number with a fraction is no integer. -/
theorem value_ne_of_not_isIntegral {d : Parts} (h : ¬d.isIntegral = true) (w : Int) :
    d.value ≠ w := by
  intro hw
  have habs : d.magnitude = (w.natAbs : Nat) := by
    rw [← abs_value, hw, Nat.cast_natAbs, Int.cast_abs]
  apply h
  unfold isIntegral
  by_cases he : 0 ≤ d.exponent
  · simp [he]
  · obtain ⟨k, hk⟩ := Int.exists_eq_neg_ofNat (Int.le_of_not_le he)
    rw [magnitude_eq_div hk, div_eq_iff (by positivity)] at habs
    have hs : d.significand = w.natAbs * 2 ^ k := by exact_mod_cast habs
    rw [hk, hs, Int.neg_neg, Int.toNat_natCast, Nat.one_shiftLeft, Nat.mul_mod_left]
    simp

end Parts

/-! ## Integers next to numbers -/

/-- The parts stand for an integer, and no number lies between it and `n`. -/
structure Approximates (d : Parts) (n : Int) : Prop where
  integral : ∃ w : Int, d.value = w
  below : ∀ p : Parts, p.Canonical → p.value ≤ n → p.value ≤ d.value
  above : ∀ p : Parts, p.Canonical → n ≤ p.value → d.value ≤ p.value

namespace Approximates

/-- With the sign of both changed. -/
theorem opposite {d : Parts} {n : Int} (h : Approximates d n) :
    Approximates d.opposite (-n) where
  integral := by
    obtain ⟨w, hw⟩ := h.integral
    exact ⟨-w, by rw [Parts.value_opposite, hw, Int.cast_neg]⟩
  below p hp hle := by
    have habove := h.above p.opposite hp.opposite
    rw [Parts.value_opposite] at habove ⊢
    push_cast at hle
    linarith [habove (by linarith)]
  above p hp hle := by
    have hbelow := h.below p.opposite hp.opposite
    rw [Parts.value_opposite] at hbelow ⊢
    push_cast at hle
    linarith [hbelow (by linarith)]

/-- A positive integer is approximated by what is near to it. -/
theorem of_near {q n : Nat} {e : Int} (hn : 0 < n) (h : Near n (q * 2 ^ e))
    (hw : ∃ w : Nat, (q * 2 ^ e : ℚ) = w) : Approximates ⟨false, q, e⟩ n where
  integral := by
    obtain ⟨w, hw⟩ := hw
    exact ⟨w, hw⟩
  below p hp hle := by
    have hpos : (0 : ℚ) ≤ (⟨false, q, e⟩ : Parts).value := Parts.magnitude_nonneg _
    unfold Parts.value at hle ⊢
    split at hle
    · next hneg =>
      rw [if_pos hneg]
      exact (neg_nonpos.mpr p.magnitude_nonneg).trans hpos
    · next hneg =>
      rw [if_neg hneg]
      exact (h p hp).1 (by exact_mod_cast hle)
  above p hp hle := by
    have hn : (0 : ℚ) < n := by exact_mod_cast hn
    unfold Parts.value at hle ⊢
    split at hle
    · -- A negative number is not above the integer.
      have := p.magnitude_nonneg
      push_cast at hle
      linarith
    · next hneg =>
      rw [if_neg hneg]
      exact (h p hp).2 (by exact_mod_cast hle)

/-- A number is on the same side of both, or equal to the rounded one. -/
theorem compare_eq {d p : Parts} {n : Int} (h : Approximates d n) (hp : p.Canonical)
    (hne : d.value ≠ p.value) : compare d.value p.value = compare (n : ℚ) p.value := by
  rcases lt_or_gt_of_ne hne with hlt | hgt
  · have hn : (n : ℚ) < p.value := by
      by_contra hle
      exact absurd (h.below p hp (not_lt.mp hle)) hlt.not_ge
    rw [compare_lt_iff_lt.mpr hlt, compare_lt_iff_lt.mpr hn]
  · have hn : p.value < (n : ℚ) := by
      by_contra hle
      exact absurd (h.above p hp (not_lt.mp hle)) hgt.not_ge
    rw [compare_gt_iff_gt.mpr hgt, compare_gt_iff_gt.mpr hn]

end Approximates

/-! ## Conversion -/

/-- What is near to an integer below `2 ^ 64`, which is a number, is no larger. -/
theorem exponent_le_of_near {q n : Nat} {e : Int} (hn : n < 2 ^ 64) (hq : 2 ^ 52 ≤ q)
    (hnear : Near n (q * 2 ^ e)) : e ≤ 12 := by
  have hcanonical : (⟨false, 2 ^ 52, 12⟩ : Parts).Canonical :=
    ⟨by decide, .inl le_rfl, by decide⟩
  have hpower : (⟨false, 2 ^ 52, 12⟩ : Parts).magnitude = 2 ^ 52 * 2 ^ (12 : Int) := by
    rw [Parts.magnitude]
    push_cast
    rfl
  have hmost : (q : ℚ) * 2 ^ e ≤ 2 ^ 52 * 2 ^ (12 : Int) := by
    rw [← hpower]
    apply (hnear _ hcanonical).2
    rw [hpower]
    have hn : (n : ℚ) ≤ 2 ^ 64 := by exact_mod_cast hn.le
    norm_num at hn ⊢
    exact hn
  by_contra hgt
  have hpow : (2 : ℚ) ^ (12 : Int) < 2 ^ e := zpow_lt_zpow_right₀ one_lt_two (by omega)
  have hq : (2 : ℚ) ^ 52 ≤ q := by exact_mod_cast hq
  have hlarge : (2 : ℚ) ^ 52 * 2 ^ (12 : Int) < q * 2 ^ e :=
    mul_lt_mul' hq hpow (by positivity) (by positivity)
  exact absurd hmost hlarge.not_ge

/-- A significand that is filled up stands for the integer. -/
theorem filled_value {n : Nat} (hlog : n.log2 < 53) :
    ((n * 2 ^ (52 - n.log2) : Nat) : ℚ) * 2 ^ ((n.log2 : Int) - 52) = n := by
  have hexp : ((52 - n.log2 : Nat) : Int) + ((n.log2 : Int) - 52) = 0 := by omega
  rw [Nat.cast_mul, Nat.cast_pow, Nat.cast_ofNat, mul_assoc, ← zpow_natCast,
    ← zpow_add₀ two_ne_zero, hexp, zpow_zero, mul_one]

/-- A positive 64-bit integer becomes a number near to it. -/
theorem exists_filled_ofNat {n : Nat} (hn : n ≠ 0) (h : n < 2 ^ 64) :
    ∃ (q : Nat) (e : Int) (hf : Filled q e),
      (ofNat n).toModel.unpack = hf.number .positive ∧ Near n (q * 2 ^ e) ∧
      ∃ w : Nat, (q * 2 ^ e : ℚ) = w := by
  by_cases hlt : n < 2 ^ 53
  · have hvalue := filled_value ((Nat.log2_lt hn).mpr hlt)
    refine ⟨_, _, filled_of_lt hn hlt, ?_, ?_, n, hvalue⟩
    · rw [ofNat_eq hn hlt]
      exact (filled_of_lt hn hlt).unpack_pack .positive
    · rw [hvalue]
      exact near_self n
  · have hle : 2 ^ 53 ≤ n := Nat.le_of_not_lt hlt
    have hlog : 53 ≤ n.log2 := (Nat.le_log2 hn).mpr hle
    obtain ⟨q, e, hq, hq52, he, hnear, hunpacked⟩ := unpacked_ofScientific (by omega : 52 ≤ n.log2)
    have hfull : 2 ^ 52 ≤ q := ((Nat.log2_eq_iff hq.ne').mp hq52).1
    have hgreat := exponent_le_of_near h hfull hnear
    have hfilled : Filled q e := ⟨hq52, by omega, by omega⟩
    refine ⟨q, e, hfilled, ?_, hnear, q * 2 ^ e.toNat, ?_⟩
    · rw [toModel_ofNat hle, hunpacked]
      exact hfilled.unpack_pack .positive
    · obtain ⟨k, rfl⟩ := Int.eq_ofNat_of_zero_le (by omega : 0 ≤ e)
      rw [Int.toNat_natCast, zpow_natCast]
      push_cast
      rfl

/-- **A 64-bit integer becomes a number next to it.** -/
theorem decode_ofInt {n : Int} (h : n.natAbs < 2 ^ 64) :
    ∃ d, decode (ofInt n) = .finite d ∧ Approximates d n := by
  cases n with
  | ofNat m =>
    rcases Nat.eq_zero_or_pos m with rfl | hm
    · have hzero : decode (ofInt 0) = .finite ⟨false, 0, -1074⟩ := by decide +kernel
      refine ⟨_, hzero, ⟨0, ?_⟩, ?_, ?_⟩
      all_goals rw [Parts.value_zero]
      · rfl
      · exact fun p _ hp => by exact_mod_cast hp
      · exact fun p _ hp => by exact_mod_cast hp
    · obtain ⟨q, e, hf, hunpack, hnear, hw⟩ := exists_filled_ofNat hm.ne' h
      refine ⟨⟨false, q, e⟩, ?_, .of_near hm hnear hw⟩
      rw [decode_eq]
      show reading (ofNat m).toModel.unpack = _
      rw [hunpack]
      rfl
  | negSucc m =>
    obtain ⟨q, e, hf, hunpack, hnear, hw⟩ := exists_filled_ofNat (Nat.succ_ne_zero m) h
    have hneg : (ofInt (.negSucc m)).toModel.unpack = hf.number .negative := by
      have hmodel : (ofInt (.negSucc m)).toModel =
          Float.Model.pack (UnpackedFloat.neg (ofNat (m + 1)).toModel.unpack) := rfl
      rw [hmodel, hunpack]
      exact hf.unpack_pack .negative
    refine ⟨⟨true, q, e⟩, ?_, (Approximates.of_near m.succ_pos hnear hw).opposite⟩
    rw [decode_eq, hneg]
    rfl

/-- **Rounding never takes an integer past a number.**  The rounded integer equals
the number, or it is on the side of the number where the integer is. -/
theorem order_ofInt {n : Int} (h : n.natAbs < 2 ^ 64) {y : Float} {d : Parts}
    (hy : decode y = .finite d) :
    order (ofInt n) y =
      some (if (ofInt n == y) = true then .eq else compare (n : ℚ) d.value) := by
  obtain ⟨w, hw, happrox⟩ := decode_ofInt h
  have horder := order_of_finite hw hy
  have hiff : (ofInt n == y) = true ↔ w.value = d.value := by
    rw [← order_eq_some_eq_iff, horder, Option.some_inj, compare_eq_iff_eq]
  by_cases heq : (ofInt n == y) = true
  · rw [if_pos heq]
    exact (order_eq_some_eq_iff _ _).mpr heq
  · rw [if_neg heq, horder, happrox.compare_eq (canonical_of_decode hy) (mt hiff.mpr heq)]

/-- A rounded integer has no fraction. -/
theorem ofInt_ne_of_not_isIntegral {n : Int} (h : n.natAbs < 2 ^ 64) {y : Float} {d : Parts}
    (hy : decode y = .finite d) (hd : ¬d.isIntegral = true) : ¬(ofInt n == y) = true := by
  obtain ⟨w, hw, happrox⟩ := decode_ofInt h
  obtain ⟨m, hm⟩ := happrox.integral
  rw [← order_eq_some_eq_iff, order_of_finite hw hy, Option.some_inj, compare_eq_iff_eq, hm]
  exact (Parts.value_ne_of_not_isIntegral hd m).symm

theorem not_isNaN_ofInt {n : Int} (h : n.natAbs < 2 ^ 64) : (ofInt n).isNaN = false := by
  obtain ⟨w, hw, -⟩ := decode_ofInt h
  exact not_isNaN_of_decode hw

end TargetView.Binary64
