import TargetView.Proofs.NumberOrder

/-! # Integers that are rounded

An integer of more than 53 bits keeps the first 53 of them, and perhaps one is
added to these.  It stays in its binade then, or becomes the first number of the
next one, and no number lies between it and the one that it becomes
(`unpacked_ofScientific`).  So a power of two that an integer reaches is
reached by the number it is rounded to, and an integer that is held exactly is
never taken for a larger one (`two_pow_64_le_ofNat`, `not_two_pow_64_le_ofNat`).
-/
namespace TargetView.Binary64

open Float.Model Float.Model.UnpackedFloat

variable {m n : Nat} {e : Int}

/-! ## Numbers around a rational number -/

/-- A number in normal form is a multiple of a power of two, or it is less than
every number whose last bit has that weight. -/
theorem Parts.Canonical.grid {d : Parts} (h : d.Canonical) (j : Int) :
    (∃ t : Nat, d.magnitude = t * 2 ^ j) ∨ d.magnitude < 2 ^ 52 * 2 ^ j := by
  by_cases hj : j ≤ d.exponent
  · left
    refine ⟨d.significand * 2 ^ (d.exponent - j).toNat, ?_⟩
    have hexp : ((d.exponent - j).toNat : Int) + j = d.exponent := by omega
    rw [Parts.magnitude, Nat.cast_mul, Nat.cast_pow, mul_assoc, Nat.cast_ofNat, ← zpow_natCast,
      ← zpow_add₀ two_ne_zero, hexp]
  · exact .inr (h.magnitude_lt (Int.not_le.mp hj))

/-- No number lies between `x` and `w`, and none equals `x` but `w`. -/
def Near (x w : ℚ) : Prop :=
  ∀ d : Parts, d.Canonical →
    (d.magnitude ≤ x → d.magnitude ≤ w) ∧ (x ≤ d.magnitude → w ≤ d.magnitude)

theorem near_self (x : ℚ) : Near x x := fun _ _ => ⟨id, id⟩

/-- One of the two multiples around a rational number is near to it, if their
significands are filled. -/
theorem near_of_multiple {x w : ℚ} {t : Nat} {j : Int} (ht : 2 ^ 52 ≤ t)
    (hlo : t * 2 ^ j ≤ x) (hhi : x < (t + 1) * 2 ^ j)
    (hw : w = t * 2 ^ j ∨ t * 2 ^ j < x ∧ w = (t + 1) * 2 ^ j) : Near x w := by
  have hpow : (0 : ℚ) < 2 ^ j := by positivity
  have hfull : (2 : ℚ) ^ 52 * 2 ^ j ≤ t * 2 ^ j :=
    mul_le_mul_of_nonneg_right (by exact_mod_cast ht) hpow.le
  have hlow : t * 2 ^ j ≤ w := by
    rcases hw with rfl | ⟨-, rfl⟩
    · exact le_rfl
    · exact mul_le_mul_of_nonneg_right (le_add_of_nonneg_right zero_le_one) hpow.le
  intro d hd
  rcases hd.grid j with ⟨s, hs⟩ | hsmall
  · rw [hs]
    constructor
    · intro h
      have hst : (s : ℚ) < t + 1 := lt_of_mul_lt_mul_right (h.trans_lt hhi) hpow.le
      have hst : s ≤ t := Nat.lt_succ_iff.mp (by exact_mod_cast hst)
      exact (mul_le_mul_of_nonneg_right (by exact_mod_cast hst) hpow.le).trans hlow
    · intro h
      rcases hw with rfl | ⟨hlt, rfl⟩
      · exact hlo.trans h
      · have hts : (t : ℚ) < s := lt_of_mul_lt_mul_right (hlt.trans_le h) hpow.le
        have hts : t + 1 ≤ s := by exact_mod_cast hts
        exact mul_le_mul_of_nonneg_right (by exact_mod_cast hts) hpow.le
  · -- A number below the grid is below both.
    have hbelow : d.magnitude < t * 2 ^ j := hsmall.trans_le hfull
    exact ⟨fun _ => hbelow.le.trans hlow, fun h => absurd (hlo.trans h) hbelow.not_ge⟩

/-! ## Rounding a significand -/

/-- Shifting a significand drops its last bits. -/
theorem mantissa_shiftRight (em : ExtendedMantissa) (k : Nat) :
    (em >>> k).mantissa = em.mantissa / 2 ^ k := by
  change (k.repeat ExtendedMantissa.shiftRightOne em).mantissa = _
  induction k with
  | zero => simp [Nat.repeat]
  | succ k ih =>
    rw [Nat.repeat, ExtendedMantissa.shiftRightOne, ih, Nat.div_div_eq_div_mul, Nat.pow_succ]

/-- Rounding adds one at most. -/
theorem roundedMantissa_eq (em : ExtendedMantissa) :
    em.roundedMantissa = em.mantissa ∨ em.roundedMantissa = em.mantissa + 1 := by
  obtain ⟨m, round, sticky⟩ := em
  cases round <;> cases sticky
  · exact .inl rfl
  · exact .inl rfl
  · show m + m % 2 = m ∨ m + m % 2 = m + 1
    omega
  · exact .inr rfl

/-- Rounding adds one only where bits are lost. -/
theorem roundedMantissa_shiftRight (m k : Nat) :
    ((⟨m, false, false⟩ : ExtendedMantissa) >>> k).roundedMantissa = m / 2 ^ k ∨
      m / 2 ^ k * 2 ^ k < m ∧
        ((⟨m, false, false⟩ : ExtendedMantissa) >>> k).roundedMantissa = m / 2 ^ k + 1 := by
  have hmantissa : ((⟨m, false, false⟩ : ExtendedMantissa) >>> k).mantissa = m / 2 ^ k :=
    mantissa_shiftRight _ k
  have hrounded := roundedMantissa_eq ((⟨m, false, false⟩ : ExtendedMantissa) >>> k)
  rw [hmantissa] at hrounded
  by_cases hexact : m / 2 ^ k * 2 ^ k = m
  · left
    conv_lhs => rw [← hexact, shiftRight_exact]
    rfl
  · have hle := Nat.div_mul_le_self m (2 ^ k)
    exact hrounded.imp_right fun h => ⟨by omega, h⟩

/-- What a significand is shifted to keeps 53 bits, if the exponent allows it. -/
theorem shiftToTargetExponent_of_log2 {k : Nat} (hlog : m.log2 = 52 + k) (he : -1074 ≤ e + k) :
    shiftToTargetExponent Format.binary64 m e .exact =
      ((⟨m, false, false⟩ : ExtendedMantissa) >>> k, e + k) := by
  have hbits : Format.binary64.mantissaBits = 53 := rfl
  have hmin : Format.binary64.minExponent = -1074 := by decide
  have htarget : Format.binary64.targetExponent (totalExponent m e) = e + k := by
    rw [Format.targetExponent, totalExponent, hbits, hmin, hlog]
    omega
  have hshift : (e + k - e).toNat = k := by omega
  rw [UnpackedFloat.shiftToTargetExponent, htarget, shiftToExponent, hshift]
  rfl

/-- The first bits of a number fill a significand. -/
theorem log2_div_two_pow {k : Nat} (hlog : m.log2 = 52 + k) :
    2 ^ 52 ≤ m / 2 ^ k ∧ m / 2 ^ k < 2 ^ 53 := by
  have hm : m ≠ 0 := by
    rintro rfl
    rw [Nat.log2_zero] at hlog
    omega
  obtain ⟨hlo, hhi⟩ := (Nat.log2_eq_iff hm).mp hlog
  have hlast : 52 + k + 1 = 53 + k := by omega
  rw [Nat.pow_add] at hlo
  rw [hlast, Nat.pow_add] at hhi
  exact ⟨(Nat.le_div_iff_mul_le (Nat.two_pow_pos k)).mpr hlo,
    (Nat.div_lt_iff_lt_mul (Nat.two_pow_pos k)).mpr hhi⟩

/-- A rounded significand is near to what it was. -/
theorem near_roundedMantissa {k : Nat} (hlog : m.log2 = 52 + k) (e : Int) :
    Near (m * 2 ^ e)
      (((⟨m, false, false⟩ : ExtendedMantissa) >>> k).roundedMantissa * 2 ^ (e + k)) := by
  have hpow : (0 : ℚ) < 2 ^ e := by positivity
  have hscale (t : ℚ) : t * 2 ^ (e + k) = t * 2 ^ k * 2 ^ e := by
    rw [zpow_add₀ two_ne_zero, zpow_natCast, mul_comm (2 ^ e), mul_assoc]
  have hle : m / 2 ^ k * 2 ^ k ≤ m := Nat.div_mul_le_self m (2 ^ k)
  have hlt : m < (m / 2 ^ k + 1) * 2 ^ k := Nat.lt_mul_of_div_lt (Nat.lt_succ_self _) (by positivity)
  refine near_of_multiple (j := e + k) (log2_div_two_pow hlog).1 ?_ ?_ ?_
  · rw [hscale]
    exact mul_le_mul_of_nonneg_right (by exact_mod_cast hle) hpow.le
  · rw [hscale]
    exact mul_lt_mul_of_pos_right (by exact_mod_cast hlt) hpow
  · refine (roundedMantissa_shiftRight m k).imp (fun h => by rw [h]) ?_
    rintro ⟨hlost, h⟩
    rw [h, hscale]
    exact ⟨mul_lt_mul_of_pos_right (by exact_mod_cast hlost) hpow, by push_cast; rfl⟩

/-- A significand with more than 53 bits is rounded to 53, in its binade or in the
next one, and no number lies between it and the rounded one. -/
theorem roundWithAccuracy_of_log2 {k : Nat} (hlog : m.log2 = 52 + k) (he : -1074 ≤ e + k) :
    ∃ (q : Nat) (e' : Int) (hq : 0 < q), q.log2 = 52 ∧ e + k ≤ e' ∧
      Near (m * 2 ^ e) (q * 2 ^ e') ∧
      roundWithAccuracy Format.binary64 .positive m e .exact = .finite .positive q e' hq := by
  obtain ⟨hlo, hhi⟩ := log2_div_two_pow hlog
  have hnear := near_roundedMantissa hlog e
  have hrounded := roundedMantissa_shiftRight m k
  unfold UnpackedFloat.roundWithAccuracy
  rw [shiftToTargetExponent_of_log2 hlog he]
  dsimp only
  generalize ((⟨m, false, false⟩ : ExtendedMantissa) >>> k).roundedMantissa = r at hrounded hnear
  have hr : r ≠ 0 := by omega
  by_cases hcarry : r = 2 ^ 53
  · -- The carry makes room for one more bit.
    have hlast : r.log2 = 52 + 1 := by
      rw [hcarry]
      exact Nat.log2_two_pow
    have hhalf : ((⟨r, false, false⟩ : ExtendedMantissa) >>> 1).mantissa = 2 ^ 52 := by
      rw [mantissa_shiftRight, hcarry]
      rfl
    have hne : ((⟨r, false, false⟩ : ExtendedMantissa) >>> 1).mantissa ≠ 0 := by
      rw [hhalf]
      decide
    have hvalue : ((2 ^ 52 : Nat) : ℚ) * 2 ^ (e + k + (1 : Nat)) = r * 2 ^ (e + k) := by
      rw [hcarry, zpow_add₀ two_ne_zero (e + k)]
      push_cast
      ring
    rw [shiftToTargetExponent_of_log2 hlast (by omega)]
    refine ⟨_, _, Nat.pos_of_ne_zero hne, ?_, ?_, ?_, dif_neg hne⟩
    · rw [hhalf]
      exact Nat.log2_two_pow
    · omega
    · rw [hhalf, hvalue]
      exact hnear
  · have hlast : r.log2 = 52 + 0 := (Nat.log2_eq_iff hr).mpr (by omega)
    have hsame : e + k + (0 : Nat) = e + k := Int.add_zero _
    rw [shiftToTargetExponent_of_log2 hlast (by omega)]
    refine ⟨r, _, Nat.pos_of_ne_zero hr, hlast, by omega, ?_, dif_neg hr⟩
    rw [hsame]
    exact hnear

/-- An integer of more than 53 bits becomes a number of its binade or of the next
one, and no number lies between the two. -/
theorem unpacked_ofScientific (h : 52 ≤ n.log2) :
    ∃ (q : Nat) (e : Int) (hq : 0 < q), q.log2 = 52 ∧ (n.log2 : Int) - 52 ≤ e ∧
      Near n (q * 2 ^ e) ∧
      UnpackedFloat.ofScientific Format.binary64 n 0 = .finite .positive q e hq := by
  have hn : n ≠ 0 := by
    rintro rfl
    rw [Nat.log2_zero] at h
    omega
  have hbits : Format.binary64.mantissaBits = 53 := rfl
  have hlog : (n <<< 53 * 10 ^ Int.toNat 0).log2 = 52 + (n.log2 + 1) := by
    rw [Int.toNat_zero, Nat.pow_zero, Nat.mul_one, Nat.shiftLeft_eq, log2_mul_two_pow hn]
    omega
  have hvalue : ((n <<< 53 * 10 ^ Int.toNat 0 : Nat) : ℚ) * 2 ^ (-53 : Int) = n := by
    have hone : ((2 ^ 53 : Nat) : ℚ) * 2 ^ (-53 : Int) = 1 := by norm_num
    rw [Int.toNat_zero, Nat.pow_zero, Nat.mul_one, Nat.shiftLeft_eq, Nat.cast_mul, mul_assoc,
      hone, mul_one]
  obtain ⟨q, e, hq, hq52, he, hnear, hround⟩ :=
    roundWithAccuracy_of_log2 (e := -53) hlog (by omega)
  rw [hvalue] at hnear
  refine ⟨q, e, hq, hq52, by omega, hnear, ?_⟩
  have hgreat : ¬ (0 : Int) > 2 ^ Format.binary64.exponentBits := by decide
  have hsmall : ¬ (0 : Int) < -((2 ^ Format.binary64.exponentBits : Int) + n.log2) := by
    have hpow : (2 ^ Format.binary64.exponentBits : Int) = 2048 := rfl
    omega
  rw [UnpackedFloat.ofScientific, dif_neg hn, if_neg hgreat, if_neg hsmall, if_pos (by decide)]
  exact hround

/-! ## Comparing with a power of two -/

theorem le_iff (x y : Float) :
    x ≤ y ↔ UnpackedFloat.le x.toModel.unpack y.toModel.unpack = true := by
  show decide (x.toModel ≤ y.toModel) = true ↔ _
  rw [decide_eq_true_iff]
  exact Iff.rfl

theorem unpack_two_pow_64 : (18446744073709551616 : Float).toModel.unpack =
    .finite .positive (2 ^ 52) 12 (by decide) := by
  rfl

/-- A number beyond the greatest exponent is infinite. -/
theorem unpack_pack_infinite (hm : 0 < m) (he : 971 < e) :
    (Float.Model.pack (.finite .positive m e hm)).unpack = .infinity .positive := by
  have hrange : 2 ^ 11 ≤ (e + (1023 : Nat) + (52 : Nat)).toNat + 1 := by omega
  have hpack : UnpackedFloat.pack Format.binary64 (.finite .positive m e hm) =
      packedInfinity Format.binary64 .positive :=
    if_pos hrange
  show UnpackedFloat.unpack Format.binary64 (UnpackedFloat.pack Format.binary64 _) = _
  rw [hpack]
  rfl

theorem le_finite_iff (hm : 0 < m) : UnpackedFloat.le (.finite .positive (2 ^ 52) 12 (by decide))
    (.finite .positive m e hm) = true ↔ 12 < e ∨ 12 = e ∧ 2 ^ 52 ≤ m := by
  show ((compare 12 e).then (compare (2 ^ 52) m)).isLE = true ↔ _
  rw [Ordering.isLE_then_iff_or, Int.compare_eq_lt, Int.compare_eq_eq, Nat.isLE_compare]

theorem toModel_ofNat (h : 2 ^ 53 ≤ n) :
    (ofNat n).toModel = Float.Model.pack (UnpackedFloat.ofScientific Format.binary64 n 0) := by
  unfold ofNat Float.ofNat
  simp only [OfScientific.ofScientific]
  unfold Float.ofScientific
  rw [dif_neg (by omega)]
  rfl

/-- **An integer of 65 bits or more is not rounded below `2 ^ 64`.** -/
theorem two_pow_64_le_ofNat (h : 2 ^ 64 ≤ n) : 18446744073709551616 ≤ ofNat n := by
  have hlog : 64 ≤ n.log2 := (Nat.le_log2 (by omega)).mpr h
  obtain ⟨q, e, hq, hq52, he, -, hunpacked⟩ := unpacked_ofScientific (Nat.le_trans (by decide) hlog)
  rw [le_iff, unpack_two_pow_64, toModel_ofNat (Nat.le_trans (by decide) h), hunpacked]
  by_cases hgreat : e ≤ 971
  · have hfilled : Filled q e := ⟨hq52, by omega, hgreat⟩
    have hlow := hfilled.bounds.1
    rw [hfilled.unpack_pack .positive, le_finite_iff]
    omega
  · rw [unpack_pack_infinite hq (Int.not_le.mp hgreat)]
    rfl

/-- An integer that is held exactly is not taken for a larger one. -/
theorem not_two_pow_64_le_ofNat (h : n ≤ 2 ^ 53) : ¬ 18446744073709551616 ≤ ofNat n := by
  rcases Nat.eq_zero_or_pos n with rfl | hpos
  · decide +kernel
  rcases Nat.eq_or_lt_of_le h with rfl | hlt
  · decide +kernel
  have hn : n ≠ 0 := Nat.pos_iff_ne_zero.mp hpos
  have hlog : n.log2 < 53 := (Nat.log2_lt hn).mpr hlt
  have hmodel : (ofNat n).toModel.unpack = (filled_of_lt hn hlt).number .positive := by
    rw [ofNat_eq hn hlt]
    exact (filled_of_lt hn hlt).unpack_pack .positive
  rw [le_iff, unpack_two_pow_64, hmodel, le_finite_iff]
  omega

end TargetView.Binary64
