import TargetView.Proofs.Exactness

/-! # The order of numbers

A finite number stands for a rational number (`Parts.value`).  The parts that
`decode` reads off a word are in a normal form: the significand fills its bits
unless the exponent is the least one (`Parts.Canonical`).  In that form the
larger exponent belongs to the larger magnitude, so the order of finite
numbers is the one of their values (`order_of_finite`).  The order of all numbers
is antisymmetric, and there is none only where not-a-number takes part.
-/
namespace TargetView.Binary64

open Float.Model Float.Model.UnpackedFloat

/-! ## The parts of a number -/

namespace Parts

/-- The number without its sign. -/
def magnitude (d : Parts) : ℚ := d.significand * 2 ^ d.exponent

/-- The rational number that some parts stand for. -/
def value (d : Parts) : ℚ := if d.negative then -d.magnitude else d.magnitude

/-- The parts with the other sign. -/
def opposite (d : Parts) : Parts := { d with negative := !d.negative }

/-- The significand has at most 53 bits, and 53 unless the exponent is the least. -/
structure Canonical (d : Parts) : Prop where
  significand_lt : d.significand < 2 ^ 53
  full : 2 ^ 52 ≤ d.significand ∨ d.exponent = -1074
  least : -1074 ≤ d.exponent

theorem magnitude_nonneg (d : Parts) : 0 ≤ d.magnitude := by
  unfold magnitude
  positivity

theorem magnitude_pos {d : Parts} (h : 0 < d.significand) : 0 < d.magnitude := by
  unfold magnitude
  positivity

@[simp] theorem magnitude_zero (negative : Bool) (e : Int) :
    (⟨negative, 0, e⟩ : Parts).magnitude = 0 := by
  simp [magnitude]

theorem value_opposite (d : Parts) : d.opposite.value = -d.value := by
  obtain ⟨negative, m, e⟩ := d
  cases negative
  · rfl
  · exact (neg_neg _).symm

theorem Canonical.opposite {d : Parts} (h : d.Canonical) : d.opposite.Canonical :=
  ⟨h.significand_lt, h.full, h.least⟩

theorem abs_value (d : Parts) : |d.value| = d.magnitude := by
  unfold value
  split
  · rw [abs_neg, abs_of_nonneg d.magnitude_nonneg]
  · exact abs_of_nonneg d.magnitude_nonneg

/-- A magnitude is below every full significand at a larger exponent. -/
theorem Canonical.magnitude_lt {d : Parts} (h : d.Canonical) {j : Int} (hj : d.exponent < j) :
    d.magnitude < 2 ^ 52 * 2 ^ j := by
  have hpow : (0 : ℚ) < 2 ^ d.exponent := by positivity
  calc d.magnitude
      < 2 ^ 53 * 2 ^ d.exponent :=
        mul_lt_mul_of_pos_right (by exact_mod_cast h.significand_lt) hpow
    _ = 2 ^ 52 * 2 ^ (d.exponent + 1) := by
        rw [zpow_add₀ two_ne_zero]
        ring
    _ ≤ 2 ^ 52 * 2 ^ j := by
        gcongr
        · exact one_le_two
        · omega

/-- A larger exponent makes a larger magnitude. -/
theorem magnitude_lt_of_exponent_lt {d d' : Parts} (h : d.Canonical) (h' : d'.Canonical)
    (he : d.exponent < d'.exponent) : d.magnitude < d'.magnitude := by
  have hfull : 2 ^ 52 ≤ d'.significand := h'.full.resolve_right (by have := h.least; omega)
  apply (h.magnitude_lt he).trans_le
  unfold magnitude
  gcongr
  exact_mod_cast hfull

/-- Magnitudes are compared by their exponents first. -/
theorem compare_magnitude {d d' : Parts} (h : d.Canonical) (h' : d'.Canonical) :
    compare d.magnitude d'.magnitude =
      (compare d.exponent d'.exponent).then (compare d.significand d'.significand) := by
  rcases lt_trichotomy d.exponent d'.exponent with he | he | he
  · rw [compare_lt_iff_lt.mpr he, compare_lt_iff_lt.mpr (magnitude_lt_of_exponent_lt h h' he)]
    rfl
  · -- With one exponent, the significands decide.
    have hpow : (0 : ℚ) < 2 ^ d'.exponent := by positivity
    have hmono : StrictMono fun m : Nat => (m : ℚ) * 2 ^ d'.exponent :=
      Nat.strictMono_cast.mul_const hpow
    rw [compare_eq_iff_eq.mpr he, magnitude, magnitude, he]
    show _ = compare d.significand d'.significand
    rw [← cmp_eq_compare, ← cmp_eq_compare]
    exact hmono.cmp_map_eq d.significand d'.significand
  · rw [compare_gt_iff_gt.mpr he, compare_gt_iff_gt.mpr (magnitude_lt_of_exponent_lt h' h he)]
    rfl

end Parts

/-! ## Normal form -/

/-- What is read off a word is in normal form. -/
theorem canonical_of_decode {x : Float} {d : Parts} (h : decode x = .finite d) : d.Canonical := by
  have hfraction : x.toBits.toNat % 2 ^ 52 < 2 ^ 52 := Nat.mod_lt _ (by decide)
  rw [decode, decodeBits] at h
  rw [show 1 <<< 11 = 2 ^ 11 from rfl, show 1 <<< 52 = 2 ^ 52 from rfl] at h
  split at h
  · split at h <;> cases h
  split at h
  · obtain rfl := Reading.finite.inj h
    exact ⟨by dsimp only; omega, .inr rfl, by dsimp only; omega⟩
  · next hpos =>
    obtain rfl := Reading.finite.inj h
    refine ⟨by dsimp only; omega, .inl (by dsimp only; omega), ?_⟩
    dsimp only
    rw [Int.ofNat_eq_natCast]
    omega

/-! ## The order of unpacked numbers -/

theorem compare_swap (u v : UnpackedFloat) :
    v.compare u = (u.compare v).map Ordering.swap := by
  cases u with
  | notANumber => cases v <;> rfl
  | infinity s =>
    cases v with
    | infinity t => cases s <;> cases t <;> rfl
    | _ => cases s <;> rfl
  | zero s =>
    cases v with
    | infinity t | finite t m e hm => cases t <;> rfl
    | _ => rfl
  | finite s m e hm =>
    cases v with
    | notANumber => rfl
    | infinity t => cases s <;> cases t <;> rfl
    | zero t => cases s <;> rfl
    | finite t m' e' hm' =>
      have hswap : (compare e' e).then (compare m' m) =
          ((compare e e').then (compare m m')).swap := by
        rw [Ordering.swap_then, ← Std.OrientedCmp.eq_swap, ← Std.OrientedCmp.eq_swap]
      cases s <;> cases t
      · exact congrArg (some ·.swap) hswap
      · rfl
      · rfl
      · exact congrArg some hswap

theorem compare_eq_none_iff (u v : UnpackedFloat) :
    u.compare v = none ↔ u = .notANumber ∨ v = .notANumber := by
  fun_cases UnpackedFloat.compare u v <;> simp_all

theorem beq_iff_compare (x y : Float) :
    (x == y) = true ↔ x.toModel.unpack.compare y.toModel.unpack = some .eq := by
  show (x.toModel.unpack.compare y.toModel.unpack == some .eq) = true ↔ _
  exact beq_iff_eq

theorem lt_iff_compare (x y : Float) :
    x < y ↔ x.toModel.unpack.compare y.toModel.unpack = some .lt := by
  show decide (x.toModel < y.toModel) = true ↔ _
  rw [decide_eq_true_iff]
  exact beq_iff_eq

theorem gt_iff_compare (x y : Float) :
    y < x ↔ x.toModel.unpack.compare y.toModel.unpack = some .gt := by
  rw [lt_iff_compare, compare_swap x.toModel.unpack]
  cases x.toModel.unpack.compare y.toModel.unpack with
  | none => exact ⟨nofun, nofun⟩
  | some o => cases o <;> decide

/-- The order of numbers is the one of the unpacked numbers. -/
theorem order_eq (x y : Float) : order x y = x.toModel.unpack.compare y.toModel.unpack := by
  unfold order
  rw [if_congr (lt_iff_compare x y) rfl
    (if_congr (beq_iff_compare x y) rfl (if_congr (gt_iff_compare x y) rfl rfl))]
  cases x.toModel.unpack.compare y.toModel.unpack with
  | none => rfl
  | some o => cases o <;> rfl

/-! ## The order of numbers -/

theorem order_swap (x y : Float) : order y x = (order x y).map Ordering.swap := by
  rw [order_eq, order_eq, compare_swap]

theorem order_eq_some_eq_iff (x y : Float) : order x y = some .eq ↔ (x == y) = true := by
  rw [order_eq, beq_iff_compare]

theorem isNaN_iff (x : Float) : x.isNaN = true ↔ x.toModel.unpack = .notANumber := by
  show x.toModel.unpack.isNaN = true ↔ _
  cases x.toModel.unpack <;> simp [UnpackedFloat.isNaN]

/-- There is no order exactly with not-a-number. -/
theorem order_eq_none_iff (x y : Float) :
    order x y = none ↔ x.isNaN = true ∨ y.isNaN = true := by
  rw [order_eq, compare_eq_none_iff, isNaN_iff, isNaN_iff]

theorem not_isNaN_of_decode {x : Float} {d : Parts} (h : decode x = .finite d) :
    x.isNaN = false := by
  rw [← Bool.not_eq_true, isNaN_iff]
  intro hnan
  rw [decode_eq, hnan] at h
  cases h

namespace Parts

@[simp] theorem value_zero (negative : Bool) (e : Int) :
    (⟨negative, 0, e⟩ : Parts).value = 0 := by
  cases negative <;> simp [value]

variable {m m' : Nat} {e e' : Int}

theorem value_pos (hm : 0 < m) : 0 < (⟨false, m, e⟩ : Parts).value :=
  magnitude_pos (d := ⟨false, m, e⟩) hm

theorem value_neg (hm : 0 < m) : (⟨true, m, e⟩ : Parts).value < 0 :=
  neg_neg_of_pos (magnitude_pos (d := ⟨true, m, e⟩) hm)

/-- The order of parts in normal form with one sign. -/
theorem compare_value {negative : Bool} (h : (⟨negative, m, e⟩ : Parts).Canonical)
    (h' : (⟨negative, m', e'⟩ : Parts).Canonical) :
    compare (⟨negative, m, e⟩ : Parts).value (⟨negative, m', e'⟩ : Parts).value =
      if negative then ((compare e e').then (compare m m')).swap
      else (compare e e').then (compare m m') := by
  cases negative with
  | false => exact compare_magnitude h h'
  | true =>
    have hneg (x y : ℚ) : compare (-x) (-y) = (compare x y).swap := by
      have hanti : StrictAnti fun z : ℚ => -z := fun _ _ => neg_lt_neg
      rw [← cmp_eq_compare, ← cmp_eq_compare, cmp_swap]
      exact hanti.cmp_map_eq x y
    rw [if_pos rfl, ← compare_magnitude h h']
    exact hneg _ _

end Parts

/-- Unpacked numbers in normal form are ordered like what they are read as. -/
theorem compare_of_reading {u v : UnpackedFloat} {d d' : Parts} (hu : reading u = .finite d)
    (hv : reading v = .finite d') (hd : d.Canonical) (hd' : d'.Canonical) :
    u.compare v = some (compare d.value d'.value) := by
  cases u with
  | notANumber | infinity s => cases hu
  | zero s =>
    obtain rfl := Reading.finite.inj hu
    rw [Parts.value_zero]
    cases v with
    | notANumber | infinity t => cases hv
    | zero t =>
      obtain rfl := Reading.finite.inj hv
      rw [Parts.value_zero, compare_eq_iff_eq.mpr rfl]
      rfl
    | finite t m e hm =>
      obtain rfl := Reading.finite.inj hv
      cases t with
      | positive => exact congrArg some (compare_lt_iff_lt.mpr (Parts.value_pos hm)).symm
      | negative => exact congrArg some (compare_gt_iff_gt.mpr (Parts.value_neg hm)).symm
  | finite s m e hm =>
    obtain rfl := Reading.finite.inj hu
    cases v with
    | notANumber | infinity t => cases hv
    | zero t =>
      obtain rfl := Reading.finite.inj hv
      rw [Parts.value_zero]
      cases s with
      | positive => exact congrArg some (compare_gt_iff_gt.mpr (Parts.value_pos hm)).symm
      | negative => exact congrArg some (compare_lt_iff_lt.mpr (Parts.value_neg hm)).symm
    | finite t m' e' hm' =>
      obtain rfl := Reading.finite.inj hv
      cases s <;> cases t
      · exact congrArg some (Parts.compare_value hd hd').symm
      · exact congrArg some (compare_lt_iff_lt.mpr
          ((Parts.value_neg hm).trans (Parts.value_pos hm'))).symm
      · exact congrArg some (compare_gt_iff_gt.mpr
          ((Parts.value_neg hm').trans (Parts.value_pos hm))).symm
      · exact congrArg some (Parts.compare_value hd hd').symm

/-- **Finite numbers are ordered like the rational numbers that they stand for.** -/
theorem order_of_finite {x y : Float} {d d' : Parts} (hx : decode x = .finite d)
    (hy : decode y = .finite d') : order x y = some (compare d.value d'.value) := by
  have hd := canonical_of_decode hx
  have hd' := canonical_of_decode hy
  rw [decode_eq] at hx hy
  rw [order_eq]
  exact compare_of_reading hx hy hd hd'

end TargetView.Binary64
