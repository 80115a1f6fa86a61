import Mathlib
import TargetView.Scalar

/-! # Integers that numbers hold exactly

A binary64 number holds every integer of at most 53 bits: its significand can be
shifted up until it fills 53 bits (`Binary64.Filled`), and from then on nothing
is rounded, neither by the conversion nor by the multiplication with one that it
ends with.  A word is read as the number that its operations compute with
(`Binary64.decode_eq`), so `Binary64.ofNat` is read back as the integer it was
made of, up to `2 ^ 53` (`Binary64.integer?_ofNat`).
-/
namespace TargetView.Binary64

open Float.Model Float.Model.UnpackedFloat

/-! ## Shifting significands -/

theorem log2_mul_two_pow {m : Nat} (h : m ≠ 0) (k : Nat) : (m * 2 ^ k).log2 = m.log2 + k := by
  obtain ⟨hlo, hhi⟩ := (Nat.log2_eq_iff h).mp rfl
  refine (Nat.log2_eq_iff (Nat.mul_ne_zero h (Nat.ne_of_gt (Nat.two_pow_pos k)))).mpr ?_
  rw [Nat.pow_add, Nat.add_right_comm, Nat.pow_add 2 (m.log2 + 1)]
  exact ⟨Nat.mul_le_mul_right _ hlo, Nat.mul_lt_mul_of_pos_right hhi (Nat.two_pow_pos k)⟩

/-- Shifting zeros out loses nothing. -/
theorem shiftRight_exact (m k : Nat) :
    (⟨m * 2 ^ k, false, false⟩ : ExtendedMantissa) >>> k = ⟨m, false, false⟩ := by
  change k.repeat ExtendedMantissa.shiftRightOne _ = _
  induction k generalizing m with
  | zero => simp [Nat.repeat]
  | succ k ih =>
    have hm : m * 2 ^ (k + 1) = m * 2 * 2 ^ k := by
      rw [Nat.pow_succ, Nat.mul_comm (2 ^ k) 2, Nat.mul_assoc]
    rw [Nat.repeat, hm, ih (m * 2)]
    simp [ExtendedMantissa.shiftRightOne]

/-! ## The fields of a word -/

theorem toNat_packComponents (s : Sign) (x : BitVec 11) (y : BitVec 52) :
    (packComponents Format.binary64 s x y).toNat =
      (s.toBitVec.toNat * 2 ^ 11 + x.toNat) * 2 ^ 52 + y.toNat := by
  rw [packComponents, BitVec.toNat_append, BitVec.toNat_append,
    ← Nat.shiftLeft_add_eq_or_of_lt x.isLt, ← Nat.shiftLeft_add_eq_or_of_lt y.isLt,
    Nat.shiftLeft_eq, Nat.shiftLeft_eq]

@[simp] theorem unpackSign_packComponents (s : Sign) (x : BitVec 11) (y : BitVec 52) :
    unpackSign (packComponents Format.binary64 s x y) = s.toBitVec := by
  have hs := s.toBitVec.isLt
  have hx := x.isLt
  have hy := y.isLt
  have hsign : ((s.toBitVec.toNat * 2 ^ 11 + x.toNat) * 2 ^ 52 + y.toNat) / 2 ^ 63 % 2 =
      s.toBitVec.toNat := by
    omega
  apply BitVec.eq_of_toNat_eq
  rw [unpackSign, BitVec.toNat_cast, BitVec.extractLsb_toNat, toNat_packComponents,
    Nat.shiftRight_eq_div_pow]
  exact hsign

@[simp] theorem ofBitVec_toBitVec (s : Sign) : Sign.ofBitVec s.toBitVec = s := by
  cases s <;> rfl

/-- A significand with its leading bit in front of the others. -/
theorem toNat_one_append (v : BitVec 52) : (1#1 ++ v).toNat = v.toNat + 2 ^ 52 := by
  rw [BitVec.toNat_append, ← Nat.shiftLeft_add_eq_or_of_lt v.isLt, Nat.shiftLeft_eq]
  exact Nat.add_comm _ _

/-! ## Reading a word -/

/-- Whether a sign is the one of negative numbers. -/
def isNegative : Sign → Bool
  | .negative => true
  | .positive => false

/-- What an unpacked number stands for. -/
def reading : UnpackedFloat → Reading
  | .notANumber => .nan
  | .infinity s => .infinite (isNegative s)
  | .zero s => .finite ⟨isNegative s, 0, -1074⟩
  | .finite s m e _ => .finite ⟨isNegative s, m, e⟩

section Fields

variable (b : BitVec Format.binary64.numBits)

theorem toNat_unpackMantissa : (unpackMantissa b).toNat = b.toNat % 2 ^ 52 := by
  rw [unpackMantissa, BitVec.toNat_cast, BitVec.extractLsb_toNat, Nat.shiftRight_zero]
  rfl

theorem toNat_unpackExponent : (unpackExponent b).toNat = b.toNat >>> 52 % 2 ^ 11 := by
  rw [unpackExponent, BitVec.toNat_cast, BitVec.extractLsb_toNat]
  rfl

theorem isNegative_unpackSign :
    isNegative (Sign.ofBitVec (unpackSign b)) = (b.toNat >>> 63 % 2 == 1) := by
  have hsign : (unpackSign b).toNat = b.toNat >>> 63 % 2 := by
    rw [unpackSign, BitVec.toNat_cast, BitVec.extractLsb_toNat]
    rfl
  have hall : ∀ s : BitVec 1, isNegative (Sign.ofBitVec s) = (s.toNat == 1) := by decide
  rw [hall, hsign]

theorem decodeBits_eq : decodeBits b.toNat = reading (UnpackedFloat.unpack Format.binary64 b) := by
  have hm := toNat_unpackMantissa b
  have he := toNat_unpackExponent b
  have hzero : unpackMantissa b = 0#52 ↔ b.toNat % 2 ^ 52 = 0 := by
    rw [← BitVec.toNat_inj, hm]
    rfl
  have hlast : unpackExponent b = -1#11 ↔ b.toNat >>> 52 % 2 ^ 11 = 2047 := by
    rw [← BitVec.toNat_inj, he]
    rfl
  have hfirst : unpackExponent b = 0#11 ↔ b.toNat >>> 52 % 2 ^ 11 = 0 := by
    rw [← BitVec.toNat_inj, he]
    rfl
  have hbias : ((Format.binary64.exponentBias : Int) +
    (Format.binary64.mantissaBitsWithoutImplicit : Int)) = 1075 := rfl
  unfold decodeBits UnpackedFloat.unpack
  dsimp only
  rw [show 1 <<< 11 = 2 ^ 11 from rfl, show 1 <<< 52 = 2 ^ 52 from rfl, ← isNegative_unpackSign b]
  by_cases h2047 : b.toNat >>> 52 % 2 ^ 11 = 2047
  · rw [if_pos h2047, if_pos (hlast.mpr h2047)]
    by_cases h0 : b.toNat % 2 ^ 52 = 0
    · rw [if_pos h0, if_pos (hzero.mpr h0)]
      rfl
    · rw [if_neg h0, if_neg (mt hzero.mp h0)]
      rfl
  rw [if_neg h2047, if_neg (mt hlast.mp h2047)]
  by_cases hsmall : b.toNat >>> 52 % 2 ^ 11 = 0
  · rw [if_pos hsmall, if_pos (hfirst.mpr hsmall)]
    by_cases h0 : b.toNat % 2 ^ 52 = 0
    · rw [h0, dif_pos (hzero.mpr h0)]
      rfl
    · rw [dif_neg (mt hzero.mp h0)]
      show _ = Reading.finite ⟨_, (unpackMantissa b).toNat, _⟩
      rw [hm, he, hsmall, hbias]
      rfl
  · rw [if_neg hsmall, if_neg (mt hfirst.mp hsmall)]
    show _ = Reading.finite ⟨_, (1#1 ++ unpackMantissa b).toNat, _⟩
    rw [toNat_one_append, hm, he, hbias]
    rfl

end Fields

/-- **A word is read as the number that its operations compute with.** -/
theorem decode_eq (x : Float) : decode x = reading x.toModel.unpack :=
  decodeBits_eq x.toModel.toBits.toBitVec

/-! ## Filled significands -/

/-- The significand fills its 53 bits, and the exponent is one of a number. -/
structure Filled (m : Nat) (e : Int) : Prop where
  log2 : m.log2 = 52
  least : -1074 ≤ e
  greatest : e ≤ 971

namespace Filled

variable {m : Nat} {e : Int}

theorem ne_zero (h : Filled m e) : m ≠ 0 := by
  rintro rfl
  cases h.log2

theorem pos (h : Filled m e) : 0 < m := Nat.pos_of_ne_zero h.ne_zero

theorem bounds (h : Filled m e) : 2 ^ 52 ≤ m ∧ m < 2 ^ 53 :=
  (Nat.log2_eq_iff h.ne_zero).mp h.log2

/-- The number with a filled significand. -/
abbrev number (h : Filled m e) (s : Sign) : UnpackedFloat := .finite s m e h.pos

theorem shiftToTargetExponent (h : Filled m e) (k : Nat) :
    shiftToTargetExponent Format.binary64 (m * 2 ^ k) (e - k) .exact =
      (⟨m, false, false⟩, e) := by
  have htarget : Format.binary64.targetExponent (totalExponent (m * 2 ^ k) (e - k)) = e := by
    have hbits : Format.binary64.mantissaBits = 53 := rfl
    have hmin : Format.binary64.minExponent = -1074 := by decide
    have := h.least
    rw [totalExponent, log2_mul_two_pow h.ne_zero, h.log2, Format.targetExponent, hbits, hmin]
    omega
  have hshift : (e - (e - k)).toNat = k := by omega
  rw [UnpackedFloat.shiftToTargetExponent, htarget, shiftToExponent, hshift,
    ExtendedMantissa.ofMantissaAndAccuracy, shiftRight_exact, Int.sub_add_cancel]

/-- A filled significand with zeros behind it is not rounded. -/
theorem roundWithAccuracy (h : Filled m e) (s : Sign) (k : Nat) :
    roundWithAccuracy Format.binary64 s (m * 2 ^ k) (e - k) .exact = h.number s := by
  have hagain := h.shiftToTargetExponent 0
  rw [Nat.pow_zero, Nat.mul_one, Int.natCast_zero, Int.sub_zero] at hagain
  have hrounded : (⟨m, false, false⟩ : ExtendedMantissa).roundedMantissa = m := rfl
  unfold UnpackedFloat.roundWithAccuracy
  rw [h.shiftToTargetExponent k]
  dsimp only
  rw [hrounded, hagain]
  dsimp only
  rw [dif_neg h.ne_zero]

/-- The exponent as it stands in a word. -/
theorem toNat_biased (h : Filled m e) :
    (BitVec.ofNat 11 (e + 1075).toNat).toNat = (e + 1075).toNat := by
  have := h.greatest
  rw [BitVec.toNat_ofNat]
  omega

theorem pack_number (h : Filled m e) (s : Sign) :
    UnpackedFloat.pack Format.binary64 (h.number s) =
      packComponents Format.binary64 s (BitVec.ofNat 11 (e + 1075).toNat) (BitVec.ofNat 52 m) := by
  have hbias : Format.binary64.exponentBias = 1023 := rfl
  have hbits : Format.binary64.mantissaBits = 53 := rfl
  have hexp : (e + (1023 : Nat) + (52 : Nat)).toNat = (e + 1075).toNat := by omega
  have hrange : ¬ 2 ^ 11 ≤ (e + 1075).toNat + 1 := by
    have := h.greatest
    omega
  rw [UnpackedFloat.pack, hbias, hbits, h.log2, hexp, if_neg hrange, if_pos rfl]

/-- A packed number is unpacked again. -/
theorem unpack_pack (h : Filled m e) (s : Sign) :
    (Float.Model.pack (h.number s)).unpack = h.number s := by
  have hbits : (Float.Model.pack (h.number s)).toBits.toBitVec =
      UnpackedFloat.pack Format.binary64 (h.number s) := rfl
  have := h.least
  have := h.greatest
  have hbiased := h.toNat_biased
  have hlast : BitVec.ofNat 11 (e + 1075).toNat ≠ -1#11 := by
    intro heq
    rw [heq] at hbiased
    simp at hbiased
    omega
  have hfirst : BitVec.ofNat 11 (e + 1075).toNat ≠ 0#11 := by
    intro heq
    rw [heq] at hbiased
    simp at hbiased
    omega
  have hexp : ((e + 1075).toNat : Int) - ((1023 : Nat) + (52 : Nat)) = e := by omega
  obtain ⟨hlo, hhi⟩ := h.bounds
  have hmantissa : (1#1 ++ BitVec.ofNat 52 m).toNat = m := by
    rw [toNat_one_append, BitVec.toNat_ofNat]
    omega
  rw [Float.Model.unpack, hbits, h.pack_number, UnpackedFloat.unpack]
  simp only [unpackMantissa_packComponents, unpackExponent_packComponents,
    unpackSign_packComponents, ofBitVec_toBitVec]
  rw [if_neg hlast, if_neg hfirst]
  simp only [hbiased, hmantissa]
  exact congrArg (fun e => UnpackedFloat.finite s m e h.pos) hexp

/-- The word of a number is read as its parts. -/
theorem decode_pack (h : Filled m e) (s : Sign) :
    decode (.ofModel (Float.Model.pack (h.number s))) = .finite ⟨isNegative s, m, e⟩ := by
  rw [decode_eq]
  show reading (Float.Model.pack (h.number s)).unpack = _
  rw [h.unpack_pack]
  rfl

end Filled

/-! ## Conversions -/

/-- The model of one is a filled significand. -/
theorem unpack_one : (Float.ofBits 0x3FF0000000000000).toModel.unpack =
    .finite .positive (2 ^ 52) (-52) (by decide) := by
  rfl

/-- The significand of a natural number, shifted up until it is filled. -/
theorem filled_of_lt {n : Nat} (hn : n ≠ 0) (h : n < 2 ^ 53) :
    Filled (n * 2 ^ (52 - n.log2)) (n.log2 - 52) := by
  have hlog : n.log2 < 53 := (Nat.log2_lt hn).mpr h
  refine ⟨?_, by omega, by omega⟩
  rw [log2_mul_two_pow hn]
  omega

theorem unpacked_ofNat {n : Nat} (hn : n ≠ 0) (h : n < 2 ^ 53) :
    UnpackedFloat.ofNat Format.binary64 n = (filled_of_lt hn h).number .positive := by
  have hlog : n.log2 < 53 := (Nat.log2_lt hn).mpr h
  have hcompare : compare (n : Int) 0 = .gt := Int.compare_eq_gt.mpr (by omega)
  have htarget : Format.binary64.targetExponent (totalExponent n 0) = (n.log2 : Int) - 52 := by
    have hbits : Format.binary64.mantissaBits = 53 := rfl
    have hmin : Format.binary64.minExponent = -1074 := by decide
    rw [Format.targetExponent, totalExponent, hbits, hmin]
    omega
  have hshift : ((0 : Int) - ((n.log2 : Int) - 52)).toNat = 52 - n.log2 := by omega
  have hexp : (0 : Int) - ((52 - n.log2 : Nat) : Int) = (n.log2 : Int) - 52 := by omega
  have hround := (filled_of_lt hn h).roundWithAccuracy .positive 0
  rw [Nat.pow_zero, Nat.mul_one, Int.natCast_zero, Int.sub_zero] at hround
  rw [UnpackedFloat.ofNat, UnpackedFloat.ofInt, UnpackedFloat.normalize, hcompare]
  dsimp only
  rw [Int.toNat_natCast, UnpackedFloat.round, htarget, decreaseExponent, hshift,
    Nat.shiftLeft_eq, hexp]
  exact hround

/-- The conversion of a natural number ends with a multiplication by one. -/
theorem ofNat_eq_mul {n : Nat} (h : n < 2 ^ 53) :
    ofNat n = n.toUInt64.toFloat * Float.ofBits 0x3FF0000000000000 := by
  unfold ofNat Float.ofNat
  simp only [OfScientific.ofScientific]
  unfold Float.ofScientific
  rw [dif_pos ⟨h, by decide⟩]
  rfl

theorem ofNat_eq {n : Nat} (hn : n ≠ 0) (h : n < 2 ^ 53) :
    ofNat n = .ofModel (Float.Model.pack ((filled_of_lt hn h).number .positive)) := by
  have hfilled := filled_of_lt hn h
  have hword : n.toUInt64.toNat = n := UInt64.toNat_ofNat_of_lt' (Nat.lt_trans h (by decide))
  have hleft : n.toUInt64.toFloat.toModel.unpack = hfilled.number .positive := by
    have hmodel : n.toUInt64.toFloat.toModel =
        Float.Model.pack (UnpackedFloat.ofNat Format.binary64 n.toUInt64.toNat) := rfl
    rw [hmodel, hword, unpacked_ofNat hn h, hfilled.unpack_pack]
  have hproduct : UnpackedFloat.mul Format.binary64 (hfilled.number .positive)
      (.finite .positive (2 ^ 52) (-52) (by decide)) = hfilled.number .positive :=
    hfilled.roundWithAccuracy .positive 52
  have hmodel : n.toUInt64.toFloat * Float.ofBits 0x3FF0000000000000 =
      .ofModel (Float.Model.pack (UnpackedFloat.mul Format.binary64
        n.toUInt64.toFloat.toModel.unpack (Float.ofBits 0x3FF0000000000000).toModel.unpack)) := rfl
  rw [ofNat_eq_mul h, hmodel, hleft, unpack_one, hproduct]

/-- An integer that is shifted up and counted down as much is that integer. -/
theorem Parts.floorMagnitude_shifted (negative : Bool) (n k : Nat) :
    (⟨negative, n * 2 ^ k, -(k : Int)⟩ : Parts).floorMagnitude = n := by
  unfold Parts.floorMagnitude
  dsimp only
  cases k with
  | zero => simp
  | succ k =>
    rw [if_neg (by omega), Int.neg_neg, Int.toNat_natCast, Nat.shiftRight_eq_div_pow,
      Nat.mul_div_cancel _ (Nat.two_pow_pos _)]

theorem Parts.isIntegral_shifted (negative : Bool) (n k : Nat) :
    (⟨negative, n * 2 ^ k, -(k : Int)⟩ : Parts).isIntegral = true := by
  unfold Parts.isIntegral
  dsimp only
  rw [Int.neg_neg, Int.toNat_natCast, Nat.shiftLeft_eq, Nat.one_mul, Nat.mul_mod_left,
    beq_self_eq_true, Bool.or_true]

/-- **Integers up to `2 ^ 53` are held exactly.** -/
theorem integer?_ofNat {n : Nat} (h : n ≤ 2 ^ 53) : integer? (ofNat n) = some (n : Int) := by
  rcases Nat.eq_zero_or_pos n with rfl | hpos
  · decide +kernel
  rcases Nat.eq_or_lt_of_le h with rfl | hlt
  · decide +kernel
  have hn : n ≠ 0 := Nat.pos_iff_ne_zero.mp hpos
  have hlog : n.log2 < 53 := (Nat.log2_lt hn).mpr hlt
  have hexp : (n.log2 : Int) - 52 = -((52 - n.log2 : Nat) : Int) := by omega
  rw [ofNat_eq hn hlt, integer?, Filled.decode_pack, hexp]
  dsimp only
  rw [Parts.isIntegral_shifted, if_pos rfl, Parts.truncate, Parts.floorMagnitude_shifted]
  rfl

/-- So are negative ones down to `-2 ^ 53`. -/
theorem integer?_ofInt {n : Int} (h : n.natAbs ≤ 2 ^ 53) : integer? (ofInt n) = some n := by
  cases n with
  | ofNat m => exact integer?_ofNat h
  | negSucc m =>
    rw [Int.natAbs_negSucc] at h
    rcases Nat.eq_or_lt_of_le h with heq | hlt
    · obtain rfl : m = 2 ^ 53 - 1 := by omega
      decide +kernel
    · have hfilled := filled_of_lt m.succ_ne_zero hlt
      have hlog : (m + 1).log2 < 53 := (Nat.log2_lt m.succ_ne_zero).mpr hlt
      have hunpack : (ofNat (m + 1)).toModel.unpack = hfilled.number .positive := by
        rw [ofNat_eq m.succ_ne_zero hlt]
        exact hfilled.unpack_pack .positive
      have hneg : ofInt (.negSucc m) = .ofModel (Float.Model.pack (hfilled.number .negative)) := by
        have hmodel : ofInt (.negSucc m) = .ofModel (Float.Model.pack
            (UnpackedFloat.neg (ofNat (m + 1)).toModel.unpack)) := rfl
        rw [hmodel, hunpack]
        rfl
      have hexp : ((m + 1).log2 : Int) - 52 = -((52 - (m + 1).log2 : Nat) : Int) := by omega
      rw [hneg, integer?, hfilled.decode_pack .negative, hexp]
      dsimp only
      rw [isNegative, Parts.isIntegral_shifted, if_pos rfl, Parts.truncate,
        Parts.floorMagnitude_shifted, if_pos rfl, Int.negSucc_eq]
      rfl

end TargetView.Binary64
