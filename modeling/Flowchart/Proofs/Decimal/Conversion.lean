import Flowchart.Proofs.Decimal.Rounding
import Flowchart.Value
import Mathlib

/-!
# Integers as doubles

The double of an integer is the nearest one (`denotes_doubleOfInt`), so that the doubles of
two integers are equal iff the integers are rounded to the same one (`doubleOfInt_beq_iff`).

A number is converted in two ways. Below `2 ^ 53` its word is converted and taken times one,
and from there on it is scaled and rounded at once. Either way the significand is shifted to
fifty-three bits and rounded by the two bits that are kept of what is shifted out
(`denotes_roundWithAccuracy`). What comes of it is packed into a word and unpacked again,
which loses nothing (`Denotes.unpack_pack`), and as the significand is always full, floats
can be compared by their parts (`Denotes.compare_eq_iff`).
-/

namespace Flowchart

open Decimal Float.Model Float.Model.UnpackedFloat

/-! ## Bits that are shifted out -/

/-- The two bits that are kept of what is shifted out: the first, and whether there is
another one. -/
theorem shiftRight_succ (m s : Nat) : (⟨m, false, false⟩ : ExtendedMantissa) >>> (s + 1)
    = ⟨m / 2 ^ (s + 1), m / 2 ^ s % 2 != 0, m % 2 ^ s != 0⟩ := by
  induction s with
  | zero => simp [HShiftRight.hShiftRight, Nat.repeat, ExtendedMantissa.shiftRightOne, Nat.mod_one]
  | succ s ih =>
      have hstep : (⟨m, false, false⟩ : ExtendedMantissa) >>> (s + 1 + 1)
          = ((⟨m, false, false⟩ : ExtendedMantissa) >>> (s + 1)).shiftRightOne := rfl
      have hrest : m % 2 ^ (s + 1) = m % 2 ^ s + 2 ^ s * (m / 2 ^ s % 2) := Nat.mod_pow_succ
      rw [hstep, ih, ExtendedMantissa.shiftRightOne, hrest]
      congr 1
      · rw [Nat.div_div_eq_div_mul, ← Nat.pow_succ]
      · rw [Bool.eq_iff_iff]
        simp
        omega

/-- With the two bits a half is told from what is less or more. -/
theorem roundedMantissa_shiftRight (m s : Nat) :
    ((⟨m, false, false⟩ : ExtendedMantissa) >>> s).roundedMantissa = roundHalfEven m (2 ^ s) := by
  cases s with
  | zero =>
      have hround := roundHalfEven_mul_self m Nat.one_pos
      rw [Nat.mul_one] at hround
      rw [Nat.pow_zero, hround]
      rfl
  | succ s =>
      have hlt : m % 2 ^ s < 2 ^ s := Nat.mod_lt m (Nat.two_pow_pos s)
      have hrest : m % 2 ^ (s + 1) = m % 2 ^ s + 2 ^ s * (m / 2 ^ s % 2) := Nat.mod_pow_succ
      have hdouble : 2 ^ (s + 1) = 2 * 2 ^ s := Nat.pow_succ'
      rw [shiftRight_succ, roundHalfEven, hrest]
      generalize m / 2 ^ (s + 1) = lower
      generalize m % 2 ^ s = rest at hlt ⊢
      rcases Nat.mod_two_eq_zero_or_one (m / 2 ^ s) with hbit | hbit
      · have hless : 2 * (rest + 2 ^ s * 0) < 2 ^ (s + 1) := by omega
        rw [hbit, if_pos hless]
        cases hsticky : rest != 0 <;> rfl
      · have hmore : ¬2 * (rest + 2 ^ s * 1) < 2 ^ (s + 1) := by omega
        rw [hbit, if_neg hmore]
        by_cases hnone : rest = 0
        · have hhalf : ¬2 ^ (s + 1) < 2 * (rest + 2 ^ s * 1) := by omega
          rw [if_neg hhalf, hnone]
          show lower + lower % 2 = _
          split <;> omega
        · have hhalf : 2 ^ (s + 1) < 2 * (rest + 2 ^ s * 1) := by omega
          have hsticky : (rest != 0) = true := bne_iff_ne.mpr hnone
          rw [if_pos hhalf, hsticky]
          rfl

/-! ## Rounding -/

/-- A significand is shifted until fifty-three bits are left, or the exponent is in range. -/
theorem shiftToTargetExponent_eq {m k : Nat} {e : Int}
    (hk : (max ((m.log2 : Int) + e - 52) (-1074) - e).toNat = k) :
    shiftToTargetExponent Format.binary64 m e .exact
      = ((⟨m, false, false⟩ : ExtendedMantissa) >>> k, e + k) := by
  have hshift : (Format.binary64.targetExponent (totalExponent m e) - e).toNat = k := by
    simp only [Format.targetExponent, totalExponent, Format.mantissaBits, Format.minExponent]
    omega
  rw [shiftToTargetExponent, shiftToExponent, hshift]
  rfl

/-- A number that fits is not shifted. -/
theorem shiftToTargetExponent_of_lt {m : Nat} {e : Int} (hm : m < 2 ^ 53) (he : -1074 ≤ e) :
    shiftToTargetExponent Format.binary64 m e .exact = (⟨m, false, false⟩, e) := by
  have hlog := log2_le_of_lt hm
  rw [shiftToTargetExponent_eq (k := 0) (by omega), Int.natCast_zero, Int.add_zero]
  rfl

/-- A number that is rounded up to one bit more than there is room for is shifted once. -/
theorem shiftToTargetExponent_overflow {e : Int} (he : -1074 ≤ e) :
    shiftToTargetExponent Format.binary64 (2 ^ 53) e .exact = (⟨2 ^ 52, false, false⟩, e + 1) := by
  rw [shiftToTargetExponent_eq (k := 1) (by rw [Nat.log2_two_pow]; omega)]
  rfl

/-- Such a number is not rounded. -/
theorem roundWithAccuracy_of_lt (s : Sign) {m : Nat} {e : Int} (hm : 0 < m) (hlt : m < 2 ^ 53)
    (he : -1074 ≤ e) :
    roundWithAccuracy Format.binary64 s m e .exact = .finite s m e hm := by
  have hexact : (⟨m, false, false⟩ : ExtendedMantissa).roundedMantissa = m := rfl
  simp only [roundWithAccuracy, shiftToTargetExponent_of_lt hlt he, hexact, hm.ne', dite_false]

/-! ## Numbers with enough bits -/

theorem log2_mul_two_pow {n : Nat} (hn : 0 < n) (j : Nat) : (n * 2 ^ j).log2 = n.log2 + j := by
  have hpos : n * 2 ^ j ≠ 0 := (Nat.mul_pos hn (Nat.two_pow_pos j)).ne'
  rw [Nat.log2_eq_iff hpos]
  constructor
  · rw [Nat.pow_add]
    exact Nat.mul_le_mul_right _ (Nat.log2_self_le hn.ne')
  · rw [show n.log2 + j + 1 = n.log2 + 1 + j by omega, Nat.pow_add]
    exact Nat.mul_lt_mul_of_pos_right Nat.lt_log2_self (Nat.two_pow_pos j)

/-- The bits that remain of a number with enough of them, rounded, are those of the nearest
number. -/
theorem roundHalfEven_scaled {n j k : Nat} (hk : k + 52 = n.log2 + j) :
    roundHalfEven (n * 2 ^ j) (2 ^ k) * 2 ^ k = nearestNat n * 2 ^ j := by
  rcases Nat.le_total 52 n.log2 with hlog | hlog
  · have hpow : 2 ^ k = spacing n * 2 ^ j := by
      rw [spacing, ← Nat.pow_add]
      congr 1
      omega
    rw [hpow, roundHalfEven_mul_right _ _ (Nat.two_pow_pos j), nearestNat, Nat.mul_assoc]
  · have hpow : 2 ^ j = 2 ^ (52 - n.log2) * 2 ^ k := by
      rw [← Nat.pow_add]
      congr 1
      omega
    rw [nearestNat_of_log2_le hlog, hpow, ← Nat.mul_assoc,
      roundHalfEven_mul_self _ (Nat.two_pow_pos k)]

/-- They have fifty-three bits, or one more where all of them are carried over. -/
theorem roundHalfEven_scaled_bounds {n j k : Nat} (hn : 0 < n) (hk : k + 52 = n.log2 + j) :
    2 ^ 52 ≤ roundHalfEven (n * 2 ^ j) (2 ^ k) ∧ roundHalfEven (n * 2 ^ j) (2 ^ k) ≤ 2 ^ 53 := by
  have hpos : n * 2 ^ j ≠ 0 := (Nat.mul_pos hn (Nat.two_pow_pos j)).ne'
  have hlog := log2_mul_two_pow hn j
  have hlower : 2 ^ 52 ≤ n * 2 ^ j / 2 ^ k := by
    rw [Nat.le_div_iff_mul_le (Nat.two_pow_pos k), ← Nat.pow_add, Nat.add_comm 52, hk, ← hlog]
    exact Nat.log2_self_le hpos
  have hupper : n * 2 ^ j / 2 ^ k < 2 ^ 53 := by
    rw [Nat.div_lt_iff_lt_mul (Nat.two_pow_pos k), ← Nat.pow_add,
      show 53 + k = (n * 2 ^ j).log2 + 1 by omega]
    exact Nat.lt_log2_self
  exact ⟨hlower.trans (div_le_roundHalfEven _ _), (roundHalfEven_le _ _).trans hupper⟩

theorem shiftToTargetExponent_scaled {n j k : Nat} (hn : 0 < n) (hk : k + 52 = n.log2 + j) :
    shiftToTargetExponent Format.binary64 (n * 2 ^ j) (-(j : Int)) .exact
      = ((⟨n * 2 ^ j, false, false⟩ : ExtendedMantissa) >>> k, -(j : Int) + k) :=
  shiftToTargetExponent_eq (by rw [log2_mul_two_pow hn]; omega)

/-! ## Rounding to the nearest number -/

/-- The float is the number that an integer is, written with fifty-three bits. -/
inductive Denotes : UnpackedFloat → Int → Prop where
  | zero : Denotes (.zero .positive) 0
  | finite {s : Sign} {m : Nat} {e v : Int} {hm : 0 < m} :
      2 ^ 52 ≤ m → m < 2 ^ 53 → -52 ≤ e → e ≤ 12 → ((s.apply m : Int) : ℚ) * 2 ^ e = v →
      Denotes (.finite s m e hm) v

theorem apply_mul_two_zpow (s : Sign) {r n j k : Nat} (h : r * 2 ^ k = n * 2 ^ j) :
    ((s.apply (r : Int) : Int) : ℚ) * 2 ^ (-(j : Int) + k) = (s.apply (n : Int) : Int) := by
  have hvalue : (r : ℚ) * 2 ^ (-(j : Int) + k) = n := by
    have hcast : (r : ℚ) * 2 ^ k = n * 2 ^ j := by exact_mod_cast h
    rw [zpow_add₀ two_ne_zero, zpow_neg, zpow_natCast, zpow_natCast, mul_left_comm, hcast,
      mul_comm, mul_inv_cancel_right₀ (pow_ne_zero j two_ne_zero)]
  cases s with
  | positive => exact_mod_cast hvalue
  | negative =>
      simp only [Sign.apply]
      push_cast
      rw [neg_mul, hvalue]

/-- **A number with enough bits is rounded to the nearest one.** -/
theorem denotes_roundWithAccuracy (s : Sign) {n j : Nat} (hn : 0 < n) (hlog : n.log2 ≤ 63)
    (hj : 52 ≤ n.log2 + j) :
    Denotes (roundWithAccuracy Format.binary64 s (n * 2 ^ j) (-(j : Int)) .exact)
      (s.apply (nearestNat n)) := by
  obtain ⟨k, hk⟩ := Nat.exists_eq_add_of_le' hj
  have hscaled := roundHalfEven_scaled hk.symm
  obtain ⟨hlower, hupper⟩ := roundHalfEven_scaled_bounds hn hk.symm
  rw [roundWithAccuracy, shiftToTargetExponent_scaled hn hk.symm]
  dsimp only
  rw [roundedMantissa_shiftRight]
  generalize roundHalfEven (n * 2 ^ j) (2 ^ k) = r at hscaled hlower hupper ⊢
  rcases Nat.lt_or_eq_of_le hupper with hfits | rfl
  · rw [shiftToTargetExponent_of_lt hfits (by omega)]
    have hr : r ≠ 0 := by omega
    simp only [hr, dite_false]
    exact .finite hlower hfits (by omega) (by omega) (apply_mul_two_zpow s hscaled)
  · -- one bit too many, which is zero
    rw [shiftToTargetExponent_overflow (by omega)]
    have hhalf : 2 ^ 52 * 2 ^ (k + 1) = nearestNat n * 2 ^ j := by
      rw [← hscaled, ← Nat.pow_add, ← Nat.pow_add]
      congr 1
      omega
    have hvalue := apply_mul_two_zpow s hhalf
    rw [Nat.cast_succ, ← add_assoc] at hvalue
    show Denotes (.finite s (2 ^ 52) (-(j : Int) + k + 1) (by decide)) _
    exact .finite le_rfl (by decide) (by omega) (by omega) hvalue

/-! ## Packing -/

/-- The first bit of a full significand is not stored, and is put back. -/
theorem toNat_implicitBit {m : Nat} (hlower : 2 ^ 52 ≤ m) (hupper : m < 2 ^ 53) :
    (1#1 ++ BitVec.ofNat 52 m).toNat = m := by
  rw [BitVec.toNat_append, ← Nat.shiftLeft_add_eq_or_of_lt (BitVec.isLt _), BitVec.toNat_ofNat,
    Nat.shiftLeft_eq]
  simp only [BitVec.toNat_ofNat]
  omega

theorem unpackSign_packComponents {spec : Format} (s : Sign) (e : BitVec spec.exponentBits)
    (m : BitVec spec.mantissaBitsWithoutImplicit) :
    unpackSign (packComponents spec s e m) = s.toBitVec := by
  ext i hi
  obtain rfl : i = 0 := by omega
  simp [unpackSign, packComponents, BitVec.getLsbD_append, BitVec.getElem_append]

theorem ofBitVec_toBitVec (s : Sign) : Sign.ofBitVec s.toBitVec = s := by
  cases s <;> rfl

theorem pack_finite (s : Sign) {m b : Nat} {e : Int} (hm : 0 < m) (hlower : 2 ^ 52 ≤ m)
    (hupper : m < 2 ^ 53) (hb : e + 1075 = b) (hmax : b < 2047) :
    UnpackedFloat.pack Format.binary64 (.finite s m e hm)
      = packComponents Format.binary64 s (BitVec.ofNat 11 b) (BitVec.ofNat 52 m) := by
  have hlog : m.log2 + 1 = Format.binary64.mantissaBits := by
    have hle : 52 ≤ m.log2 := (Nat.le_log2 hm.ne').mpr hlower
    have hlt : m.log2 < 53 := (Nat.log2_lt hm.ne').mpr hupper
    simp only [Format.mantissaBits]
    omega
  have hbiased : (e + (Format.binary64.exponentBias : Int)
      + Format.binary64.mantissaBitsWithoutImplicit).toNat = b := by
    simp only [Format.exponentBias]
    omega
  simp only [UnpackedFloat.pack, hbiased, hlog, if_true]
  rw [if_neg (by omega)]

theorem unpack_finite (s : Sign) {m b : Nat} (hm : 0 < m) (hlower : 2 ^ 52 ≤ m)
    (hupper : m < 2 ^ 53) (hmin : 0 < b) (hmax : b < 2047) :
    UnpackedFloat.unpack Format.binary64
        (packComponents Format.binary64 s (BitVec.ofNat 11 b) (BitVec.ofNat 52 m))
      = .finite s m (b - 1075) hm := by
  have hexp : (BitVec.ofNat 11 b).toNat = b := by
    rw [BitVec.toNat_ofNat]
    omega
  -- the exponent is neither of the two that are set aside
  have hne (c : BitVec 11) (hc : c.toNat ≠ b) : BitVec.ofNat 11 b ≠ c :=
    fun heq => hc (by rw [← heq, hexp])
  have hnotTop : BitVec.ofNat 11 b ≠ -1#_ := hne _ hmax.ne'
  have hnotZero : BitVec.ofNat 11 b ≠ 0#_ := hne _ hmin.ne
  rw [UnpackedFloat.unpack]
  simp only [unpackMantissa_packComponents, unpackExponent_packComponents,
    unpackSign_packComponents, ofBitVec_toBitVec, hnotTop, hnotZero, hexp, if_false,
    toNat_implicitBit hlower hupper]
  rfl

/-- **What has been rounded is stored as it is.** -/
theorem Denotes.unpack_pack {u : UnpackedFloat} {v : Int} (h : Denotes u v) :
    (pack u).unpack = u := by
  cases h with
  | zero => rfl
  | @finite s m e _ hm hlower hupper hmin hmax _ =>
      obtain ⟨b, hb⟩ := Int.eq_ofNat_of_zero_le (show (0 : Int) ≤ e + 1075 by omega)
      show UnpackedFloat.unpack Format.binary64
        (UnpackedFloat.pack Format.binary64 (.finite s m e hm)) = _
      rw [pack_finite s hm hlower hupper hb (by omega),
        unpack_finite s hm hlower hupper (by omega) (by omega), ← hb, Int.add_sub_cancel]

theorem Denotes.stored {u : UnpackedFloat} {v : Int} (h : Denotes u v) :
    Denotes (pack u).unpack v := by
  rw [h.unpack_pack]
  exact h

/-! ## Natural numbers -/

/-- A number that fits is filled up with zeroes. -/
theorem unpacked_ofNat {n : Nat} (hn : 0 < n) (hfits : n < 2 ^ 53) :
    UnpackedFloat.ofNat Format.binary64 n = roundWithAccuracy Format.binary64 .positive
      (n * 2 ^ (52 - n.log2)) (-((52 - n.log2 : Nat) : Int)) .exact := by
  have hlog : n.log2 < 53 := (Nat.log2_lt hn.ne').mpr hfits
  have hcompare : compare (n : Int) 0 = .gt := compare_gt_iff_gt.mpr (by omega)
  have hdown : decreaseExponent n 0 (Format.binary64.targetExponent (totalExponent n 0))
      = (n * 2 ^ (52 - n.log2), -((52 - n.log2 : Nat) : Int)) := by
    have hshift : ((0 : Int) - Format.binary64.targetExponent (totalExponent n 0)).toNat
        = 52 - n.log2 := by
      simp only [Format.targetExponent, totalExponent, Format.mantissaBits, Format.minExponent]
      omega
    rw [decreaseExponent, hshift, Nat.shiftLeft_eq, Int.zero_sub]
  rw [UnpackedFloat.ofNat, UnpackedFloat.ofInt, UnpackedFloat.normalize, hcompare]
  simp only [Int.toNat_natCast, UnpackedFloat.round, hdown]

/-- The word of a number that fits is converted without a loss. -/
theorem unpack_toFloat {n i : Nat} (hpos : 0 < n * 2 ^ i) (hi : i + n.log2 = 52) :
    n.toUInt64.toFloat.toModel.unpack = .finite .positive (n * 2 ^ i) (-(i : Int)) hpos := by
  have hn : 0 < n := Nat.pos_of_mul_pos_right hpos
  have hfits : n < 2 ^ 53 := (Nat.log2_lt hn.ne').mp (by omega)
  have hword : n.toUInt64.toNat = n := Nat.mod_eq_of_lt (hfits.trans (by decide))
  have hfilled : n * 2 ^ i < 2 ^ 53 := by
    rw [← Nat.log2_lt hpos.ne', log2_mul_two_pow hn]
    omega
  have hdenotes := denotes_roundWithAccuracy .positive hn (j := i) (by omega) (by omega)
  show (pack (UnpackedFloat.ofNat Format.binary64 n.toUInt64.toNat)).unpack = _
  rw [hword, unpacked_ofNat hn hfits, show 52 - n.log2 = i by omega, hdenotes.unpack_pack,
    roundWithAccuracy_of_lt .positive hpos hfilled (by omega)]

/-- Taking it times one rounds it once more. -/
theorem denotes_ofNat_of_lt {n : Nat} (hn : 0 < n) (hfits : n < 2 ^ 53) :
    Denotes (Float.ofNat n).toModel.unpack (nearestNat n) := by
  obtain ⟨i, hi⟩ := Nat.exists_eq_add_of_le' (log2_le_of_lt hfits)
  have hopen : Float.ofNat n = n.toUInt64.toFloat * Float.ofBits 0x3FF0000000000000 := by
    show Float.ofScientific n false 0 = _
    rw [Float.ofScientific, dif_pos ⟨hfits, by decide⟩]
    rfl
  have hone : (Float.ofBits 0x3FF0000000000000).toModel.unpack
      = .finite .positive (2 ^ 52) (-52) (by decide) := rfl
  have hmul : UnpackedFloat.mul Format.binary64 n.toUInt64.toFloat.toModel.unpack
      (Float.ofBits 0x3FF0000000000000).toModel.unpack
      = roundWithAccuracy Format.binary64 .positive (n * 2 ^ (i + 52)) (-((i + 52 : Nat) : Int))
        .exact := by
    rw [unpack_toFloat (Nat.mul_pos hn (Nat.two_pow_pos i)) hi.symm, hone, Nat.pow_add,
      ← Nat.mul_assoc, Nat.cast_add, Int.neg_add]
    rfl
  have hproduct := denotes_roundWithAccuracy .positive hn (j := i + 52) (by omega) (by omega)
  rw [← hmul] at hproduct
  rw [hopen]
  exact hproduct.stored

/-- Any other number is rounded at once. -/
theorem denotes_ofNat_of_ge {n : Nat} (hlarge : 2 ^ 53 ≤ n) (hlog : n.log2 ≤ 63) :
    Denotes (Float.ofNat n).toModel.unpack (nearestNat n) := by
  have hn : 0 < n := by omega
  have hopen : Float.ofNat n = Float.ofModel (Float.Model.ofScientific n 0) := by
    show Float.ofScientific n false 0 = _
    rw [Float.ofScientific, dif_neg (fun h => absurd h.1 (by omega))]
    rfl
  have hrange : ¬(0 : Int) < -((2 : Int) ^ 11 + n.log2) := by omega
  have hmul : UnpackedFloat.ofScientific Format.binary64 n 0
      = roundWithAccuracy Format.binary64 .positive (n * 2 ^ 53) (-((53 : Nat) : Int)) .exact := by
    rw [UnpackedFloat.ofScientific, dif_neg hn.ne', if_neg (by decide), if_neg hrange,
      if_pos le_rfl, ← Nat.shiftLeft_eq, ← Nat.mul_one (n <<< 53)]
    rfl
  have hproduct := denotes_roundWithAccuracy .positive hn (j := 53) hlog (by omega)
  rw [← hmul] at hproduct
  rw [hopen]
  exact hproduct.stored

/-- **The double of a natural number is the nearest one.** -/
theorem denotes_ofNat {n : Nat} (hlog : n.log2 ≤ 63) :
    Denotes (Float.ofNat n).toModel.unpack (nearestNat n) := by
  rcases Nat.eq_zero_or_pos n with rfl | hn
  · exact .zero
  · rcases Nat.lt_or_ge n (2 ^ 53) with hfits | hlarge
    · exact denotes_ofNat_of_lt hn hfits
    · exact denotes_ofNat_of_ge hlarge hlog

/-! ## Integers -/

theorem apply_neg (s : Sign) (n : Int) : (-s).apply n = -s.apply n := by
  cases s with
  | positive => rfl
  | negative => exact (Int.neg_neg n).symm

theorem Denotes.neg {u : UnpackedFloat} {v : Int} (h : Denotes u v) (hv : v ≠ 0) :
    Denotes u.neg (-v) := by
  cases h with
  | zero => exact absurd rfl hv
  | @finite s m e _ hm hlower hupper hmin hmax hvalue =>
      refine .finite hlower hupper hmin hmax ?_
      rw [apply_neg, Int.cast_neg, Int.cast_neg, neg_mul, hvalue]

/-- **The double of an integer is the nearest one.** -/
theorem denotes_doubleOfInt (n : Int64) :
    Denotes (doubleOfInt n).toModel.unpack (nearest n.toInt) := by
  have hlower := n.le_toInt
  have hupper := n.toInt_lt
  unfold doubleOfInt
  generalize n.toInt = z at hlower hupper ⊢
  have hlog (m : Nat) (hm : m ≤ 2 ^ 63) : m.log2 ≤ 63 := log2_le_of_lt (by omega)
  cases z with
  | ofNat m =>
      rw [Int.ofNat_eq_natCast, nearest_natCast]
      exact denotes_ofNat (hlog m (by rw [Int.ofNat_eq_natCast] at hupper; omega))
  | negSucc m =>
      have hpositive := denotes_ofNat (hlog (m + 1) (by omega))
      have hneg := hpositive.neg (by exact_mod_cast (nearestNat_pos m.succ_pos).ne')
      rw [Int.negSucc_eq, ← Nat.cast_succ, nearest_neg, nearest_natCast]
      exact hneg.stored

/-! ## Equal doubles -/

theorem exponent_le {m m' : Nat} {e e' : Int} (hupper : m < 2 ^ 53) (hlower' : 2 ^ 52 ≤ m')
    (h : (m : ℚ) * 2 ^ e = m' * 2 ^ e') : e' ≤ e := by
  by_contra hlt
  have hpow : (0 : ℚ) < 2 ^ e := zpow_pos two_pos e
  have hless : (m : ℚ) * 2 ^ e < m' * 2 ^ e' := by
    calc (m : ℚ) * 2 ^ e < 2 ^ 53 * 2 ^ e :=
          mul_lt_mul_of_pos_right (by exact_mod_cast hupper) hpow
      _ = 2 ^ 52 * 2 ^ (e + 1) := by rw [zpow_add_one₀ two_ne_zero]; ring
      _ ≤ m' * 2 ^ e' := mul_le_mul (by exact_mod_cast hlower')
          (zpow_le_zpow_right₀ one_le_two (by omega)) (zpow_pos two_pos _).le (Nat.cast_nonneg _)
  exact hless.ne h

/-- A number is written with fifty-three bits in one way only. -/
theorem significand_unique {m m' : Nat} {e e' : Int} (hlower : 2 ^ 52 ≤ m) (hupper : m < 2 ^ 53)
    (hlower' : 2 ^ 52 ≤ m') (hupper' : m' < 2 ^ 53) (h : (m : ℚ) * 2 ^ e = m' * 2 ^ e') :
    e = e' ∧ m = m' := by
  obtain rfl : e = e' := le_antisymm (exponent_le hupper' hlower h.symm)
    (exponent_le hupper hlower' h)
  exact ⟨rfl, by exact_mod_cast mul_right_cancel₀ (zpow_pos two_pos e).ne' h⟩

theorem value_ne_zero (s : Sign) {m : Nat} (hm : 0 < m) (e : Int) :
    ((s.apply (m : Int) : Int) : ℚ) * 2 ^ e ≠ 0 := by
  refine mul_ne_zero ?_ (zpow_pos two_pos e).ne'
  cases s <;> simp [Sign.apply, hm.ne']

/-- The sign is told from the number as well. -/
theorem value_unique {s s' : Sign} {m m' : Nat} {e e' : Int} (hlower : 2 ^ 52 ≤ m)
    (hupper : m < 2 ^ 53) (hlower' : 2 ^ 52 ≤ m') (hupper' : m' < 2 ^ 53)
    (h : ((s.apply (m : Int) : Int) : ℚ) * 2 ^ e = ((s'.apply (m' : Int) : Int) : ℚ) * 2 ^ e') :
    s = s' ∧ e = e' ∧ m = m' := by
  have hpos : (0 : ℚ) < m * 2 ^ e :=
    mul_pos (Nat.cast_pos.mpr (by omega)) (zpow_pos two_pos e)
  have hpos' : (0 : ℚ) < m' * 2 ^ e' :=
    mul_pos (Nat.cast_pos.mpr (by omega)) (zpow_pos two_pos e')
  cases s <;> cases s' <;>
    simp only [Sign.apply, Int.cast_neg, Int.cast_natCast, neg_mul, neg_inj] at h
  case negative.negative | positive.positive =>
    exact ⟨rfl, significand_unique hlower hupper hlower' hupper' h⟩
  all_goals linarith

theorem compare_finite_eq_iff {s s' : Sign} {m m' : Nat} {e e' : Int} {hm : 0 < m} {hm' : 0 < m'} :
    UnpackedFloat.compare (.finite s m e hm) (.finite s' m' e' hm') = some .eq
      ↔ s = s' ∧ e = e' ∧ m = m' := by
  cases s <;> cases s' <;> simp [UnpackedFloat.compare, Ordering.then_eq_eq]

/-- **Two floats compare equal iff they are the same number.** -/
theorem Denotes.compare_eq_iff {u u' : UnpackedFloat} {v v' : Int} (h : Denotes u v)
    (h' : Denotes u' v') : u.compare u' = some .eq ↔ v = v' := by
  cases h with
  | zero =>
      cases h' with
      | zero => simp [UnpackedFloat.compare]
      | @finite s' m' e' _ hm' _ _ _ _ hvalue' =>
          have hne := value_ne_zero s' hm' e'
          rw [hvalue'] at hne
          cases s' <;> simp [UnpackedFloat.compare, eq_comm, Int.cast_ne_zero.mp hne]
  | @finite s m e _ hm hlower hupper _ _ hvalue =>
      cases h' with
      | zero =>
          have hne := value_ne_zero s hm e
          rw [hvalue] at hne
          cases s <;> simp [UnpackedFloat.compare, Int.cast_ne_zero.mp hne]
      | @finite s' m' e' _ hm' hlower' hupper' _ _ hvalue' =>
          rw [compare_finite_eq_iff]
          constructor
          · rintro ⟨rfl, rfl, rfl⟩
            exact_mod_cast hvalue.symm.trans hvalue'
          · rintro rfl
            exact value_unique hlower hupper hlower' hupper' (hvalue.trans hvalue'.symm)

/-- **The doubles of two integers are equal iff the integers have the same nearest one.** -/
theorem doubleOfInt_beq_iff (m n : Int64) :
    (doubleOfInt m == doubleOfInt n) = true ↔ nearest m.toInt = nearest n.toInt := by
  show ((doubleOfInt m).toModel.unpack.compare (doubleOfInt n).toModel.unpack == some .eq) = true
    ↔ _
  rw [beq_iff_eq]
  exact (denotes_doubleOfInt m).compare_eq_iff (denotes_doubleOfInt n)

end Flowchart
