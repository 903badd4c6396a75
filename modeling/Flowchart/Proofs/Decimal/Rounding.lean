import Flowchart.Decimal.Layout
import Mathlib.Data.Nat.Log
import Mathlib.Tactic.Ring

/-!
# Rounding to fifty-three bits

A double has room for fifty-three bits of significand. An integer with more of them is
rounded, a half to the even one (`nearest`). Up to `2 ^ 53` nothing is lost
(`nearest_of_natAbs_le`), and what lies further out stays there, so that two integers that
are rounded to the same one are both at least that large (`le_natAbs_of_nearest_eq`).
-/

namespace Flowchart.Decimal

variable {a b c n : Nat}

/-! ## Half to even -/

theorem roundHalfEven_mul_right (a b : Nat) (hc : 0 < c) :
    roundHalfEven (a * c) (b * c) = roundHalfEven a b := by
  have hlt (x y : Nat) : x * c < y * c ↔ x < y := Nat.mul_lt_mul_right hc
  simp only [roundHalfEven, Nat.mul_div_mul_right _ _ hc, Nat.mul_mod_mul_right, ← Nat.mul_assoc,
    hlt]

/-- Nothing is rounded where nothing is left over. -/
theorem roundHalfEven_mul_self (a : Nat) (hb : 0 < b) : roundHalfEven (a * b) b = a := by
  simp [roundHalfEven, Nat.mul_div_cancel a hb, hb]

theorem div_le_roundHalfEven (a b : Nat) : a / b ≤ roundHalfEven a b := by
  unfold roundHalfEven
  dsimp only
  split_ifs <;> omega

theorem roundHalfEven_le (a b : Nat) : roundHalfEven a b ≤ a / b + 1 := by
  unfold roundHalfEven
  dsimp only
  split_ifs <;> omega

/-! ## The nearest double -/

/-- How far apart the numbers with fifty-three bits are around this one. -/
def spacing (n : Nat) : Nat :=
  2 ^ (n.log2 - 52)

theorem spacing_pos (n : Nat) : 0 < spacing n :=
  Nat.two_pow_pos _

/-- The number rounded to fifty-three bits. -/
def nearestNat (n : Nat) : Nat :=
  roundHalfEven n (spacing n) * spacing n

/-- The integer rounded to fifty-three bits, whatever its sign. -/
def nearest (n : Int) : Int :=
  n.sign * nearestNat n.natAbs

theorem log2_le_of_lt {k : Nat} (h : n < 2 ^ (k + 1)) : n.log2 ≤ k := by
  rcases Nat.eq_zero_or_pos n with rfl | hpos
  · exact Nat.zero_le k
  · exact Nat.le_of_lt_succ ((Nat.log2_lt (Nat.ne_of_gt hpos)).mpr h)

/-- The spacing is one as long as all bits have room. -/
theorem nearestNat_of_log2_le (h : n.log2 ≤ 52) : nearestNat n = n := by
  have hspacing : spacing n = 1 := by rw [spacing, Nat.sub_eq_zero_of_le h, Nat.pow_zero]
  have hround := roundHalfEven_mul_self n Nat.one_pos
  rw [Nat.mul_one] at hround
  rw [nearestNat, hspacing, hround, Nat.mul_one]

theorem nearestNat_of_le (h : n ≤ 2 ^ 53) : nearestNat n = n := by
  rcases Nat.lt_or_eq_of_le h with hlt | rfl
  · exact nearestNat_of_log2_le (log2_le_of_lt hlt)
  · decide +kernel

/-- What has more bits stays beyond the numbers that have room. -/
theorem le_nearestNat (h : 2 ^ 53 ≤ n) : 2 ^ 53 ≤ nearestNat n := by
  have hpos : n ≠ 0 := by
    rintro rfl
    exact absurd h (by decide)
  have hlog : 53 ≤ n.log2 := (Nat.le_log2 hpos).mpr h
  have hdiv : 2 ^ 52 ≤ n / spacing n := by
    rw [Nat.le_div_iff_mul_le (spacing_pos n), spacing, ← Nat.pow_add]
    exact (Nat.pow_le_pow_right Nat.two_pos (by omega)).trans (Nat.log2_self_le hpos)
  have htwo : 2 ≤ spacing n := by
    rw [spacing]
    calc 2 = 2 ^ 1 := rfl
      _ ≤ 2 ^ (n.log2 - 52) := Nat.pow_le_pow_right Nat.two_pos (by omega)
  calc 2 ^ 53 = 2 ^ 52 * 2 := rfl
    _ ≤ roundHalfEven n (spacing n) * spacing n :=
        Nat.mul_le_mul (hdiv.trans (div_le_roundHalfEven _ _)) htwo

theorem nearestNat_pos (h : 0 < n) : 0 < nearestNat n := by
  rcases Nat.le_total n (2 ^ 53) with hle | hge
  · rwa [nearestNat_of_le hle]
  · exact Nat.lt_of_lt_of_le (Nat.two_pow_pos 53) (le_nearestNat hge)

/-! ## Signs -/

theorem nearest_natCast (n : Nat) : nearest n = nearestNat n := by
  rcases Nat.eq_zero_or_pos n with rfl | hpos
  · rfl
  · rw [nearest, Int.sign_natCast_of_ne_zero hpos.ne', Int.natAbs_natCast, Int.one_mul]

theorem nearest_neg (n : Int) : nearest (-n) = -nearest n := by
  rw [nearest, nearest, Int.sign_neg, Int.natAbs_neg, Int.neg_mul]

theorem natAbs_nearest (n : Int) : (nearest n).natAbs = nearestNat n.natAbs := by
  by_cases hzero : n = 0
  · rw [hzero]
    decide
  · rw [nearest, Int.natAbs_mul, Int.natAbs_sign_of_ne_zero hzero, Int.natAbs_natCast, Nat.one_mul]

theorem nearest_of_natAbs_le {n : Int} (h : n.natAbs ≤ 2 ^ 53) : nearest n = n := by
  rw [nearest, nearestNat_of_le h, Int.sign_mul_natAbs]

/-- Different integers that are rounded to the same one have more bits than there is room
for. -/
theorem le_natAbs_of_nearest_eq {m n : Int} (h : nearest m = nearest n) (hne : m ≠ n) :
    2 ^ 53 ≤ m.natAbs := by
  by_contra hlt
  have hm : nearest m = m := nearest_of_natAbs_le (by omega)
  rcases Nat.le_total n.natAbs (2 ^ 53) with hle | hge
  · exact hne (hm.symm.trans (h.trans (nearest_of_natAbs_le hle)))
  · have habs := congrArg Int.natAbs (hm.symm.trans h)
    rw [natAbs_nearest] at habs
    have hfar := le_nearestNat hge
    omega

end Flowchart.Decimal
