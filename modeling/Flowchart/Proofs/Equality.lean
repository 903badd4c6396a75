import Flowchart.Proofs.Decimal.Conversion

/-!
# Equality of numbers

Two numbers can be compared as they are or as doubles. `agrees` compares them as doubles as
soon as one of them is a double, and two integers as integers. The two ways differ on two
different integers that are rounded to the same double: these are equal as doubles and do not
agree (`agrees_iff_views`). Both integers are then at least `2 ^ 53` in size, and
`2 ^ 53` and `2 ^ 53 + 1` are the first such pair.
-/

namespace Flowchart

open Decimal Float.Model

/-! ## Symmetry -/

theorem compare_eq_comm (u u' : UnpackedFloat) :
    u.compare u' = some .eq ↔ u'.compare u = some .eq := by
  cases u with
  | notANumber => cases u' <;> simp [UnpackedFloat.compare]
  | infinity s =>
      cases u' with
      | notANumber | zero _ | finite _ _ _ _ => cases s <;> simp [UnpackedFloat.compare]
      | infinity s' => cases s <;> cases s' <;> simp [UnpackedFloat.compare]
  | zero _ =>
      cases u' with
      | notANumber | zero _ => simp [UnpackedFloat.compare]
      | infinity s' | finite s' _ _ _ => cases s' <;> simp [UnpackedFloat.compare]
  | finite s m e hm =>
      cases u' with
      | notANumber => simp [UnpackedFloat.compare]
      | infinity s' => cases s' <;> simp [UnpackedFloat.compare]
      | zero _ => cases s <;> simp [UnpackedFloat.compare]
      | finite s' m' e' hm' =>
          rw [compare_finite_eq_iff, compare_finite_eq_iff]
          simp only [eq_comm]

theorem double_beq_comm (x y : Float) : (x == y) = (y == x) := by
  rw [Bool.eq_iff_iff]
  show (x.toModel.unpack.compare y.toModel.unpack == some .eq) = true
    ↔ (y.toModel.unpack.compare x.toModel.unpack == some .eq) = true
  rw [beq_iff_eq, beq_iff_eq]
  exact compare_eq_comm _ _

namespace Value

/-! ## Rounding apart -/

/-- Two different integers that are the same one once they are rounded to a double. -/
def RoundedTogether (a b : Value) : Prop :=
  ∃ m n : Int64, a = .int m ∧ b = .int n ∧ m ≠ n ∧ nearest m.toInt = nearest n.toInt

theorem RoundedTogether.symm {a b : Value} (h : a.RoundedTogether b) : b.RoundedTogether a := by
  obtain ⟨m, n, ha, hb, hne, hsame⟩ := h
  exact ⟨n, m, hb, ha, hne.symm, hsame.symm⟩

theorem RoundedTogether.far_left {a b : Value} (h : a.RoundedTogether b) {m : Int64}
    (ha : a = .int m) : 2 ^ 53 ≤ m.toInt.natAbs := by
  obtain ⟨_, n, rfl, _, hne, hsame⟩ := h
  cases ha
  exact le_natAbs_of_nearest_eq hsame fun heq => hne (Int64.toInt_inj.mp heq)

theorem roundedTogether_int {m n : Int64} :
    (int m).RoundedTogether (int n) ↔ m ≠ n ∧ nearest m.toInt = nearest n.toInt := by
  constructor
  · rintro ⟨_, _, ⟨⟩, ⟨⟩, h⟩
    exact h
  · exact fun h => ⟨m, n, rfl, rfl, h⟩

theorem not_roundedTogether_double_left (x : Float) (b : Value) :
    ¬(double x).RoundedTogether b := by
  rintro ⟨_, _, ⟨⟩, _⟩

theorem not_roundedTogether_double_right (a : Value) (y : Float) :
    ¬a.RoundedTogether (double y) :=
  fun h => not_roundedTogether_double_left y a h.symm

/-! ## The two ways to compare -/

/-- The numbers have these doubles, and agree iff the doubles are equal, unless they are
rounded together. -/
structure Compared (a b : Value) (x y : Float) : Prop where
  left : a.toDouble = .ok x
  right : b.toDouble = .ok y
  agrees : a.agrees b = true ↔ (x == y) = true ∧ ¬a.RoundedTogether b
  together : a.RoundedTogether b → (x == y) = true
  far : a.RoundedTogether b → ∀ m : Int64, a = .int m ∨ b = .int m → 2 ^ 53 ≤ m.toInt.natAbs

theorem compared_of_not_roundedTogether {a b : Value} {x y : Float} (hleft : a.toDouble = .ok x)
    (hright : b.toDouble = .ok y) (hagrees : a.agrees b = (x == y))
    (h : ¬a.RoundedTogether b) : Compared a b x y where
  left := hleft
  right := hright
  agrees := by rw [hagrees, and_iff_left h]
  together hrounded := absurd hrounded h
  far hrounded := absurd hrounded h

theorem compared_int (m n : Int64) :
    Compared (.int m) (.int n) (doubleOfInt m) (doubleOfInt n) where
  left := rfl
  right := rfl
  agrees := by
    rw [doubleOfInt_beq_iff, roundedTogether_int]
    show decide (m = n) = true ↔ _
    rw [decide_eq_true_iff]
    constructor
    · rintro rfl
      exact ⟨rfl, fun h => h.1 rfl⟩
    · rintro ⟨hsame, hnot⟩
      by_contra hne
      exact hnot ⟨hne, hsame⟩
  together h := (doubleOfInt_beq_iff m n).mpr (roundedTogether_int.mp h).2
  far h _ hm := hm.elim h.far_left h.symm.far_left

/-- **Numbers agree iff their doubles are equal, unless both are integers that are rounded
together.** -/
theorem agrees_iff_views {a b : Value} (ha : a.isNumeric = true) (hb : b.isNumeric = true) :
    ∃ x y, Compared a b x y := by
  cases a with
  | str | bool => cases ha
  | int m =>
      cases b with
      | str | bool => cases hb
      | int n => exact ⟨_, _, compared_int m n⟩
      | double y =>
          exact ⟨_, _, compared_of_not_roundedTogether rfl rfl rfl
            (not_roundedTogether_double_right _ y)⟩
  | double x =>
      cases b with
      | str | bool => cases hb
      | int n =>
          exact ⟨_, _, compared_of_not_roundedTogether rfl rfl (double_beq_comm _ x)
            (not_roundedTogether_double_left x _)⟩
      | double y =>
          exact ⟨_, _, compared_of_not_roundedTogether rfl rfl rfl
            (not_roundedTogether_double_left x _)⟩

/-- The first integer that is rounded agrees with the double that it is rounded to. -/
theorem agrees_iff_views_pow :
    (int 9007199254740993).isNumeric = true ∧ (double 9007199254740992).isNumeric = true ∧
      (int 9007199254740993).agrees (double 9007199254740992) = true ∧
      ∃ x y, Compared (.int 9007199254740993) (.double 9007199254740992) x y :=
  ⟨rfl, rfl, by decide +kernel, agrees_iff_views rfl rfl⟩

/-- Being equal as doubles is not enough: `2 ^ 53` and `2 ^ 53 + 1` are the same double. -/
theorem not_agrees_iff_views :
    ¬∀ a b : Value, a.isNumeric = true → b.isNumeric = true →
      (a.agrees b = true ↔ ∃ x y, a.toDouble = .ok x ∧ b.toDouble = .ok y ∧ (x == y) = true) := by
  intro h
  have hiff := h (.int 9007199254740992) (.int 9007199254740993) rfl rfl
  have hequal : (doubleOfInt 9007199254740992 == doubleOfInt 9007199254740993) = true := by
    decide +kernel
  have hagrees := hiff.mpr ⟨_, _, rfl, rfl, hequal⟩
  exact absurd hagrees (by decide +kernel)

end Value

end Flowchart
