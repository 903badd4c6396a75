import Flowchart.Proofs.Expr.Integers

/-!
# Literals read back

A value that is written as a literal is read again, by whoever evaluates the text around it.
Truth values and texts without quotes come back as they were (`evaluate_literal`). So do
integers, one apart. The reader knows no negative numbers, it reads a magnitude and then
changes the sign, and the magnitude of the least integer does not fit. It is read as a
double instead.
-/

namespace Flowchart

namespace Value

/-- Values whose literal shows where they end. A text is written between quotes, and there
is no escape. -/
inductive Quotable : Value → Prop where
  | int (n : Int64) : Quotable (.int n)
  | bool (b : Bool) : Quotable (.bool b)
  | str {text : String} (h : '"' ∉ text.toList) : Quotable (.str text)

theorem literal_str (text : String) :
    (str text).literal.toList = '"' :: text.toList ++ ['"'] := by
  simp [literal]

theorem literal_bool (b : Bool) : boolOfWord? (bool b).literal.toList = some b := by
  cases b <;> decide

/-- An integer is written as its magnitude, after a sign if it is negative. -/
theorem literal_int (n : Int64) :
    (int n).literal.toList
      = if n.toInt < 0 then '-' :: Nat.toDigits 10 n.toInt.natAbs
        else Nat.toDigits 10 n.toInt.natAbs := by
  have hliteral : (int n).literal = toString n.toInt := rfl
  rw [hliteral]
  cases n.toInt with
  | ofNat m =>
      have hsign : ¬ Int.ofNat m < 0 := Int.not_lt.mpr (Int.natCast_nonneg m)
      rw [if_neg hsign]
      exact String.toList_ofList
  | negSucc m =>
      have htext : toString (Int.negSucc m) = "-" ++ String.ofList (Nat.toDigits 10 (m + 1)) := rfl
      rw [if_pos (Int.negSucc_lt_zero m), htext, String.toList_append]
      exact congrArg ('-' :: ·) String.toList_ofList

end Value

namespace Expr

/-! ## Magnitudes -/

theorem writes_toDigits (m : Nat) :
    Writes .atom (.number (Nat.toDigits 10 m)) (Nat.toDigits 10 m) :=
  .number Nat.toDigits_ne_nil fun _ hmem =>
    Bool.or_eq_true_iff.mpr (.inl (Nat.isDigit_of_mem_toDigits (by decide) (by decide) hmem))

/-- A magnitude that fits is read exactly. -/
theorem numberValue?_toDigits {m : Nat} (h : InWord m) :
    ∃ n : Int64, numberValue? (Nat.toDigits 10 m) = some (.int n) ∧ n.toInt = m := by
  have hdigits : ∀ c ∈ Nat.toDigits 10 m, c.isDigit = true := fun c hmem =>
    Nat.isDigit_of_mem_toDigits (by decide) (by decide) hmem
  have hread := numberValue?_of_digits Nat.toDigits_ne_nil hdigits
  rw [Nat.ofDigitChars_ten_toDigits] at hread
  exact hread h

/-- The magnitude of the least integer is one too large. -/
theorem numberValue?_toDigits_least :
    numberValue? (Nat.toDigits 10 Int64.minValue.toInt.natAbs)
      = some (.double (-doubleOfInt Int64.minValue)) := by
  decide +kernel

theorem evaluate_toDigits {m : Nat} {v : Value} (h : numberValue? (Nat.toDigits 10 m) = some v)
    (scope : Scope) : evaluate (Nat.toDigits 10 m) scope = .ok v := by
  have htree : (Expression.number (Nat.toDigits 10 m)).arithmetic? scope = some (.operand v) :=
    congrArg (Option.map Arithmetic.operand) h
  exact (writes_toDigits m).evaluate_eq htree

theorem evaluate_signed {m : Nat} {v : Value} (h : numberValue? (Nat.toDigits 10 m) = some v)
    (scope : Scope) : evaluate ('-' :: Nat.toDigits 10 m) scope = negate v := by
  have htree : (Expression.negation (.number (Nat.toDigits 10 m))).arithmetic? scope
      = some (.negation (.operand v)) :=
    congrArg (fun value => (value.map Arithmetic.operand).map Arithmetic.negation) h
  exact (Writes.negation (.ofAtom (writes_toDigits m))).evaluate_eq htree

/-! ## Integers -/

theorem fitted_toInt (fault : ArithmeticFault) (n : Int64) :
    fitted fault n.toInt = .ok (.int n) := by
  obtain ⟨m, hm, hn⟩ := int64?_of_inWord (inWord_toInt n)
  rw [fitted, hm, Int64.toInt_inj.mp hn]

theorem evaluate_literal_int {n : Int64} (hleast : n ≠ Int64.minValue) (scope : Scope) :
    evaluate (Value.int n).literal.toList scope = .ok (.int n) := by
  have hgap : n.toInt ≠ -2 ^ 63 := fun h => hleast (Int64.toInt_inj.mp h)
  obtain ⟨hlow, hhigh⟩ := inWord_toInt n
  have hword : InWord (n.toInt.natAbs : Int) := by
    unfold InWord
    omega
  obtain ⟨k, hread, hk⟩ := numberValue?_toDigits hword
  rw [Value.literal_int]
  by_cases hsign : n.toInt < 0
  · have hopposite : -k.toInt = n.toInt := by omega
    rw [if_pos hsign, evaluate_signed hread, negate, hopposite, fitted_toInt]
  · have hsame : k.toInt = n.toInt := by omega
    rw [if_neg hsign, evaluate_toDigits hread, Int64.toInt_inj.mp hsame]

/-- The least integer reads back as the double of the same size. -/
theorem evaluate_literal_least (scope : Scope) :
    evaluate (Value.int Int64.minValue).literal.toList scope
      = .ok (.double (doubleOfInt Int64.minValue)) := by
  have hopposite : negate (.double (-doubleOfInt Int64.minValue))
      = .ok (.double (doubleOfInt Int64.minValue)) := by decide +kernel
  rw [Value.literal_int, if_pos (by decide), evaluate_signed numberValue?_toDigits_least, hopposite]

/-! ## Any value -/

/-- **Literals read back**, in any scope and with their type, unless they write the least
integer. -/
theorem evaluate_literal {v : Value} (h : v.Quotable) (scope : Scope) :
    evaluate v.literal.toList scope = .ok v ↔ v ≠ .int Int64.minValue := by
  cases h with
  | int n =>
      constructor
      · rintro heval heq
        rw [heq, evaluate_literal_least] at heval
        cases heval
      · exact fun hleast => evaluate_literal_int (fun heq => hleast (congrArg _ heq)) scope
  | bool b =>
      have htree : (Expression.truth b).arithmetic? scope = some (.operand (.bool b)) := rfl
      exact iff_of_true ((Writes.truth (Value.literal_bool b)).evaluate_eq htree) (by simp)
  | @str text hquote =>
      have htree : (Expression.literal text.toList).arithmetic? scope
          = some (.operand (.str text)) :=
        congrArg (fun text => some (Arithmetic.operand (.str text))) String.ofList_toList
      rw [Value.literal_str]
      exact iff_of_true ((Writes.literal hquote).evaluate_eq htree) (by simp)

/-- An integer with a sign, and a text that looks like a condition. -/
theorem evaluate_literal_samples :
    evaluate (Value.int (-7)).literal.toList (fun _ => none) = .ok (.int (-7)) ∧
    evaluate (Value.str "a) && (1 < $0").literal.toList (fun _ => none)
      = .ok (.str "a) && (1 < $0") :=
  ⟨(evaluate_literal (.int (-7)) _).mpr (by decide),
    (evaluate_literal (.str (by decide)) _).mpr (by decide)⟩

/-- The least integer does not. -/
theorem evaluate_literal_ne_least :
    (Value.int Int64.minValue).literal = "-9223372036854775808" ∧
    evaluate "-9223372036854775808".toList (fun _ => none)
      ≠ .ok (.int Int64.minValue) := by
  decide +kernel

end Expr

end Flowchart
