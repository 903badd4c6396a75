import Flowchart.Proofs.Expr.Grammar
import Flowchart.Proofs.Expr.Seam
import Mathlib.Algebra.Ring.Int.Defs

/-!
# Integers are exact

An expression over integers has a value over the unbounded ones, unless it divides by zero.
The evaluator has sixty-four bits. It never rounds and it never wraps: its result is that
value if all values on the way fit, and an arithmetic error as soon as one does not
(`evaluate_of_integral`).

The argument goes through the tree that the evaluator computes, which is known from the text
(`Writes.evaluate_eq`). Each of its operators is either exact or rejected
(`ExactOrRejected`), and so is what is composed of such (`ExactOrRejected.bind`).
-/

namespace Flowchart

/-- What an operator makes of unbounded integers. Division drops the fraction, and there is
none by zero. -/
def BinaryOp.unbounded? : BinaryOp → Int → Int → Option Int
  | add, x, y => some (x + y)
  | sub, x, y => some (x - y)
  | mul, x, y => some (x * y)
  | div, x, y => if y = 0 then none else some (x.tdiv y)

namespace Expr

/-! ## Arithmetic texts -/

namespace Phrase

theorem IsArithmetic.not_connected {p : Phrase} (h : p.IsArithmetic) : p.connected = false := by
  refine List.any_eq_false.mpr fun op hmem => ?_
  obtain ⟨o, rfl⟩ := h op hmem
  exact Bool.false_ne_true

theorem IsArithmetic.not_compared {p : Phrase} (h : p.IsArithmetic) : p.compared = false := by
  refine List.any_eq_false.mpr fun op hmem => ?_
  obtain ⟨o, rfl⟩ := h op hmem
  exact Bool.false_ne_true

end Phrase

/-- **A text that writes arithmetic is computed**, to a value or to the first fault. -/
theorem Writes.evaluate_eq {rule : Rule} {a : Expression} {text : List Char} {scope : Scope}
    {tree : Arithmetic} (h : Writes rule a text) (htree : a.arithmetic? scope = some tree) :
    evaluate text scope = tree.eval := by
  obtain ⟨p, hp⟩ := h.exists_phrase
  have hphrase : p.arithmetic? scope = some tree := (hp.arithmetic_eq scope).trans htree
  have harith := Phrase.isArithmetic_of_arithmetic? hphrase
  have hconnective : hasConnective p.text = false :=
    hp.ok.hasConnective_text.trans harith.not_connected
  have hcomparison : hasComparison p.text = false :=
    hp.ok.hasComparison_text.trans harith.not_compared
  rw [← hp.text_eq, evaluate_of_arithmetic hconnective hcomparison, hp.ok.unwrap_trim_text]
  exact hp.ok.core.evaluateArithmetic_eq (by rwa [Phrase.arithmetic?_core])

theorem Arithmetic.eval_negation (a : Arithmetic) : (negation a).eval = a.eval >>= negate := by
  rw [eval]
  cases a.eval <;> rfl

theorem Arithmetic.eval_binary (op : BinaryOp) (a b : Arithmetic) :
    (binary op a b).eval = a.eval >>= fun x => b.eval >>= fun y => apply op x y := by
  rw [eval]
  cases a.eval with
  | error e => rfl
  | ok x => cases b.eval <;> rfl

/-! ## Sixty-four bits -/

/-- The integer fits sixty-four bits. -/
def InWord (n : Int) : Prop :=
  -2 ^ 63 ≤ n ∧ n ≤ 2 ^ 63 - 1

instance (n : Int) : Decidable (InWord n) := inferInstanceAs (Decidable (_ ∧ _))

theorem inWord_toInt (n : Int64) : InWord n.toInt :=
  ⟨n.le_toInt, Int.le_sub_one_of_lt n.toInt_lt⟩

theorem int64?_of_inWord {n : Int} (h : InWord n) :
    ∃ m : Int64, Decimal.int64? n = some m ∧ m.toInt = n := by
  have hrange : Int64.minValue.toInt ≤ n ∧ n ≤ Int64.maxValue.toInt := h
  exact ⟨Int64.ofInt n, if_pos hrange, Int64.toInt_ofInt_of_le h.1 (Int.lt_of_le_sub_one h.2)⟩

theorem int64?_of_not_inWord {n : Int} (h : ¬ InWord n) : Decimal.int64? n = none := by
  have hrange : ¬ (Int64.minValue.toInt ≤ n ∧ n ≤ Int64.maxValue.toInt) := h
  exact if_neg hrange

/-- Digits without a point are an integer if it fits. -/
theorem numberValue?_of_digits {text : List Char} (hne : text ≠ [])
    (hdigits : ∀ c ∈ text, c.isDigit = true)
    (hword : InWord (Nat.ofDigitChars 10 text 0)) :
    ∃ n : Int64, numberValue? text = some (.int n) ∧ n.toInt = Nat.ofDigitChars 10 text 0 := by
  obtain ⟨n, hn, hvalue⟩ := int64?_of_inWord hword
  have hpoint : text.contains '.' = false := by
    refine Bool.eq_false_iff.mpr fun hmem => ?_
    exact absurd (hdigits '.' (List.contains_iff_mem.mp hmem)) (by decide)
  have hsign : Decimal.splitSign text = (false, text) := by
    unfold Decimal.splitSign
    split
    · exact absurd (hdigits '-' List.mem_cons_self) (by decide)
    · exact absurd (hdigits '+' List.mem_cons_self) (by decide)
    · rfl
  have hnat : Decimal.readNat? text = some (Nat.ofDigitChars 10 text 0) :=
    if_pos ⟨hne, List.all_eq_true.mpr hdigits⟩
  have hread : Decimal.readInt64? text = some n := by
    simp [Decimal.readInt64?, Decimal.readInteger?, hsign, hnat, hn]
  exact ⟨n, by rw [numberValue?, hpoint, if_neg Bool.false_ne_true, hread], hvalue⟩

/-! ## Exact or rejected -/

/-- The outcome is the exact integer where that is safe, and an arithmetic error elsewhere. -/
structure ExactOrRejected (outcome : Except Error Value) (value : Option Int) (safe : Prop) :
    Prop where
  exact_of_safe : safe → ∃ n : Int64, outcome = .ok (.int n) ∧ value = some n.toInt
  fault_of_not_safe : ¬ safe → ∃ fault, outcome = .error (.arithmetic fault)

/-- What is computed from something exact or rejected is so too, if it is safe only where
the first part is. -/
theorem ExactOrRejected.bind {outcome : Except Error Value} {value value' : Option Int}
    {safe safe' : Prop} {next : Value → Except Error Value}
    (h : ExactOrRejected outcome value safe) (hsafe : safe' → safe)
    (hnext : safe → ∀ n : Int64, value = some n.toInt →
      ExactOrRejected (next (.int n)) value' safe') :
    ExactOrRejected (outcome >>= next) value' safe' := by
  by_cases hs : safe
  · obtain ⟨n, rfl, hvalue⟩ := h.exact_of_safe hs
    exact hnext hs n hvalue
  · obtain ⟨fault, rfl⟩ := h.fault_of_not_safe hs
    exact ⟨fun hs' => absurd (hsafe hs') hs, fun _ => ⟨fault, rfl⟩⟩

theorem exactOrRejected_fitted (fault : ArithmeticFault) (n : Int) :
    ExactOrRejected (fitted fault n) (some n) (InWord n) where
  exact_of_safe h := by
    obtain ⟨m, hm, rfl⟩ := int64?_of_inWord h
    exact ⟨m, by rw [fitted, hm], rfl⟩
  fault_of_not_safe h := ⟨fault, by rw [fitted, int64?_of_not_inWord h]⟩

theorem exactOrRejected_apply (op : BinaryOp) (x y : Int64) :
    ExactOrRejected (apply op (.int x) (.int y)) (op.unbounded? x.toInt y.toInt)
      (¬ (op = .div ∧ y.toInt = 0) ∧ ∀ z ∈ op.unbounded? x.toInt y.toInt, InWord z) := by
  have hfitted (z : Int) (hop : ¬ (op = .div ∧ y.toInt = 0)) :
      ExactOrRejected (fitted (.overflow x op y) z) (some z)
        (¬ (op = .div ∧ y.toInt = 0) ∧ ∀ z' ∈ some z, InWord z') := by
    have hsafe : (¬ (op = .div ∧ y.toInt = 0) ∧ ∀ z' ∈ some z, InWord z') ↔ InWord z := by
      simp [hop]
    rw [hsafe]
    exact exactOrRejected_fitted _ z
  cases op with
  | add | sub | mul => exact hfitted _ (by simp)
  | div =>
      by_cases hzero : y.toInt = 0
      · refine ⟨fun hsafe => absurd ⟨rfl, hzero⟩ hsafe.1, fun _ => ⟨.divisionByZero, ?_⟩⟩
        exact if_pos (Int64.toInt_inj.mp hzero)
      · have hy : y ≠ 0 := fun hy => hzero (hy ▸ rfl)
        have happly : apply .div (.int x) (.int y)
            = fitted (.overflow x .div y) (x.toInt.tdiv y.toInt) := if_neg hy
        have hvalue : BinaryOp.unbounded? .div x.toInt y.toInt = some (x.toInt.tdiv y.toInt) :=
          if_neg hzero
        rw [happly, hvalue]
        exact hfitted _ fun h => hzero h.2

/-! ## Integer expressions -/

namespace Expression

/-- All operands of the expression are integers of sixty-four bits, written in digits or
held by variables, and all operators between them are arithmetic. -/
inductive Integral (scope : Scope) : Expression → Prop where
  | number {text : List Char} (hne : text ≠ []) (hdigits : ∀ c ∈ text, c.isDigit = true)
      (hword : InWord (Nat.ofDigitChars 10 text 0)) : Integral scope (.number text)
  | name {text : List Char} {n : Int64} (h : scope (String.ofList text) = some (.int n)) :
      Integral scope (.name text)
  | negation {a : Expression} (ha : Integral scope a) : Integral scope (.negation a)
  | joined {op : BinaryOp} {a b : Expression} (ha : Integral scope a) (hb : Integral scope b) :
      Integral scope (.joined (.arithmetic op) a b)

/-- The value over unbounded integers, if no divisor is zero. -/
def unbounded? (scope : Scope) : Expression → Option Int
  | number text => some (Nat.ofDigitChars 10 text 0)
  | name text =>
    match scope (String.ofList text) with
    | some (.int n) => some n.toInt
    | _ => none
  | negation a => (a.unbounded? scope).map fun x => -x
  | joined (.arithmetic op) a b =>
    (a.unbounded? scope).bind fun x => (b.unbounded? scope).bind fun y => op.unbounded? x y
  | _ => none

/-- The expression and all expressions that it is composed of. -/
def parts : Expression → List Expression
  | negation a => negation a :: a.parts
  | joined op a b => joined op a b :: (a.parts ++ b.parts)
  | operand => [operand]

/-- Whether the expression is a division by something that is zero. -/
def dividesByZero (scope : Scope) : Expression → Bool
  | joined (.arithmetic .div) _ b => b.unbounded? scope = some 0
  | _ => false

/-- Over unbounded integers no part of the expression divides by zero, and the value of each
fits sixty-four bits. -/
def Safe (scope : Scope) (a : Expression) : Prop :=
  ∀ part ∈ a.parts, part.dividesByZero scope = false ∧ ∀ x ∈ part.unbounded? scope, InWord x

instance (scope : Scope) (a : Expression) : Decidable (a.Safe scope) :=
  inferInstanceAs (Decidable (∀ part ∈ a.parts, _ ∧ _))

variable {scope : Scope} {a b : Expression} {op : Operator}

theorem safe_negation : (negation a).Safe scope ↔
    a.Safe scope ∧ ∀ x ∈ (negation a).unbounded? scope, InWord x := by
  rw [Safe, parts, List.forall_mem_cons, and_comm]
  exact and_congr_right fun _ => and_iff_right rfl

theorem safe_joined : (joined op a b).Safe scope ↔
    a.Safe scope ∧ b.Safe scope ∧ (joined op a b).dividesByZero scope = false ∧
      ∀ x ∈ (joined op a b).unbounded? scope, InWord x := by
  rw [Safe, parts, List.forall_mem_cons, List.forall_mem_append, and_comm, and_assoc]
  rfl

/-- An operand that is in range is safe. -/
theorem exactOrRejected_operand {n : Int64} (hparts : a.parts = [a])
    (hdivides : a.dividesByZero scope = false) (hvalue : a.unbounded? scope = some n.toInt) :
    ExactOrRejected (Arithmetic.operand (.int n)).eval (a.unbounded? scope) (a.Safe scope) := by
  have hsafe : a.Safe scope := by
    rw [Safe, hparts, List.forall_mem_singleton, hvalue]
    refine ⟨hdivides, fun x hx => ?_⟩
    obtain rfl := Option.some.inj hx
    exact inWord_toInt n
  exact ⟨fun _ => ⟨n, rfl, hvalue⟩, fun hnot => absurd hsafe hnot⟩

/-- The tree of an integer expression is exact or rejected. -/
theorem exactOrRejected_of_integral (h : a.Integral scope) :
    ∃ tree, a.arithmetic? scope = some tree ∧
      ExactOrRejected tree.eval (a.unbounded? scope) (a.Safe scope) := by
  induction h with
  | @number text hne hdigits hword =>
      obtain ⟨n, hvalue, hn⟩ := numberValue?_of_digits hne hdigits hword
      refine ⟨.operand (.int n), congrArg (Option.map Arithmetic.operand) hvalue, ?_⟩
      exact exactOrRejected_operand rfl rfl (congrArg some hn.symm)
  | @name text n h =>
      refine ⟨.operand (.int n), congrArg (Option.map Arithmetic.operand) h, ?_⟩
      exact exactOrRejected_operand rfl rfl (by rw [unbounded?, h])
  | @negation a _ ih =>
      obtain ⟨tree, htree, hexact⟩ := ih
      refine ⟨.negation tree, by rw [arithmetic?, htree, Option.map_some], ?_⟩
      rw [tree.eval_negation]
      refine hexact.bind (fun hsafe => (safe_negation.mp hsafe).1) fun hsafe n hn => ?_
      have hvalue : (negation a).unbounded? scope = some (-n.toInt) := by
        rw [unbounded?, hn, Option.map_some]
      have hword : (negation a).Safe scope ↔ InWord (-n.toInt) := by
        rw [safe_negation, and_iff_right hsafe, hvalue]
        simp
      rw [hvalue, hword]
      exact exactOrRejected_fitted _ _
  | @joined op a b _ _ iha ihb =>
      obtain ⟨treeA, htreeA, hexactA⟩ := iha
      obtain ⟨treeB, htreeB, hexactB⟩ := ihb
      refine ⟨.binary op treeA treeB, by rw [arithmetic?, htreeA, htreeB]; rfl, ?_⟩
      rw [treeA.eval_binary]
      refine hexactA.bind (fun hsafe => (safe_joined.mp hsafe).1) fun hsafeA x hx => ?_
      refine hexactB.bind (fun hsafe => (safe_joined.mp hsafe).2.1) fun hsafeB y hy => ?_
      have hvalue : (joined (.arithmetic op) a b).unbounded? scope
          = op.unbounded? x.toInt y.toInt := by
        rw [unbounded?, hx, hy, Option.bind_some, Option.bind_some]
      have hdivides : (joined (.arithmetic op) a b).dividesByZero scope = false ↔
          ¬ (op = .div ∧ y.toInt = 0) := by
        cases op <;> simp [dividesByZero, hy]
      have hsafe : (joined (.arithmetic op) a b).Safe scope ↔
          ¬ (op = .div ∧ y.toInt = 0) ∧ ∀ z ∈ op.unbounded? x.toInt y.toInt, InWord z := by
        rw [safe_joined, and_iff_right hsafeA, and_iff_right hsafeB, hdivides, hvalue]
      rw [hvalue, hsafe]
      exact exactOrRejected_apply op x y

end Expression

/-- **Integer expressions are exact or rejected.** When all operands of a text are integers of
sixty-four bits, its value is the one over unbounded integers if there no divisor is zero
and all values on the way fit. Otherwise it is an arithmetic error. -/
theorem evaluate_of_integral {a : Expression} {text : List Char} (hwrites : Writes .or a text)
    {scope : Scope} (hintegral : a.Integral scope) :
    (∀ value, evaluate text scope = .ok value ↔
      a.Safe scope ∧ ∃ n : Int64, value = .int n ∧ a.unbounded? scope = some n.toInt) ∧
    (a.Safe scope → ∃ n : Int64, evaluate text scope = .ok (.int n)) ∧
    (¬ a.Safe scope → ∃ fault, evaluate text scope = .error (.arithmetic fault)) := by
  obtain ⟨tree, htree, hexact⟩ := Expression.exactOrRejected_of_integral hintegral
  rw [hwrites.evaluate_eq htree]
  refine ⟨fun value => ⟨fun heval => ?_, ?_⟩, fun hsafe => ?_, hexact.fault_of_not_safe⟩
  · by_cases hsafe : a.Safe scope
    · obtain ⟨n, hn, hvalue⟩ := hexact.exact_of_safe hsafe
      exact ⟨hsafe, n, Except.ok.inj (heval.symm.trans hn), hvalue⟩
    · obtain ⟨fault, hfault⟩ := hexact.fault_of_not_safe hsafe
      exact absurd (heval.symm.trans hfault) (by simp)
  · rintro ⟨hsafe, n, rfl, hvalue⟩
    obtain ⟨m, hm, hvalue'⟩ := hexact.exact_of_safe hsafe
    obtain rfl : n = m := Int64.toInt_inj.mp (Option.some.inj (hvalue.symm.trans hvalue'))
    exact hm
  · obtain ⟨n, hn, -⟩ := hexact.exact_of_safe hsafe
    exact ⟨n, hn⟩

/-- The variable `x` holds the least integer of sixty-four bits. -/
def leastInteger : Scope := fun name => if name = "x" then some (.int Int64.minValue) else none

/-- The least integer has no opposite, by a sign or by a division. The next one has. -/
theorem evaluate_of_integral_leastInteger :
    evaluate "(x + 1) / -1".toList leastInteger = .ok (.int Int64.maxValue) ∧
    (∃ fault, evaluate "x / -1".toList leastInteger = .error (.arithmetic fault)) ∧
    ∃ fault, evaluate "-x".toList leastInteger = .error (.arithmetic fault) := by
  have hblank : Text.isBlank ' ' = true := by decide
  have hx : Writes .atom (.name ['x']) ['x'] :=
    .name ⟨by decide, 'x', [], rfl, by decide, by simp⟩
  have hdigits : ∀ c ∈ ['1'], c.isDigit = true := by simp
  have hone : Writes .atom (.number ['1']) ['1'] :=
    .number (by simp) fun c hmem => Bool.or_eq_true_iff.mpr (.inl (hdigits c hmem))
  have hsum := Writes.sum (.inl rfl) (.blankBack hblank (.ofProd (.ofUnary (.ofAtom hx))))
    (.blankFront hblank (.ofUnary (.ofAtom hone)))
  have hquotient {a : Expression} {s : List Char} (ha : Writes .atom a s) :=
    Writes.ofAnd (.ofCmp (.ofSum (.ofProd (.prod (.inr rfl)
      (.blankBack hblank (.ofUnary (.ofAtom ha)))
      (.blankFront hblank (.negation (.ofAtom hone)))))))
  have hsecond : Writes .or _ "(x + 1) / -1".toList :=
    cast (congrArg (Writes .or _) (by decide))
      (hquotient (.group (.ofAnd (.ofCmp (.ofSum hsum)))))
  have hleast : Writes .or _ "x / -1".toList :=
    cast (congrArg (Writes .or _) (by decide)) (hquotient hx)
  have hsign : Writes .or _ "-x".toList :=
    .ofAnd (.ofCmp (.ofSum (.ofProd (.ofUnary (.negation (.ofAtom hx))))))
  have hname : Expression.Integral leastInteger (.name ['x']) := .name rfl
  have hnumber : Expression.Integral leastInteger (.number ['1']) :=
    .number (by simp) hdigits (by decide)
  exact ⟨((evaluate_of_integral hsecond (.joined (.joined hname hnumber) (.negation hnumber))).1
      (.int Int64.maxValue)).mpr ⟨by decide, Int64.maxValue, rfl, by decide⟩,
    (evaluate_of_integral hleast (.joined hname (.negation hnumber))).2.2 (by decide),
    (evaluate_of_integral hsign (.negation hname)).2.2 (by decide)⟩

end Expr

end Flowchart
