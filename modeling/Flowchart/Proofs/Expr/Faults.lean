import Flowchart.Expr.Evaluate

/-!
# What evaluation can raise

Evaluating a text ends with a value or with one of five kinds of errors: a coercion that
fails, operands that do not fit their operator, a text that is not well-formed, a token
that means nothing, or a computation on integers without a result
(`withinEvaluation_evaluate`). None of them is about blocks, documents or consoles.

Each stage of the evaluator raises some of these itself and hands on what the stages
below it raise, so there is one lemma for each of them, in the order in which they are
defined. For evaluation to any depth the induction is on the depth.
-/

namespace Flowchart

/-- The errors of evaluation. -/
def Error.isOfEvaluation : Error → Bool
  | coercion _ _ _ | mismatch _ _ _ | illFormed _ | unknownToken _ | arithmetic _ => true
  | _ => false

namespace Expr

/-- A result, or an error of evaluation. -/
def WithinEvaluation {α : Type} (outcome : Except Error α) : Prop :=
  ∀ e, outcome = .error e → e.isOfEvaluation = true

namespace WithinEvaluation

variable {α β : Type}

theorem ok (a : α) : WithinEvaluation (.ok a) :=
  fun _ h => absurd h (by simp)

theorem error {e : Error} (h : e.isOfEvaluation = true) :
    WithinEvaluation (.error e : Except Error α) :=
  fun _ he => Except.error.inj he ▸ h

/-- An error that is handed on. -/
theorem passOn {outcome : Except Error α} (h : WithinEvaluation outcome) {e : Error}
    (he : outcome = .error e) : WithinEvaluation (.error e : Except Error β) :=
  error (h e he)

theorem map {outcome : Except Error α} (h : WithinEvaluation outcome) (f : α → β) :
    WithinEvaluation (outcome.map f) := by
  cases outcome with
  | error e => exact error (h e rfl)
  | ok a => exact ok (f a)

end WithinEvaluation

open WithinEvaluation

/-! ## Values -/

theorem withinEvaluation_toDouble (v : Value) : WithinEvaluation v.toDouble := by
  unfold Value.toDouble
  dsimp only
  split
  · exact ok _
  · exact error rfl

theorem withinEvaluation_fitted (overflow : ArithmeticFault) (n : Int) :
    WithinEvaluation (fitted overflow n) := by
  unfold fitted
  split
  · exact ok _
  · exact error rfl

theorem withinEvaluation_negate (v : Value) : WithinEvaluation (negate v) := by
  unfold negate
  split
  · exact withinEvaluation_fitted _ _
  · split
    · next e he => exact (withinEvaluation_toDouble v).passOn he
    · exact ok _

theorem withinEvaluation_applyInt (op : BinaryOp) (x y : Int64) :
    WithinEvaluation (applyInt op x y) := by
  cases op with
  | add | sub | mul => exact withinEvaluation_fitted _ _
  | div =>
      unfold applyInt
      dsimp only
      split
      · exact error rfl
      · exact withinEvaluation_fitted _ _

theorem withinEvaluation_apply (op : BinaryOp) (a b : Value) : WithinEvaluation (apply op a b) := by
  unfold apply
  split
  · exact withinEvaluation_applyInt _ _ _
  · split
    · next e he => exact (withinEvaluation_toDouble a).passOn he
    · split
      · next e he => exact (withinEvaluation_toDouble b).passOn he
      · exact ok _

theorem withinEvaluation_order? (a b : Value) : WithinEvaluation (order? a b) := by
  unfold order?
  split
  · exact ok _
  · split
    · next e he => exact (withinEvaluation_toDouble _).passOn he
    · split
      · next e he => exact (withinEvaluation_toDouble _).passOn he
      · exact ok _

theorem withinEvaluation_compareValues (op : Comparison) (a b : Value) :
    WithinEvaluation (compareValues op a b) := by
  unfold compareValues
  split
  · split
    · next e he => exact (withinEvaluation_order? a b).passOn he
    · exact ok _
  · cases op with
    | eq | ne => exact ok _
    | lt | le | gt | ge => exact error rfl

/-! ## Arithmetic -/

theorem withinEvaluation_operand? (lexeme : List Char) (value : Option Value) :
    WithinEvaluation (Token.operand? lexeme value) := by
  cases value with
  | none => exact error rfl
  | some value => exact ok _

theorem withinEvaluation_ofLexeme (scope : Scope) (whole : List Char) (afterOperand : Bool)
    (lexeme : Lexeme) : WithinEvaluation (Token.ofLexeme scope whole afterOperand lexeme) := by
  cases lexeme with
  | number _ | slot _ | word _ => exact withinEvaluation_operand? _ _
  | literal _ | operator _ | leftParen | rightParen => exact ok _
  | unterminated | unknown _ => exact error rfl

theorem withinEvaluation_ofLexemes (scope : Scope) (whole : List Char) (afterOperand : Bool)
    (lexemes : List Lexeme) :
    WithinEvaluation (Token.ofLexemes scope whole afterOperand lexemes) := by
  induction lexemes generalizing afterOperand with
  | nil => exact ok _
  | cons lexeme rest ih =>
      rw [Token.ofLexemes]
      split
      · next e he => exact (withinEvaluation_ofLexeme scope whole afterOperand lexeme).passOn he
      · split
        · next e he => exact (ih _).passOn he
        · exact ok _

theorem WithinEvaluation.before {outcome : Except Error (List PostfixItem)}
    (h : WithinEvaluation outcome) (items : List PostfixItem) :
    WithinEvaluation (Expr.before items outcome) := by
  cases outcome with
  | error e => exact error (h e rfl)
  | ok rest => exact ok _

theorem withinEvaluation_toPostfixWith (stack : List Waiting) (tokens : List Token) :
    WithinEvaluation (toPostfixWith stack tokens) := by
  fun_induction toPostfixWith stack tokens with
  | case1 => exact ok _
  | case2 => exact error rfl
  | case3 stack value rest ih => exact ih.before _
  | case4 stack rest ih => exact ih
  | case5 stack op rest ih => exact ih.before _
  | case6 stack rest ih => exact ih
  | case7 stack rest items under _ ih => exact ih.before _
  | case8 => exact error rfl

theorem withinEvaluation_compute (stack : List Value) (item : PostfixItem) :
    WithinEvaluation (item.compute stack) := by
  cases item with
  | operand value => exact ok _
  | negation =>
      unfold PostfixItem.compute
      dsimp only
      split
      · exact error rfl
      · split
        · next e he => exact (withinEvaluation_negate _).passOn he
        · exact ok _
  | binary op =>
      unfold PostfixItem.compute
      dsimp only
      split
      · split
        · next e he => exact (withinEvaluation_apply _ _ _).passOn he
        · exact ok _
      · exact error rfl

theorem withinEvaluation_computeAll (stack : List Value) (items : List PostfixItem) :
    WithinEvaluation (computeAll stack items) := by
  induction items generalizing stack with
  | nil => exact ok _
  | cons item rest ih =>
      rw [computeAll]
      split
      · next e he => exact (withinEvaluation_compute stack item).passOn he
      · exact ih _

theorem withinEvaluation_evalTokens (tokens : List Token) :
    WithinEvaluation (evalTokens tokens) := by
  unfold evalTokens
  split
  · next e he => exact (withinEvaluation_toPostfixWith [] tokens).passOn he
  · next items _ =>
    unfold evalPostfix
    split
    · next e he => exact (withinEvaluation_computeAll [] items).passOn he
    · exact error rfl
    · exact ok _
    · exact error rfl

theorem withinEvaluation_evaluateArithmetic (text : List Char) (scope : Scope) :
    WithinEvaluation (evaluateArithmetic text scope) := by
  unfold evaluateArithmetic
  split
  · next e he => exact (withinEvaluation_ofLexemes scope text false _).passOn he
  · exact withinEvaluation_evalTokens _

/-! ## Any text -/

section

variable {eval : Evaluator} (heval : ∀ text scope, WithinEvaluation (eval text scope))
include heval

theorem withinEvaluation_open? (scope : Scope) (whole : List Char) (p : Pending) :
    WithinEvaluation (p.open? eval scope whole) := by
  unfold Pending.open?
  split
  · exact error rfl
  · split
    · next e he => exact (heval _ _).passOn he
    · exact ok _

theorem withinEvaluation_resolveFrom (scope : Scope) (whole : List Char) (inside : Bool)
    (text : List Char) : WithinEvaluation (resolveFrom eval scope whole inside text) := by
  induction text generalizing inside with
  | nil => exact ok _
  | cons c rest ih =>
      rw [resolveFrom]
      split
      · next e he => exact (ih _).passOn he
      · split
        · exact ok _
        · split
          · exact withinEvaluation_open? heval scope whole _
          · exact ok _

theorem withinEvaluation_resolveGroups (text : List Char) (scope : Scope) :
    WithinEvaluation (resolveGroups eval text scope) := by
  unfold resolveGroups
  split
  · exact error rfl
  · split
    · next e he => exact (withinEvaluation_resolveFrom heval scope text false text).passOn he
    · exact ok _

theorem withinEvaluation_conditionWith (text : List Char) (scope : Scope) :
    WithinEvaluation (conditionWith eval text scope) := by
  unfold conditionWith
  split
  · next e he => exact (heval text scope).passOn he
  · exact ok _
  · exact error rfl

theorem withinEvaluation_conditionsWith (scope : Scope)
    (operands : List (Connective × List Char)) :
    WithinEvaluation (conditionsWith eval scope operands) := by
  induction operands with
  | nil => exact ok _
  | cons operand rest ih =>
      rw [conditionsWith]
      split
      · next e he => exact (withinEvaluation_conditionWith heval operand.2 scope).passOn he
      · split
        · next e he => exact (ih).passOn he
        · exact ok _

theorem withinEvaluation_evaluateLogical (text : List Char) (scope : Scope) :
    WithinEvaluation (evaluateLogical eval text scope) := by
  unfold evaluateLogical
  split
  · next e he => exact (withinEvaluation_resolveGroups heval text scope).passOn he
  · dsimp only
    split
    · exact error rfl
    · split
      · next e he => exact (withinEvaluation_conditionWith heval _ _).passOn he
      · split
        · next e he => exact (withinEvaluation_conditionsWith heval _ _).passOn he
        · exact ok _

theorem withinEvaluation_evaluateComparison (text : List Char) (scope : Scope) :
    WithinEvaluation (evaluateComparison eval text scope) := by
  unfold evaluateComparison
  split
  · exact error rfl
  · split
    · split
      · next e he => exact (withinEvaluation_resolveGroups heval text scope).passOn he
      · exact heval _ _
    · dsimp only
      split
      · exact error rfl
      · split
        · next e he => exact (heval _ _).passOn he
        · split
          · next e he => exact (heval _ _).passOn he
          · exact (withinEvaluation_compareValues _ _ _).map _
    · exact error rfl

theorem withinEvaluation_evaluateBody (text : List Char) (scope : Scope) :
    WithinEvaluation (evaluateBody eval text scope) := by
  unfold evaluateBody
  dsimp only
  split
  · exact error rfl
  · split
    · exact ok _
    · split
      · exact (withinEvaluation_evaluateLogical heval _ _).map _
      · split
        · exact withinEvaluation_evaluateComparison heval _ _
        · exact withinEvaluation_evaluateArithmetic _ _

theorem withinEvaluation_evaluateWithin (depth : Nat) (text : List Char) (scope : Scope) :
    WithinEvaluation (evaluateWithin eval depth text scope) := by
  induction depth generalizing text scope with
  | zero => exact heval text scope
  | succ depth ih => exact withinEvaluation_evaluateBody ih text scope

end

/-- **Evaluation raises nothing but errors of evaluation.** -/
theorem withinEvaluation_evaluate (text : List Char) (scope : Scope) :
    WithinEvaluation (evaluate text scope) :=
  withinEvaluation_evaluateWithin (fun _ _ => error rfl) _ text scope

theorem withinEvaluation_evaluateCondition (text : List Char) (scope : Scope) :
    WithinEvaluation (evaluateCondition text scope) :=
  withinEvaluation_conditionWith withinEvaluation_evaluate text scope

end Expr

end Flowchart
