import Flowchart.Expr.Postfix

/-!
# Postfix order keeps the meaning

A list of tokens that writes an arithmetic expression in infix order, with parentheses
where precedence asks for them and anywhere else, is computed to the value of the
expression (`Infix.evalTokens`).

The invariant of the conversion is about the stack (`Infix.toPostfixWith`): reading the
tokens of an operand leaves some operators of it on the stack, all of which bind at
least as tightly as the operand does. So whatever operator comes next lets them all go
before it touches anything that was on the stack earlier.
-/

namespace Flowchart.Expr

/-- An arithmetic expression over values. -/
inductive Arithmetic where
  | operand (value : Value)
  | negation (a : Arithmetic)
  | binary (op : BinaryOp) (a b : Arithmetic)

namespace Arithmetic

/-- The value, computed from left to right. -/
def eval : Arithmetic → Except Error Value
  | operand value => .ok value
  | negation a =>
    match a.eval with
    | .error e => .error e
    | .ok x => negate x
  | binary op a b =>
    match a.eval with
    | .error e => .error e
    | .ok x =>
      match b.eval with
      | .error e => .error e
      | .ok y => apply op x y

/-- The operands and operators in postfix order. -/
def items : Arithmetic → List PostfixItem
  | operand value => [.operand value]
  | negation a => a.items ++ [.negation]
  | binary op a b => a.items ++ b.items ++ [.binary op]

/-- Computing the items of an expression puts its value onto the stack. -/
theorem computeAll_items (a : Arithmetic) (stack : List Value) (rest : List PostfixItem) :
    computeAll stack (a.items ++ rest) =
      match a.eval with
      | .error e => .error e
      | .ok x => computeAll (x :: stack) rest := by
  induction a generalizing stack rest with
  | operand value => rfl
  | negation a ih =>
      rw [items, List.append_assoc, ih, eval]
      cases a.eval with
      | error e => rfl
      | ok x =>
          simp only [List.singleton_append, computeAll, PostfixItem.compute]
          cases negate x <;> rfl
  | binary op a b iha ihb =>
      rw [items, List.append_assoc, List.append_assoc, iha, eval]
      cases a.eval with
      | error e => rfl
      | ok x =>
          dsimp only
          rw [ihb]
          cases b.eval with
          | error e => rfl
          | ok y =>
              simp only [List.singleton_append, computeAll, PostfixItem.compute]
              cases apply op x y <;> rfl

theorem evalPostfix_items (a : Arithmetic) : evalPostfix a.items = a.eval := by
  have h := a.computeAll_items [] []
  rw [List.append_nil] at h
  rw [evalPostfix, h]
  cases a.eval <;> rfl

end Arithmetic

/-- The token lists that write an expression where operators of at least some precedence
are wanted. A sum has level 1 and a product level 2; at level 3 binary operators need
parentheses. -/
inductive Infix : (level : Nat) → List Token → Arithmetic → Prop where
  | operand {level : Nat} (value : Value) : Infix level [.operand value] (.operand value)
  | group {level : Nat} {tokens : List Token} {a : Arithmetic} :
      Infix 1 tokens a → Infix level (.leftParen :: tokens ++ [.rightParen]) a
  | negation {level : Nat} {tokens : List Token} {a : Arithmetic} :
      level ≤ 3 → Infix 3 tokens a → Infix level (.negation :: tokens) (.negation a)
  | binary {level : Nat} {op : BinaryOp} {left right : List Token} {a b : Arithmetic} :
      level ≤ op.precedence → Infix op.precedence left a → Infix (op.precedence + 1) right b →
      Infix level (left ++ .binary op :: right) (.binary op a b)

namespace Waiting

theorem yieldsTo_mono {m n : Nat} (h : m ≤ n) {w : Waiting} (hw : w.yieldsTo n = true) :
    w.yieldsTo m = true := by
  cases w with
  | binary op =>
      simp only [yieldsTo, decide_eq_true_eq] at hw ⊢
      omega
  | negation => rfl
  | paren => exact absurd hw (by simp [yieldsTo])

/-- No operator of at least this precedence takes anything from the stack. -/
def Guarded (level : Nat) (stack : List Waiting) : Prop :=
  ∀ op : BinaryOp, level ≤ op.precedence → stack.takeWhile (yieldsTo op.precedence) = []

theorem guarded_nil (level : Nat) : Guarded level [] := fun _ _ => rfl

theorem guarded_paren (level : Nat) (stack : List Waiting) : Guarded level (.paren :: stack) :=
  fun _ _ => rfl

theorem guarded_binary (op : BinaryOp) (stack : List Waiting) :
    Guarded (op.precedence + 1) (.binary op :: stack) := by
  intro other hlevel
  refine List.takeWhile_cons_of_neg ?_
  simp only [yieldsTo, decide_eq_true_eq]
  omega

/-- Signs go above everything, since no binary operator comes before their operand ends. -/
theorem guarded_three (stack : List Waiting) : Guarded 3 stack := by
  intro op hlevel
  cases op <;> exact absurd hlevel (by decide)

variable {level : Nat} {pending stack : List Waiting}

theorem released_append (hp : ∀ w ∈ pending, w.yieldsTo level = true) {op : BinaryOp}
    (hop : op.precedence ≤ level) (hs : Guarded op.precedence stack) :
    released op (pending ++ stack) = pending.filterMap item? := by
  unfold released
  rw [List.takeWhile_append_of_pos fun w hw => yieldsTo_mono hop (hp w hw),
    hs op (Nat.le_refl _), List.append_nil]

theorem kept_append (hp : ∀ w ∈ pending, w.yieldsTo level = true) {op : BinaryOp}
    (hop : op.precedence ≤ level) (hs : Guarded op.precedence stack) :
    kept op (pending ++ stack) = stack := by
  have hstack := List.takeWhile_append_dropWhile (p := yieldsTo op.precedence) (l := stack)
  rw [hs op (Nat.le_refl _), List.nil_append] at hstack
  unfold kept
  rw [List.dropWhile_append_of_pos fun w hw => yieldsTo_mono hop (hp w hw), hstack]

theorem toParen?_append (hp : ∀ w ∈ pending, w.yieldsTo level = true) :
    toParen? (pending ++ .paren :: stack) = some (pending.filterMap item?, stack) := by
  induction pending with
  | nil => rfl
  | cons w rest ih =>
      have hrest := ih fun v hv => hp v (List.mem_cons_of_mem _ hv)
      cases w with
      | binary op => rw [List.cons_append, toParen?, hrest]; rfl
      | negation => rw [List.cons_append, toParen?, hrest]; rfl
      | paren => exact absurd (hp .paren List.mem_cons_self) (by simp [yieldsTo])

theorem drain?_of_yieldsTo (hp : ∀ w ∈ pending, w.yieldsTo level = true) :
    drain? pending = some (pending.filterMap item?) := by
  unfold drain?
  induction pending with
  | nil => rfl
  | cons w rest ih =>
      have hrest := ih fun v hv => hp v (List.mem_cons_of_mem _ hv)
      cases w with
      | binary op => simp [List.mapM_cons, item?, hrest]
      | negation => simp [List.mapM_cons, item?, hrest]
      | paren => exact absurd (hp .paren List.mem_cons_self) (by simp [yieldsTo])

end Waiting

theorem before_before (a b : List PostfixItem) (outcome : Except Error (List PostfixItem)) :
    before a (before b outcome) = before (a ++ b) outcome := by
  cases outcome with
  | error e => rfl
  | ok rest => simp only [before, List.append_assoc]

namespace Infix

open Waiting

variable {level : Nat} {tokens : List Token} {a : Arithmetic}

/-- Reading the tokens of an expression writes some of its items and leaves operators for
the others on the stack, which all bind at least as tightly as the expression. -/
theorem toPostfixWith (h : Infix level tokens a) (stack : List Waiting) (rest : List Token)
    (hs : Guarded level stack) :
    ∃ out pending, out ++ pending.filterMap item? = a.items ∧
      (∀ w ∈ pending, w.yieldsTo level = true) ∧
      Expr.toPostfixWith stack (tokens ++ rest)
        = before out (Expr.toPostfixWith (pending ++ stack) rest) := by
  induction h generalizing stack rest with
  | operand value => exact ⟨[.operand value], [], rfl, by simp, rfl⟩
  | @group _ tokens a _ ih =>
      obtain ⟨out, pending, hitems, hyields, hread⟩ :=
        ih (.paren :: stack) (.rightParen :: rest) (guarded_paren 1 stack)
      refine ⟨a.items, [], by simp, by simp, ?_⟩
      have happend : .leftParen :: tokens ++ [.rightParen] ++ rest
          = Token.leftParen :: (tokens ++ .rightParen :: rest) := by simp
      -- the closing parenthesis lets out what the expression inside has left on the stack
      rw [happend, Expr.toPostfixWith, hread, Expr.toPostfixWith, toParen?_append hyields]
      dsimp only
      rw [before_before, hitems, List.nil_append]
  | @negation level tokens a hlevel _ ih =>
      obtain ⟨out, pending, hitems, hyields, hread⟩ :=
        ih (.negation :: stack) rest (guarded_three _)
      refine ⟨out, pending ++ [.negation], ?_, ?_, ?_⟩
      -- the sign waits below what its operand leaves there, so it comes out last
      · rw [List.filterMap_append, ← List.append_assoc, hitems]
        rfl
      · intro w hw
        rcases List.mem_append.mp hw with hw | hw
        · exact yieldsTo_mono hlevel (hyields w hw)
        · rw [List.mem_singleton.mp hw]
          rfl
      · rw [List.cons_append, Expr.toPostfixWith, hread, List.append_assoc, List.singleton_append]
  | @binary level op left right a b hlevel _ _ iha ihb =>
      -- the operator lets out what its left operand has left, and waits for its right one
      have hop : Guarded op.precedence stack := fun other hother =>
        hs other (Nat.le_trans hlevel hother)
      obtain ⟨outA, pendingA, hitemsA, hyieldsA, hreadA⟩ :=
        iha stack (.binary op :: right ++ rest) hop
      obtain ⟨outB, pendingB, hitemsB, hyieldsB, hreadB⟩ :=
        ihb (.binary op :: stack) rest (guarded_binary op stack)
      refine ⟨a.items ++ outB, pendingB ++ [.binary op], ?_, ?_, ?_⟩
      · rw [List.filterMap_append, List.append_assoc, ← List.append_assoc outB, hitemsB,
          ← List.append_assoc]
        rfl
      · intro w hw
        rcases List.mem_append.mp hw with hw | hw
        · exact yieldsTo_mono (by omega) (hyieldsB w hw)
        · rw [List.mem_singleton.mp hw]
          simpa [yieldsTo] using hlevel
      · rw [List.append_assoc, hreadA, List.cons_append, Expr.toPostfixWith,
          released_append hyieldsA (Nat.le_refl _) hop, kept_append hyieldsA (Nat.le_refl _) hop,
          hreadB, before_before, before_before, hitemsA, List.append_assoc pendingB,
          List.singleton_append]

/-- The tokens of an expression have the postfix order of the expression. -/
theorem toPostfix_eq (h : Infix 1 tokens a) : toPostfix tokens = .ok a.items := by
  obtain ⟨out, pending, hitems, hyields, hread⟩ := h.toPostfixWith [] [] (guarded_nil 1)
  rw [List.append_nil, List.append_nil] at hread
  rw [toPostfix, hread, Expr.toPostfixWith, drain?_of_yieldsTo hyields]
  dsimp only
  rw [before, hitems]

/-- **Infix tokens mean what they write.** -/
theorem evalTokens (h : Infix 1 tokens a) : Expr.evalTokens tokens = a.eval := by
  rw [Expr.evalTokens, h.toPostfix_eq]
  exact a.evalPostfix_items

end Infix

end Flowchart.Expr
