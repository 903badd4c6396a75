import Flowchart.Proofs.Expr.Infix
import Mathlib.Data.List.Basic

/-!
# The grammar of arithmetic

`Derives` is the grammar that everybody would write down first: an operand, a sign before an
expression, an operator between two, parentheses around one. It is ambiguous. `Infix` is the
grammar with levels, and it writes the same token lists (`derives_iff_exists_infix`), each of
them for one tree only (`Infix.unique`): precedence and left associativity decide which.

The conversion to postfix order finds this tree (`toPostfix_computes`).
-/

namespace Flowchart

theorem BinaryOp.precedence_eq (op : BinaryOp) : op.precedence = 1 ∨ op.precedence = 2 := by
  cases op <;> decide

namespace Expr

/-- The token lists of arithmetic, whatever binds more tightly. -/
inductive Derives : List Token → Prop where
  | operand (value : Value) : Derives [.operand value]
  | negation {tokens : List Token} : Derives tokens → Derives (.negation :: tokens)
  | binary (op : BinaryOp) {left right : List Token} :
      Derives left → Derives right → Derives (left ++ .binary op :: right)
  | group {tokens : List Token} :
      Derives tokens → Derives (.leftParen :: tokens ++ [.rightParen])

/-! ## Levels -/

namespace Infix

variable {level : Nat} {tokens left right : List Token} {a b : Arithmetic} {op : BinaryOp}

theorem derives (h : Infix level tokens a) : Derives tokens := by
  induction h with
  | operand value => exact .operand value
  | group _ ih => exact .group ih
  | negation _ _ ih => exact .negation ih
  | binary _ _ _ iha ihb => exact .binary _ iha ihb

/-- What is written at a level is written at any lower one. -/
theorem mono {lower : Nat} (h : Infix level tokens a) (hle : lower ≤ level) :
    Infix lower tokens a := by
  cases h with
  | operand value => exact .operand value
  | group h => exact .group h
  | negation hlevel h => exact .negation (Nat.le_trans hle hlevel) h
  | binary hlevel ha hb => exact .binary (Nat.le_trans hle hlevel) ha hb

/-- What is written at a level is written at the next one, or else it is an operator of this
level between two operands. -/
theorem next_or_binary (h : Infix level tokens a) (hlevel : level ≤ 2) :
    Infix (level + 1) tokens a ∨ ∃ op left right a₁ a₂, op.precedence = level ∧
      tokens = left ++ .binary op :: right ∧ Infix level left a₁ ∧ Infix (level + 1) right a₂ := by
  cases h with
  | operand value => exact .inl (.operand value)
  | group h => exact .inl (.group h)
  | negation _ h => exact .inl (.negation (by omega) h)
  | @binary _ op left right a₁ a₂ hop ha hb =>
      by_cases heq : op.precedence = level
      · subst heq
        exact .inr ⟨op, left, right, a₁, a₂, rfl, rfl, ha, hb⟩
      · exact .inl (.binary (by omega) ha hb)

/-- A sign goes to the first operand. -/
theorem exists_negation (h : Infix level tokens a) (hlevel : level ≤ 3) :
    ∃ b, Infix level (.negation :: tokens) b := by
  induction h with
  | operand value => exact ⟨_, .negation hlevel (.operand value)⟩
  | group h _ => exact ⟨_, .negation hlevel (.group h)⟩
  | negation _ h _ => exact ⟨_, .negation hlevel (.negation (Nat.le_refl 3) h)⟩
  | @binary level op left right a b hop _ hb iha _ =>
      have hprecedence : op.precedence ≤ 3 := by
        rcases op.precedence_eq with h | h <;> omega
      obtain ⟨c, hc⟩ := iha hprecedence
      exact ⟨_, .binary hop hc hb⟩

/-- An operator of a level between two operands as this level has them. -/
theorem binary_of_precedence (hop : op.precedence = level) (ha : Infix level left a)
    (hb : Infix (level + 1) right b) :
    Infix level (left ++ .binary op :: right) (.binary op a b) := by
  subst hop
  exact .binary (Nat.le_refl _) ha hb

/-- An operator joins two expressions of its own level: what is to its right goes to its left,
one operand after the other. -/
theorem exists_join_level (hop : op.precedence = level) (hlevel : level ≤ 2)
    (ha : Infix level left a) (hb : Infix level right b) :
    ∃ c, Infix level (left ++ .binary op :: right) c := by
  induction hlen : right.length using Nat.strongRecOn generalizing right b with
  | ind n ih =>
      rcases hb.next_or_binary hlevel with
        hright | ⟨op', first, last, b₁, b₂, hop', rfl, hfirst, hlast⟩
      · exact ⟨_, binary_of_precedence hop ha hright⟩
      · obtain ⟨c, hc⟩ := ih first.length (by simp [← hlen]) hfirst rfl
        refine ⟨.binary op' c b₂, ?_⟩
        rw [← List.cons_append, ← List.append_assoc]
        exact binary_of_precedence hop' hc hlast

/-- Any operator joins any two expressions. A product takes the last operand to its left and
the first one to its right. -/
theorem exists_join (op : BinaryOp) (ha : Infix 1 left a) (hb : Infix 1 right b) :
    ∃ c, Infix 1 (left ++ .binary op :: right) c := by
  rcases op.precedence_eq with hop | hop
  · exact exists_join_level hop (by decide) ha hb
  · induction hlen : right.length using Nat.strongRecOn generalizing right b with
    | ind n ih =>
        rcases hb.next_or_binary (by decide) with
          hright | ⟨op', first, last, b₁, b₂, hop', rfl, hfirst, hlast⟩
        · rcases ha.next_or_binary (by decide) with
            hleft | ⟨op', first, last, a₁, a₂, hop', rfl, hfirst, hlast⟩
          · obtain ⟨c, hc⟩ := exists_join_level hop (by decide) hleft hright
            exact ⟨c, hc.mono (by decide)⟩
          · obtain ⟨c, hc⟩ := exists_join_level hop (by decide) hlast hright
            refine ⟨.binary op' a₁ c, ?_⟩
            rw [List.append_assoc, List.cons_append]
            exact binary_of_precedence hop' hfirst hc
        · obtain ⟨c, hc⟩ := ih first.length (by simp [← hlen]) hfirst rfl
          refine ⟨.binary op' c b₂, ?_⟩
          rw [← List.cons_append, ← List.append_assoc]
          exact binary_of_precedence hop' hc hlast

end Infix

/-- **Levels lose nothing.** What the grammar derives writes some expression. -/
theorem derives_iff_exists_infix {tokens : List Token} :
    Derives tokens ↔ ∃ a, Infix 1 tokens a := by
  constructor
  · intro h
    induction h with
    | operand value => exact ⟨_, .operand value⟩
    | negation _ ih =>
        obtain ⟨a, ha⟩ := ih
        exact ha.exists_negation (by decide)
    | binary op _ _ iha ihb =>
        obtain ⟨a, ha⟩ := iha
        obtain ⟨b, hb⟩ := ihb
        exact Infix.exists_join op ha hb
    | group _ ih =>
        obtain ⟨a, ha⟩ := ih
        exact ⟨a, .group ha⟩
  · rintro ⟨a, ha⟩
    exact ha.derives

/-! ## One tree -/

/-- Builds the tree of an item on a stack of trees, the last one first. -/
def PostfixItem.build (stack : List Arithmetic) : PostfixItem → List Arithmetic
  | operand value => .operand value :: stack
  | negation =>
    match stack with
    | a :: under => .negation a :: under
    | [] => []
  | binary op =>
    match stack with
    | b :: a :: under => .binary op a b :: under
    | _ => []

/-- From its items an expression is built again. -/
theorem Arithmetic.build_items (a : Arithmetic) (stack : List Arithmetic) :
    a.items.foldl PostfixItem.build stack = a :: stack := by
  induction a generalizing stack with
  | operand value => rfl
  | negation a ih =>
      rw [items, List.foldl_append, ih]
      rfl
  | binary op a b iha ihb =>
      rw [items, List.foldl_append, List.foldl_append, iha, ihb]
      rfl

theorem Arithmetic.items_injective {a b : Arithmetic} (h : a.items = b.items) : a = b := by
  have hbuild := a.build_items []
  rw [h, b.build_items] at hbuild
  exact (List.cons.inj hbuild).1.symm

/-- Tokens write one expression only. -/
theorem Infix.unique {tokens : List Token} {a b : Arithmetic} (ha : Infix 1 tokens a)
    (hb : Infix 1 tokens b) : a = b :=
  Arithmetic.items_injective (Except.ok.inj (ha.toPostfix_eq.symm.trans hb.toPostfix_eq))

/-- **Postfix order computes the tree.** Tokens that write an expression, with parentheses
wherever precedence or associativity asks for them and anywhere else, are brought into
postfix order, and computing that is evaluating the tree from left to right: it has the
same value or the same first error. The tree is the only one that the tokens write, and all
tokens of the grammar write one. -/
theorem toPostfix_computes :
    (∀ tokens, Derives tokens ↔ ∃ a, Infix 1 tokens a) ∧
      ∀ tokens a, Infix 1 tokens a →
        (∃ items, toPostfix tokens = .ok items ∧ evalPostfix items = a.eval) ∧
        ∀ b, Infix 1 tokens b → b = a :=
  ⟨fun _ => derives_iff_exists_infix, fun _ a h =>
    ⟨⟨a.items, h.toPostfix_eq, a.evalPostfix_items⟩, fun _ hb => hb.unique h⟩⟩

/-- A signed text times a group, with parentheses in it that nothing asks for. -/
theorem toPostfix_computes_signedProduct :
    let a := Arithmetic.binary .mul (.negation (.operand (.str "2")))
      (.binary .sub (.operand (.int 7)) (.operand (.bool true)))
    let tokens : List Token := [.negation, .operand (.str "2"), .binary .mul, .leftParen,
      .operand (.int 7), .binary .sub, .leftParen, .operand (.bool true), .rightParen, .rightParen]
    Infix 1 tokens a ∧
    (∃ items, toPostfix tokens = .ok items ∧ evalPostfix items = .ok (.double (-12))) ∧
    ∀ b, Infix 1 tokens b → b = a := by
  intro a tokens
  have hsigned : Infix 2 [.negation, .operand (.str "2")] (.negation (.operand (.str "2"))) :=
    .negation (by decide) (.operand _)
  have hseven : Infix 1 [.operand (.int 7)] (.operand (.int 7)) := .operand _
  have hdifference := Infix.binary_of_precedence (rfl : BinaryOp.sub.precedence = 1) hseven
    (.group (.operand (.bool true)))
  have hwrites : Infix 1 tokens a :=
    (Infix.binary_of_precedence (rfl : BinaryOp.mul.precedence = 2) hsigned
      (.group hdifference)).mono (by decide)
  have hvalue : a.eval = .ok (.double (-12)) := by decide +kernel
  obtain ⟨hitems, hunique⟩ := toPostfix_computes.2 tokens a hwrites
  rw [hvalue] at hitems
  exact ⟨hwrites, hitems, hunique⟩

end Expr

end Flowchart
