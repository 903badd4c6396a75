import Flowchart.Expr.Evaluate
import Flowchart.Proofs.Expr.Balanced
import Flowchart.Proofs.Text.Classes

/-!
# Phrases

A phrase is a text of the expression language taken apart: operands and groups with the
blanks around them, signs, and operators between two phrases. Its text and its value are
functions of it, and so is everything that the evaluator finds out about the text by
scanning: how many groups there are (`openings_text`), and which kinds of operators
(`hasConnective_text`, `hasComparison_text`).

The precedence of operators is a number, the level. Phrases whose operators stand where
their levels allow it are the well-formed ones (`Phrase.Ok`).
-/

namespace Flowchart.Expr

/-! ## Operators -/

/-- An operator between two operands, of any family. -/
inductive Operator where
  | arithmetic (op : BinaryOp)
  | comparison (op : Comparison)
  | connective (op : Connective)
  deriving DecidableEq

namespace Operator

def symbol : Operator → String
  | arithmetic op => op.symbol
  | comparison op => op.symbol
  | connective op => op.symbol

/-- How tightly the operator binds. -/
def level : Operator → Nat
  | connective .or => 0
  | connective .and => 1
  | comparison _ => 2
  | arithmetic op => 2 + op.precedence

/-- How tightly its left operand has to bind. Comparisons do not chain. -/
def leftLevel : Operator → Nat
  | comparison _ => 3
  | op => op.level

def isConnective : Operator → Bool
  | connective _ => true
  | _ => false

def isComparison : Operator → Bool
  | comparison _ => true
  | _ => false

/-- The value for two operands, if there is one. -/
def compute : Operator → Value → Value → Option Value
  | arithmetic op, x, y => (apply op x y).toOption
  | comparison op, x, y => (compareValues op x y).toOption.map .bool
  | connective .and, .bool x, .bool y => some (.bool (x && y))
  | connective .or, .bool x, .bool y => some (.bool (x || y))
  | connective _, _, _ => none

theorem symbol_ne_nil (op : Operator) : op.symbol.toList ≠ [] := by
  rcases op with op | op | op <;> cases op <;> decide

theorem level_le_leftLevel (op : Operator) : op.level ≤ op.leftLevel := by
  cases op with
  | comparison op => exact Nat.le_succ 2
  | arithmetic op => exact Nat.le_refl _
  | connective op => exact Nat.le_refl _

theorem not_connective {op : Operator} (h : 2 ≤ op.level) : op.isConnective = false := by
  rcases op with op | op | op
  · rfl
  · rfl
  · cases op <;> exact absurd h (by decide)

theorem not_comparison {op : Operator} (h : 3 ≤ op.level) : op.isComparison = false := by
  rcases op with op | op | op
  · rfl
  · exact absurd h (Nat.lt_irrefl 2)
  · rfl

end Operator

/-! ## Operands -/

namespace Lexeme

/-- The characters of an operand. -/
def text : Lexeme → List Char
  | number text => text
  | slot name => name
  | word text => text
  | literal held => '"' :: held ++ ['"']
  | _ => []

/-- An operand as the scanner finds it. -/
def IsOperand : Lexeme → Prop
  | number text => text ≠ [] ∧ ∀ c ∈ text, isNumberChar c = true
  | slot name => ∃ n, name = slotName n
  | word text => ∃ c rest, text = c :: rest ∧ Text.startsWord c = true ∧
      ∀ d ∈ rest, Text.isWordChar d = true
  | literal held => '"' ∉ held
  | _ => False

/-- What an operand means. -/
def value? (scope : Scope) : Lexeme → Option Value
  | number text => numberValue? text
  | slot name => scope (String.ofList name)
  | word text =>
    match Value.boolOfWord? text with
    | some b => some (.bool b)
    | none => scope (String.ofList text)
  | literal held => some (.str (String.ofList held))
  | _ => none

end Lexeme

/-! ## Phrases -/

/-- A text of the language, taken apart. -/
inductive Phrase where
  | operand (front : List Char) (lexeme : Lexeme) (back : List Char)
  | group (front : List Char) (inner : Phrase) (back : List Char)
  | negation (front : List Char) (a : Phrase)
  | joined (op : Operator) (a b : Phrase)

namespace Phrase

def text : Phrase → List Char
  | operand front lexeme back => front ++ lexeme.text ++ back
  | group front inner back => front ++ ('(' :: inner.text ++ [')']) ++ back
  | negation front a => front ++ '-' :: a.text
  | joined op a b => a.text ++ op.symbol.toList ++ b.text

/-- The value: strict in all operands. -/
def value (scope : Scope) : Phrase → Option Value
  | operand _ lexeme _ => lexeme.value? scope
  | group _ inner _ => inner.value scope
  | negation _ a => (a.value scope).bind fun x => (negate x).toOption
  | joined op a b => (a.value scope).bind fun x => (b.value scope).bind fun y => op.compute x y

/-- How tightly the outermost operator binds. -/
def level : Phrase → Nat
  | operand .. => 6
  | group .. => 6
  | negation .. => 5
  | joined op _ _ => op.level

def groups : Phrase → Nat
  | operand .. => 0
  | group _ inner _ => inner.groups + 1
  | negation _ a => a.groups
  | joined _ a b => a.groups + b.groups

/-- All operators between operands, those inside groups included. -/
def operators : Phrase → List Operator
  | operand .. => []
  | group _ inner _ => inner.operators
  | negation _ a => a.operators
  | joined op a b => op :: a.operators ++ b.operators

def connected (p : Phrase) : Bool :=
  p.operators.any Operator.isConnective

def compared (p : Phrase) : Bool :=
  p.operators.any Operator.isComparison

/-- Blanks around, operands that the scanner finds, and each operator where its level
allows it. -/
def Ok : Phrase → Prop
  | operand front lexeme back =>
    (∀ c ∈ front, Text.isBlank c = true) ∧ lexeme.IsOperand ∧ ∀ c ∈ back, Text.isBlank c = true
  | group front inner back =>
    (∀ c ∈ front, Text.isBlank c = true) ∧ inner.Ok ∧ ∀ c ∈ back, Text.isBlank c = true
  | negation front a => (∀ c ∈ front, Text.isBlank c = true) ∧ a.Ok ∧ 5 ≤ a.level
  | joined op a b => a.Ok ∧ b.Ok ∧ op.leftLevel ≤ a.level ∧ op.level < b.level

end Phrase

/-! ## Characters -/

/-- The characters of which operators, parentheses and the ends of literals consist. -/
def reserved : List Char :=
  ['"', '(', ')', '&', '|', '=', '!', '<', '>', '+', '-', '*', '/']

theorem not_mem_reserved {p : Char → Bool} (h : ∀ c ∈ reserved, p c = false) {c : Char}
    (hc : p c = true) : c ∉ reserved := by
  intro hmem
  rw [h c hmem] at hc
  exact Bool.noConfusion hc

theorem not_reserved_of_isBlank {c : Char} (h : Text.isBlank c = true) : c ∉ reserved :=
  not_mem_reserved (Text.forall_mem_of_all (by decide)) h

/-- The characters of operands that are no literals. -/
def isOperandChar (c : Char) : Bool :=
  Text.isWordChar c || c = '.' || c = '$'

theorem isOperandChar_of_isWordChar {c : Char} (h : Text.isWordChar c = true) :
    isOperandChar c = true := by
  simp [isOperandChar, h]

theorem isOperandChar_of_isDigit {c : Char} (h : c.isDigit = true) : isOperandChar c = true :=
  isOperandChar_of_isWordChar (Text.isWordChar_of_isDigit h)

theorem isOperandChar_of_isNumberChar {c : Char} (h : isNumberChar c = true) :
    isOperandChar c = true := by
  rcases Bool.or_eq_true_iff.mp h with hdigit | hpoint
  · exact isOperandChar_of_isDigit hdigit
  · simp [isOperandChar, of_decide_eq_true hpoint]

theorem isOperandChar_of_startsWord {c : Char} (h : Text.startsWord c = true) :
    isOperandChar c = true :=
  isOperandChar_of_isWordChar (Text.isWordChar_of_startsWord h)

theorem not_reserved_of_isOperandChar {c : Char} (h : isOperandChar c = true) : c ∉ reserved :=
  not_mem_reserved (Text.forall_mem_of_all (by decide)) h

theorem not_isBlank_of_isOperandChar {c : Char} (h : isOperandChar c = true) :
    Text.isBlank c = false := by
  rw [Bool.eq_false_iff]
  intro hblank
  have hpoint : c ≠ '.' := by
    rintro rfl
    exact absurd hblank (by decide)
  have hdollar : c ≠ '$' := by
    rintro rfl
    exact absurd hblank (by decide)
  simp [isOperandChar, Text.not_isWordChar_of_isBlank hblank, hpoint, hdollar] at h

/-- Quotes and parentheses are reserved. -/
theorem outside_of_not_reserved {c : Char} (h : c ∉ reserved) :
    c ≠ '"' ∧ c ≠ '(' ∧ c ≠ ')' := by
  refine ⟨?_, ?_, ?_⟩
  all_goals
    rintro rfl
    exact h (by decide)

theorem outside_of_isBlank {c : Char} (h : Text.isBlank c = true) :
    c ≠ '"' ∧ c ≠ '(' ∧ c ≠ ')' :=
  outside_of_not_reserved (not_reserved_of_isBlank h)

theorem outside_of_blanks {s : List Char} (hs : ∀ c ∈ s, Text.isBlank c = true) :
    ∀ c ∈ s, c ≠ '"' ∧ c ≠ '(' ∧ c ≠ ')' := fun c hmem =>
  outside_of_isBlank (hs c hmem)

/-- An operand is a literal or a run of such characters. -/
theorem Lexeme.IsOperand.literal_or_chars {lexeme : Lexeme} (h : lexeme.IsOperand) :
    (∃ held, lexeme = .literal held ∧ '"' ∉ held) ∨
      ∀ c ∈ lexeme.text, isOperandChar c = true := by
  cases lexeme with
  | literal held => exact .inl ⟨held, rfl, h⟩
  | number text =>
      right
      intro c hmem
      exact isOperandChar_of_isNumberChar (h.2 c hmem)
  | slot name =>
      right
      intro c hmem
      obtain ⟨n, rfl⟩ := h
      rcases List.mem_cons.mp hmem with rfl | hmem
      · decide
      · exact isOperandChar_of_isDigit
          (Nat.isDigit_of_mem_toDigits (by decide) (by decide) hmem)
  | word text =>
      right
      intro c hmem
      obtain ⟨d, rest, rfl, hstart, hrest⟩ := h
      rcases List.mem_cons.mp hmem with rfl | hmem
      · exact isOperandChar_of_startsWord hstart
      · exact isOperandChar_of_isWordChar (hrest c hmem)
  | unterminated | operator | leftParen | rightParen | unknown =>
      exact absurd h (by simp [IsOperand])

theorem Lexeme.IsOperand.literal_or {lexeme : Lexeme} (h : lexeme.IsOperand) :
    (∃ held, lexeme = .literal held ∧ '"' ∉ held) ∨ ∀ c ∈ lexeme.text, c ∉ reserved := by
  rcases h.literal_or_chars with hliteral | hrun
  · exact .inl hliteral
  · right
    intro c hmem
    exact not_reserved_of_isOperandChar (hrun c hmem)

theorem Lexeme.IsOperand.text_ne_nil {lexeme : Lexeme} (h : lexeme.IsOperand) :
    lexeme.text ≠ [] := by
  cases lexeme with
  | number text => exact h.1
  | slot name =>
      obtain ⟨n, rfl⟩ := h
      simp [text, slotName]
  | word text =>
      obtain ⟨c, rest, rfl, -, -⟩ := h
      simp [Lexeme.text]
  | literal held => simp [text]
  | unterminated | operator | leftParen | rightParen | unknown =>
      exact absurd h (by simp [IsOperand])

/-- The symbols of operators hold neither parentheses nor quotes. -/
theorem Operator.symbol_outside (op : Operator) :
    ∀ c ∈ op.symbol.toList, c ≠ '"' ∧ c ≠ '(' ∧ c ≠ ')' := by
  rcases op with op | op | op <;> cases op <;> exact Text.forall_mem_of_all (by decide)

theorem Operator.symbol_reserved (op : Operator) : ∀ c ∈ op.symbol.toList, c ∈ reserved := by
  rcases op with op | op | op <;> cases op <;> exact Text.forall_mem_of_all (by decide)

/-- Only connectives are spelled with these characters. -/
theorem Operator.symbol_of_not_connective {op : Operator} (h : op.isConnective = false) :
    ∀ c ∈ op.symbol.toList, c ∉ ['&', '|'] := by
  rcases op with op | op | op
  · cases op <;> exact Text.forall_mem_of_all (by decide)
  · cases op <;> exact Text.forall_mem_of_all (by decide)
  · exact Bool.noConfusion h

/-- Only comparisons are spelled with these characters. -/
theorem Operator.symbol_of_not_comparison {op : Operator} (h : op.isComparison = false) :
    ∀ c ∈ op.symbol.toList, c ∉ ['=', '!', '<', '>'] := by
  rcases op with op | op | op
  · cases op <;> exact Text.forall_mem_of_all (by decide)
  · exact Bool.noConfusion h
  · cases op <;> exact Text.forall_mem_of_all (by decide)

namespace Phrase

variable {plain : Char → Prop}

/-- The text of a phrase is balanced. Its other characters are those of operands and blanks,
signs, and those of its operators. -/
theorem Ok.balanced {p : Phrase} (h : p.Ok) (hplain : ∀ c, c ∉ reserved → plain c)
    (hminus : plain '-') (hops : ∀ op ∈ p.operators, ∀ c ∈ op.symbol.toList, plain c) :
    Balanced plain p.text := by
  have run {s : List Char} (hs : ∀ c ∈ s, c ∉ reserved) : Balanced plain s :=
    .of_forall fun c hmem => ⟨hplain c (hs c hmem), outside_of_not_reserved (hs c hmem)⟩
  have blanks {s : List Char} (hs : ∀ c ∈ s, Text.isBlank c = true) : Balanced plain s :=
    run fun c hmem => not_reserved_of_isBlank (hs c hmem)
  induction p with
  | operand front lexeme back =>
      obtain ⟨hfront, hlexeme, hback⟩ := h
      refine ((blanks hfront).append ?_).append (blanks hback)
      rcases hlexeme.literal_or with ⟨held, rfl, hheld⟩ | hrun
      · exact .of_literal hheld
      · exact run hrun
  | group front inner back ih =>
      obtain ⟨hfront, hinner, hback⟩ := h
      exact ((blanks hfront).append (.of_group (ih hinner hops))).append (blanks hback)
  | negation front a ih =>
      obtain ⟨hfront, ha, -⟩ := h
      exact (blanks hfront).append (.char hminus (by decide) (by decide) (by decide) (ih ha hops))
  | joined op a b iha ihb =>
      obtain ⟨ha, hb, -, -⟩ := h
      have hsymbol : Balanced plain op.symbol.toList := .of_forall fun c hmem =>
        ⟨hops op List.mem_cons_self c hmem, op.symbol_outside c hmem⟩
      have hbalancedA := iha ha fun o hmem =>
        hops o (List.mem_cons_of_mem _ (List.mem_append_left _ hmem))
      have hbalancedB := ihb hb fun o hmem =>
        hops o (List.mem_cons_of_mem _ (List.mem_append_right _ hmem))
      exact (hbalancedA.append hsymbol).append hbalancedB

theorem Ok.balanced_any {p : Phrase} (h : p.Ok) : Balanced (fun _ => True) p.text :=
  h.balanced (fun _ _ => trivial) trivial fun _ _ _ _ => trivial

/-! ## What scanning a phrase finds -/

theorem openings_of_not_reserved {s : List Char} (h : ∀ c ∈ s, c ∉ reserved) :
    openings false s = 0 := by
  induction s with
  | nil => rfl
  | cons c rest ih =>
      obtain ⟨hquote, hopen, -⟩ := outside_of_not_reserved (h c List.mem_cons_self)
      simp [openings, hquote, hopen, ih fun d hmem => h d (List.mem_cons_of_mem _ hmem)]

theorem balanced_of_not_reserved {s : List Char} (h : ∀ c ∈ s, c ∉ reserved) :
    Balanced (fun _ => True) s :=
  .of_forall fun c hmem => ⟨trivial, outside_of_not_reserved (h c hmem)⟩

/-- The parentheses that open in the text are those of the groups. -/
theorem Ok.openings_text {p : Phrase} (h : p.Ok) : openings false p.text = p.groups := by
  have blanks {s : List Char} (hs : ∀ c ∈ s, Text.isBlank c = true) (t : List Char) :
      openings false (s ++ t) = openings false t := by
    have hreserved : ∀ c ∈ s, c ∉ reserved := fun c hmem => not_reserved_of_isBlank (hs c hmem)
    rw [(balanced_of_not_reserved hreserved).openings_append, openings_of_not_reserved hreserved,
      Nat.zero_add]
  have hend {s : List Char} (hs : ∀ c ∈ s, Text.isBlank c = true) : openings false s = 0 :=
    openings_of_not_reserved fun c hmem => not_reserved_of_isBlank (hs c hmem)
  induction p with
  | operand front lexeme back =>
      obtain ⟨hfront, hlexeme, hback⟩ := h
      rw [text, List.append_assoc, blanks hfront, groups]
      -- a parenthesis in a literal opens nothing
      rcases hlexeme.literal_or with ⟨held, rfl, hheld⟩ | hrun
      · have hinside := Balanced.openings_inside hheld back
        simp only [Lexeme.text, List.cons_append, List.append_assoc, List.nil_append, openings,
          if_true, Bool.not_false, hinside]
        exact hend hback
      · rw [(balanced_of_not_reserved hrun).openings_append, openings_of_not_reserved hrun,
          hend hback]
  | group front inner back ih =>
      obtain ⟨hfront, hinner, hback⟩ := h
      have hclose : openings false (')' :: back) = 0 := by simp [openings, hend hback]
      rw [text, List.append_assoc, blanks hfront, groups]
      simp only [List.cons_append, List.append_assoc, List.nil_append, openings]
      rw [hinner.balanced_any.openings_append, ih hinner, hclose]
      simp
  | negation front a ih =>
      obtain ⟨hfront, ha, -⟩ := h
      rw [text, blanks hfront, groups, ← ih ha]
      simp [openings]
  | joined op a b iha ihb =>
      obtain ⟨ha, hb, -, -⟩ := h
      -- no symbol has parentheses
      have hsymbol : openings false op.symbol.toList = 0 := by
        rcases op with op | op | op <;> cases op <;> decide
      have hbalanced : Balanced (fun _ => True) op.symbol.toList :=
        .of_forall fun c hmem => ⟨trivial, op.symbol_outside c hmem⟩
      rw [text, List.append_assoc, ha.balanced_any.openings_append, hbalanced.openings_append,
        iha ha, ihb hb, hsymbol, groups, Nat.zero_add]

/-- An operator of the phrase is found in the text. -/
theorem Ok.occursOutside_text {p : Phrase} (h : p.Ok) {test : List Char → Bool} {op : Operator}
    (hmem : op ∈ p.operators) (htest : ∀ rest, test (op.symbol.toList ++ rest) = true)
    (rest : List Char) : occursOutside test false (p.text ++ rest) = true := by
  have blanks {s : List Char} (hs : ∀ c ∈ s, Text.isBlank c = true) : Balanced (fun _ => True) s :=
    balanced_of_not_reserved fun c hmem => not_reserved_of_isBlank (hs c hmem)
  induction p generalizing rest with
  | operand front lexeme back => exact absurd hmem (by simp [operators])
  | group front inner back ih =>
      obtain ⟨hfront, hinner, hback⟩ := h
      have hih := ih hinner hmem (')' :: (back ++ rest))
      have happend : (group front inner back).text ++ rest
          = front ++ '(' :: (inner.text ++ ')' :: (back ++ rest)) := by simp [text]
      rw [happend]
      refine (blanks hfront).occursOutside_append_of_true ?_
      simp [occursOutside, hih]
  | negation front a ih =>
      obtain ⟨hfront, ha, -⟩ := h
      have hih := ih ha hmem rest
      have happend : (negation front a).text ++ rest = front ++ '-' :: (a.text ++ rest) := by
        simp [text]
      rw [happend]
      refine (blanks hfront).occursOutside_append_of_true ?_
      simp [occursOutside, hih]
  | joined other a b iha ihb =>
      obtain ⟨ha, hb, -, -⟩ := h
      have happend : (joined other a b).text ++ rest
          = a.text ++ (other.symbol.toList ++ (b.text ++ rest)) := by simp [text]
      rw [happend]
      rcases List.mem_cons.mp hmem with rfl | hmem
      · -- the symbol itself stands after a balanced text
        refine ha.balanced_any.occursOutside_append_of_true ?_
        have hsymbol := htest (b.text ++ rest)
        have houtside := op.symbol_outside
        cases hchars : op.symbol.toList with
        | nil => exact absurd hchars op.symbol_ne_nil
        | cons c more =>
            rw [hchars] at hsymbol houtside
            rw [List.cons_append] at hsymbol ⊢
            simp [occursOutside, (houtside c List.mem_cons_self).1, hsymbol]
      · rcases List.mem_append.mp hmem with hmem | hmem
        · exact iha ha hmem _
        · have hbalanced : Balanced (fun _ => True) other.symbol.toList :=
            .of_forall fun c hmem => ⟨trivial, other.symbol_outside c hmem⟩
          exact ha.balanced_any.occursOutside_append_of_true
            (hbalanced.occursOutside_append_of_true (ihb hb hmem rest))

/-- Operators that are not there are not found. -/
theorem Ok.occursOutside_text_eq_false {p : Phrase} (h : p.Ok) {test : List Char → Bool}
    (first : List Char) (hfirst : ∀ c, c ∉ first → ∀ rest, test (c :: rest) = false)
    (hreserved : ∀ c ∈ first, c ∈ reserved ∧ c ≠ '-' ∧ c ≠ '(' ∧ c ≠ ')')
    (hops : ∀ op ∈ p.operators, ∀ c ∈ op.symbol.toList, c ∉ first) :
    occursOutside test false p.text = false := by
  have hbalanced : Balanced (· ∉ first) p.text :=
    h.balanced (fun c hc hmem => hc (hreserved c hmem).1) (fun hmem => (hreserved _ hmem).2.1 rfl)
      hops
  have hscan : occursOutside test false (p.text ++ []) = occursOutside test false [] :=
    hbalanced.occursOutside_append hfirst
      (hfirst '(' fun hmem => (hreserved _ hmem).2.2.1 rfl)
      (hfirst ')' fun hmem => (hreserved _ hmem).2.2.2 rfl) []
  rw [List.append_nil] at hscan
  rw [hscan]
  rfl

theorem leading?_connective_eq_none {c : Char} (h : c ∉ ['&', '|']) (rest : List Char) :
    Connective.leading? (c :: rest) = none := by
  unfold Connective.leading?
  split <;> simp_all

theorem leading?_comparison_eq_none {c : Char} (h : c ∉ ['=', '!', '<', '>'])
    (rest : List Char) : Comparison.leading? (c :: rest) = none := by
  unfold Comparison.leading?
  split <;> simp_all

theorem isSome_leading?_connective (op : Connective) (rest : List Char) :
    (Connective.leading? (op.symbol.toList ++ rest)).isSome = true := by
  cases op <;> rfl

theorem isSome_leading?_comparison (op : Comparison) (rest : List Char) :
    (Comparison.leading? (op.symbol.toList ++ rest)).isSome = true := by
  cases op with
  | eq | ne | le | ge => rfl
  | lt =>
      show (Comparison.leading? ('<' :: rest)).isSome = true
      unfold Comparison.leading?
      split <;> simp_all
  | gt =>
      show (Comparison.leading? ('>' :: rest)).isSome = true
      unfold Comparison.leading?
      split <;> simp_all

theorem Ok.hasConnective_text {p : Phrase} (h : p.Ok) : hasConnective p.text = p.connected := by
  cases hp : p.connected with
  | true =>
      obtain ⟨op, hmem, hop⟩ := List.any_eq_true.mp hp
      have hsymbol : ∀ rest, (Connective.leading? (op.symbol.toList ++ rest)).isSome = true := by
        rcases op with op | op | op
        · exact absurd hop (by simp [Operator.isConnective])
        · exact absurd hop (by simp [Operator.isConnective])
        · exact isSome_leading?_connective op
      have hfound : hasConnective (p.text ++ []) = true := h.occursOutside_text hmem hsymbol []
      rwa [List.append_nil] at hfound
  | false =>
      refine h.occursOutside_text_eq_false ['&', '|']
        (fun c hc rest => by rw [leading?_connective_eq_none hc]; rfl)
        (Text.forall_mem_of_all (by decide)) fun op hmem => ?_
      exact Operator.symbol_of_not_connective (by simpa using List.any_eq_false.mp hp op hmem)

theorem Ok.hasComparison_text {p : Phrase} (h : p.Ok) : hasComparison p.text = p.compared := by
  cases hp : p.compared with
  | true =>
      obtain ⟨op, hmem, hop⟩ := List.any_eq_true.mp hp
      have hsymbol : ∀ rest, (Comparison.leading? (op.symbol.toList ++ rest)).isSome = true := by
        rcases op with op | op | op
        · exact absurd hop (by simp [Operator.isComparison])
        · exact isSome_leading?_comparison op
        · exact absurd hop (by simp [Operator.isComparison])
      have hfound : hasComparison (p.text ++ []) = true := h.occursOutside_text hmem hsymbol []
      rwa [List.append_nil] at hfound
  | false =>
      refine h.occursOutside_text_eq_false ['=', '!', '<', '>']
        (fun c hc rest => by rw [leading?_comparison_eq_none hc]; rfl)
        (Text.forall_mem_of_all (by decide)) fun op hmem => ?_
      exact Operator.symbol_of_not_comparison (by simpa using List.any_eq_false.mp hp op hmem)

end Phrase

end Flowchart.Expr
