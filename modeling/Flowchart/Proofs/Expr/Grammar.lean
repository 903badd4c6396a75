import Flowchart.Proofs.Expr.Meaning

/-!
# The grammar of conditions

The evaluator has no parser, but it agrees with one. `Writes` is the grammar of the
language: which texts write which expression, one constructor for each alternative of each
rule. The texts may have any blanks between tokens and any parentheses around
expressions. `Expression.denote` is the meaning of an expression, strict in all operands.
A text that writes an expression is a condition exactly when that meaning is a truth value,
and then has this value (`evaluateCondition_of_writes`).
-/

namespace Flowchart.Expr

/-! ## Expressions -/

/-- The trees behind the texts. -/
inductive Expression where
  | number (text : List Char)
  | name (text : List Char)
  | truth (b : Bool)
  | literal (text : List Char)
  | negation (a : Expression)
  | joined (op : Operator) (a b : Expression)

/-- What an expression means in a scope. There is no short circuit: all operands need to
have a value. -/
def Expression.denote (scope : Scope) : Expression → Option Value
  | number text => numberValue? text
  | name text => scope (String.ofList text)
  | truth b => some (.bool b)
  | literal text => some (.str (String.ofList text))
  | negation a => (a.denote scope).bind fun x => (negate x).toOption
  | joined op a b =>
    (a.denote scope).bind fun x => (b.denote scope).bind fun y => op.compute x y

/-- The arithmetic that an expression asks for, if all its operands mean something. -/
def Expression.arithmetic? (scope : Scope) : Expression → Option Arithmetic
  | negation a => (a.arithmetic? scope).map .negation
  | joined (.arithmetic op) a b =>
    (a.arithmetic? scope).bind fun x => (b.arithmetic? scope).map (.binary op x)
  | joined _ _ _ => none
  | operand => (operand.denote scope).map .operand

/-! ## Texts -/

/-- The rules of the grammar, those that bind least first. -/
inductive Rule where
  | or | and | cmp | sum | prod | unary | atom
  deriving DecidableEq

/-- Words that name variables. -/
def IsName (text : List Char) : Prop :=
  Value.boolOfWord? text = none ∧ ∃ c rest, text = c :: rest ∧ Text.startsWord c = true ∧
    ∀ d ∈ rest, Text.isWordChar d = true

/-- The text writes the expression by the rule. Operators of a rule that repeats associate
to the left, so its left operand is written by the rule itself. -/
inductive Writes : Rule → Expression → List Char → Prop where
  | number {text : List Char} (hne : text ≠ []) (h : ∀ c ∈ text, isNumberChar c = true) :
      Writes .atom (.number text) text
  | name {text : List Char} (h : IsName text) : Writes .atom (.name text) text
  | truth {text : List Char} {b : Bool} (h : Value.boolOfWord? text = some b) :
      Writes .atom (.truth b) text
  | literal {text : List Char} (h : '"' ∉ text) :
      Writes .atom (.literal text) ('"' :: text ++ ['"'])
  | group {a : Expression} {s : List Char} (h : Writes .or a s) : Writes .atom a ('(' :: s ++ [')'])
  | ofAtom {a : Expression} {s : List Char} (h : Writes .atom a s) : Writes .unary a s
  | negation {a : Expression} {s : List Char} (h : Writes .unary a s) :
      Writes .unary (.negation a) ('-' :: s)
  | ofUnary {a : Expression} {s : List Char} (h : Writes .unary a s) : Writes .prod a s
  | prod {op : BinaryOp} {a b : Expression} {s t : List Char} (hop : op = .mul ∨ op = .div)
      (ha : Writes .prod a s) (hb : Writes .unary b t) :
      Writes .prod (.joined (.arithmetic op) a b) (s ++ op.symbol.toList ++ t)
  | ofProd {a : Expression} {s : List Char} (h : Writes .prod a s) : Writes .sum a s
  | sum {op : BinaryOp} {a b : Expression} {s t : List Char} (hop : op = .add ∨ op = .sub)
      (ha : Writes .sum a s) (hb : Writes .prod b t) :
      Writes .sum (.joined (.arithmetic op) a b) (s ++ op.symbol.toList ++ t)
  | ofSum {a : Expression} {s : List Char} (h : Writes .sum a s) : Writes .cmp a s
  | cmp (op : Comparison) {a b : Expression} {s t : List Char} (ha : Writes .sum a s)
      (hb : Writes .sum b t) :
      Writes .cmp (.joined (.comparison op) a b) (s ++ op.symbol.toList ++ t)
  | ofCmp {a : Expression} {s : List Char} (h : Writes .cmp a s) : Writes .and a s
  | and {a b : Expression} {s t : List Char} (ha : Writes .and a s) (hb : Writes .cmp b t) :
      Writes .and (.joined (.connective .and) a b) (s ++ "&&".toList ++ t)
  | ofAnd {a : Expression} {s : List Char} (h : Writes .and a s) : Writes .or a s
  | or {a b : Expression} {s t : List Char} (ha : Writes .or a s) (hb : Writes .and b t) :
      Writes .or (.joined (.connective .or) a b) (s ++ "||".toList ++ t)
  | blankFront {rule : Rule} {a : Expression} {s : List Char} {c : Char}
      (hc : Text.isBlank c = true) (h : Writes rule a s) : Writes rule a (c :: s)
  | blankBack {rule : Rule} {a : Expression} {s : List Char} {c : Char}
      (hc : Text.isBlank c = true) (h : Writes rule a s) : Writes rule a (s ++ [c])

/-! ## Texts as phrases -/

/-- The level of the operators that the rule allows outside of parentheses. -/
def Rule.level : Rule → Nat
  | or => 0
  | and => 1
  | cmp => 2
  | sum => 3
  | prod => 4
  | unary => 5
  | atom => 6

namespace Phrase

/-- The phrase is what the text of an expression looks like. -/
structure Represents (p : Phrase) (rule : Rule) (a : Expression) (text : List Char) : Prop where
  ok : p.Ok
  level_le : rule.level ≤ p.level
  text_eq : p.text = text
  below : p.Below 0
  value_eq : ∀ scope, p.value scope = a.denote scope
  arithmetic_eq : ∀ scope, p.arithmetic? scope = a.arithmetic? scope

variable {p q : Phrase} {rule : Rule} {a b : Expression} {s t : List Char}

/-- A text that satisfies a rule satisfies the ones that bind less. -/
theorem Represents.lift (h : p.Represents rule a s) {rule' : Rule}
    (hle : rule'.level ≤ rule.level) : p.Represents rule' a s :=
  ⟨h.ok, Nat.le_trans hle h.level_le, h.text_eq, h.below, h.value_eq, h.arithmetic_eq⟩

/-- The lexeme alone, without blanks. -/
theorem represents_operand {lexeme : Lexeme} (hlexeme : lexeme.IsOperand)
    (hslot : ∀ k, lexeme ≠ .slot (slotName k))
    (hvalue : ∀ scope, lexeme.value? scope = a.denote scope)
    (harith : ∀ scope, a.arithmetic? scope = (a.denote scope).map .operand) :
    (operand [] lexeme []).Represents .atom a lexeme.text where
  ok := ⟨by simp, hlexeme, by simp⟩
  level_le := Nat.le_refl 6
  text_eq := by simp [text]
  below k hk := absurd hk (hslot k)
  value_eq := hvalue
  arithmetic_eq scope := by rw [arithmetic?, hvalue, harith]

theorem Represents.joined {ruleA ruleB : Rule} (ha : p.Represents ruleA a s) (op : Operator)
    (hb : q.Represents ruleB b t) (hleft : op.leftLevel ≤ ruleA.level)
    (hright : op.level < ruleB.level) (hrule : rule.level ≤ op.level) :
    (Phrase.joined op p q).Represents rule (.joined op a b) (s ++ op.symbol.toList ++ t) where
  ok := ⟨ha.ok, hb.ok, Nat.le_trans hleft ha.level_le, Nat.lt_of_lt_of_le hright hb.level_le⟩
  level_le := hrule
  text_eq := by rw [text, ha.text_eq, hb.text_eq]
  below := ⟨ha.below, hb.below⟩
  value_eq scope := by simp only [value, Expression.denote, ha.value_eq, hb.value_eq]
  arithmetic_eq scope := by
    cases op with
    | comparison | connective => rfl
    | arithmetic op =>
        simp only [arithmetic?, Expression.arithmetic?, ha.arithmetic_eq, hb.arithmetic_eq]

theorem Represents.blankFront (h : p.Represents rule a s) {c : Char} (hc : Text.isBlank c = true) :
    (p.mapFront (c :: ·)).Represents rule a (c :: s) where
  ok := by
    refine h.ok.mapFront ?_
    intro blanks hblanks d hmem
    rcases List.mem_cons.mp hmem with rfl | hmem
    · exact hc
    · exact hblanks d hmem
  level_le := by rw [level_mapFront]; exact h.level_le
  text_eq := by
    obtain ⟨front, d, rest, -, -, htext, hmap⟩ := h.ok.text_mapFront
    rw [hmap, ← h.text_eq, htext]
    rfl
  below := below_mapFront.mpr h.below
  value_eq scope := by rw [value_mapFront]; exact h.value_eq scope
  arithmetic_eq scope := by rw [arithmetic?_mapFront]; exact h.arithmetic_eq scope

theorem Represents.blankBack (h : p.Represents rule a s) {c : Char} (hc : Text.isBlank c = true) :
    (p.mapBack (· ++ [c])).Represents rule a (s ++ [c]) where
  ok := by
    refine h.ok.mapBack ?_
    intro blanks hblanks d hmem
    rcases List.mem_append.mp hmem with hmem | hmem
    · exact hblanks d hmem
    · rwa [List.mem_singleton.mp hmem]
  level_le := by rw [level_mapBack]; exact h.level_le
  text_eq := by
    obtain ⟨start, d, back, -, -, htext, hmap⟩ := h.ok.text_mapBack
    rw [hmap, ← h.text_eq, htext]
    simp
  below := below_mapBack.mpr h.below
  value_eq scope := by rw [value_mapBack]; exact h.value_eq scope
  arithmetic_eq scope := by rw [arithmetic?_mapBack]; exact h.arithmetic_eq scope

end Phrase

/-- Truth values are spelled with letters. -/
theorem isOperand_of_boolOfWord? {word : List Char} {b : Bool}
    (h : Value.boolOfWord? word = some b) : (Lexeme.word word).IsOperand := by
  have hletters := mem_truthLetters_of_boolOfWord? h
  have hstart : ∀ c ∈ Phrase.truthLetters, Text.startsWord c = true :=
    Text.forall_mem_of_all (by decide)
  have hword : ∀ c ∈ Phrase.truthLetters, Text.isWordChar c = true :=
    Text.forall_mem_of_all (by decide)
  cases word with
  | nil => exact absurd h (by cases b <;> decide)
  | cons c rest =>
      exact ⟨c, rest, rfl, hstart c (hletters c List.mem_cons_self), fun d hmem =>
        hword d (hletters d (List.mem_cons_of_mem c hmem))⟩

/-- **A text that writes an expression is a phrase with its meaning.** -/
theorem Writes.exists_phrase {rule : Rule} {a : Expression} {text : List Char}
    (h : Writes rule a text) : ∃ p : Phrase, p.Represents rule a text := by
  induction h with
  | @number text hne h =>
      have hoperand : (Lexeme.number text).IsOperand := ⟨hne, h⟩
      exact ⟨_, Phrase.represents_operand hoperand (fun k => by simp) (fun scope => rfl)
        fun scope => rfl⟩
  | @name text h =>
      have hoperand : (Lexeme.word text).IsOperand := h.2
      refine ⟨_, Phrase.represents_operand hoperand (fun k => by simp) (fun scope => ?_)
        fun scope => rfl⟩
      simp [Lexeme.value?, h.1, Expression.denote]
  | @truth text b h =>
      have hoperand := isOperand_of_boolOfWord? h
      refine ⟨_, Phrase.represents_operand hoperand (fun k => by simp) (fun scope => ?_)
        fun scope => rfl⟩
      simp [Lexeme.value?, h, Expression.denote]
  | @literal text h =>
      have hoperand : (Lexeme.literal text).IsOperand := h
      exact ⟨_, Phrase.represents_operand hoperand (fun k => by simp) (fun scope => rfl)
        fun scope => rfl⟩
  | group h ih =>
      obtain ⟨p, hp⟩ := ih
      refine ⟨.group [] p [], ⟨by simp, hp.ok, by simp⟩, Nat.le_refl 6, ?_, hp.below, hp.value_eq,
        hp.arithmetic_eq⟩
      simp [Phrase.text, hp.text_eq]
  | negation h ih =>
      obtain ⟨p, hp⟩ := ih
      refine ⟨.negation [] p, ⟨by simp, hp.ok, hp.level_le⟩, Nat.le_refl 5, ?_, hp.below, ?_, ?_⟩
      · simp [Phrase.text, hp.text_eq]
      · intro scope
        simp only [Phrase.value, Expression.denote, hp.value_eq]
      · intro scope
        simp only [Phrase.arithmetic?, Expression.arithmetic?, hp.arithmetic_eq]
  -- a rule takes whatever the next one takes
  | ofAtom h ih | ofUnary h ih | ofProd h ih | ofSum h ih | ofCmp h ih | ofAnd h ih =>
      obtain ⟨p, hp⟩ := ih
      exact ⟨p, hp.lift (by decide)⟩
  | prod hop ha hb iha ihb =>
      obtain ⟨p, hp⟩ := iha
      obtain ⟨q, hq⟩ := ihb
      rcases hop with rfl | rfl <;>
        exact ⟨_, hp.joined _ hq (by decide) (by decide) (by decide)⟩
  | sum hop ha hb iha ihb =>
      obtain ⟨p, hp⟩ := iha
      obtain ⟨q, hq⟩ := ihb
      rcases hop with rfl | rfl <;>
        exact ⟨_, hp.joined _ hq (by decide) (by decide) (by decide)⟩
  | cmp op ha hb iha ihb =>
      obtain ⟨p, hp⟩ := iha
      obtain ⟨q, hq⟩ := ihb
      exact ⟨_, hp.joined (.comparison op) hq (Nat.le_refl 3) (Nat.lt_succ_self 2)
        (Nat.le_refl 2)⟩
  | and ha hb iha ihb | or ha hb iha ihb =>
      obtain ⟨p, hp⟩ := iha
      obtain ⟨q, hq⟩ := ihb
      exact ⟨_, hp.joined _ hq (by decide) (by decide) (by decide)⟩
  | blankFront hc h ih =>
      obtain ⟨p, hp⟩ := ih
      exact ⟨_, hp.blankFront hc⟩
  | blankBack hc h ih =>
      obtain ⟨p, hp⟩ := ih
      exact ⟨_, hp.blankBack hc⟩

/-! ## Agreement -/

/-- **Conditions agree with the grammar.** The value of a text that writes an expression is
the meaning of the expression if that is a truth value, and an error otherwise. -/
theorem evaluateCondition_of_writes {a : Expression} {text : List Char} (h : Writes .or a text)
    (scope : Scope) :
    (∀ b, evaluateCondition text scope = .ok b ↔ a.denote scope = some (.bool b)) ∧
      ((∃ e, evaluateCondition text scope = .error e) ↔ ∀ b, a.denote scope ≠ some (.bool b)) := by
  obtain ⟨p, hp⟩ := h.exists_phrase
  have hcondition : (evaluateCondition text scope).toOption = (a.denote scope).bind truth? := by
    rw [← hp.text_eq, hp.ok.evaluateCondition_text (fun _ => hp.below), Phrase.condition,
      hp.value_eq]
  have htruth : ∀ b, (a.denote scope).bind truth? = some b ↔ a.denote scope = some (.bool b) := by
    intro b
    cases a.denote scope with
    | none => simp
    | some v => cases v <;> simp [truth?]
  have hok : ∀ b, evaluateCondition text scope = .ok b ↔ a.denote scope = some (.bool b) := by
    intro b
    rw [← htruth, ← hcondition]
    cases evaluateCondition text scope <;> simp [Except.toOption]
  refine ⟨hok, ?_⟩
  constructor
  · rintro ⟨e, he⟩ b hb
    rw [(hok b).mpr hb] at he
    exact absurd he (by simp)
  · intro hno
    cases heval : evaluateCondition text scope with
    | error e => exact ⟨e, rfl⟩
    | ok b => exact absurd ((hok b).mp heval) (hno b)

/-- Sums inside a product, a sign, and comparisons that a connective joins. -/
theorem evaluateCondition_of_writes_mixed :
    Writes .or
      (.joined (.connective .and)
        (.joined (.comparison .eq)
          (.joined (.arithmetic .mul) (.joined (.arithmetic .add) (.name ['n']) (.number ['1']))
            (.number ['2']))
          (.number ['4']))
        (.joined (.comparison .lt) (.negation (.name ['n'])) (.number ['0'])))
      "(n + 1) *2== 4 && -n<0".toList ∧
    evaluateCondition "(n + 1) *2== 4 && -n<0".toList
      (fun name => if name = "n" then some (.int 1) else none) = .ok true := by
  have hblank : Text.isBlank ' ' = true := by decide
  have hn : Writes .atom (.name ['n']) ['n'] :=
    .name ⟨by decide, 'n', [], rfl, by decide, by simp⟩
  have hnumber {c : Char} (hc : isNumberChar c = true) : Writes .atom (.number [c]) [c] :=
    .number (by simp) (by simpa using hc)
  have hsum := Writes.sum (.inl rfl) (.blankBack hblank (.ofProd (.ofUnary (.ofAtom hn))))
    (.blankFront hblank (.ofUnary (.ofAtom (hnumber (by decide : isNumberChar '1' = true)))))
  have hproduct := Writes.prod (.inl rfl)
    (.blankBack hblank (.ofUnary (.ofAtom (.group (.ofAnd (.ofCmp (.ofSum hsum)))))))
    (.ofAtom (hnumber (by decide : isNumberChar '2' = true)))
  have hleft := Writes.cmp .eq (.ofProd hproduct)
    (.blankFront hblank (.blankBack hblank
      (.ofProd (.ofUnary (.ofAtom (hnumber (by decide : isNumberChar '4' = true)))))))
  have hright := Writes.cmp .lt
    (.blankFront hblank (.ofProd (.ofUnary (.negation (.ofAtom hn)))))
    (.ofProd (.ofUnary (.ofAtom (hnumber (by decide : isNumberChar '0' = true)))))
  have hwrites : Writes .or _ "(n + 1) *2== 4 && -n<0".toList :=
    cast (congrArg (Writes .or _) (by decide)) (Writes.ofAnd (.and (.ofCmp hleft) hright))
  exact ⟨hwrites, ((evaluateCondition_of_writes hwrites _).1 true).mpr (by decide)⟩

end Flowchart.Expr
