import Flowchart.Proofs.Expr.Infix
import Flowchart.Proofs.Expr.Stripping

/-!
# Arithmetic phrases

A phrase in which all operators are arithmetic is read token by token. If all its operands
mean something, its tokens write an arithmetic expression (`Phrase.arithmetic?`), which the
arithmetic part of the evaluator computes, faults included
(`Phrase.Ok.evaluateArithmetic_eq`). Otherwise the phrase has no value and there is an
error. Either way it comes to the value of the phrase
(`Phrase.Ok.evaluateArithmetic_text`).
-/

namespace Flowchart.Expr

/-! ## Scanning -/

/-- The text goes on with a character that belongs to no operand. -/
def Stops (rest : List Char) : Prop :=
  ∀ c ∈ rest.head?, Text.isWordChar c = false ∧ c ≠ '.'

theorem stops_nil : Stops [] := by
  simp [Stops]

theorem stops_cons {c : Char} (hword : Text.isWordChar c = false) (hpoint : c ≠ '.')
    (rest : List Char) : Stops (c :: rest) := by
  rintro d hd
  obtain rfl := Option.some.inj hd
  exact ⟨hword, hpoint⟩

theorem not_isNumberChar {c : Char} (hword : Text.isWordChar c = false) (hpoint : c ≠ '.') :
    isNumberChar c = false := by
  have hdigit := Text.not_isDigit_of_not_isWordChar hword
  simp [isNumberChar, hdigit, hpoint]

theorem stops_append_blanks {blanks rest : List Char} (h : ∀ c ∈ blanks, Text.isBlank c = true)
    (hrest : Stops rest) : Stops (blanks ++ rest) := by
  cases blanks with
  | nil => exact hrest
  | cons c more =>
      have hc := h c List.mem_cons_self
      refine stops_cons (Text.not_isWordChar_of_isBlank hc) ?_ _
      rintro rfl
      exact absurd hc (by decide)

theorem scan_blanks {blanks : List Char} (h : ∀ c ∈ blanks, Text.isBlank c = true)
    (rest : List Char) : Lexeme.scan (blanks ++ rest) = Lexeme.scan rest := by
  induction blanks with
  | nil => rfl
  | cons c more ih =>
      rw [List.cons_append, Lexeme.scan, if_pos (h c List.mem_cons_self)]
      exact ih fun d hmem => h d (List.mem_cons_of_mem _ hmem)

/-- A character that is a lexeme of its own. -/
theorem scan_symbol {c : Char} (h : c ∈ ['(', ')', '+', '-', '*', '/']) (rest : List Char) :
    Lexeme.scan (c :: rest) = .ofChar c :: Lexeme.scan rest := by
  have hall : ∀ c ∈ ['(', ')', '+', '-', '*', '/'], Text.isBlank c = false ∧
      isNumberChar c = false ∧ c ≠ '$' ∧ Text.startsWord c = false ∧ c ≠ '"' :=
    Text.forall_mem_of_all (by decide)
  obtain ⟨hblank, hnumber, hdollar, hstart, hquote⟩ := hall c h
  rw [Lexeme.scan]
  simp [hblank, hnumber, hdollar, hstart, hquote]

theorem scan_literal {held : List Char} (h : '"' ∉ held) (rest : List Char) :
    Lexeme.scan ('"' :: (held ++ '"' :: rest)) = .literal held :: Lexeme.scan rest := by
  have hheld : ∀ c ∈ held, decide (c ≠ '"') = true := fun c hmem =>
    decide_eq_true fun heq => h (heq ▸ hmem)
  have hstops : ∀ c ∈ ('"' :: rest).head?, decide (c ≠ '"') = false := by simp
  obtain ⟨htake, hdrop⟩ := Text.takeWhile_run hheld hstops
  rw [Lexeme.scan, if_neg (by decide), if_neg (by decide), if_neg (by decide),
    if_neg (by decide), if_pos rfl]
  split
  · next hcut =>
    rw [hdrop] at hcut
    exact absurd hcut (by simp)
  · next hcut =>
    rw [hdrop] at hcut
    rw [htake, (List.cons.inj hcut).2]

theorem Lexeme.IsOperand.scan {lexeme : Lexeme} (h : lexeme.IsOperand) {rest : List Char}
    (hrest : Stops rest) : Lexeme.scan (lexeme.text ++ rest) = lexeme :: Lexeme.scan rest := by
  have hblank : ∀ c s, lexeme.text = c :: s → Text.isBlank c = false := by
    intro c s htext
    obtain ⟨d, t, htext', hd⟩ := h.ends.1
    rw [htext] at htext'
    rw [(List.cons.inj htext').1]
    exact hd
  cases lexeme with
  | number text =>
      cases text with
      | nil => exact absurd rfl h.1
      | cons c run =>
          have hstops : ∀ d ∈ rest.head?, isNumberChar d = false := fun d hd =>
            not_isNumberChar (hrest d hd).1 (hrest d hd).2
          obtain ⟨htake, hdrop⟩ :=
            Text.takeWhile_run (fun d hmem => h.2 d (List.mem_cons_of_mem _ hmem)) hstops
          rw [Lexeme.text, List.cons_append, Lexeme.scan, if_neg (by simp [hblank c run rfl]),
            if_pos (h.2 c List.mem_cons_self), htake, hdrop]
  | slot name =>
      obtain ⟨n, rfl⟩ := h
      have hrun : ∀ c ∈ Nat.toDigits 10 n, c.isDigit = true := fun c hmem =>
        Nat.isDigit_of_mem_toDigits (by decide) (by decide) hmem
      have hstops : ∀ d ∈ rest.head?, d.isDigit = false := by
        intro d hd
        exact Text.not_isDigit_of_not_isWordChar (hrest d hd).1
      obtain ⟨htake, hdrop⟩ := Text.takeWhile_run hrun hstops
      rw [Lexeme.text, slotName, List.cons_append, Lexeme.scan, if_neg (by decide),
        if_neg (by decide), if_pos rfl, htake, hdrop]
  | word text =>
      obtain ⟨c, run, rfl, hstart, hrun⟩ := h
      have hstops : ∀ d ∈ rest.head?, Text.isWordChar d = false := fun d hd => (hrest d hd).1
      obtain ⟨htake, hdrop⟩ := Text.takeWhile_run hrun hstops
      have hnumber : isNumberChar c = false := by
        refine Bool.eq_false_iff.mpr ?_
        intro hnumber
        rcases Bool.or_eq_true_iff.mp hnumber with hdigit | hpoint
        · rw [Text.not_startsWord_of_isDigit hdigit] at hstart
          exact Bool.noConfusion hstart
        · rw [of_decide_eq_true hpoint] at hstart
          exact absurd hstart (by decide)
      -- a word begins neither like a number nor like a slot
      have hdollar : c ≠ '$' := by
        rintro rfl
        exact absurd hstart (by decide)
      rw [Lexeme.text, List.cons_append, Lexeme.scan, if_neg (by simp [hblank c run rfl]),
        if_neg (by simp [hnumber]), if_neg hdollar, if_pos hstart, htake, hdrop]
  | literal held =>
      have happend : (Lexeme.literal held).text ++ rest = '"' :: (held ++ '"' :: rest) := by
        simp [Lexeme.text]
      rw [happend, scan_literal h]
  | unterminated | operator | leftParen | rightParen | unknown =>
      exact absurd h (by simp [IsOperand])

namespace Phrase

/-- All operators of the phrase are arithmetic. -/
def IsArithmetic (p : Phrase) : Prop :=
  ∀ op ∈ p.operators, ∃ o, op = .arithmetic o

theorem isArithmetic_of_not {p : Phrase} (hconnected : p.connected = false)
    (hcompared : p.compared = false) : p.IsArithmetic := by
  intro op hmem
  have hconnective := List.any_eq_false.mp hconnected op hmem
  have hcomparison := List.any_eq_false.mp hcompared op hmem
  cases op with
  | arithmetic o => exact ⟨o, rfl⟩
  | comparison o => exact absurd rfl hcomparison
  | connective o => exact absurd rfl hconnective

theorem IsArithmetic.left {op : Operator} {a b : Phrase} (h : (joined op a b).IsArithmetic) :
    a.IsArithmetic :=
  fun o hmem => h o (List.mem_cons_of_mem _ (List.mem_append_left _ hmem))

theorem IsArithmetic.right {op : Operator} {a b : Phrase} (h : (joined op a b).IsArithmetic) :
    b.IsArithmetic :=
  fun o hmem => h o (List.mem_cons_of_mem _ (List.mem_append_right _ hmem))

theorem IsArithmetic.three_le_level {p : Phrase} (h : p.IsArithmetic) : 3 ≤ p.level := by
  cases p with
  | operand | group => exact (by omega : 3 ≤ 6)
  | negation => exact (by omega : 3 ≤ 5)
  | joined op a b =>
      obtain ⟨o, rfl⟩ := h op List.mem_cons_self
      cases o
      · exact (by omega : 3 ≤ 2 + 1)
      · exact (by omega : 3 ≤ 2 + 1)
      · exact (by omega : 3 ≤ 2 + 2)
      · exact (by omega : 3 ≤ 2 + 2)

/-- The lexemes of an arithmetic phrase. -/
def lexemes : Phrase → List Lexeme
  | operand _ lexeme _ => [lexeme]
  | group _ inner _ => .leftParen :: inner.lexemes ++ [.rightParen]
  | negation _ a => .operator .sub :: a.lexemes
  | joined (.arithmetic op) a b => a.lexemes ++ .operator op :: b.lexemes
  | joined _ a b => a.lexemes ++ b.lexemes

theorem exists_symbol (op : BinaryOp) :
    ∃ c, op.symbol.toList = [c] ∧ c ∈ ['(', ')', '+', '-', '*', '/'] ∧
      Lexeme.ofChar c = .operator op ∧ Text.isWordChar c = false ∧ c ≠ '.' := by
  cases op
  · exact ⟨'+', by decide⟩
  · exact ⟨'-', by decide⟩
  · exact ⟨'*', by decide⟩
  · exact ⟨'/', by decide⟩

/-- Scanning an arithmetic phrase finds its lexemes. -/
theorem Ok.scan_text {p : Phrase} (h : p.Ok) (harith : p.IsArithmetic) {rest : List Char}
    (hrest : Stops rest) :
    Lexeme.scan (p.text ++ rest) = p.lexemes ++ Lexeme.scan rest := by
  induction p generalizing rest with
  | operand front lexeme back =>
      obtain ⟨hfront, hlexeme, hback⟩ := h
      rw [text, List.append_assoc, List.append_assoc, scan_blanks hfront,
        hlexeme.scan (stops_append_blanks hback hrest), scan_blanks hback]
      rfl
  | group front inner back ih =>
      obtain ⟨hfront, hinner, hback⟩ := h
      have hclose : Stops (')' :: (back ++ rest)) := stops_cons (by decide) (by decide) _
      have happend : (group front inner back).text ++ rest
          = front ++ '(' :: (inner.text ++ ')' :: (back ++ rest)) := by simp [text]
      rw [happend, scan_blanks hfront, scan_symbol (by decide), ih hinner harith hclose,
        scan_symbol (by decide), scan_blanks hback]
      simp [lexemes, Lexeme.ofChar, BinaryOp.ofChar?]
  | negation front a ih =>
      obtain ⟨hfront, ha, -⟩ := h
      have happend : (negation front a).text ++ rest = front ++ '-' :: (a.text ++ rest) := by
        simp [text]
      rw [happend, scan_blanks hfront, scan_symbol (by decide), ih ha harith hrest]
      rfl
  | joined op a b iha ihb =>
      obtain ⟨ha, hb, -, -⟩ := h
      obtain ⟨o, rfl⟩ := harith op List.mem_cons_self
      obtain ⟨c, hsymbol, hmem, hlexeme, hword, hpoint⟩ := exists_symbol o
      have happend : (joined (.arithmetic o) a b).text ++ rest
          = a.text ++ c :: (b.text ++ rest) := by
        simp [text, Operator.symbol, hsymbol]
      rw [happend, iha ha harith.left (stops_cons hword hpoint _), scan_symbol hmem, hlexeme,
        ihb hb harith.right hrest]
      simp [lexemes]

/-! ## Tokens -/

/-- The tokens of an arithmetic phrase, if all its operands mean something. -/
def tokens (scope : Scope) : Phrase → Option (List Token)
  | operand _ lexeme _ => (lexeme.value? scope).map fun x => [.operand x]
  | group _ inner _ => (inner.tokens scope).map fun ts => .leftParen :: ts ++ [.rightParen]
  | negation _ a => (a.tokens scope).map fun ts => .negation :: ts
  | joined (.arithmetic op) a b =>
    (a.tokens scope).bind fun ts => (b.tokens scope).map fun us => ts ++ .binary op :: us
  | joined _ _ _ => none

end Phrase

section Tokens

variable (scope : Scope) (whole : List Char)

theorem toOption_ofLexemes_cons (afterOperand : Bool) (lexeme : Lexeme) (rest : List Lexeme) :
    (Token.ofLexemes scope whole afterOperand (lexeme :: rest)).toOption =
      (Token.ofLexeme scope whole afterOperand lexeme).toOption.bind fun token =>
        (Token.ofLexemes scope whole token.endsOperand rest).toOption.map (token :: ·) := by
  rw [Token.ofLexemes]
  cases Token.ofLexeme scope whole afterOperand lexeme with
  | error e => rfl
  | ok token =>
      simp only [Except.toOption, Option.bind_some]
      cases Token.ofLexemes scope whole token.endsOperand rest <;> rfl

/-- A lexeme that is a token in its place, whatever the scope. -/
theorem toOption_ofLexemes_of_ok {afterOperand : Bool} {lexeme : Lexeme} {token : Token}
    (h : Token.ofLexeme scope whole afterOperand lexeme = .ok token) (rest : List Lexeme) :
    (Token.ofLexemes scope whole afterOperand (lexeme :: rest)).toOption =
      (Token.ofLexemes scope whole token.endsOperand rest).toOption.map (token :: ·) := by
  rw [toOption_ofLexemes_cons, h]
  rfl

theorem Lexeme.IsOperand.toOption_ofLexeme {lexeme : Lexeme} (h : lexeme.IsOperand)
    (afterOperand : Bool) :
    (Token.ofLexeme scope whole afterOperand lexeme).toOption
      = (lexeme.value? scope).map .operand := by
  have hoperand (s : List Char) (x : Option Value) :
      (Token.operand? s x).toOption = x.map .operand := by
    cases x <;> rfl
  cases lexeme with
  | number text => exact hoperand _ _
  | slot name => exact hoperand _ _
  | word text => exact hoperand _ _
  | literal held => rfl
  | unterminated | operator | leftParen | rightParen | unknown =>
      exact absurd h (by simp [IsOperand])

/-- Reading the lexemes of an arithmetic phrase where an operand may begin gives its tokens,
and an operand ends with them. -/
theorem Phrase.Ok.toOption_ofLexemes {p : Phrase} (h : p.Ok) (harith : p.IsArithmetic)
    (rest : List Lexeme) :
    (Token.ofLexemes scope whole false (p.lexemes ++ rest)).toOption =
      (p.tokens scope).bind fun ts =>
        (Token.ofLexemes scope whole true rest).toOption.map (ts ++ ·) := by
  induction p generalizing rest with
  | operand front lexeme back =>
      rw [lexemes, List.singleton_append, toOption_ofLexemes_cons, h.2.1.toOption_ofLexeme, tokens,
        Option.bind_map, Option.bind_map]
      rfl
  | group front inner back ih =>
      have happend : (group front inner back).lexemes ++ rest
          = .leftParen :: (inner.lexemes ++ .rightParen :: rest) := by simp [lexemes]
      have hopen : Token.ofLexeme scope whole false .leftParen = .ok .leftParen := rfl
      have hclose : Token.ofLexeme scope whole true .rightParen = .ok .rightParen := rfl
      rw [happend, toOption_ofLexemes_of_ok scope whole hopen, Token.endsOperand,
        ih h.2.1 harith, toOption_ofLexemes_of_ok scope whole hclose, tokens, Token.endsOperand]
      cases inner.tokens scope with
      | none => rfl
      | some ts => simp [Function.comp_def]
  | negation front a ih =>
      have hsign : Token.ofLexeme scope whole false (.operator .sub) = .ok .negation := rfl
      rw [lexemes, List.cons_append, toOption_ofLexemes_of_ok scope whole hsign, Token.endsOperand,
        ih h.2.1 harith, tokens]
      cases a.tokens scope with
      | none => rfl
      | some ts => simp [Function.comp_def]
  | joined op a b iha ihb =>
      obtain ⟨ha, hb, -, -⟩ := h
      obtain ⟨o, rfl⟩ := harith op List.mem_cons_self
      have happend : (joined (.arithmetic o) a b).lexemes ++ rest
          = a.lexemes ++ .operator o :: (b.lexemes ++ rest) := by simp [lexemes]
      have hoperator : Token.ofLexeme scope whole true (.operator o) = .ok (.binary o) := rfl
      rw [happend, iha ha harith.left, toOption_ofLexemes_of_ok scope whole hoperator,
        Token.endsOperand, ihb hb harith.right, tokens]
      cases a.tokens scope with
      | none => rfl
      | some ts =>
          cases b.tokens scope with
          | none => rfl
          | some us => simp [Function.comp_def]

end Tokens

/-! ## Values -/

theorem Arithmetic.toOption_eval_negation (a : Arithmetic) :
    (negation a).eval.toOption = a.eval.toOption.bind fun x => (negate x).toOption := by
  rw [eval]
  cases a.eval <;> rfl

theorem Arithmetic.toOption_eval_binary (op : BinaryOp) (a b : Arithmetic) :
    (binary op a b).eval.toOption =
      a.eval.toOption.bind fun x => b.eval.toOption.bind fun y => (apply op x y).toOption := by
  rw [eval]
  cases a.eval with
  | error e => rfl
  | ok x => cases b.eval <;> rfl

namespace Phrase

/-- The arithmetic that a phrase asks for, if all its operands mean something. -/
def arithmetic? (scope : Scope) : Phrase → Option Arithmetic
  | operand _ lexeme _ => (lexeme.value? scope).map .operand
  | group _ inner _ => inner.arithmetic? scope
  | negation _ a => (a.arithmetic? scope).map .negation
  | joined (.arithmetic op) a b =>
    (a.arithmetic? scope).bind fun x => (b.arithmetic? scope).map (.binary op x)
  | joined _ _ _ => none

section

variable (f : List Char → List Char) (p : Phrase) (scope : Scope)

@[simp]
theorem arithmetic?_mapFront : (p.mapFront f).arithmetic? scope = p.arithmetic? scope := by
  induction p with
  | operand | group | negation => rfl
  | joined op a b iha ihb => cases op <;> simp only [mapFront, arithmetic?, iha]

@[simp]
theorem arithmetic?_mapBack : (p.mapBack f).arithmetic? scope = p.arithmetic? scope := by
  induction p with
  | operand | group => rfl
  | negation front a ih => rw [mapBack, arithmetic?, ih, arithmetic?]
  | joined op a b iha ihb => cases op <;> simp only [mapBack, arithmetic?, ihb]

@[simp]
theorem arithmetic?_tight : p.tight.arithmetic? scope = p.arithmetic? scope := by
  simp [Phrase.tight]

@[simp]
theorem arithmetic?_core : p.core.arithmetic? scope = p.arithmetic? scope := by
  induction p with
  | group front inner back ih => exact ih
  | operand | negation | joined => exact arithmetic?_tight _ scope

end

variable {scope : Scope}

theorem isArithmetic_of_arithmetic? {p : Phrase} {a : Arithmetic}
    (h : p.arithmetic? scope = some a) : p.IsArithmetic := by
  induction p generalizing a with
  | operand => simp [IsArithmetic, operators]
  | group front inner back ih => exact ih h
  | negation front p ih =>
      obtain ⟨x, hx, -⟩ := Option.map_eq_some_iff.mp h
      exact ih hx
  | joined op p q ihp ihq =>
      cases op with
      | comparison | connective => exact absurd h (by simp [arithmetic?])
      | arithmetic o =>
          obtain ⟨x, hx, h⟩ := Option.bind_eq_some_iff.mp h
          obtain ⟨y, hy, -⟩ := Option.map_eq_some_iff.mp h
          intro other hmem
          rcases List.mem_cons.mp hmem with rfl | hmem
          · exact ⟨o, rfl⟩
          · exact (List.mem_append.mp hmem).elim (ihp hx other) (ihq hy other)

/-- Arithmetic without value, or without operands that mean something, is worth nothing. -/
theorem IsArithmetic.value_eq {p : Phrase} (h : p.IsArithmetic) (scope : Scope) :
    p.value scope = (p.arithmetic? scope).bind fun a => a.eval.toOption := by
  induction p with
  | operand front lexeme back =>
      rw [value, arithmetic?]
      cases lexeme.value? scope <;> rfl
  | group front inner back ih => exact ih h
  | negation front a ih =>
      rw [value, ih h, arithmetic?]
      cases a.arithmetic? scope with
      | none => rfl
      | some x => exact x.toOption_eval_negation.symm
  | joined op a b iha ihb =>
      obtain ⟨o, rfl⟩ := h op List.mem_cons_self
      rw [value, iha h.left, ihb h.right, arithmetic?]
      cases a.arithmetic? scope with
      | none => rfl
      | some x =>
          cases b.arithmetic? scope with
          | none =>
              show (x.eval.toOption.bind fun _ => none) = none
              cases x.eval.toOption <;> rfl
          | some y => exact (Arithmetic.toOption_eval_binary o x y).symm

/-- Where the arithmetic is, there are tokens that write it. -/
theorem Ok.infix_tokens {p : Phrase} (h : p.Ok) {a : Arithmetic}
    (ha : p.arithmetic? scope = some a) :
    ∃ ts, p.tokens scope = some ts ∧ ∀ level ≤ 3, level + 2 ≤ p.level → Infix level ts a := by
  induction p generalizing a with
  | operand front lexeme back =>
      obtain ⟨x, hx, rfl⟩ := Option.map_eq_some_iff.mp ha
      exact ⟨[.operand x], by rw [tokens, hx, Option.map_some], fun level _ _ => .operand x⟩
  | group front inner back ih =>
      obtain ⟨ts, hts, hreads⟩ := ih h.2.1 ha
      have hinner : inner.IsArithmetic := isArithmetic_of_arithmetic? ha
      exact ⟨_, by rw [tokens, hts, Option.map_some],
        fun level _ _ => .group (hreads 1 (by decide) hinner.three_le_level)⟩
  | negation front p ih =>
      obtain ⟨x, hx, rfl⟩ := Option.map_eq_some_iff.mp ha
      obtain ⟨-, hp, hlevel⟩ := h
      obtain ⟨ts, hts, hreads⟩ := ih hp hx
      exact ⟨_, by rw [tokens, hts, Option.map_some],
        fun level hle _ => .negation hle (hreads 3 (Nat.le_refl 3) hlevel)⟩
  | joined op p q ihp ihq =>
      obtain ⟨hp, hq, hleft, hright⟩ := h
      obtain ⟨o, rfl⟩ := isArithmetic_of_arithmetic? ha op List.mem_cons_self
      obtain ⟨x, hx, ha⟩ := Option.bind_eq_some_iff.mp ha
      obtain ⟨y, hy, rfl⟩ := Option.map_eq_some_iff.mp ha
      obtain ⟨tsP, htsP, hreadsP⟩ := ihp hp hx
      obtain ⟨tsQ, htsQ, hreadsQ⟩ := ihq hq hy
      -- levels of phrases are those of tokens, counted from two
      have hprecedence : o.precedence ≤ 2 := by cases o <;> decide
      simp only [Operator.leftLevel, Operator.level] at hleft hright
      refine ⟨_, by rw [tokens, htsP, htsQ, Option.bind_some, Option.map_some],
        fun level _ hlevel => .binary ?_ (hreadsP _ ?_ ?_) (hreadsQ _ ?_ ?_)⟩
      · simp only [Phrase.level, Operator.level] at hlevel
        omega
      all_goals omega

/-- Where it is not, some operand means nothing. -/
theorem tokens_eq_none {p : Phrase} (h : p.arithmetic? scope = none) :
    p.tokens scope = none := by
  induction p with
  | operand front lexeme back => rw [tokens, Option.map_eq_none_iff.mp h, Option.map_none]
  | group front inner back ih => rw [tokens, ih h, Option.map_none]
  | negation front a ih => rw [tokens, ih (Option.map_eq_none_iff.mp h), Option.map_none]
  | joined op a b iha ihb =>
      cases op with
      | comparison | connective => rfl
      | arithmetic o =>
          rw [arithmetic?] at h
          rw [tokens]
          cases ha : a.arithmetic? scope with
          | none => rw [iha ha, Option.bind_none]
          | some x =>
              rw [ha, Option.bind_some, Option.map_eq_none_iff] at h
              rw [ihb h]
              cases a.tokens scope <;> rfl

/-- Reading an arithmetic phrase gives its tokens. -/
theorem Ok.toOption_read {p : Phrase} (h : p.Ok) (harith : p.IsArithmetic) (scope : Scope) :
    (Token.read p.text scope).toOption = p.tokens scope := by
  have hscan := h.scan_text harith stops_nil
  rw [List.append_nil] at hscan
  have hscanned : Lexeme.scan p.text = p.lexemes ++ [] := by
    rw [hscan, Lexeme.scan]
  rw [Token.read, hscanned, h.toOption_ofLexemes scope p.text harith]
  cases p.tokens scope with
  | none => rfl
  | some ts => simp [Token.ofLexemes, Except.toOption]

/-- **Arithmetic phrases are computed**, to a value or to the first fault. -/
theorem Ok.evaluateArithmetic_eq {p : Phrase} (h : p.Ok) {a : Arithmetic}
    (ha : p.arithmetic? scope = some a) : evaluateArithmetic p.text scope = a.eval := by
  have harith := isArithmetic_of_arithmetic? ha
  obtain ⟨ts, hts, hreads⟩ := h.infix_tokens ha
  have hread := h.toOption_read harith scope
  rw [hts] at hread
  rw [evaluateArithmetic]
  cases htokens : Token.read p.text scope with
  | error e =>
      rw [htokens] at hread
      exact absurd hread (by simp [Except.toOption])
  | ok us =>
      rw [htokens] at hread
      obtain rfl := Option.some.inj hread
      exact (hreads 1 (by decide) harith.three_le_level).evalTokens

/-- So they have the value of the phrase. -/
theorem Ok.evaluateArithmetic_text {p : Phrase} (h : p.Ok) (harith : p.IsArithmetic)
    (scope : Scope) : (evaluateArithmetic p.text scope).toOption = p.value scope := by
  rw [harith.value_eq]
  cases ha : p.arithmetic? scope with
  | some a => rw [h.evaluateArithmetic_eq ha, Option.bind_some]
  | none =>
      have hread := h.toOption_read harith scope
      rw [tokens_eq_none ha] at hread
      rw [evaluateArithmetic]
      cases htokens : Token.read p.text scope with
      | error e => rfl
      | ok ts =>
          rw [htokens] at hread
          exact absurd hread (by simp [Except.toOption])

end Phrase

end Flowchart.Expr
