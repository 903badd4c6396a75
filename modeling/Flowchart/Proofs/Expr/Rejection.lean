import Flowchart.Proofs.Expr.Acceptance
import Flowchart.Proofs.Expr.Cutting
import Flowchart.Proofs.Expr.Placement

/-!
# Incomplete texts are rejected

A text with an open literal or a parenthesis without a partner has no value
(`paired_of_evaluate`). No single check sees to that. A parenthesis can be met by the scan
for closing ones, by the pass over the groups or by the stack of postfix order, and an open
literal by the scan for tokens only. So a text that has a value is put together again from
the parts that the stages of the evaluator have read: these are complete, and so is the
whole.
-/

namespace Flowchart.Expr

variable {eval : Evaluator} {scope : Scope} {text : List Char}

/-! ## Blanks and wrapping parentheses -/

/-- A character that is neither a quote nor a parenthesis is passed over in any state. -/
theorem closes_cons {depth : Nat} {inside : Bool} {c : Char} {rest : List Char}
    (h : c ≠ '"' ∧ c ≠ '(' ∧ c ≠ ')') :
    Closes depth inside (c :: rest) ↔ Closes depth inside rest := by
  cases inside with
  | true => exact closes_literal h.1
  | false => exact closes_plain h

theorem closes_run {depth : Nat} {inside : Bool} {run rest : List Char}
    (h : ∀ c ∈ run, c ≠ '"' ∧ c ≠ '(' ∧ c ≠ ')') :
    Closes depth inside (run ++ rest) ↔ Closes depth inside rest := by
  induction run with
  | nil => rfl
  | cons c run ih =>
      rw [List.cons_append, closes_cons (h c List.mem_cons_self)]
      exact ih fun d hmem => h d (List.mem_cons_of_mem _ hmem)

theorem Balanced.of_trim {text : List Char} (h : Balanced (fun _ => True) (Text.trim text)) :
    Balanced (fun _ => True) text := by
  have blanks {run : List Char} (hrun : ∀ c ∈ run, Text.isBlank c = true) :
      Balanced (fun _ => True) run :=
    .of_forall fun c hmem => ⟨trivial, outside_of_isBlank (hrun c hmem)⟩
  obtain ⟨front, back, htext, hfront, hback⟩ := exists_append_trim text
  rw [htext]
  exact (blanks hfront).append (h.append (blanks hback))

theorem Balanced.of_unwrap {text : List Char} (h : Balanced (fun _ => True) (unwrap text)) :
    Balanced (fun _ => True) text := by
  fun_induction unwrap text with
  | case1 rest held hcut ih =>
      rw [cutGroup_eq_some hcut]
      exact .of_group (ih h).of_trim
  | case2 => exact h
  | case3 => exact h

/-! ## Groups -/

/-- Where every text that has a value is balanced. -/
def Strict (eval : Evaluator) : Prop :=
  ∀ text scope value, eval text scope = .ok value → Balanced (fun _ => True) text

/-- A text closes what is left of it and what waits in it, since the groups that have been
evaluated are balanced. -/
theorem Resolves.closes {inside : Bool} {p : Pending} (h : Resolves eval scope inside text p)
    (heval : Strict eval) (hstretch : Closes 0 inside p.stretch)
    (hbeyond : ∀ stretch ∈ p.beyond, Closes 0 false stretch) :
    Closes p.beyond.length inside text := by
  induction h with
  | nil => exact ⟨rfl, hstretch.2⟩
  | quote _ ih => exact closes_quote.mpr (ih (closes_quote.mp hstretch) hbeyond)
  | literal hquote _ ih =>
      exact (closes_literal hquote).mpr (ih ((closes_literal hquote).mp hstretch) hbeyond)
  | plain hplain _ ih =>
      exact (closes_plain hplain).mpr (ih ((closes_plain hplain).mp hstretch) hbeyond)
  | closing _ ih =>
      exact closes_close.mpr ⟨Nat.succ_pos _, ih (hbeyond _ List.mem_cons_self)
        fun stretch hmem => hbeyond stretch (List.mem_cons_of_mem _ hmem)⟩
  | @opening rest next beyond q value _ hq hvalue ih =>
      have hgroup : Closes 0 false q.stretch := (heval _ _ _ hvalue).closes
      have hnext : Closes 0 false next := (closes_run (slotText_plain _)).mp hstretch
      have hrest := ih hgroup (by rw [hq]; exact List.forall_mem_cons.mpr ⟨hnext, hbeyond⟩)
      rw [hq] at hrest
      exact closes_open.mpr hrest

/-- As many parentheses wait as a scan finds closed too often, at most. -/
theorem Resolves.length_beyond_le {inside : Bool} {p : Pending}
    (h : Resolves eval scope inside text p) {depth : Nat}
    (hclosing : closesTooOften depth inside text = false) : p.beyond.length ≤ depth := by
  induction h generalizing depth with
  | nil => exact Nat.zero_le _
  -- the equations of the scan split on the depth, so it is unfolded as a whole
  | quote _ ih =>
      rw [closesTooOften.eq_def] at hclosing
      exact ih hclosing
  | literal hquote _ ih =>
      rw [closesTooOften.eq_def] at hclosing
      exact ih (by simpa [hquote] using hclosing)
  | plain hplain _ ih =>
      rw [closesTooOften.eq_def] at hclosing
      exact ih (by simpa [hplain] using hclosing)
  | closing _ ih =>
      cases depth with
      | zero => exact Bool.noConfusion hclosing
      | succ depth => exact Nat.succ_le_succ (ih hclosing)
  | opening _ hq _ ih =>
      have hrest : _ ≤ depth + 1 := ih hclosing
      rw [hq] at hrest
      exact Nat.le_of_succ_le_succ hrest

/-- A text is balanced if its groups are resolved and what is left is balanced. -/
theorem Strict.balanced_of_resolveGroups (heval : Strict eval) {flat : Flattened}
    (h : resolveGroups eval text scope = .ok flat) (hflat : Balanced (fun _ => True) flat.text) :
    Balanced (fun _ => True) text := by
  obtain ⟨hclosing, beyond, hresolves⟩ := resolveGroups_eq_ok h
  obtain rfl : beyond = [] :=
    List.eq_nil_of_length_eq_zero (Nat.le_zero.mp (hresolves.length_beyond_le hclosing))
  exact closes_zero_iff.mp (hresolves.closes heval hflat.closes (by simp))

/-! ## Operands -/

/-- A text is balanced if its operands are, since symbols hold no parentheses. -/
theorem Cuts.balanced {α : Type} {leading? : List Char → Option α} {symbol : α → String}
    (hfamily : Family leading? symbol) {first : List Char} {more : List (α × List Char)}
    (h : Cuts leading? symbol 0 false text first more) (hfirst : Balanced (fun _ => True) first)
    (hmore : ∀ operand ∈ more, Balanced (fun _ => True) operand.2) :
    Balanced (fun _ => True) text := by
  rw [h.join]
  refine hfirst.append ?_
  clear h
  induction more with
  | nil => exact .nil
  | cons operand rest ih =>
      obtain ⟨hoperand, hrest⟩ := List.forall_mem_cons.mp hmore
      have hsymbol : Balanced (fun _ => True) (symbol operand.1).toList :=
        .of_forall fun c hmem => ⟨trivial, hfamily.symbol_outside operand.1 c hmem⟩
      rw [List.flatMap_cons]
      exact (hsymbol.append hoperand).append (ih hrest)

/-! ## Tokens -/

/-- Tokens that have a postfix order come from lexemes whose parentheses match. -/
theorem closed_of_toPostfixWith {lexemes : List Lexeme} {whole : List Char} {afterOperand : Bool}
    {tokens : List Token} {stack : List Waiting} {items : List PostfixItem}
    (htokens : Token.ofLexemes scope whole afterOperand lexemes = .ok tokens)
    (h : toPostfixWith stack tokens = .ok items) :
    Lexeme.Closed (Waiting.depth stack) lexemes := by
  induction lexemes generalizing afterOperand tokens stack items with
  | nil =>
      obtain rfl := Except.ok.inj htokens
      rw [toPostfixWith] at h
      split at h
      · next hdrain => exact (Waiting.drain?_eq_some hdrain).2
      · cases h
  | cons lexeme rest ih =>
      rw [Token.ofLexemes] at htokens
      cases htoken : Token.ofLexeme scope whole afterOperand lexeme with
      | error e => rw [htoken] at htokens; cases htokens
      | ok token =>
          rw [htoken] at htokens
          dsimp only at htokens
          cases hmore : Token.ofLexemes scope whole token.endsOperand rest with
          | error e => rw [hmore] at htokens; cases htokens
          | ok more =>
              rw [hmore] at htokens
              obtain rfl := Except.ok.inj htokens
              have operand {name : List Char} {value : Option Value}
                  (hvalue : Token.operand? name value = .ok token) :
                  Lexeme.Closed (Waiting.depth stack) rest := by
                cases value with
                | none => cases hvalue
                | some value =>
                    obtain rfl := Except.ok.inj hvalue
                    obtain ⟨items', hitems, -⟩ := before_eq_ok h
                    exact ih hmore hitems
              cases lexeme with
              | number text | slot name | word text => exact operand htoken
              | literal text =>
                  have hvalue : Token.operand? text (some (.str (String.ofList text))) = .ok token :=
                    htoken
                  exact operand hvalue
              | unterminated | unknown c => cases htoken
              | operator op =>
                  obtain rfl := Except.ok.inj htoken
                  rw [Token.ofOperator] at h hmore
                  split at h
                  · next hsign =>
                    rw [if_pos hsign] at hmore
                    have hrest : toPostfixWith (.negation :: stack) more = .ok items := h
                    have hclosed := ih hmore hrest
                    exact hclosed
                  · next hsign =>
                    rw [if_neg hsign] at hmore
                    obtain ⟨items', hitems, -⟩ := before_eq_ok h
                    have hrest := ih hmore hitems
                    rwa [Waiting.depth, Waiting.depth_kept] at hrest
              | leftParen =>
                  obtain rfl := Except.ok.inj htoken
                  exact ih hmore h
              | rightParen =>
                  obtain rfl := Except.ok.inj htoken
                  rw [toPostfixWith] at h
                  split at h
                  · next out under hparen =>
                    obtain ⟨items', hitems, -⟩ := before_eq_ok h
                    rw [(Waiting.toParen?_eq_some hparen).2]
                    exact ⟨Nat.succ_pos _, ih hmore hitems⟩
                  · cases h

/-- A text whose literals are closed and whose lexemes match closes what they close. -/
theorem closes_of_closed_scan {depth : Nat} (hinside : insideAfter false text = false)
    (h : Lexeme.Closed depth (Lexeme.scan text)) : Closes depth false text := by
  fun_induction Lexeme.scan text generalizing depth with
  | case1 => exact ⟨h, rfl⟩
  | case2 c rest hblank ih =>
      have hc := outside_of_isBlank hblank
      rw [insideAfter, if_neg hc.1] at hinside
      exact (closes_plain hc).mpr (ih hinside h)
  | case3 c rest hblank hnumber ih =>
      have hc := isOperandChar_of_isNumberChar hnumber
      rw [cons_eq_run_append c isNumberChar,
        (balanced_run hc (fun _ => isOperandChar_of_isNumberChar) rest).closes_append]
      rw [← insideAfter_dropWhile hc fun _ => isOperandChar_of_isNumberChar] at hinside
      exact ih hinside h
  | case4 rest hblank hnumber ih =>
      have hc : isOperandChar '$' = true := by decide
      rw [cons_eq_run_append '$' Char.isDigit,
        (balanced_run hc (fun _ => isOperandChar_of_isDigit) rest).closes_append]
      rw [← insideAfter_dropWhile hc fun _ => isOperandChar_of_isDigit] at hinside
      exact ih hinside h
  | case5 c rest hblank hnumber hdollar hstart ih =>
      have hc := isOperandChar_of_startsWord hstart
      rw [cons_eq_run_append c Text.isWordChar,
        (balanced_run hc (fun _ => isOperandChar_of_isWordChar) rest).closes_append]
      rw [← insideAfter_dropWhile hc fun _ => isOperandChar_of_isWordChar] at hinside
      exact ih hinside h
  | case6 rest hcut =>
      rw [insideAfter_unterminated hcut] at hinside
      exact Bool.noConfusion hinside
  | case7 rest quote beyond hcut _ _ _ _ ih =>
      obtain ⟨hfree, hrest⟩ := cut_literal hcut
      generalize rest.takeWhile (· ≠ '"') = literal at hfree hrest h
      subst hrest
      have hparts : '"' :: (literal ++ '"' :: beyond) = '"' :: literal ++ ['"'] ++ beyond := by simp
      rw [hparts] at hinside ⊢
      have hliteral : Balanced (fun _ => True) ('"' :: literal ++ ['"']) := .of_literal hfree
      rw [hliteral.insideAfter_append] at hinside
      rw [hliteral.closes_append]
      exact ih hinside h
  | case8 c rest hblank hnumber hdollar hstart hquote ih =>
      rw [insideAfter, if_neg hquote] at hinside
      by_cases hopen : c = '('
      · subst hopen
        exact closes_open.mpr (ih hinside h)
      · by_cases hclose : c = ')'
        · subst hclose
          exact closes_close.mpr ⟨h.1, ih hinside h.2⟩
        · refine (closes_plain ⟨hquote, hopen, hclose⟩).mpr (ih hinside ?_)
          unfold Lexeme.ofChar at h
          split at h
          · exact h
          · rwa [if_neg hopen, if_neg hclose] at h

theorem balanced_of_evaluateArithmetic {value : Value}
    (h : evaluateArithmetic text scope = .ok value) : Balanced (fun _ => True) text := by
  obtain ⟨tokens, hread, hvalue⟩ := evaluateArithmetic_eq_ok h
  obtain ⟨items, hitems, -⟩ := exists_items_of_evalTokens hvalue
  have hinside : insideAfter false text = false := Bool.eq_false_iff.mpr fun hinside =>
    unterminated_not_mem hread (unterminated_mem_scan hinside)
  exact closes_zero_iff.mp (closes_of_closed_scan hinside (closed_of_toPostfixWith hread hitems))

/-! ## Any text -/

theorem Strict.balanced_of_evaluateLogical (heval : Strict eval) {b : Bool}
    (h : evaluateLogical eval text scope = .ok b) : Balanced (fun _ => True) text := by
  obtain ⟨flat, hresolve, ⟨a, hfirst⟩, hmore⟩ := evaluateLogical_eq_ok h
  refine heval.balanced_of_resolveGroups hresolve ?_
  refine (cuts_conjuncts flat.text).balanced family_connective ?_ fun operand hmem => ?_
  · exact (heval _ _ _ hfirst).of_trim
  · obtain ⟨b, hvalue⟩ := hmore operand hmem
    exact (heval _ _ _ hvalue).of_trim

theorem Strict.balanced_of_evaluateComparison (heval : Strict eval) {value : Value}
    (h : evaluateComparison eval text scope = .ok value) : Balanced (fun _ => True) text := by
  obtain ⟨-, ⟨flat, -, hresolve, hvalue⟩ | ⟨left, op, right, a, b, hcut, hleft, hright⟩⟩ :=
    evaluateComparison_eq_ok h
  · exact heval.balanced_of_resolveGroups hresolve (heval _ _ _ hvalue)
  · have hcuts := cuts_comparands text
    rw [hcut] at hcuts
    refine hcuts.balanced family_comparison (heval _ _ _ hleft).of_trim ?_
    exact List.forall_mem_singleton.mpr (heval _ _ _ hright).of_trim

theorem Strict.evaluateBody (heval : Strict eval) : Strict (evaluateBody eval) := by
  intro text scope value h
  refine (Balanced.of_unwrap ?_).of_trim
  rcases evaluateBody_eq_ok h with ⟨b, hbool⟩ | ⟨-, b, hlogical⟩ | ⟨-, -, hcomparison⟩ |
    harithmetic
  · have hplain : ∀ c ∈ Phrase.truthLetters, c ≠ '"' ∧ c ≠ '(' ∧ c ≠ ')' :=
      Text.forall_mem_of_all (by decide)
    exact .of_forall fun c hmem =>
      ⟨trivial, hplain c (mem_truthLetters_of_boolOfWord? hbool c hmem)⟩
  · exact heval.balanced_of_evaluateLogical hlogical
  · exact heval.balanced_of_evaluateComparison hcomparison
  · exact balanced_of_evaluateArithmetic harithmetic

theorem strict_outOfReach : Strict outOfReach := by
  intro text scope value h
  cases h

theorem Strict.evaluateWithin {deeper : Evaluator} (h : Strict deeper) (depth : Nat) :
    Strict (evaluateWithin deeper depth) := by
  induction depth with
  | zero => exact h
  | succ depth ih => exact ih.evaluateBody

theorem strict_evaluate : Strict evaluate :=
  fun text => strict_outOfReach.evaluateWithin (depthBound text) text

/-- **What has a value is complete.** Its quotes are even in number, and outside the literals
that they delimit its parentheses match. -/
theorem paired_of_evaluate {value : Value} (h : evaluate text scope = .ok value) : Paired text :=
  paired_iff_balanced.mpr (strict_evaluate text scope value h)

/-- Quotes and parentheses in a literal, in a group, and around all of it. -/
theorem paired_of_evaluate_nested :
    evaluate " ((\")(\" == \"\") || ((1 + 2) * 3 < 10))".toList (fun _ => none) = .ok (.bool true) ∧
    Paired " ((\")(\" == \"\") || ((1 + 2) * 3 < 10))".toList := by
  have hvalue : evaluate " ((\")(\" == \"\") || ((1 + 2) * 3 < 10))".toList (fun _ => none)
      = .ok (.bool true) := by decide +kernel
  exact ⟨hvalue, paired_of_evaluate hvalue⟩

end Flowchart.Expr
