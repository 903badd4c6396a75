import Flowchart.Proofs.Expr.Bracket
import Flowchart.Proofs.Expr.Grammar
import Flowchart.Proofs.Expr.Position

/-!
# Texts at their seams

Blanks and parentheses are seams of a text: no token goes across one. So what a scan finds
in a text that is cut at a seam outside its literals is what it finds in the two parts
(`scan_append_cons`, `Sealed.append_cons`), and trimming and unwrapping a text leave all
of it as it is.

With this the evaluator can be followed through texts that no grammar describes. Where a
text has neither connectives nor comparisons, its value is that of its lexemes
(`toOption_evaluate_of_arithmetic`).
-/

namespace Flowchart.Expr

/-- Blanks and parentheses. -/
def isSeam (c : Char) : Bool :=
  Text.isBlank c || c = '(' || c = ')'

theorem isSeam_cases {c : Char} (h : isSeam c = true) :
    Text.isBlank c = true ∨ c = '(' ∨ c = ')' := by
  simpa [isSeam, or_assoc] using h

theorem isSeam_of_isBlank {c : Char} (h : Text.isBlank c = true) : isSeam c = true := by
  simp [isSeam, h]

/-- No operand goes across a seam. -/
theorem not_isOperandChar_of_isSeam {c : Char} (h : isSeam c = true) :
    isOperandChar c = false := by
  rcases isSeam_cases h with hblank | rfl | rfl
  · refine Bool.eq_false_iff.mpr fun hchar => ?_
    rw [not_isBlank_of_isOperandChar hchar] at hblank
    exact Bool.noConfusion hblank
  · decide
  · decide

theorem ne_quote_of_isSeam {c : Char} (h : isSeam c = true) : c ≠ '"' := by
  rintro rfl
  exact absurd h (by decide)

/-! ## Lexemes -/

/-- The part of a text that goes into a run of operand characters is outside literals. -/
theorem balanced_run {c : Char} (hc : isOperandChar c = true) {q : Char → Bool}
    (hq : ∀ d, q d = true → isOperandChar d = true) (rest : List Char) :
    Balanced (fun _ => True) (c :: rest.takeWhile q) := by
  refine Phrase.balanced_of_not_reserved fun d hmem => not_reserved_of_isOperandChar ?_
  rcases List.mem_cons.mp hmem with rfl | hmem
  · exact hc
  · exact hq d (List.mem_takeWhile_imp hmem)

theorem cons_eq_run_append (c : Char) (q : Char → Bool) (rest : List Char) :
    c :: rest = (c :: rest.takeWhile q) ++ rest.dropWhile q := by
  rw [List.cons_append, List.takeWhile_append_dropWhile]

/-- A run of operand characters does not change the state of a scan. -/
theorem insideAfter_dropWhile {c : Char} (hc : isOperandChar c = true) {q : Char → Bool}
    (hq : ∀ d, q d = true → isOperandChar d = true) (rest : List Char) :
    insideAfter false (rest.dropWhile q) = insideAfter false (c :: rest) := by
  conv => rhs; rw [cons_eq_run_append c q, (balanced_run hc hq rest).insideAfter_append]

/-- A text with a literal that is never closed ends inside of it. -/
theorem insideAfter_unterminated {rest : List Char} (h : rest.dropWhile (· ≠ '"') = []) :
    insideAfter false ('"' :: rest) = true := by
  have hfree : '"' ∉ rest := fun hmem => by
    simpa using List.dropWhile_eq_nil_iff.mp h '"' hmem
  rw [insideAfter, if_pos rfl, insideAfter_of_not_mem hfree]
  rfl

/-- **Scanning at a seam.** -/
theorem scan_append_cons {a : List Char} {c : Char} (hc : isSeam c = true)
    (ha : insideAfter false a = false) (b : List Char) :
    Lexeme.scan (a ++ c :: b) = Lexeme.scan a ++ Lexeme.scan (c :: b) := by
  have hoperand := not_isOperandChar_of_isSeam hc
  have hword : Text.isWordChar c = false := by
    refine Bool.eq_false_iff.mpr fun h => ?_
    rw [isOperandChar_of_isWordChar h] at hoperand
    exact Bool.noConfusion hoperand
  have hnumber : isNumberChar c = false := by
    refine Bool.eq_false_iff.mpr fun h => ?_
    rw [isOperandChar_of_isNumberChar h] at hoperand
    exact Bool.noConfusion hoperand
  have hdigit := Text.not_isDigit_of_not_isWordChar hword
  fun_induction Lexeme.scan a with
  | case1 => rfl
  | case2 d rest hblank ih =>
      rw [insideAfter, if_neg (ne_quote_of_isSeam (isSeam_of_isBlank hblank))] at ha
      rw [List.cons_append, Lexeme.scan, if_pos hblank, ih ha]
  | case3 d rest hblank hd ih =>
      have hrest := (insideAfter_dropWhile (isOperandChar_of_isNumberChar hd)
        (fun _ => isOperandChar_of_isNumberChar) rest).trans ha
      rw [List.cons_append, Lexeme.scan, if_neg hblank, if_pos hd, takeWhile_append_cons hnumber,
        dropWhile_append_cons hnumber, ih hrest, List.cons_append]
  | case4 rest hblank hd ih =>
      have hrest := (insideAfter_dropWhile (by decide : isOperandChar '$' = true)
        (fun _ => isOperandChar_of_isDigit) rest).trans ha
      rw [List.cons_append, Lexeme.scan, if_neg hblank, if_neg hd, if_pos rfl,
        takeWhile_append_cons hdigit, dropWhile_append_cons hdigit, ih hrest, List.cons_append]
  | case5 d rest hblank hd hdollar hstart ih =>
      have hrest := (insideAfter_dropWhile (isOperandChar_of_startsWord hstart)
        (fun _ => isOperandChar_of_isWordChar) rest).trans ha
      rw [List.cons_append, Lexeme.scan, if_neg hblank, if_neg hd, if_neg hdollar, if_pos hstart,
        takeWhile_append_cons hword, dropWhile_append_cons hword, ih hrest, List.cons_append]
  | case6 rest hcut =>
      rw [insideAfter_unterminated hcut] at ha
      exact Bool.noConfusion ha
  | case7 rest quote beyond hcut _ _ _ _ ih =>
      obtain ⟨hheld, hrest⟩ := cut_literal hcut
      generalize rest.takeWhile (· ≠ '"') = held at hheld hrest ⊢
      subst hrest
      rw [← List.cons_append, insideAfter_literal hheld] at ha
      have happend : '"' :: (held ++ '"' :: beyond) ++ c :: b
          = '"' :: (held ++ '"' :: (beyond ++ c :: b)) := by simp
      rw [happend, scan_literal hheld, ih ha, List.cons_append]
  | case8 d rest hblank hd hdollar hstart hquote ih =>
      rw [insideAfter, if_neg hquote] at ha
      rw [List.cons_append, Lexeme.scan, if_neg hblank, if_neg hd, if_neg hdollar, if_neg hstart,
        if_neg hquote, ih ha, List.cons_append]

/-- The blanks that trimming takes from both ends. -/
theorem exists_append_trim (text : List Char) :
    ∃ front back, text = front ++ (Text.trim text ++ back) ∧
      (∀ c ∈ front, Text.isBlank c = true) ∧ ∀ c ∈ back, Text.isBlank c = true := by
  obtain ⟨back, hback, hblanks⟩ := exists_append_trimEnd (text.dropWhile Text.isBlank)
  refine ⟨text.takeWhile Text.isBlank, back, ?_, fun c hmem => List.mem_takeWhile_imp hmem, hblanks⟩
  rw [Text.trim, ← hback, List.takeWhile_append_dropWhile]

theorem insideAfter_blanks {blanks : List Char} (h : ∀ c ∈ blanks, Text.isBlank c = true)
    (inside : Bool) : insideAfter inside blanks = inside := by
  refine insideAfter_of_not_mem (fun hmem => ?_) inside
  exact absurd (h '"' hmem) (by decide)

theorem insideAfter_trim (inside : Bool) (text : List Char) :
    insideAfter inside (Text.trim text) = insideAfter inside text := by
  obtain ⟨front, back, htext, hfront, hback⟩ := exists_append_trim text
  conv => rhs; rw [htext]
  rw [insideAfter_append, insideAfter_append, insideAfter_blanks hfront, insideAfter_blanks hback]

/-- Trimming a text keeps its lexemes. -/
theorem scan_trim {text : List Char} (h : insideAfter false text = false) :
    Lexeme.scan (Text.trim text) = Lexeme.scan text := by
  obtain ⟨front, back, htext, hfront, hback⟩ := exists_append_trim text
  rw [← insideAfter_trim] at h
  conv => rhs; rw [htext, scan_blanks hfront]
  cases back with
  | nil => rw [List.append_nil]
  | cons c back =>
      have hblanks := scan_blanks hback []
      rw [List.append_nil, Lexeme.scan] at hblanks
      rw [scan_append_cons (isSeam_of_isBlank (hback c List.mem_cons_self)) h, hblanks,
        List.append_nil]

/-! ## Operators -/

/-- A test that looks for an operator: none begins at a seam or goes across one. -/
structure Sealed (test : List Char → Bool) : Prop where
  start : ∀ {c}, isSeam c = true → ∀ rest, test (c :: rest) = false
  across : ∀ {c}, isSeam c = true → ∀ a ≠ [], ∀ rest, test (a ++ c :: rest) = test a

theorem not_mem_of_isSeam (operators : List Char) {c : Char}
    (hall : operators.all (fun d => !isSeam d) = true) (h : isSeam c = true) : c ∉ operators := by
  intro hmem
  have hc := List.all_eq_true.mp hall c hmem
  rw [h] at hc
  exact Bool.noConfusion hc

/-- Only the first two characters matter. -/
theorem Connective.leading?_cons_cons (x y : Char) (a b : List Char) :
    Connective.leading? (x :: y :: a) = Connective.leading? (x :: y :: b) := by
  unfold Connective.leading?
  split <;> simp_all

theorem Connective.leading?_cons_of_not_mem {y : Char} (h : y ∉ ['&', '|']) (x : Char)
    (a : List Char) : Connective.leading? (x :: y :: a) = Connective.leading? [x] := by
  unfold Connective.leading?
  split <;> simp_all

/-- The second character matters when it is an equals sign. -/
theorem Comparison.leading?_cons_of_ne {y : Char} (h : y ≠ '=') (x : Char) (a : List Char) :
    Comparison.leading? (x :: y :: a) = Comparison.leading? [x] := by
  unfold Comparison.leading?
  split <;> simp_all

theorem Comparison.leading?_cons_cons (x y : Char) (a b : List Char) :
    Comparison.leading? (x :: y :: a) = Comparison.leading? (x :: y :: b) := by
  by_cases hy : y = '='
  · subst hy
    unfold Comparison.leading?
    split <;> simp_all
    all_goals
      rename_i hne hcons
      exact hne a hcons.2.symm
  · rw [leading?_cons_of_ne hy, leading?_cons_of_ne hy]

theorem sealed_connective : Sealed fun rest => (Connective.leading? rest).isSome where
  start {c} hc rest := by
    have hnone := Phrase.leading?_connective_eq_none
      (not_mem_of_isSeam ['&', '|'] (by decide) hc) rest
    rw [hnone]
    rfl
  across {c} hc a hne rest := by
    match a, hne with
    | [x], _ =>
        rw [List.singleton_append, Connective.leading?_cons_of_not_mem]
        exact not_mem_of_isSeam _ (by decide) hc
    | x :: y :: a, _ => exact congrArg Option.isSome (Connective.leading?_cons_cons x y _ _)

theorem sealed_comparison : Sealed fun rest => (Comparison.leading? rest).isSome where
  start {c} hc rest := by
    have hnone := Phrase.leading?_comparison_eq_none
      (not_mem_of_isSeam ['=', '!', '<', '>'] (by decide) hc) rest
    rw [hnone]
    rfl
  across {c} hc a hne rest := by
    match a, hne with
    | [x], _ =>
        rw [List.singleton_append, Comparison.leading?_cons_of_ne]
        rintro rfl
        exact absurd hc (by decide)
    | x :: y :: a, _ => exact congrArg Option.isSome (Comparison.leading?_cons_cons x y _ _)

namespace Sealed

variable {test : List Char → Bool}

theorem cons (h : Sealed test) {c : Char} (hc : isSeam c = true) (inside : Bool)
    (rest : List Char) : occursOutside test inside (c :: rest) = occursOutside test inside rest := by
  rw [occursOutside, if_neg (ne_quote_of_isSeam hc), h.start hc, Bool.and_false, Bool.false_or]

/-- **Searching at a seam.** -/
theorem append_cons (h : Sealed test) {c : Char} (hc : isSeam c = true) (inside : Bool)
    (a b : List Char) :
    occursOutside test inside (a ++ c :: b)
      = (occursOutside test inside a || occursOutside test (insideAfter inside a) b) := by
  induction a generalizing inside with
  | nil =>
      rw [List.nil_append, h.cons hc]
      rfl
  | cons d a ih =>
      rw [List.cons_append, occursOutside, occursOutside, insideAfter]
      by_cases hquote : d = '"'
      · rw [if_pos hquote, if_pos hquote, if_pos hquote, ih]
      · have hacross := h.across hc (d :: a) (by simp) b
        rw [List.cons_append] at hacross
        rw [if_neg hquote, if_neg hquote, if_neg hquote, ih, hacross, Bool.or_assoc]

/-- Operators are neither found in blanks nor hidden by them. -/
theorem blanks_append (h : Sealed test) {blanks : List Char}
    (hblanks : ∀ c ∈ blanks, Text.isBlank c = true) (inside : Bool) (a : List Char) :
    occursOutside test inside (blanks ++ a) = occursOutside test inside a := by
  induction blanks with
  | nil => rfl
  | cons c rest ih =>
      rw [List.cons_append, h.cons (isSeam_of_isBlank (hblanks c List.mem_cons_self))]
      exact ih fun d hmem => hblanks d (List.mem_cons_of_mem _ hmem)

theorem append_blanks (h : Sealed test) {blanks : List Char}
    (hblanks : ∀ c ∈ blanks, Text.isBlank c = true) (inside : Bool) (a : List Char) :
    occursOutside test inside (a ++ blanks) = occursOutside test inside a := by
  cases blanks with
  | nil => rw [List.append_nil]
  | cons c rest =>
      have hrest := h.blanks_append (fun d hmem => hblanks d (List.mem_cons_of_mem _ hmem))
        (insideAfter inside a) []
      rw [List.append_nil] at hrest
      rw [h.append_cons (isSeam_of_isBlank (hblanks c List.mem_cons_self)), hrest, occursOutside,
        Bool.or_false]

theorem trim (h : Sealed test) (text : List Char) :
    occursOutside test false (Text.trim text) = occursOutside test false text := by
  obtain ⟨front, back, htext, hfront, hback⟩ := exists_append_trim text
  conv => rhs; rw [htext]
  rw [h.blanks_append hfront, h.append_blanks hback]

/-- Taking parentheses off a text takes no operator away. -/
theorem unwrap (h : Sealed test) (text : List Char) :
    occursOutside test false (Expr.unwrap text) = occursOutside test false text := by
  have hopen : isSeam '(' = true := by decide
  have hclose : isSeam ')' = true := by decide
  fun_induction Expr.unwrap text with
  | case1 rest held hcut ih =>
      have hwrapped : '(' :: rest = [] ++ '(' :: (held ++ ')' :: []) := by
        rw [cutGroup_eq_some hcut, List.nil_append]
      rw [ih, h.trim, hwrapped, h.append_cons hopen, h.append_cons hclose]
      simp [occursOutside, insideAfter]
  | case2 => rfl
  | case3 => rfl

/-- The operators of a text with a group, and of the text with a word in its place. -/
theorem grouped (h : Sealed test) {before held after : List Char}
    (hbefore : insideAfter false before = false) (hheld : insideAfter false held = false) :
    occursOutside test false (grouped before held after) = (occursOutside test false before ||
      (occursOutside test false held || occursOutside test false after)) := by
  rw [Expr.grouped, h.append_cons (by decide), h.append_cons (by decide), hbefore, hheld]

theorem filled (h : Sealed test) {before word after : List Char}
    (hbefore : insideAfter false before = false) (hword : insideAfter false word = false) :
    occursOutside test false (filled before word after) = (occursOutside test false before ||
      (occursOutside test false word || occursOutside test false after)) := by
  rw [Expr.filled, h.append_cons (by decide), h.append_cons (by decide), hbefore, hword]

/-- Where a text has no operators, neither has the group nor the text without it. -/
theorem of_grouped (h : Sealed test) {before held after word : List Char}
    (hbefore : insideAfter false before = false) (hheld : insideAfter false held = false)
    (hword : insideAfter false word = false) (hplain : occursOutside test false word = false)
    (hnone : occursOutside test false (Expr.grouped before held after) = false) :
    occursOutside test false held = false ∧
      occursOutside test false (Expr.filled before word after) = false := by
  rw [h.grouped hbefore hheld, Bool.or_eq_false_iff, Bool.or_eq_false_iff] at hnone
  obtain ⟨hfront, hinner, hback⟩ := hnone
  exact ⟨hinner, by rw [h.filled hbefore hword, hfront, hplain, hback]; rfl⟩

end Sealed

/-! ## Parentheses around a text -/

/-- What a cut puts in front of the group can be taken off again. -/
theorem cut_of_map (run : List Char) {held after : List Char} {cut : Option (List Char × List Char)}
    (h : cut.map (fun parts => (run ++ parts.1, parts.2)) = some (run ++ held, after)) :
    cut = some (held, after) := by
  obtain ⟨⟨held', after'⟩, hcut, heq⟩ := Option.map_eq_some_iff.mp h
  obtain ⟨hheld, rfl⟩ := Prod.mk.inj heq
  obtain rfl := List.append_cancel_left hheld
  exact hcut

theorem cutGroup_open (depth : Nat) (rest : List Char) :
    cutGroup depth false ('(' :: rest) = (cutGroup (depth + 1) false rest).map (ahead '(') := by
  rw [cutGroup.eq_def]
  simp

theorem cutGroup_zero_close (rest : List Char) :
    cutGroup 0 false (')' :: rest) = some ([], rest) := by
  simp [cutGroup]

theorem cutGroup_succ_close (depth : Nat) (rest : List Char) :
    cutGroup (depth + 1) false (')' :: rest) = (cutGroup depth false rest).map (ahead ')') := by
  simp [cutGroup]

/-- What a group holds has lexemes whose parentheses match. -/
theorem closed_scan {depth : Nat} {held after : List Char}
    (hcut : cutGroup depth false (held ++ ')' :: after) = some (held, after))
    (hheld : insideAfter false held = false) : Lexeme.Closed depth (Lexeme.scan held) := by
  -- a run of characters in front leaves the rest as it is
  have behind {depth : Nat} {run rest : List Char} (hrun : Balanced (fun _ => True) run)
      (hcut : cutGroup depth false (run ++ rest ++ ')' :: after) = some (run ++ rest, after))
      (hheld : insideAfter false (run ++ rest) = false) :
      cutGroup depth false (rest ++ ')' :: after) = some (rest, after) ∧
        insideAfter false rest = false := by
    rw [List.append_assoc] at hcut
    rw [hrun.insideAfter_append] at hheld
    rw [hrun.cutGroup_append] at hcut
    exact ⟨cut_of_map run hcut, hheld⟩
  have single {c : Char} (hc : c ≠ '"' ∧ c ≠ '(' ∧ c ≠ ')') : Balanced (fun _ => True) [c] :=
    .char trivial hc.1 hc.2.1 hc.2.2 .nil
  fun_induction Lexeme.scan held generalizing depth with
  | case1 =>
      cases depth with
      | zero => rfl
      | succ depth =>
          obtain ⟨⟨held', after'⟩, -, heq⟩ := Option.map_eq_some_iff.mp hcut
          exact absurd (Prod.mk.inj heq).1 (by simp)
  | case2 c rest hblank ih =>
      have hc := outside_of_isBlank hblank
      obtain ⟨hcut, hheld⟩ := behind (single hc) hcut hheld
      exact ih hcut hheld
  | case3 c rest hblank hd ih =>
      have hrun := balanced_run (isOperandChar_of_isNumberChar hd)
        (fun _ => isOperandChar_of_isNumberChar) rest
      rw [cons_eq_run_append c isNumberChar] at hcut hheld
      obtain ⟨hcut, hheld⟩ := behind hrun hcut hheld
      exact ih hcut hheld
  | case4 rest hblank hd ih =>
      have hrun := balanced_run (q := Char.isDigit) (by decide : isOperandChar '$' = true)
        (fun _ => isOperandChar_of_isDigit) rest
      rw [cons_eq_run_append '$' Char.isDigit] at hcut hheld
      obtain ⟨hcut, hheld⟩ := behind hrun hcut hheld
      exact ih hcut hheld
  | case5 c rest hblank hd hdollar hstart ih =>
      have hrun := balanced_run (isOperandChar_of_startsWord hstart)
        (fun _ => isOperandChar_of_isWordChar) rest
      rw [cons_eq_run_append c Text.isWordChar] at hcut hheld
      obtain ⟨hcut, hheld⟩ := behind hrun hcut hheld
      exact ih hcut hheld
  | case6 rest hcut' =>
      rw [insideAfter_unterminated hcut'] at hheld
      exact Bool.noConfusion hheld
  | case7 rest quote beyond hcut' _ _ _ _ ih =>
      obtain ⟨hfree, hrest⟩ := cut_literal hcut'
      generalize rest.takeWhile (· ≠ '"') = literal at hfree hrest ⊢
      subst hrest
      have hparts : '"' :: (literal ++ '"' :: beyond) = '"' :: literal ++ ['"'] ++ beyond := by simp
      rw [hparts] at hcut hheld
      obtain ⟨hcut, hheld⟩ := behind (.of_literal hfree) hcut hheld
      exact ih hcut hheld
  | case8 c rest hblank hd hdollar hstart hquote ih =>
      have hrest : insideAfter false rest = false := by
        rwa [insideAfter, if_neg hquote] at hheld
      by_cases hopen : c = '('
      · subst hopen
        rw [List.cons_append, cutGroup_open] at hcut
        exact ih (cut_of_map ['('] hcut) hrest
      · by_cases hclose : c = ')'
        · subst hclose
          cases depth with
          | zero =>
              rw [List.cons_append, cutGroup_zero_close] at hcut
              exact absurd (Prod.mk.inj (Option.some.inj hcut)).1 (by simp)
          | succ depth =>
              rw [List.cons_append, cutGroup_succ_close] at hcut
              exact ⟨Nat.succ_pos depth, ih (cut_of_map [')'] hcut) hrest⟩
        · obtain ⟨hcut, -⟩ := behind (single ⟨hquote, hopen, hclose⟩) hcut hheld
          have hclosed := ih hcut hrest
          unfold Lexeme.ofChar
          split
          · exact hclosed
          · rwa [if_neg hopen, if_neg hclose]

/-- Parentheses that wrap a text do not count. -/
theorem valueOf_scan_unwrap {text : List Char} (h : insideAfter false text = false)
    (scope : Scope) :
    Lexeme.valueOf scope (Lexeme.scan (unwrap text)) = Lexeme.valueOf scope (Lexeme.scan text) := by
  fun_induction unwrap text with
  | case1 rest held hcut ih =>
      obtain rfl := cutGroup_eq_some hcut
      have hheld : insideAfter false held = false := by
        rwa [insideAfter, if_neg (by decide), insideAfter_append, insideAfter,
          if_neg (by decide)] at h
      have hscan : Lexeme.scan ('(' :: (held ++ [')']))
          = .leftParen :: (Lexeme.scan held ++ [.rightParen]) := by
        rw [scan_symbol (by decide), scan_append_cons (by decide) hheld, scan_symbol (by decide),
          Lexeme.scan]
        rfl
      rw [ih (by rwa [insideAfter_trim]), scan_trim hheld, hscan,
        (closed_scan hcut hheld).valueOf_paren]
  | case2 => rfl
  | case3 => rfl

/-- Without connectives and comparisons the text in the wrapping parentheses is arithmetic. -/
theorem evaluate_of_arithmetic {text : List Char} (hconnective : hasConnective text = false)
    (hcomparison : hasComparison text = false) (scope : Scope) :
    evaluate text scope = evaluateArithmetic (unwrap (Text.trim text)) scope := by
  have hconnective' : hasConnective (unwrap (Text.trim text)) = false := by
    rwa [hasConnective, sealed_connective.unwrap, sealed_connective.trim]
  have hcomparison' : hasComparison (unwrap (Text.trim text)) = false := by
    rwa [hasComparison, sealed_comparison.unwrap, sealed_comparison.trim]
  rw [evaluate, depthBound, evaluateWithin, evaluateBody]
  generalize unwrap (Text.trim text) = core at hconnective' hcomparison' ⊢
  cases core with
  | nil =>
      rw [evaluateArithmetic, Token.read, Lexeme.scan]
      rfl
  | cons c rest =>
      rw [if_neg (by simp)]
      split
      · next b hbool =>
        have hscan := (isOperand_of_boolOfWord? hbool).scan stops_nil
        rw [Lexeme.text, List.append_nil, Lexeme.scan] at hscan
        rw [evaluateArithmetic, Token.read, hscan, Token.ofLexemes, Token.ofLexeme, hbool]
        rfl
      · rw [hconnective', hcomparison', if_neg Bool.false_ne_true, if_neg Bool.false_ne_true]

/-- **A text without connectives and comparisons is worth what its lexemes are.** -/
theorem toOption_evaluate_of_arithmetic {text : List Char} (h : insideAfter false text = false)
    (hconnective : hasConnective text = false) (hcomparison : hasComparison text = false)
    (scope : Scope) :
    (evaluate text scope).toOption = Lexeme.valueOf scope (Lexeme.scan text) := by
  rw [evaluate_of_arithmetic hconnective hcomparison, toOption_evaluateArithmetic,
    valueOf_scan_unwrap (by rwa [insideAfter_trim]), scan_trim h]

/-! ## Open literals -/

/-- Taking parentheses off a text opens and closes no literal. -/
theorem insideAfter_unwrap (text : List Char) :
    insideAfter false (unwrap text) = insideAfter false text := by
  have hclose (inside : Bool) : insideAfter inside [')'] = inside :=
    insideAfter_of_not_mem (by decide) inside
  fun_induction unwrap text with
  | case1 rest held hcut ih =>
      rw [ih, insideAfter_trim, cutGroup_eq_some hcut, insideAfter, if_neg (by decide),
        insideAfter_append, hclose]
  | case2 => rfl
  | case3 => rfl

/-- A literal that is never closed is met by the scan. -/
theorem unterminated_mem_scan {text : List Char} (h : insideAfter false text = true) :
    .unterminated ∈ Lexeme.scan text := by
  fun_induction Lexeme.scan text with
  | case1 => exact Bool.noConfusion h
  | case2 c rest hblank ih =>
      rw [insideAfter, if_neg (ne_quote_of_isSeam (isSeam_of_isBlank hblank))] at h
      exact ih h
  | case3 c rest hblank hc ih =>
      exact List.mem_cons_of_mem _ (ih ((insideAfter_dropWhile (isOperandChar_of_isNumberChar hc)
        (fun _ => isOperandChar_of_isNumberChar) rest).trans h))
  | case4 rest hblank hc ih =>
      exact List.mem_cons_of_mem _ (ih ((insideAfter_dropWhile
        (by decide : isOperandChar '$' = true) (fun _ => isOperandChar_of_isDigit) rest).trans h))
  | case5 c rest hblank hc hdollar hstart ih =>
      exact List.mem_cons_of_mem _ (ih ((insideAfter_dropWhile (isOperandChar_of_startsWord hstart)
        (fun _ => isOperandChar_of_isWordChar) rest).trans h))
  | case6 => exact List.mem_cons_self
  | case7 rest quote beyond hcut _ _ _ _ ih =>
      obtain ⟨hfree, hrest⟩ := cut_literal hcut
      rw [hrest, ← List.cons_append, insideAfter_literal hfree] at h
      exact List.mem_cons_of_mem _ (ih h)
  | case8 c rest hblank hc hdollar hstart hquote ih =>
      rw [insideAfter, if_neg hquote] at h
      exact List.mem_cons_of_mem _ (ih h)

/-- Where all lexemes have tokens, each has one. -/
theorem exists_token_of_mem {scope : Scope} {whole : List Char} {afterOperand : Bool}
    {lexemes : List Lexeme} {tokens : List Token}
    (h : Token.ofLexemes scope whole afterOperand lexemes = .ok tokens)
    {lexeme : Lexeme} (hmem : lexeme ∈ lexemes) :
    ∃ afterOperand token, Token.ofLexeme scope whole afterOperand lexeme = .ok token := by
  induction lexemes generalizing afterOperand tokens with
  | nil => exact absurd hmem List.not_mem_nil
  | cons other rest ih =>
      rw [Token.ofLexemes] at h
      cases htoken : Token.ofLexeme scope whole afterOperand other with
      | error e => rw [htoken] at h; cases h
      | ok token =>
          rw [htoken] at h
          dsimp only at h
          cases hrest : Token.ofLexemes scope whole token.endsOperand rest with
          | error e => rw [hrest] at h; cases h
          | ok more =>
              rcases List.mem_cons.mp hmem with rfl | hmem
              · exact ⟨afterOperand, token, htoken⟩
              · exact ih hrest hmem

theorem unterminated_not_mem {scope : Scope} {whole : List Char} {afterOperand : Bool}
    {lexemes : List Lexeme} {tokens : List Token}
    (h : Token.ofLexemes scope whole afterOperand lexemes = .ok tokens) :
    .unterminated ∉ lexemes := by
  intro hmem
  obtain ⟨_, token, htoken⟩ := exists_token_of_mem h hmem
  cases htoken

/-- **What has a value has been read**: the tokens of the whole text have this value. -/
theorem exists_tokens_of_evaluate {text : List Char} {scope : Scope} {value : Value}
    (hconnective : hasConnective text = false) (hcomparison : hasComparison text = false)
    (h : evaluate text scope = .ok value) :
    ∃ tokens, Token.read text scope = .ok tokens ∧ evalTokens tokens = .ok value := by
  have hclosed : insideAfter false text = false := by
    rw [← insideAfter_trim, ← insideAfter_unwrap]
    rw [evaluate_of_arithmetic hconnective hcomparison, evaluateArithmetic] at h
    cases hread : Token.read (unwrap (Text.trim text)) scope with
    | error e => rw [hread] at h; cases h
    | ok tokens =>
        refine Bool.eq_false_iff.mpr fun hinside => ?_
        exact unterminated_not_mem hread (unterminated_mem_scan hinside)
  have hvalue := toOption_evaluate_of_arithmetic hclosed hconnective hcomparison scope
  rw [h, ← toOption_evaluateArithmetic, evaluateArithmetic] at hvalue
  cases hread : Token.read text scope with
  | error e => rw [hread] at hvalue; cases hvalue
  | ok tokens =>
      rw [hread] at hvalue
      refine ⟨tokens, rfl, ?_⟩
      dsimp only at hvalue
      cases heval : evalTokens tokens with
      | error e => rw [heval] at hvalue; cases hvalue
      | ok value' => rw [heval] at hvalue; cases hvalue; rfl

end Flowchart.Expr
