import Flowchart.Proofs.Expr.Filling
import Flowchart.Proofs.Expr.Seam

/-!
# Groups stand for their values

A group may be named: with a new word in its place that stands for its value, the text
should be worth what it was. This is so in arithmetic, however odd the text
(`Nameable.evaluate_of_arithmetic`), and for every condition that follows the grammar
(`evaluateCondition_grouped`).

As a value a text of the grammar may lose from it, and there is one way only in which it
does (`evaluate_grouped`). The connectives that make a text a condition are looked for at
any depth. So a text whose only connectives are in the group has to be a truth value as long
as the group is there: `(true && true) + 1` is none, although `v + 1` is worth `2.0`
where `v` is true. Comparisons do not have this effect.

Outside the grammar, and beyond arithmetic, a text may tell a group from its name: groups
are flattened there, so that a slot written by hand reads one of them and empty parentheses
are an error.
-/

namespace Flowchart.Expr

/-- A group of a text, and a new word to name it by. -/
structure Nameable (before held after word : List Char) : Prop where
  isName : IsName word
  fresh : ¬word <:+: grouped before held after
  before_closed : insideAfter false before = false
  after_closed : insideAfter false after = false
  balanced : Balanced (fun _ => True) held

/-- The scope in which the word stands for the value. -/
def named (word : List Char) (value : Value) (scope : Scope) : Scope :=
  Function.update scope (String.ofList word) (some value)

variable {before held after word : List Char} {scope : Scope} {w : Value}

/-! ## Arithmetic -/

namespace Nameable

theorem held_closed (h : Nameable before held after word) : insideAfter false held = false :=
  h.balanced.insideAfter_eq

/-- A name is an operand, so it has neither quotes nor operators. -/
theorem word_plain (h : Nameable before held after word) :
    insideAfter false word = false ∧ hasConnective word = false ∧ hasComparison word = false := by
  have hok : (Phrase.operand [] (.word word) []).Ok := ⟨by simp, h.isName.2, by simp⟩
  have htext : (Phrase.operand [] (.word word) []).text = word := by
    simp [Phrase.text, Lexeme.text]
  have hclosed := hok.balanced_any.insideAfter_eq
  have hconnective := hok.hasConnective_text
  have hcomparison := hok.hasComparison_text
  rw [htext] at hclosed hconnective hcomparison
  exact ⟨hclosed, hconnective, hcomparison⟩

theorem grouped_closed (h : Nameable before held after word) :
    insideAfter false (grouped before held after) = false := by
  rw [grouped, insideAfter_append, h.before_closed, insideAfter, if_neg (by decide),
    insideAfter_append, h.held_closed, insideAfter, if_neg (by decide), h.after_closed]

theorem filled_closed (h : Nameable before held after word) :
    insideAfter false (filled before word after) = false := by
  rw [filled, insideAfter_append, h.before_closed, insideAfter, if_neg (by decide),
    insideAfter_append, h.word_plain.1, insideAfter, if_neg (by decide), h.after_closed]

theorem scan_grouped (h : Nameable before held after word) :
    Lexeme.scan (grouped before held after) = Lexeme.scan before ++
      .leftParen :: (Lexeme.scan held ++ .rightParen :: Lexeme.scan after) := by
  rw [grouped, scan_append_cons (by decide) h.before_closed, scan_symbol (by decide),
    scan_append_cons (by decide) h.held_closed, scan_symbol (by decide)]
  rfl

theorem scan_filled (h : Nameable before held after word) :
    Lexeme.scan (filled before word after) =
      Lexeme.scan before ++ .word word :: Lexeme.scan after := by
  have hword : (Lexeme.word word).IsOperand := h.isName.2
  have hstops : Stops (' ' :: after) := stops_cons (by decide) (by decide) after
  have hscan := hword.scan hstops
  rw [filled, scan_append_cons (by decide) h.before_closed, Lexeme.scan, if_pos (by decide)]
  rw [Lexeme.text] at hscan
  rw [hscan, Lexeme.scan, if_pos (by decide)]

/-- A name that stands outside the group is another one. -/
theorem named_eq (h : Nameable before held after word) {name : List Char}
    (hname : name ∈ names before ∨ name ∈ names after) :
    scope (String.ofList name) = named word w scope (String.ofList name) := by
  refine (Function.update_of_ne (fun heq => h.fresh ?_) _ _).symm
  rw [← String.ofList_injective heq]
  rcases hname with hname | hname
  · exact (infix_of_mem_names hname).trans (List.prefix_append _ _).isInfix
  · refine (infix_of_mem_names hname).trans ⟨before ++ '(' :: (held ++ [')']), [], ?_⟩
    simp [grouped]

/-- **Arithmetic**: with the name in the place of the group nothing changes. -/
theorem evaluate_of_arithmetic (h : Nameable before held after word)
    (hvalue : evaluate held scope = .ok w)
    (hconnective : hasConnective (grouped before held after) = false)
    (hcomparison : hasComparison (grouped before held after) = false) :
    (evaluate (grouped before held after) scope).toOption
      = (evaluate (filled before word after) (named word w scope)).toOption := by
  obtain ⟨hword, hwordConnective, hwordComparison⟩ := h.word_plain
  obtain ⟨hheldConnective, hfilledConnective⟩ := sealed_connective.of_grouped h.before_closed
    h.held_closed hword hwordConnective hconnective
  obtain ⟨hheldComparison, hfilledComparison⟩ := sealed_comparison.of_grouped h.before_closed
    h.held_closed hword hwordComparison hcomparison
  have hinner : Lexeme.valueOf scope (Lexeme.scan held) = some w := by
    rw [← toOption_evaluate_of_arithmetic h.held_closed hheldConnective hheldComparison, hvalue]
    rfl
  rw [toOption_evaluate_of_arithmetic h.grouped_closed hconnective hcomparison, h.scan_grouped,
    toOption_evaluate_of_arithmetic h.filled_closed hfilledConnective hfilledComparison,
    h.scan_filled]
  refine Lexeme.valueOf_group hinner h.isName.1 (Function.update_self _ _ _) ?_
  intro lexeme hmem name hname
  rcases List.mem_append.mp hmem with hmem | hmem
  · exact h.named_eq (.inl (mem_names_of_mem_scan hmem hname))
  · exact h.named_eq (.inr (mem_names_of_mem_scan hmem hname))

end Nameable

/-! ## Texts of the grammar -/

/-- The phrases of a text of the grammar, with the group and with the name. -/
theorem Nameable.exists_phrases (h : Nameable before held after word)
    (hvalue : evaluate held scope = .ok w) {a : Expression}
    (hwrites : Writes .or a (grouped before held after)) :
    ∃ p q : Phrase, p.Ok ∧ q.Ok ∧ p.Unmixed ∧ q.Unmixed ∧ p.text = grouped before held after ∧
      q.text = filled before word after ∧ q.value (named word w scope) = p.value scope ∧
      (q.connected = true → p.connected = true) := by
  obtain ⟨p, hp⟩ := hwrites.exists_phrase
  obtain ⟨inner, q, hfills, rfl, hq⟩ :=
    hp.ok.exists_fills word h.before_closed h.balanced hp.text_eq
  obtain ⟨hinner, hokQ⟩ := hfills.ok h.isName.2 hp.ok
  obtain ⟨hbelow, hbelowQ⟩ := hfills.below_of hp.below
  have hheld := hinner.evaluate_text (fun _ => hbelow) scope
  have hinnerValue : inner.value scope = some w := by
    rw [hvalue] at hheld
    split at hheld
    · obtain ⟨b, hb, rfl⟩ := Option.map_eq_some_iff.mp hheld.symm
      obtain ⟨x, hx, htruth⟩ := Option.bind_eq_some_iff.mp hb
      cases x <;> cases htruth
      exact hx
    · exact hheld.symm
  have hfresh : ¬word <:+: p.text := by
    rw [hp.text_eq]
    exact h.fresh
  refine ⟨p, q, hp.ok, hokQ, fun _ => hp.below, fun _ => hbelowQ, hp.text_eq, hq,
    hfills.value_eq hp.ok h.isName.1 hfresh hinnerValue, fun hconnected => ?_⟩
  rw [hfills.connected_eq, hconnected, Bool.or_true]

/-- **Conditions**: with the name in the place of the group nothing changes. -/
theorem evaluateCondition_grouped (h : Nameable before held after word)
    (hvalue : evaluate held scope = .ok w) {a : Expression}
    (hwrites : Writes .or a (grouped before held after)) :
    (evaluateCondition (grouped before held after) scope).toOption
      = (evaluateCondition (filled before word after) (named word w scope)).toOption := by
  obtain ⟨p, q, hp, hq, hslots, hslotsQ, htext, htextQ, hsame, -⟩ := h.exists_phrases hvalue hwrites
  rw [← htext, ← htextQ, hp.evaluateCondition_text hslots, hq.evaluateCondition_text hslotsQ,
    Phrase.condition, Phrase.condition, hsame]

theorem map_bool_truth? (value : Option Value) :
    (value.bind truth?).map .bool = value.filter fun x => decide (x.type = .bool) := by
  cases value with
  | none => rfl
  | some x => cases x <;> rfl

/-- The value of a text of the grammar, with the group and with the name. -/
theorem Nameable.evaluate_of_writes (h : Nameable before held after word)
    (hvalue : evaluate held scope = .ok w) {a : Expression}
    (hwrites : Writes .or a (grouped before held after)) :
    (evaluate (grouped before held after) scope).toOption =
      let outcome := (evaluate (filled before word after) (named word w scope)).toOption
      if hasConnective (grouped before held after) = hasConnective (filled before word after)
      then outcome else outcome.filter fun x => decide (x.type = .bool) := by
  obtain ⟨p, q, hp, hq, hslots, hslotsQ, htext, htextQ, hsame, hconnected⟩ :=
    h.exists_phrases hvalue hwrites
  rw [← htext, ← htextQ, hp.evaluate_text hslots, hq.evaluate_text hslotsQ, hp.hasConnective_text,
    hq.hasConnective_text, Phrase.condition, Phrase.condition, hsame]
  cases hp' : p.connected <;> cases hq' : q.connected
  · rfl
  · rw [hconnected hq'] at hp'
    exact Bool.noConfusion hp'
  · exact map_bool_truth? _
  · rfl

/-- **A group stands for its value.** With a new name in its place that has this value, the
text has the same value or is an error too, except that a text whose only connectives are in
the group has to be a truth value as long as the group is there. -/
theorem evaluate_grouped (h : Nameable before held after word)
    (hvalue : evaluate held scope = .ok w) :
    let outcome := (evaluate (filled before word after) (named word w scope)).toOption
    (∀ a, Writes .or a (grouped before held after) →
      (evaluate (grouped before held after) scope).toOption =
        if hasConnective (grouped before held after) = hasConnective (filled before word after)
        then outcome else outcome.filter fun x => decide (x.type = .bool)) ∧
    (hasConnective (grouped before held after) = false →
      hasComparison (grouped before held after) = false →
      (evaluate (grouped before held after) scope).toOption = outcome) :=
  ⟨fun _ => h.evaluate_of_writes hvalue, h.evaluate_of_arithmetic hvalue⟩

example : (evaluate "$0 && (true)".toList fun _ => none).toOption = some (.bool true) ∧
    (evaluate "$0 &&  v ".toList (named ['v'] (.bool true) fun _ => none)).toOption = none := by
  decide +kernel

example : (evaluate "(1 < 2) + () 2".toList fun _ => none).toOption = none ∧
    (evaluate " v  + () 2".toList (named ['v'] (.bool true) fun _ => none)).toOption
      = some (.double 3) := by
  decide +kernel

/-- The sum in a product is named. -/
theorem evaluate_grouped_product :
    Nameable "2*".toList "n + 1".toList "<9".toList ['v'] ∧
    let scope := named ['n'] (.int 2) fun _ => none
    evaluate "n + 1".toList scope = .ok (.int 3) ∧
    (evaluate "2*(n + 1)<9".toList scope).toOption
      = (evaluate "2* v <9".toList (named ['v'] (.int 3) scope)).toOption := by
  have hblank : Text.isBlank ' ' = true := by decide
  have hn : Writes .atom (.name ['n']) ['n'] :=
    .name ⟨by decide, 'n', [], rfl, by decide, by simp⟩
  have hnumber {c : Char} (hc : isNumberChar c = true) : Writes .atom (.number [c]) [c] :=
    .number (by simp) (by simpa using hc)
  have hsum := Writes.sum (.inl rfl) (.blankBack hblank (.ofProd (.ofUnary (.ofAtom hn))))
    (.blankFront hblank (.ofUnary (.ofAtom (hnumber (by decide : isNumberChar '1' = true)))))
  have hproduct := Writes.prod (.inl rfl)
    (.ofUnary (.ofAtom (hnumber (by decide : isNumberChar '2' = true))))
    (.ofAtom (.group (.ofAnd (.ofCmp (.ofSum hsum)))))
  have hcomparison := Writes.cmp .lt (.ofProd hproduct)
    (.ofProd (.ofUnary (.ofAtom (hnumber (by decide : isNumberChar '9' = true)))))
  have hwrites : Writes .or _ (grouped "2*".toList "n + 1".toList "<9".toList) :=
    cast (congrArg (Writes .or _) (by decide)) (Writes.ofAnd (.ofCmp hcomparison))
  have hnameable : Nameable "2*".toList "n + 1".toList "<9".toList ['v'] :=
    { isName := ⟨by decide, 'v', [], rfl, by decide, by simp⟩
      fresh := fun hfound => absurd (hfound.subset List.mem_cons_self) (by decide)
      before_closed := by decide
      after_closed := by decide
      balanced := .of_forall (Text.forall_mem_of_all (by decide)) }
  have hvalue : evaluate "n + 1".toList (named ['n'] (.int 2) fun _ => none) = .ok (.int 3) := by
    decide +kernel
  have hsame := (evaluate_grouped hnameable hvalue).1 _ hwrites
  rw [if_pos (by decide +kernel)] at hsame
  exact ⟨hnameable, hvalue, hsame⟩

/-- The exception: the connective in the group asks for a condition, which a sum is not, but
the sum has a value where the group is named. -/
theorem evaluate_grouped_connectiveInside :
    Nameable [] "true && true".toList " + 1".toList ['v'] ∧
    Balanced (fun _ => True) (grouped [] "true && true".toList " + 1".toList) ∧
    evaluate "true && true".toList (fun _ => none) = .ok (.bool true) ∧
    (evaluate (grouped [] "true && true".toList " + 1".toList) (fun _ => none)).toOption = none ∧
    (evaluate (filled [] ['v'] " + 1".toList) (named ['v'] (.bool true) fun _ => none)).toOption
      = some (.double 2) := by
  have hheld : Balanced (fun _ => True) "true && true".toList :=
    .of_forall (Text.forall_mem_of_all (by decide))
  have hafter : Balanced (fun _ => True) " + 1".toList :=
    .of_forall (Text.forall_mem_of_all (by decide))
  have hnameable : Nameable [] "true && true".toList " + 1".toList ['v'] :=
    { isName := ⟨by decide, 'v', [], rfl, by decide, by simp⟩
      fresh := fun hfound => absurd (hfound.subset List.mem_cons_self) (by decide)
      before_closed := rfl
      after_closed := by decide
      balanced := hheld }
  exact ⟨hnameable, .group hheld hafter, by decide +kernel, by decide +kernel, by decide +kernel⟩

end Flowchart.Expr
