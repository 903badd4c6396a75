import Flowchart.Expr.Evaluate
import Flowchart.Proofs.Expr.Pairing

/-!
# Stages that succeed

A text that has a value has been read as a whole: each stage of the evaluator that succeeds
has handed the parts of the text on to stages that did. There is one lemma for each stage
that says which parts those are, from `evaluateBody_eq_ok` to `evaluateArithmetic_eq_ok`.

The pass over the groups is told as a relation with one rule for each kind of character
(`Resolves`), so that facts about it are proved by induction over the pass.
-/

namespace Flowchart.Expr

/-! ## Groups -/

/-- The pass over the groups of a text, from the right. -/
inductive Resolves (eval : Evaluator) (scope : Scope) : (inside : Bool) → List Char → Pending → Prop
    where
  | nil {inside : Bool} : Resolves eval scope inside [] ⟨[], [], []⟩
  | quote {inside : Bool} {rest : List Char} {p : Pending} :
      Resolves eval scope (!inside) rest p → Resolves eval scope inside ('"' :: rest) (p.ahead '"')
  | literal {c : Char} {rest : List Char} {p : Pending} :
      c ≠ '"' → Resolves eval scope true rest p → Resolves eval scope true (c :: rest) (p.ahead c)
  | plain {c : Char} {rest : List Char} {p : Pending} :
      c ≠ '"' ∧ c ≠ '(' ∧ c ≠ ')' → Resolves eval scope false rest p →
      Resolves eval scope false (c :: rest) (p.ahead c)
  | closing {rest : List Char} {p : Pending} :
      Resolves eval scope false rest p → Resolves eval scope false (')' :: rest) p.close
  | opening {rest next : List Char} {beyond : List (List Char)} {p : Pending} {value : Value} :
      Resolves eval scope false rest p → p.beyond = next :: beyond →
      eval p.stretch (withSlots p.values scope) = .ok value →
      Resolves eval scope false ('(' :: rest)
        ⟨slotText p.values.length ++ next, beyond, p.values ++ [value]⟩

variable {eval : Evaluator} {scope : Scope} {text : List Char}

theorem resolves_of_resolveFrom {whole : List Char} {inside : Bool} {p : Pending}
    (h : resolveFrom eval scope whole inside text = .ok p) : Resolves eval scope inside text p := by
  induction text generalizing inside p with
  | nil =>
      obtain rfl := Except.ok.inj h
      exact .nil
  | cons c rest ih =>
      rw [resolveFrom] at h
      cases hrest : resolveFrom eval scope whole (if c = '"' then !inside else inside) rest with
      | error e => rw [hrest] at h; cases h
      | ok q =>
          rw [hrest] at h
          dsimp only at h
          have hq := ih hrest
          rcases scan_cases inside c with rfl | ⟨hquote, rfl⟩ | ⟨rfl, rfl⟩ | ⟨rfl, rfl⟩ |
            ⟨hplain, rfl⟩
          · obtain rfl : q.ahead '"' = p := by simpa using h
            exact .quote hq
          · obtain rfl := Except.ok.inj h
            rw [if_neg hquote] at hq
            exact .literal hquote hq
          · replace h : q.open? eval scope whole = .ok p := h
            rw [Pending.open?] at h
            cases hbeyond : q.beyond with
            | nil => rw [hbeyond] at h; cases h
            | cons next beyond =>
                rw [hbeyond] at h
                dsimp only at h
                cases hvalue : eval q.stretch (withSlots q.values scope) with
                | error e => rw [hvalue] at h; cases h
                | ok value =>
                    rw [hvalue] at h
                    obtain rfl := Except.ok.inj h
                    exact .opening hq hbeyond hvalue
          · obtain rfl := Except.ok.inj h
            exact .closing hq
          · obtain rfl : q.ahead c = p := by simpa [hplain] using h
            rw [if_neg hplain.1] at hq
            exact .plain hplain hq

/-- A slot hides nothing from a scan. -/
theorem slotText_plain (n : Nat) : ∀ c ∈ slotText n, c ≠ '"' ∧ c ≠ '(' ∧ c ≠ ')' := by
  have hdigit {c : Char} (hc : c.isDigit = true) : c ≠ '"' ∧ c ≠ '(' ∧ c ≠ ')' := by
    refine ⟨?_, ?_, ?_⟩ <;>
      · rintro rfl
        exact absurd hc (by decide)
  intro c hmem
  simp only [slotText, slotName, List.cons_append, List.mem_cons, List.mem_append,
    List.not_mem_nil, or_false] at hmem
  rcases hmem with rfl | rfl | hmem | rfl
  · decide
  · decide
  · exact hdigit (Nat.isDigit_of_mem_toDigits (by decide) (by decide) hmem)
  · decide

theorem resolveGroups_eq_ok {flat : Flattened} (h : resolveGroups eval text scope = .ok flat) :
    closesTooOften 0 false text = false ∧
      ∃ beyond, Resolves eval scope false text ⟨flat.text, beyond, flat.values⟩ := by
  rw [resolveGroups] at h
  split at h
  · cases h
  · next hclosing =>
    cases hp : resolveFrom eval scope text false text with
    | error e => rw [hp] at h; cases h
    | ok p =>
        rw [hp] at h
        obtain rfl := Except.ok.inj h
        exact ⟨Bool.eq_false_iff.mpr hclosing, p.beyond, resolves_of_resolveFrom hp⟩

/-! ## Operands -/

theorem conditionWith_eq_ok {b : Bool} (h : conditionWith eval text scope = .ok b) :
    eval text scope = .ok (.bool b) := by
  rw [conditionWith] at h
  split at h
  · cases h
  · next hvalue => rw [hvalue, Except.ok.inj h]
  · cases h

theorem conditionsWith_eq_ok {operands : List (Connective × List Char)}
    {more : List (Connective × Bool)} (h : conditionsWith eval scope operands = .ok more) :
    ∀ operand ∈ operands, ∃ value, eval operand.2 scope = .ok value := by
  induction operands generalizing more with
  | nil => exact fun operand hmem => absurd hmem List.not_mem_nil
  | cons operand rest ih =>
      obtain ⟨op, first⟩ := operand
      rw [conditionsWith] at h
      cases hfirst : conditionWith eval first scope with
      | error e => rw [hfirst] at h; cases h
      | ok b =>
          rw [hfirst] at h
          dsimp only at h
          cases hrest : conditionsWith eval scope rest with
          | error e => rw [hrest] at h; cases h
          | ok bs =>
              intro operand hmem
              rcases List.mem_cons.mp hmem with rfl | hmem
              · exact ⟨_, conditionWith_eq_ok hfirst⟩
              · exact ih hrest operand hmem

/-- Where a condition holds or fails, its groups have been resolved and all of its operands
have a value. -/
theorem evaluateLogical_eq_ok {b : Bool} (h : evaluateLogical eval text scope = .ok b) :
    ∃ flat, resolveGroups eval text scope = .ok flat ∧
      (∃ value, eval (Text.trim (conjuncts flat.text).1) (withSlots flat.values scope)
        = .ok value) ∧
      ∀ operand ∈ (conjuncts flat.text).2,
        ∃ value, eval (Text.trim operand.2) (withSlots flat.values scope) = .ok value := by
  rw [evaluateLogical] at h
  cases hresolve : resolveGroups eval text scope with
  | error e => rw [hresolve] at h; cases h
  | ok flat =>
      rw [hresolve] at h
      dsimp only at h
      split at h
      · cases h
      · split at h
        · cases h
        · next hfirst =>
          split at h
          · cases h
          · next hmore =>
            refine ⟨flat, rfl, ⟨_, conditionWith_eq_ok hfirst⟩, fun operand hmem => ?_⟩
            exact conditionsWith_eq_ok hmore _ (List.mem_map_of_mem hmem)

/-- Where a comparison has a value, no parenthesis is closed too often. If no operator stands
outside the groups, what the groups leave has that value. Otherwise there is one, and both of
its sides have values. -/
theorem evaluateComparison_eq_ok {value : Value}
    (h : evaluateComparison eval text scope = .ok value) :
    closesTooOften 0 false text = false ∧
      ((∃ flat, (comparands text).2 = [] ∧ resolveGroups eval text scope = .ok flat ∧
          eval flat.text (withSlots flat.values scope) = .ok value) ∨
        ∃ left op right a b, comparands text = (left, [(op, right)]) ∧
          eval (Text.trim left) scope = .ok a ∧ eval (Text.trim right) scope = .ok b) := by
  rw [evaluateComparison] at h
  split at h
  · cases h
  · next hclosing =>
    refine ⟨Bool.eq_false_iff.mpr hclosing, ?_⟩
    split at h
    · next hcut =>
      cases hresolve : resolveGroups eval text scope with
      | error e => rw [hresolve] at h; cases h
      | ok flat =>
          rw [hresolve] at h
          exact .inl ⟨flat, by rw [hcut], rfl, h⟩
    · next left op right hcut =>
      dsimp only at h
      split at h
      · cases h
      · cases hleft : eval (Text.trim left) scope with
        | error e => rw [hleft] at h; cases h
        | ok a =>
            rw [hleft] at h
            dsimp only at h
            cases hright : eval (Text.trim right) scope with
            | error e => rw [hright] at h; cases h
            | ok b => exact .inr ⟨left, op, right, a, b, hcut, hleft, hright⟩
    · cases h

theorem evaluateArithmetic_eq_ok {value : Value}
    (h : evaluateArithmetic text scope = .ok value) :
    ∃ tokens, Token.read text scope = .ok tokens ∧ evalTokens tokens = .ok value := by
  rw [evaluateArithmetic] at h
  cases hread : Token.read text scope with
  | error e => rw [hread] at h; cases h
  | ok tokens => rw [hread] at h; exact ⟨tokens, rfl, h⟩

/-- What is evaluated of a text: all but the blanks and parentheses around it. -/
def core (text : List Char) : List Char :=
  unwrap (Text.trim text)

theorem evaluateBody_eq (eval : Evaluator) (text : List Char) (scope : Scope) :
    evaluateBody eval text scope =
      if (core text).isEmpty then .error (.illFormed .emptyExpression)
      else
        match Value.boolOfWord? (core text) with
        | some b => .ok (.bool b)
        | none =>
          if hasConnective (core text) then (evaluateLogical eval (core text) scope).map .bool
          else if hasComparison (core text) then evaluateComparison eval (core text) scope
          else evaluateArithmetic (core text) scope :=
  rfl

/-- What a text with a value is, once the parentheses around all of it are gone. -/
theorem evaluateBody_eq_ok {value : Value} (h : evaluateBody eval text scope = .ok value) :
    (∃ b, Value.boolOfWord? (core text) = some b) ∨
      (hasConnective (core text) = true ∧ ∃ b, evaluateLogical eval (core text) scope = .ok b) ∨
      (hasConnective (core text) = false ∧ hasComparison (core text) = true ∧
        evaluateComparison eval (core text) scope = .ok value) ∨
      evaluateArithmetic (core text) scope = .ok value := by
  rw [evaluateBody_eq] at h
  split at h
  · cases h
  · split at h
    · next b hbool => exact .inl ⟨b, hbool⟩
    · split at h
      · next hconnective =>
        cases hlogical : evaluateLogical eval (core text) scope with
        | error e => rw [hlogical] at h; cases h
        | ok b => exact .inr (.inl ⟨hconnective, b, rfl⟩)
      · next hconnective =>
        split at h
        · next hcomparison =>
          exact .inr (.inr (.inl ⟨Bool.eq_false_iff.mpr hconnective, hcomparison, h⟩))
        · exact .inr (.inr (.inr h))

end Flowchart.Expr
