import Flowchart.Proofs.Expr.Turns

/-!
# Activations inside one another

While a text is evaluated its parts are, and parts of these. How many evaluations can be
under way at a time, each for the sake of the one before it? At most four, and one more for
each parenthesis that opens outside the literals of the text (`evaluate_activations`). That
holds of every text, complete or not, even though the text that the groups leave is evaluated
again and can be longer than the text that it comes from.

A call that fails ends the computation with its error. So the calls of a computation can be
told from its outcome: they are the points at which every error of the evaluator is the
outcome (`Calls`). These are all the points that matter (`sequential_evaluateBody`).
-/

namespace Flowchart.Expr

variable {α β : Type} {eval eval' : Evaluator} {text part : List Char} {scope inner : Scope}

/-! ## Calls -/

/-- The evaluators agree on all texts and scopes other than this one. -/
def SameBut (part : List Char) (inner : Scope) (eval eval' : Evaluator) : Prop :=
  ∀ other s, ¬(other = part ∧ s = inner) → eval' other s = eval other s

/-- The computation calls for the value of this part in this scope: an error there is the
outcome. -/
def Calls (compute : Evaluator → Except Error α) (eval : Evaluator) (part : List Char)
    (inner : Scope) : Prop :=
  ∀ eval' e, SameBut part inner eval eval' → eval' part inner = .error e →
    compute eval' = .error e

/-- The outcome of the computation depends on its calls, and on nothing else. -/
def Sequential (compute : Evaluator → Except Error α) : Prop :=
  ∀ eval eval', (∀ part inner, Calls compute eval part inner → eval' part inner = eval part inner) →
    compute eval' = compute eval

theorem sequential_const (outcome : Except Error α) : Sequential fun _ => outcome :=
  fun _ _ _ => rfl

theorem sequential_call (part : List Char) (inner : Scope) :
    Sequential fun eval => eval part inner :=
  fun _ _ hsame => hsame part inner fun _ _ _ herror => herror

/-- One computation after another makes the calls of the first, and those of the second. -/
theorem Sequential.bind {first : Evaluator → Except Error α}
    {second : α → Evaluator → Except Error β} (hfirst : Sequential first)
    (hsecond : ∀ a, Sequential (second a)) :
    Sequential fun eval => (first eval).bind fun a => second a eval := by
  intro eval eval' hsame
  have hcalls {part : List Char} {inner : Scope} (h : Calls first eval part inner) :
      Calls (fun eval => (first eval).bind fun a => second a eval) eval part inner := by
    intro eval'' e hbut herror
    dsimp only
    rw [h eval'' e hbut herror]
    rfl
  have heq : first eval' = first eval :=
    hfirst eval eval' fun part inner h => hsame part inner (hcalls h)
  dsimp only
  rw [heq]
  cases ha : first eval with
  | error e => rfl
  | ok a =>
      refine hsecond a eval eval' fun part inner h => ?_
      by_cases hcalled : Calls first eval part inner
      · exact hsame part inner (hcalls hcalled)
      · refine hsame part inner fun eval'' e hbut herror => ?_
        -- the first computation does not see the error
        have hsame' : first eval'' = first eval := by
          refine hfirst eval eval'' fun other s hother => hbut other s ?_
          rintro ⟨rfl, rfl⟩
          exact hcalled hother
        dsimp only
        rw [hsame', ha]
        exact h eval'' e hbut herror

theorem Sequential.of_eq {compute compute' : Evaluator → Except Error α}
    (h : Sequential compute') (heq : ∀ eval, compute eval = compute' eval) :
    Sequential compute := by
  rwa [funext heq]

/-! ## The stages of evaluation -/

theorem sequential_open? (scope : Scope) (whole : List Char) (p : Pending) :
    Sequential fun eval => p.open? eval scope whole := by
  cases hbeyond : p.beyond with
  | nil =>
      simp only [Pending.open?, hbeyond]
      exact sequential_const _
  | cons next beyond =>
      simp only [Pending.open?, hbeyond]
      refine ((sequential_call p.stretch (withSlots p.values scope)).bind fun value =>
        sequential_const (.ok ⟨slotText p.values.length ++ next, beyond, p.values ++ [value]⟩)).of_eq
          fun eval => ?_
      cases eval p.stretch (withSlots p.values scope) <;> rfl

theorem sequential_resolveFrom (scope : Scope) (whole : List Char) (inside : Bool)
    (text : List Char) : Sequential fun eval => resolveFrom eval scope whole inside text := by
  induction text generalizing inside with
  | nil => exact sequential_const _
  | cons c rest ih =>
      have hturn (p : Pending) : Sequential fun eval =>
          if !inside && c = ')' then .ok p.close
          else if !inside && c = '(' then p.open? eval scope whole
          else .ok (p.ahead c) := by
        split
        · exact sequential_const _
        · split
          · exact sequential_open? scope whole p
          · exact sequential_const _
      refine ((ih (if c = '"' then !inside else inside)).bind hturn).of_eq fun eval => ?_
      rw [resolveFrom]
      cases resolveFrom eval scope whole (if c = '"' then !inside else inside) rest <;> rfl

theorem sequential_resolveGroups (text : List Char) (scope : Scope) :
    Sequential fun eval => resolveGroups eval text scope := by
  by_cases hclosing : closesTooOften 0 false text = true
  · simp only [resolveGroups, if_pos hclosing]
    exact sequential_const _
  · refine ((sequential_resolveFrom scope text false text).bind fun p =>
      sequential_const (.ok ⟨p.stretch, p.values⟩)).of_eq fun eval => ?_
    rw [resolveGroups, if_neg hclosing]
    cases resolveFrom eval scope text false text <;> rfl

theorem sequential_conditionWith (text : List Char) (scope : Scope) :
    Sequential fun eval => conditionWith eval text scope := by
  refine ((sequential_call text scope).bind fun value =>
    sequential_const (conditionWith (fun _ _ => .ok value) text scope)).of_eq fun eval => ?_
  simp only [conditionWith]
  cases eval text scope <;> rfl

theorem sequential_conditionsWith (scope : Scope) (operands : List (Connective × List Char)) :
    Sequential fun eval => conditionsWith eval scope operands := by
  induction operands with
  | nil => exact sequential_const _
  | cons operand rest ih =>
      obtain ⟨op, first⟩ := operand
      refine ((sequential_conditionWith first scope).bind fun b =>
        ih.bind fun more => sequential_const (.ok ((op, b) :: more))).of_eq fun eval => ?_
      rw [conditionsWith]
      cases conditionWith eval first scope with
      | error e => rfl
      | ok b => cases conditionsWith eval scope rest <;> rfl

theorem sequential_evaluateLogical (text : List Char) (scope : Scope) :
    Sequential fun eval => evaluateLogical eval text scope := by
  -- what is done with the operands, once the groups are resolved
  have hjoin (first : List Char) (more : List (Connective × List Char)) (inner : Scope) :
      Sequential fun eval =>
        (missingConjunct? first more).elim
          ((conditionWith eval first inner).bind fun b =>
            (conditionsWith eval inner more).bind fun rest => .ok (joinConditions false b rest))
          fun missing =>
            .error (.illFormed (.missingConjunct missing.1 missing.2 (String.ofList text))) := by
    cases missingConjunct? first more with
    | some _ => exact sequential_const _
    | none =>
        exact (sequential_conditionWith _ _).bind fun b =>
          (sequential_conditionsWith _ _).bind fun rest => sequential_const _
  refine ((sequential_resolveGroups text scope).bind fun flat =>
    hjoin (Text.trim (conjuncts flat.text).1)
      ((conjuncts flat.text).2.map fun operand => (operand.1, Text.trim operand.2))
      (withSlots flat.values scope)).of_eq fun eval => ?_
  rw [evaluateLogical]
  cases resolveGroups eval text scope with
  | error e => rfl
  | ok flat =>
      dsimp only [Except.bind]
      generalize Text.trim (conjuncts flat.text).1 = first
      generalize (conjuncts flat.text).2.map _ = more
      cases missingConjunct? first more with
      | some missing => rfl
      | none =>
          dsimp only [Option.elim]
          cases conditionWith eval first (withSlots flat.values scope) with
          | error e => rfl
          | ok b => cases conditionsWith eval (withSlots flat.values scope) more <;> rfl

theorem sequential_evaluateComparison (text : List Char) (scope : Scope) :
    Sequential fun eval => evaluateComparison eval text scope := by
  simp only [evaluateComparison]
  split
  · exact sequential_const _
  · split
    · refine ((sequential_resolveGroups text scope).bind fun flat =>
        sequential_call flat.text (withSlots flat.values scope)).of_eq fun eval => ?_
      cases resolveGroups eval text scope <;> rfl
    · next left op right _ =>
      split
      · exact sequential_const _
      · refine ((sequential_call (Text.trim left) scope).bind fun a =>
          (sequential_call (Text.trim right) scope).bind fun b =>
            sequential_const ((compareValues op a b).map .bool)).of_eq fun eval => ?_
        cases eval (Text.trim left) scope with
        | error e => rfl
        | ok a => cases eval (Text.trim right) scope <;> rfl
    · exact sequential_const _

/-- **Evaluation depends on its calls only.** -/
theorem sequential_evaluateBody (text : List Char) (scope : Scope) :
    Sequential fun eval => evaluateBody eval text scope := by
  simp only [evaluateBody_eq]
  split
  · exact sequential_const _
  · split
    · exact sequential_const _
    · split
      · refine ((sequential_evaluateLogical (core text) scope).bind fun b =>
          sequential_const (.ok (.bool b))).of_eq fun eval => ?_
        cases evaluateLogical eval (core text) scope <;> rfl
      · split
        · exact sequential_evaluateComparison _ _
        · exact sequential_const _

/-- An evaluator that fails on one text in one scope. -/
theorem exists_failing (eval : Evaluator) (part : List Char) (inner : Scope) (e : Error) :
    ∃ eval', SameBut part inner eval eval' ∧ eval' part inner = .error e := by
  classical
  exact ⟨fun other s => if other = part ∧ s = inner then .error e else eval other s,
    fun other s hother => if_neg hother, if_pos ⟨rfl, rfl⟩⟩

/-- A text that is called for is one of those on which the outcome depends. -/
theorem Calls.kind {kind : List Char → Prop}
    (h : Calls (fun eval => evaluateBody eval text scope) eval part inner)
    (hkind : ∀ eval', SameOn kind eval eval' → evaluateBody eval text = evaluateBody eval' text) :
    kind part := by
  by_contra hpart
  have hfails (e : Error) : evaluateBody eval text scope = .error e := by
    obtain ⟨eval', hbut, herror⟩ := exists_failing eval part inner e
    rw [hkind eval' fun other hother => funext fun s =>
      (hbut other s fun heq => hpart (heq.1 ▸ hother)).symm]
    exact h eval' e hbut herror
  have hboth := (hfails (.illFormed .emptyExpression)).symm.trans (hfails (.illFormed .missingOperator))
  cases hboth

/-! ## Activations -/

/-- Activations inside one another, from that of a text in a scope to that of a part in its
scope, and how many they are. -/
inductive Activations (text : List Char) (scope : Scope) : Nat → List Char → Scope → Prop where
  | itself : Activations text scope 1 text scope
  | call {n : Nat} {part part' : List Char} {inner inner' : Scope} :
      Activations text scope n part inner →
      Calls (fun eval => evaluateBody eval part inner) evaluate part' inner' →
      Activations text scope (n + 1) part' inner'

namespace Activations

variable {n : Nat}

/-- Each activation uses up one step of the depth of the text. -/
theorem bounded {depth : Nat} (h : Activations text scope n part inner)
    (hbounded : Bounded depth text) : ∃ more, n + more = depth ∧ Bounded (more + 1) part := by
  induction h with
  | itself =>
      cases depth with
      | zero => exact hbounded.elim
      | succ depth => exact ⟨depth, Nat.add_comm 1 depth, hbounded⟩
  | call _ hcall ih =>
      obtain ⟨more, hdepth, hpart⟩ := ih
      have hinner := hcall.kind fun eval' hsame => hpart evaluate eval' hsame
      cases more with
      | zero => exact hinner.elim
      | succ more => exact ⟨more, by omega, hinner⟩

/-- No activation is of a text with more parentheses. -/
theorem openings_le (h : Activations text scope n part inner) :
    openings false part ≤ openings false text := by
  induction h with
  | itself => exact Nat.le_refl _
  | call _ hcall ih =>
      exact (hcall.kind fun _ hsame => evaluateBody_same_of_openings hsame).trans ih

/-- An evaluator that does as evaluation does in each activation has its outcome. By induction
on the depth that is left, which each activation makes smaller. -/
theorem eq_evaluate {more : Nat} (h : Activations text scope n part inner)
    (hbounded : Bounded more part)
    (heval : ∀ n part inner, Activations text scope n part inner →
      eval part inner = evaluateBody eval part inner) :
    eval part inner = evaluate part inner := by
  induction more generalizing n part inner with
  | zero => exact hbounded.elim
  | succ more ih =>
      rw [heval n part inner h, evaluate_eq_evaluateBody]
      refine sequential_evaluateBody part inner evaluate eval fun part' inner' hcall => ?_
      exact ih (h.call hcall) (hcall.kind fun eval' hsame => hbounded evaluate eval' hsame)

end Activations

/-- **The recursion of evaluation is bounded.** Where so many parentheses open outside the
literals of a text, at most four activations more are inside one another, and the groups of
each text that is evaluated on the way are resolved in at most so many turns, with the turn
that fails at a group, if one does. An evaluator of last resort beyond that depth makes no
difference, and to do as evaluation does in these activations is enough to have its outcome. -/
theorem evaluate_activations (text : List Char) (scope : Scope) :
    (∀ n part inner, Activations text scope n part inner →
      n ≤ openings false text + 4 ∧
      ∀ turns flat, Taken evaluate inner (core part) turns flat →
        turns ≤ openings false text ∧
        ∀ e, takeGroup evaluate inner (core part) flat = .error e →
          closesTooOften 0 false flat.text = false → turns + 1 ≤ openings false text) ∧
    (∀ deeper depth, openings false text + 4 ≤ depth →
      evaluateWithin deeper depth text scope = evaluate text scope) ∧
    evaluate text scope = evaluateBody evaluate text scope ∧
    ∀ eval : Evaluator, (∀ n part inner, Activations text scope n part inner →
      eval part inner = evaluateBody eval part inner) → eval text scope = evaluate text scope := by
  refine ⟨fun n part inner h => ⟨?_, fun turns flat htaken => ?_⟩, fun deeper depth hdepth => ?_, ?_,
    fun eval heval => ?_⟩
  · obtain ⟨more, hdepth, -⟩ := h.bounded (bounded_depthBound text)
    exact (Nat.le_add_right n more).trans_eq hdepth
  · have hopenings : openings false (core part) ≤ openings false text :=
      (openings_core_le part).trans h.openings_le
    exact ⟨htaken.le_openings.trans hopenings,
      fun e hfails hclosing => Nat.le_trans (htaken.lt_openings hclosing hfails) hopenings⟩
  · exact congrFun (evaluateWithin_eq_evaluate hdepth) scope
  · exact congrFun (evaluate_eq_evaluateBody text) scope
  · exact Activations.itself.eq_evaluate (bounded_depthBound text) heval

end Flowchart.Expr
