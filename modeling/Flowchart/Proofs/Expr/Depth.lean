import Flowchart.Proofs.Expr.Acceptance
import Flowchart.Proofs.Expr.Cutting

/-!
# How deep evaluation goes

Evaluation calls itself on parts of a text, and its definition bounds how often one call
may contain another. The bound is never reached: any greater depth has the same results,
and so has any other evaluator of last resort (`evaluateWithin_eq_evaluate`). Evaluation is
the recursion that the bound was put on (`evaluate_eq_evaluateBody`).

Groups are flat when they are evaluated, and so is the text that they leave. A flat text
takes three steps at most: one for its connectives, one for its comparisons, and one for
the arithmetic that is left (`bounded_of_flat`). Otherwise a comparison is cut in two texts
that can only be cut again where parentheses come off them, so that a parenthesis is gone
with every further step (`bounded_of_single`).
-/

namespace Flowchart.Expr

variable {eval eval' : Evaluator} {scope : Scope} {text : List Char}

/-- Texts without groups. -/
def Flat (text : List Char) : Prop :=
  openings false text = 0

/-- Texts that no comparison cuts. -/
def Single (text : List Char) : Prop :=
  Cuts Comparison.leading? Comparison.symbol 0 false text text []

/-- The evaluators have the same results on texts of some kind. -/
def SameOn (kind : List Char → Prop) (eval eval' : Evaluator) : Prop :=
  ∀ text, kind text → eval text = eval' text

theorem SameOn.mono {kind kind' : List Char → Prop} (h : SameOn kind eval eval')
    (hkind : ∀ text, kind' text → kind text) : SameOn kind' eval eval' :=
  fun text htext => h text (hkind text htext)

/-! ## Blanks and wrapping parentheses -/

theorem openings_trim (inside : Bool) (text : List Char) :
    openings inside (Text.trim text) = openings inside text := by
  obtain ⟨front, back, htext, hfront, hback⟩ := exists_append_trim text
  have hnone : openings (insideAfter inside (Text.trim text)) (back ++ []) = 0 :=
    openings_append_of_plain (outside_of_blanks hback) _ []
  rw [List.append_nil] at hnone
  conv => rhs; rw [htext]
  rw [openings_append_of_plain (outside_of_blanks hfront), openings_append, hnone, Nat.add_zero]

/-- A text keeps its parentheses, or loses some. -/
theorem unwrap_eq_or_openings_lt (text : List Char) :
    unwrap text = text ∨ openings false (unwrap text) < openings false text := by
  fun_induction unwrap text with
  | case1 rest held hcut ih =>
      have hheld : openings false held ≤ openings false rest := by
        rw [cutGroup_eq_some hcut, openings_append]
        exact Nat.le_add_right _ _
      have hopen : openings false ('(' :: rest) = openings false rest + 1 := rfl
      rw [← openings_trim] at hheld
      refine .inr ?_
      rcases ih with heq | hlt
      · rw [heq]
        omega
      · omega
  | case2 => exact .inl rfl
  | case3 => exact .inl rfl

theorem openings_unwrap_le (text : List Char) :
    openings false (unwrap text) ≤ openings false text := by
  rcases unwrap_eq_or_openings_lt text with heq | hlt
  · rw [heq]
  · exact Nat.le_of_lt hlt

theorem openings_core_le (text : List Char) : openings false (core text) ≤ openings false text :=
  (openings_unwrap_le _).trans_eq (openings_trim false text)

/-! ## Groups -/

/-- What is evaluated has no groups. -/
theorem Resolves.flat {inside : Bool} {p : Pending} (h : Resolves eval scope inside text p) :
    openings inside p.stretch = 0 ∧ ∀ stretch ∈ p.beyond, Flat stretch := by
  induction h with
  | nil => exact ⟨rfl, fun stretch hmem => absurd hmem List.not_mem_nil⟩
  | quote _ ih => exact ⟨by rw [Pending.ahead, openings, if_pos rfl, ih.1], ih.2⟩
  | literal hquote _ ih => exact ⟨by simp [Pending.ahead, openings, hquote, ih.1], ih.2⟩
  | plain hplain _ ih => exact ⟨by simp [Pending.ahead, openings, hplain, ih.1], ih.2⟩
  | closing _ ih => exact ⟨rfl, List.forall_mem_cons.mpr ih⟩
  | @opening rest next beyond p value _ hbeyond _ ih =>
      rw [hbeyond, List.forall_mem_cons] at ih
      obtain ⟨-, hnext, hrest⟩ := ih
      exact ⟨(openings_append_of_plain (slotText_plain _) false next).trans hnext, hrest⟩

theorem resolveFrom_same (hsame : SameOn Flat eval eval') (whole : List Char) (inside : Bool)
    (text : List Char) :
    resolveFrom eval scope whole inside text = resolveFrom eval' scope whole inside text := by
  induction text generalizing inside with
  | nil => rfl
  | cons c rest ih =>
      rw [resolveFrom, resolveFrom, ← ih]
      cases hp : resolveFrom eval scope whole (if c = '"' then !inside else inside) rest with
      | error e => rfl
      | ok p =>
          dsimp only
          by_cases hopen : (!inside && decide (c = '(')) = true
          · obtain ⟨hinside, hc⟩ := Bool.and_eq_true_iff.mp hopen
            obtain rfl : inside = false := by simpa using hinside
            obtain rfl : c = '(' := by simpa using hc
            have hflat : Flat p.stretch := (resolves_of_resolveFrom hp).flat.1
            simp only [Pending.open?, hsame p.stretch hflat]
          · rw [if_neg hopen, if_neg hopen]

theorem resolveGroups_same (hsame : SameOn Flat eval eval') (text : List Char) :
    resolveGroups eval text = resolveGroups eval' text := by
  funext scope
  rw [resolveGroups, resolveGroups, resolveFrom_same hsame]

/-- Where there are no groups nothing is evaluated. -/
theorem resolveGroups_of_flat (hflat : Flat text) (eval eval' : Evaluator) :
    resolveGroups eval text = resolveGroups eval' text := by
  have hfrom (scope : Scope) {text : List Char} {inside : Bool} (whole : List Char)
      (h : openings inside text = 0) :
      resolveFrom eval scope whole inside text = resolveFrom eval' scope whole inside text := by
    induction text generalizing inside with
    | nil => rfl
    | cons c rest ih =>
        rw [resolveFrom, resolveFrom]
        by_cases hquote : c = '"'
        · subst hquote
          rw [openings, if_pos rfl] at h
          simp [ih h]
        · rw [openings, if_neg hquote] at h
          by_cases hopen : (!inside && decide (c = '(')) = true
          · rw [if_pos hopen] at h
            exact absurd h (Nat.succ_ne_zero _)
          · rw [if_neg hopen] at h
            simp only [if_neg hquote, if_neg hopen, ih h]
  funext scope
  rw [resolveGroups, resolveGroups, hfrom scope text hflat]

theorem flat_of_resolveGroups {flat : Flattened} (h : resolveGroups eval text scope = .ok flat) :
    Flat flat.text := by
  obtain ⟨-, beyond, hresolves⟩ := resolveGroups_eq_ok h
  exact hresolves.flat.1

/-! ## Stages -/

theorem conditionsWith_same {operands : List (Connective × List Char)}
    (h : ∀ operand ∈ operands, eval operand.2 = eval' operand.2) :
    conditionsWith eval scope operands = conditionsWith eval' scope operands := by
  induction operands with
  | nil => rfl
  | cons operand rest ih =>
      obtain ⟨hoperand, hrest⟩ := List.forall_mem_cons.mp h
      rw [conditionsWith, conditionsWith, conditionWith, conditionWith, hoperand, ih hrest]

/-- The operands of connectives are flat and hold no connective. -/
theorem evaluateLogical_same (hgroups : resolveGroups eval text = resolveGroups eval' text)
    (hsame : SameOn (fun text => Flat text ∧ hasConnective text = false) eval eval') :
    evaluateLogical eval text = evaluateLogical eval' text := by
  funext scope
  rw [evaluateLogical, evaluateLogical, ← hgroups]
  cases hresolve : resolveGroups eval text scope with
  | error e => rfl
  | ok flat =>
      have hcuts := cuts_conjuncts flat.text
      have hoperands : ∀ operand ∈ (conjuncts flat.text).1 :: (conjuncts flat.text).2.map Prod.snd,
          eval (Text.trim operand) = eval' (Text.trim operand) := by
        intro operand hmem
        have hflat : Flat (Text.trim operand) :=
          (openings_trim false operand).trans (Nat.le_zero.mp
            ((hcuts.openings_le family_connective operand hmem).trans_eq
              (flat_of_resolveGroups hresolve)))
        exact hsame _ ⟨hflat, (hcuts.uncut family_connective operand hmem).not_occursOutside
          family_connective rfl hflat⟩
      rw [List.forall_mem_cons, List.forall_mem_map] at hoperands
      obtain ⟨hfirst, hmore⟩ := hoperands
      have htrimmed : ∀ operand ∈ (conjuncts flat.text).2.map
          (fun operand => (operand.1, Text.trim operand.2)), eval operand.2 = eval' operand.2 :=
        List.forall_mem_map.mpr hmore
      simp only [conditionWith, hfirst, conditionsWith_same htrimmed]

theorem evaluateComparison_same
    (hgroups : (comparands text).2 = [] →
      resolveGroups eval text = resolveGroups eval' text ∧ SameOn Flat eval eval')
    (hoperands : (comparands text).2 ≠ [] →
      ∀ operand ∈ (comparands text).1 :: (comparands text).2.map Prod.snd,
        eval (Text.trim operand) = eval' (Text.trim operand)) :
    evaluateComparison eval text = evaluateComparison eval' text := by
  funext scope
  rw [evaluateComparison, evaluateComparison]
  split
  · rfl
  · split
    · next hcut =>
      rw [hcut] at hgroups
      obtain ⟨hsame, hflat⟩ := hgroups rfl
      rw [← hsame]
      cases hresolve : resolveGroups eval text scope with
      | error e => rfl
      | ok flat =>
          dsimp only
          rw [hflat _ (flat_of_resolveGroups hresolve)]
    · next left op right hcut =>
      rw [hcut] at hoperands
      have hsides := hoperands (List.cons_ne_nil _ _)
      have hleft := hsides left List.mem_cons_self
      have hright := hsides right (List.mem_cons_of_mem _ List.mem_cons_self)
      simp only [hleft, hright]
    · rfl

theorem evaluateBody_same
    (hlogical : hasConnective (core text) = true →
      evaluateLogical eval (core text) = evaluateLogical eval' (core text))
    (hcomparison : hasConnective (core text) = false → hasComparison (core text) = true →
      evaluateComparison eval (core text) = evaluateComparison eval' (core text)) :
    evaluateBody eval text = evaluateBody eval' text := by
  funext scope
  cases hconnective : hasConnective (core text) with
  | true => simp only [evaluateBody_eq, hconnective, if_true, hlogical hconnective]
  | false =>
      cases hcompared : hasComparison (core text) with
      | true =>
          simp only [evaluateBody_eq, hconnective, Bool.false_eq_true, if_false, hcompared, if_true,
            hcomparison hconnective hcompared]
      | false => simp only [evaluateBody_eq, hconnective, hcompared, Bool.false_eq_true, if_false]

/-! ## The depth of a text -/

/-- So many steps are enough for the text: what it is evaluated to depends only on parts for
which one step less is enough. -/
def Bounded : (depth : Nat) → List Char → Prop
  | 0, _ => False
  | depth + 1, text => ∀ eval eval', SameOn (Bounded depth) eval eval' →
    evaluateBody eval text = evaluateBody eval' text

theorem Bounded.succ {depth : Nat} (h : Bounded depth text) : Bounded (depth + 1) text := by
  induction depth generalizing text with
  | zero => exact h.elim
  | succ depth ih => exact fun eval eval' hsame => h eval eval' (hsame.mono fun _ => ih)

theorem Bounded.mono {depth depth' : Nat} (h : Bounded depth text) (hle : depth ≤ depth') :
    Bounded depth' text := by
  induction hle with
  | refl => exact h
  | step _ ih => exact ih.succ

/-- The evaluators of last resort make no difference. -/
def Settled (depth : Nat) (text : List Char) : Prop :=
  ∀ deeper deeper', evaluateWithin deeper depth text = evaluateWithin deeper' depth text

theorem Bounded.settled {depth : Nat} (h : Bounded depth text) : Settled depth text := by
  intro deeper deeper'
  induction depth generalizing text with
  | zero => exact h.elim
  | succ depth ih => exact h _ _ fun _ => ih

theorem evaluateWithin_add (deeper : Evaluator) (depth more : Nat) :
    evaluateWithin deeper (depth + more) = evaluateWithin (evaluateWithin deeper more) depth := by
  induction depth with
  | zero => rw [Nat.zero_add, evaluateWithin]
  | succ depth ih => rw [Nat.succ_add, evaluateWithin, evaluateWithin, ih]

theorem flat_core (h : Flat text) : Flat (core text) :=
  Nat.le_zero.mp ((openings_core_le text).trans_eq h)

theorem hasConnective_core (text : List Char) :
    hasConnective (core text) = hasConnective text :=
  (sealed_connective.unwrap _).trans (sealed_connective.trim text)

theorem hasComparison_core (text : List Char) :
    hasComparison (core text) = hasComparison text :=
  (sealed_comparison.unwrap _).trans (sealed_comparison.trim text)

/-- Arithmetic takes one step. -/
theorem bounded_of_arithmetic (hconnective : hasConnective text = false)
    (hcomparison : hasComparison text = false) : Bounded 1 text := by
  intro eval eval' _
  rw [← hasConnective_core] at hconnective
  rw [← hasComparison_core] at hcomparison
  refine evaluateBody_same (fun h => ?_) fun _ h => ?_
  · rw [hconnective] at h
    exact Bool.noConfusion h
  · rw [hcomparison] at h
    exact Bool.noConfusion h

/-- In a flat text the comparisons are places to cut. -/
theorem evaluateComparison_same_of_flat (hflat : Flat text)
    (hcomparison : hasComparison text = true) (hconnective : hasConnective text = false)
    (hsame : SameOn (fun text => Flat text ∧ hasConnective text = false ∧
      hasComparison text = false) eval eval') :
    evaluateComparison eval text = evaluateComparison eval' text := by
  have hcuts := cuts_comparands text
  refine evaluateComparison_same (fun hnone => ?_) fun _ operand hmem => ?_
  · rw [hnone] at hcuts
    have hfound := hcuts.not_occursOutside family_comparison rfl hflat
    rw [hasComparison, hfound] at hcomparison
    exact Bool.noConfusion hcomparison
  · have hoperand : Flat (Text.trim operand) :=
      (openings_trim false operand).trans (Nat.le_zero.mp
        ((hcuts.openings_le family_comparison operand hmem).trans_eq hflat))
    refine hsame _ ⟨hoperand, ?_, ?_⟩
    · exact (sealed_connective.trim operand).trans
        (hcuts.occursOutside_operand family_comparison family_connective hconnective operand hmem)
    · exact (hcuts.uncut family_comparison operand hmem).not_occursOutside family_comparison rfl
        hoperand

/-- A flat text without connectives takes two steps, one for its comparisons. -/
theorem bounded_of_flat_comparison (hflat : Flat text) (hconnective : hasConnective text = false) :
    Bounded 2 text := by
  intro eval eval' hsame
  refine evaluateBody_same (fun h => ?_) fun hnone hcomparison => ?_
  · rw [hasConnective_core, hconnective] at h
    exact Bool.noConfusion h
  · exact evaluateComparison_same_of_flat (flat_core hflat) hcomparison hnone
      (hsame.mono fun _ hpart => bounded_of_arithmetic hpart.2.1 hpart.2.2)

/-- A flat text takes three steps, one more for its connectives. -/
theorem bounded_of_flat (hflat : Flat text) : Bounded 3 text := by
  intro eval eval' hsame
  refine evaluateBody_same (fun _ => ?_) fun hnone hcomparison => ?_
  · exact evaluateLogical_same (resolveGroups_of_flat (flat_core hflat) _ _)
      (hsame.mono fun _ hpart => bounded_of_flat_comparison hpart.1 hpart.2)
  · exact evaluateComparison_same_of_flat (flat_core hflat) hcomparison hnone
      (hsame.mono fun _ hpart => (bounded_of_arithmetic hpart.2.1 hpart.2.2).succ)

/-- What is evaluated of a text is flat, or one of the sides of a comparison. -/
theorem evaluateBody_same_of_sides (hflat : SameOn Flat eval eval')
    (hsides : (comparands (core text)).2 ≠ [] →
      ∀ operand ∈ (comparands (core text)).1 :: (comparands (core text)).2.map Prod.snd,
        eval (Text.trim operand) = eval' (Text.trim operand)) :
    evaluateBody eval text = evaluateBody eval' text := by
  refine evaluateBody_same (fun _ => ?_) fun _ _ => ?_
  · exact evaluateLogical_same (resolveGroups_same hflat _) (hflat.mono fun _ h => h.1)
  · exact evaluateComparison_same (fun _ => ⟨resolveGroups_same hflat _, hflat⟩) hsides

/-- A comparison adds one step to those of its two sides. -/
theorem bounded_succ {depth : Nat} (hdepth : 3 ≤ depth)
    (hsides : (comparands (core text)).2 ≠ [] →
      ∀ operand ∈ (comparands (core text)).1 :: (comparands (core text)).2.map Prod.snd,
        Bounded depth (Text.trim operand)) :
    Bounded (depth + 1) text := by
  intro eval eval' hsame
  exact evaluateBody_same_of_sides (hsame.mono fun _ hpart => (bounded_of_flat hpart).mono hdepth)
    fun hcut operand hmem => hsame _ (hsides hcut operand hmem)

/-- The sides of a comparison, which are not cut again, and have no more parentheses. -/
theorem single_comparands (text : List Char) :
    ∀ operand ∈ (comparands text).1 :: (comparands text).2.map Prod.snd,
      Single (Text.trim operand) ∧
        openings false (Text.trim operand) ≤ openings false text := by
  intro operand hmem
  have hcuts := cuts_comparands text
  exact ⟨hcuts.uncut family_comparison operand hmem,
    (openings_trim false operand).trans_le (hcuts.openings_le family_comparison operand hmem)⟩

/-- What is evaluated of a text has no more parentheses than the text. -/
theorem evaluateBody_same_of_openings
    (hsame : SameOn (fun part => openings false part ≤ openings false text) eval eval') :
    evaluateBody eval text = evaluateBody eval' text := by
  refine evaluateBody_same_of_sides (hsame.mono fun _ hpart => hpart.trans_le (Nat.zero_le _))
    fun _ operand hmem => hsame _ ?_
  exact (single_comparands _ operand hmem).2.trans (openings_core_le text)

/-- A text that no comparison cuts takes a step for each parenthesis, and three. By induction
on the number of parentheses, since some come off the text if it is cut all the same. -/
theorem bounded_of_single (h : Single text) : Bounded (openings false text + 3) text := by
  induction hnumber : openings false text using Nat.strong_induction_on generalizing text with
  | _ number ih =>
  subst hnumber
  cases hopen : openings false text with
  | zero => exact bounded_of_flat hopen
  | succ number =>
      refine bounded_succ (Nat.le_add_left 3 number) fun hcut operand hmem => ?_
      obtain ⟨hsingle, hle⟩ := single_comparands _ operand hmem
      have hlt : openings false (core text) < openings false text := by
        rw [← openings_trim false text]
        refine (unwrap_eq_or_openings_lt (Text.trim text)).resolve_left fun heq => hcut ?_
        rw [core, heq, comparands, (h.trim family_comparison).cutOperands_eq]
      exact (ih _ (hle.trans_lt hlt) hsingle rfl).mono (by omega)

/-- **The bound is enough.** -/
theorem bounded_depthBound (text : List Char) : Bounded (depthBound text) text := by
  refine bounded_succ (Nat.le_add_left 3 _) fun _ operand hmem => ?_
  obtain ⟨hsingle, hle⟩ := single_comparands _ operand hmem
  have hnumber := hle.trans (openings_core_le text)
  exact (bounded_of_single hsingle).mono (Nat.add_le_add_right hnumber 3)

theorem evaluateWithin_eq_evaluate {deeper : Evaluator} {depth : Nat}
    (h : depthBound text ≤ depth) : evaluateWithin deeper depth text = evaluate text := by
  obtain ⟨more, rfl⟩ := Nat.exists_eq_add_of_le h
  rw [evaluateWithin_add]
  exact (bounded_depthBound text).settled _ _

/-- **Evaluation is its own recursion.** Parts of a text are evaluated as texts are, to
whatever depth. -/
theorem evaluate_eq_evaluateBody (text : List Char) :
    evaluate text = evaluateBody evaluate text := by
  have hstep : evaluate text = evaluateBody (evaluateWithin outOfReach (depthBound text)) text :=
    (evaluateWithin_eq_evaluate (Nat.le_succ _)).symm
  rw [hstep]
  exact evaluateBody_same_of_openings fun part hpart =>
    evaluateWithin_eq_evaluate (Nat.add_le_add_right hpart 4)

end Flowchart.Expr
