import Flowchart.Proofs.Expr.Dollars
import Flowchart.Proofs.Expr.Rejection

/-!
# Slots that are written by hand

The slots that stand in for groups have names that a text can spell too. Where such a name
is written it has no value in the scope of the text, and the text is an error
(`evaluate_of_dollar`), unless the evaluator has put a slot of that number there before it
reads the name. That takes a text whose groups are evaluated one by one, and a group of that
number behind the parenthesis in which the name stands (`Reaches`).
-/

namespace Flowchart.Expr

variable {eval : Evaluator} {scope : Scope} {text before after : List Char}

/-! ## What a dollar sign can reach -/

/-- How much of the text before a position belongs to the same group, or to no group. -/
inductive Innermost : List Char → List Char → Prop where
  | outermost {before : List Char} : Paired before → Innermost before before
  | group {outer inner : List Char} :
      insideAfter false outer = false → Paired inner → Innermost (outer ++ '(' :: inner) inner

/-- The digits behind the dollar sign number a group that is evaluated earlier: one that
opens behind the parenthesis in which the dollar sign stands. Groups count from the right. -/
def InReach (before after : List Char) : Prop :=
  ∃ inner, Innermost before inner ∧
    Numbers (openings false (inner ++ '$' :: after)) (after.takeWhile Char.isDigit)

/-- All dollar signs outside the literals are in reach of a group. The groups of a text have
slots if there is a connective, or if all comparisons are inside the groups. Otherwise the
sides of a comparison are texts of their own. -/
inductive Reaches : List Char → Prop where
  | unslotted {text : List Char} : dollars false text = [] → Reaches text
  | flattened {text : List Char} :
      hasConnective text = true ∨
        hasComparison text = true ∧ (comparands (core text)).2 = [] →
      (∀ before after, core text = before ++ '$' :: after →
        insideAfter false before = false → InReach before after) →
      Reaches text
  | compared {text left right : List Char} {op : Comparison} :
      hasConnective text = false → hasComparison text = true →
      comparands (core text) = (left, [(op, right)]) →
      Reaches (Text.trim left) → Reaches (Text.trim right) → Reaches text

/-! ## Groups -/

/-- Each group has a slot. -/
theorem Resolves.length_values {inside : Bool} {p : Pending}
    (h : Resolves eval scope inside text p) : p.values.length = openings inside text := by
  induction h with
  | nil => rfl
  | quote _ ih => rw [openings, if_pos rfl, ← ih]; rfl
  | literal hquote _ ih => rw [openings, if_neg hquote, if_neg (by simp), ← ih]; rfl
  | plain hplain _ ih => rw [openings, if_neg hplain.1, if_neg (by simp [hplain.2.1]), ← ih]; rfl
  | closing _ ih => exact ih
  | opening _ _ _ ih => rw [List.length_append, ih]; rfl

/-- The digits with which a text begins are never part of a slot. -/
theorem Resolves.takeWhile_stretch {inside : Bool} {p : Pending}
    (h : Resolves eval scope inside text p) :
    p.stretch.takeWhile Char.isDigit = text.takeWhile Char.isDigit := by
  induction h with
  | nil => rfl
  | quote => rfl
  | @literal c rest p _ _ ih | @plain c rest p _ _ ih =>
      rw [Pending.ahead, List.takeWhile_cons, List.takeWhile_cons, ih]
  | closing => rfl
  | opening => rfl

/-- So many parentheses further on, behind ones that wait to be matched, the digits stand
behind a dollar sign. -/
def Waits (p : Pending) (inside : Bool) (digits : List Char) : (depth : Nat) → Prop
  | 0 => digits ∈ dollars inside p.stretch
  | depth + 1 => ∃ stretch, p.beyond[depth]? = some stretch ∧ digits ∈ dollars false stretch

theorem Waits.ahead {p : Pending} {inside inside' : Bool} {digits : List Char} {c : Char}
    {depth : Nat} (h : Waits p inside' digits depth)
    (hdollars : dollars inside' p.stretch ⊆ dollars inside (c :: p.stretch)) :
    Waits (p.ahead c) inside digits depth := by
  cases depth with
  | zero => exact hdollars h
  | succ depth => exact h

theorem Waits.close {p : Pending} {digits : List Char} {depth : Nat}
    (h : Waits p false digits depth) : Waits p.close false digits (depth + 1) := by
  cases depth with
  | zero => exact ⟨p.stretch, rfl, h⟩
  | succ depth => exact h

/-- The dollar sign stands in a group that has been evaluated, in reach of another one. -/
def Enclosed (inside : Bool) (before after : List Char) : Prop :=
  ∃ outer inner, before = outer ++ '(' :: inner ∧ insideAfter inside outer = false ∧
    Paired inner ∧ Numbers (openings false (inner ++ '$' :: after)) (after.takeWhile Char.isDigit)

theorem Enclosed.cons {inside inside' : Bool} {c : Char} (h : Enclosed inside' before after)
    (hstate : (if c = '"' then !inside else inside) = inside') :
    Enclosed inside (c :: before) after := by
  obtain ⟨outer, inner, rfl, houter, hinner, hreach⟩ := h
  exact ⟨c :: outer, inner, rfl, by rw [insideAfter, hstate, houter], hinner, hreach⟩

/-- The dollar sign stands in the text that is left, behind as many parentheses as it is
deep, or in a group that has been evaluated. -/
def Located (p : Pending) (inside : Bool) (before after : List Char) : Prop :=
  (∃ depth, Waits p inside (after.takeWhile Char.isDigit) depth ∧ Closes depth inside before) ∨
    Enclosed inside before after

/-- One character further to the left. -/
theorem Located.cons {p p' : Pending} {inside inside' : Bool} {c : Char}
    (h : Located p inside' before after) (hstate : (if c = '"' then !inside else inside) = inside')
    (hwaits : ∀ depth, Waits p inside' (after.takeWhile Char.isDigit) depth →
      Closes depth inside' before → Located p' inside (c :: before) after) :
    Located p' inside (c :: before) after := by
  rcases h with ⟨depth, hdepth, hcloses⟩ | henclosed
  · exact hwaits depth hdepth hcloses
  · exact .inr (henclosed.cons hstate)

/-- **Where a dollar sign is after the pass.** In a group the slots of those groups could be
read that open behind its parenthesis. -/
theorem Resolves.locate (heval : ReadsSlots eval) (hscope : KnowsSlots 0 scope) {inside : Bool}
    {p : Pending} (h : Resolves eval scope inside text p) (htext : text = before ++ '$' :: after)
    (houtside : insideAfter inside before = false) : Located p inside before after := by
  induction h generalizing before with
  | nil => exact absurd htext (by simp)
  | quote _ ih =>
      cases before with
      | nil => exact absurd (List.cons.inj htext).1 (by decide)
      | cons d before =>
          obtain ⟨rfl, hrest⟩ := List.cons.inj htext
          refine (ih hrest houtside).cons (if_pos rfl) fun depth hwaits hcloses => ?_
          exact .inl ⟨depth, hwaits.ahead (List.Subset.refl _), closes_quote.mpr hcloses⟩
  | @literal c rest p hquote _ ih =>
      cases before with
      | nil => exact Bool.noConfusion houtside
      | cons d before =>
          obtain ⟨rfl, hrest⟩ := List.cons.inj htext
          rw [insideAfter, if_neg hquote] at houtside
          refine (ih hrest houtside).cons (if_neg hquote) fun depth hwaits hcloses => ?_
          have hdollars : dollars true p.stretch ⊆ dollars true (c :: p.stretch) := by
            rw [dollars, if_neg hquote, if_neg (by simp)]
            exact List.Subset.refl _
          exact .inl ⟨depth, hwaits.ahead hdollars, (closes_literal hquote).mpr hcloses⟩
  | @plain c rest p hplain hresolves ih =>
      cases before with
      | nil =>
          obtain ⟨rfl, rfl⟩ := List.cons.inj htext
          refine .inl ⟨0, ?_, rfl, rfl⟩
          rw [← hresolves.takeWhile_stretch]
          exact List.mem_cons_self
      | cons d before =>
          obtain ⟨rfl, hrest⟩ := List.cons.inj htext
          rw [insideAfter, if_neg hplain.1] at houtside
          refine (ih hrest houtside).cons (if_neg hplain.1) fun depth hwaits hcloses => ?_
          have hdollars : dollars false p.stretch ⊆ dollars false (c :: p.stretch) := by
            rw [dollars, if_neg hplain.1]
            split
            · exact List.subset_cons_self _ _
            · exact List.Subset.refl _
          exact .inl ⟨depth, hwaits.ahead hdollars, (closes_plain hplain).mpr hcloses⟩
  | closing _ ih =>
      cases before with
      | nil => exact absurd (List.cons.inj htext).1 (by decide)
      | cons d before =>
          obtain ⟨rfl, hrest⟩ := List.cons.inj htext
          refine (ih hrest houtside).cons (if_neg (by decide)) fun depth hwaits hcloses => ?_
          exact .inl ⟨depth + 1, hwaits.close, closes_close.mpr ⟨Nat.succ_pos depth, hcloses⟩⟩
  | @opening rest next beyond q value hresolves hbeyond hvalue ih =>
      cases before with
      | nil => exact absurd (List.cons.inj htext).1 (by decide)
      | cons d before =>
          obtain ⟨rfl, hrest⟩ := List.cons.inj htext
          refine (ih hrest houtside).cons (if_neg (by decide)) fun depth hwaits hcloses => ?_
          cases depth with
          -- the dollar sign stands in this group, which reads the slots of those behind it
          | zero =>
              have hreach := heval _ _ _ value hresolves.flat.1 (hscope.withSlots q.values) hvalue
                _ hwaits
              rw [hresolves.length_values, hrest] at hreach
              exact .inr ⟨[], before, rfl, rfl, paired_iff_closes.mpr hcloses, hreach⟩
          | succ depth =>
              refine .inl ⟨depth, ?_, closes_open.mpr hcloses⟩
              obtain ⟨stretch, hstretch, hmem⟩ := hwaits
              rw [hbeyond] at hstretch
              cases depth with
              | zero =>
                  obtain rfl := Option.some.inj hstretch
                  have hslot : insideAfter false (slotText q.values.length) = false :=
                    insideAfter_of_not_mem (fun hquote => (slotText_plain _ _ hquote).1 rfl) false
                  rw [← hslot] at hmem
                  exact dollars_subset_append false _ _ hmem
              | succ depth => exact ⟨stretch, hstretch, hmem⟩

/-- Where the text that is left reads its slots, each dollar sign is in reach of a group. -/
theorem inReach_of_resolveGroups (heval : ReadsSlots eval) (hscope : KnowsSlots 0 scope)
    {flat : Flattened} (h : resolveGroups eval text scope = .ok flat)
    (hflat : ∀ digits ∈ dollars false flat.text, Numbers flat.values.length digits)
    (htext : text = before ++ '$' :: after) (houtside : insideAfter false before = false) :
    InReach before after := by
  obtain ⟨hclosing, beyond, hresolves⟩ := resolveGroups_eq_ok h
  obtain rfl : beyond = [] :=
    List.eq_nil_of_length_eq_zero (Nat.le_zero.mp (hresolves.length_beyond_le hclosing))
  rcases hresolves.locate heval hscope htext houtside with
    ⟨depth, hwaits, hcloses⟩ | ⟨outer, inner, rfl, houter, hinner, hreach⟩
  · cases depth with
    | zero =>
        have hreach := hflat _ hwaits
        rw [hresolves.length_values, htext] at hreach
        exact ⟨before, .outermost (paired_iff_closes.mpr hcloses), hreach⟩
    | succ depth =>
        obtain ⟨stretch, hstretch, -⟩ := hwaits
        cases hstretch
  · exact ⟨inner, .group houter hinner, hreach⟩

/-! ## Any text -/

/-- Where a text with a value has no dollar sign out of reach. -/
def Confined (eval : Evaluator) : Prop :=
  ∀ text scope value, KnowsSlots 0 scope → eval text scope = .ok value → Reaches text

theorem Confined.evaluateBody (hconfined : Confined eval) (heval : ReadsSlots eval) :
    Confined (evaluateBody eval) := by
  intro text scope value hscope h
  rcases evaluateBody_eq_ok h with ⟨b, hbool⟩ | ⟨hconnective, b, hlogical⟩ |
    ⟨hconnective, hcompared, hcomparison⟩ | harithmetic
  · exact .unslotted ((dollars_core text).symm.trans (dollars_of_boolOfWord? hbool))
  · obtain ⟨flat, hresolve, hfirst, hmore⟩ := evaluateLogical_eq_ok hlogical
    rw [hasConnective_core] at hconnective
    refine .flattened (.inl hconnective) fun before after => ?_
    refine inReach_of_resolveGroups heval hscope hresolve ?_
    refine heval.operands family_connective (cuts_conjuncts _) (flat_of_resolveGroups hresolve)
      (hscope.withSlots _) ?_
    exact List.forall_mem_cons.mpr ⟨hfirst, List.forall_mem_map.mpr hmore⟩
  · rw [hasConnective_core] at hconnective
    rw [hasComparison_core] at hcompared
    obtain ⟨-, ⟨flat, hcut, hresolve, hvalue⟩ | ⟨left, op, right, a, b, hcut, hleft, hright⟩⟩ :=
      evaluateComparison_eq_ok hcomparison
    · refine .flattened (.inr ⟨hcompared, hcut⟩) fun before after => ?_
      exact inReach_of_resolveGroups heval hscope hresolve
        (heval _ _ _ value (flat_of_resolveGroups hresolve) (hscope.withSlots _) hvalue)
    · exact .compared hconnective hcompared hcut (hconfined _ scope a hscope hleft)
        (hconfined _ scope b hscope hright)
  · refine .unslotted (List.eq_nil_iff_forall_not_mem.mpr fun digits hmem => ?_)
    rw [← dollars_core] at hmem
    obtain ⟨n, -, hlt⟩ := numbers_of_evaluateArithmetic hscope harithmetic digits hmem
    exact Nat.not_lt_zero n hlt

theorem confined_evaluateWithin (depth : Nat) : Confined (evaluateWithin outOfReach depth) := by
  induction depth with
  | zero => exact fun _ _ _ _ h => nomatch h
  | succ depth ih => exact ih.evaluateBody (readsSlots_evaluateWithin depth)

theorem InReach.openings_pos (h : InReach before after) :
    0 < openings false (before ++ '$' :: after) := by
  obtain ⟨inner, hinner, n, -, hlt⟩ := h
  cases hinner with
  | outermost => exact Nat.zero_lt_of_lt hlt
  | @group outer _ houter =>
      rw [List.append_assoc, openings_append, houter]
      have hopen : openings false ('(' :: inner ++ '$' :: after)
          = openings false (inner ++ '$' :: after) + 1 := rfl
      omega

/-- There is no slot without a group, and none in arithmetic. -/
theorem Reaches.exists_group (h : Reaches text) (hdollars : dollars false text ≠ []) :
    0 < openings false text ∧ (hasConnective text = true ∨ hasComparison text = true) := by
  induction h with
  | unslotted hnone => exact absurd hnone hdollars
  | flattened hflat hreach =>
      refine ⟨?_, hflat.imp_right And.left⟩
      rw [← dollars_core] at hdollars
      obtain ⟨digits, hmem⟩ := List.exists_mem_of_ne_nil _ hdollars
      obtain ⟨before, after, htext, houtside, -⟩ := exists_of_mem_dollars hmem
      have hpos := (hreach before after htext houtside).openings_pos
      rw [← htext] at hpos
      exact hpos.trans_le (openings_core_le _)
  | @compared text left right op _ hcompared hcut _ _ ihleft ihright =>
      have hcuts := cuts_comparands (core text)
      have hless := single_comparands (core text)
      rw [hcut] at hcuts hless
      rw [← dollars_core, hcuts.dollars_eq family_comparison, List.flatMap_singleton] at hdollars
      have side {operand : List Char}
          (hmem : operand ∈ left :: [(op, right)].map Prod.snd)
          (hpos : 0 < openings false (Text.trim operand)) : 0 < openings false text :=
        hpos.trans_le ((hless operand hmem).2.trans (openings_core_le text))
      refine ⟨?_, .inr hcompared⟩
      by_cases hleft : dollars false left = []
      · rw [hleft, List.nil_append, ← dollars_trim] at hdollars
        exact side (List.mem_cons_of_mem _ List.mem_cons_self) (ihright hdollars).1
      · rw [← dollars_trim] at hleft
        exact side List.mem_cons_self (ihleft hleft).1

/-- **Slots are out of reach.** In a scope without slots a text with a dollar sign outside the
literals is an error, as an expression and as a condition, unless all its dollar signs are
in reach of a group. It then has groups, and a connective or a comparison. -/
theorem evaluate_of_dollar (scope : Scope)
    (hscope : ∀ rest, scope (String.ofList ('$' :: rest)) = none) {text before after : List Char}
    (htext : text = before ++ '$' :: after) (houtside : insideAfter false before = false) :
    ((∃ e, evaluate text scope = .error e) ∧ ∃ e, evaluateCondition text scope = .error e) ∨
      Reaches text ∧ 0 < openings false text ∧
        (hasConnective text = true ∨ hasComparison text = true) := by
  cases h : evaluate text scope with
  | error e =>
      refine .inl ⟨⟨e, rfl⟩, e, ?_⟩
      rw [evaluateCondition, conditionWith, h]
  | ok value =>
      have hknown : KnowsSlots 0 scope := by
        intro digits value hvalue
        rw [hscope] at hvalue
        cases hvalue
      have hreaches := confined_evaluateWithin _ text scope value hknown h
      have hdollars : dollars false text ≠ [] := by
        rw [htext]
        exact List.ne_nil_of_mem (mem_dollars houtside after)
      exact .inr ⟨hreaches, hreaches.exists_group hdollars⟩

/-- Arithmetic does not read the groups behind the dollar sign. -/
theorem evaluate_of_dollar_arithmetic :
    ∃ e, evaluate "($0 + 1) * (2)".toList (fun _ => none) = .error e := by
  have htext : "($0 + 1) * (2)".toList = ['('] ++ '$' :: "0 + 1) * (2)".toList := by decide
  rcases evaluate_of_dollar (fun _ => none) (fun _ => rfl) htext (by decide) with
    ⟨herror, -⟩ | ⟨-, -, hfound⟩
  · exact herror
  · exact absurd hfound (by decide)

/-- With a connective it does. -/
theorem evaluate_of_dollar_conjunct :
    "$0 && (true)".toList = [] ++ '$' :: "0 && (true)".toList ∧ insideAfter false [] = false ∧
    evaluate "$0 && (true)".toList (fun _ => none) = .ok (.bool true) ∧
    evaluateCondition "$0 && (true)".toList (fun _ => none) = .ok true := by
  decide +kernel

end Flowchart.Expr
