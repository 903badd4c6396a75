import Flowchart.Proofs.Expr.Pairing
import Flowchart.Proofs.Expr.Seam

/-!
# Cuts at operators

A text is cut at the operators of one family that stand outside its groups and literals.
Connectives and comparisons are such families (`Family`). The pass over the text is told as
a relation with one rule for each kind of character, and one for an operator (`Cuts`), so
that facts about the operands are proved by induction over the pass.

Nothing is lost by cutting (`Cuts.join`), an operand is not cut a second time
(`Cuts.operand_prefix`), and where no group opens the operands hold none of the operators
(`Cuts.not_occursOutside`).
-/

namespace Flowchart.Expr

/-! ## Scans of two parts -/

theorem openings_append (inside : Bool) (a b : List Char) :
    openings inside (a ++ b) = openings inside a + openings (insideAfter inside a) b := by
  induction a generalizing inside with
  | nil => exact (Nat.zero_add _).symm
  | cons c rest ih =>
      rw [List.cons_append, openings, openings, insideAfter]
      split
      · exact ih _
      · split
        · rw [ih]
          omega
        · exact ih _

theorem openings_append_of_plain {run : List Char} (h : ∀ c ∈ run, c ≠ '"' ∧ c ≠ '(' ∧ c ≠ ')')
    (inside : Bool) (b : List Char) : openings inside (run ++ b) = openings inside b := by
  induction run with
  | nil => rfl
  | cons c rest ih =>
      obtain ⟨⟨hquote, hopen, -⟩, hrest⟩ := List.forall_mem_cons.mp h
      rw [List.cons_append, openings, if_neg hquote, if_neg (by simp [hopen]), ih hrest]

/-- What is found in the second part is found in the whole. -/
theorem occursOutside_append_of_true {test : List Char → Bool} {inside : Bool} {a b : List Char}
    (h : occursOutside test (insideAfter inside a) b = true) :
    occursOutside test inside (a ++ b) = true := by
  induction a generalizing inside with
  | nil => exact h
  | cons c rest ih =>
      rw [List.cons_append, occursOutside]
      rw [insideAfter] at h
      by_cases hquote : c = '"'
      · rw [if_pos hquote] at h ⊢
        exact ih h
      · rw [if_neg hquote] at h ⊢
        rw [ih h, Bool.or_true]

/-! ## Families of operators -/

/-- A way to recognise the operators that begin a text, and their symbols. -/
structure Family {α : Type} (leading? : List Char → Option α) (symbol : α → String) : Prop where
  /-- What is recognised stands there. -/
  exists_append : ∀ {text op}, leading? text = some op → ∃ rest, text = (symbol op).toList ++ rest
  /-- What stands there is recognised. -/
  isSome_append : ∀ op rest, (leading? ((symbol op).toList ++ rest)).isSome = true
  symbol_ne_nil : ∀ op, (symbol op).toList ≠ []
  symbol_outside : ∀ op, ∀ c ∈ (symbol op).toList, c ≠ '"' ∧ c ≠ '(' ∧ c ≠ ')'
  symbol_reserved : ∀ op, ∀ c ∈ (symbol op).toList, c ∈ reserved

theorem family_connective : Family Connective.leading? Connective.symbol where
  exists_append := Connective.exists_of_leading?
  isSome_append := Phrase.isSome_leading?_connective
  symbol_ne_nil op := Operator.symbol_ne_nil (.connective op)
  symbol_outside op := Operator.symbol_outside (.connective op)
  symbol_reserved op := Operator.symbol_reserved (.connective op)

theorem family_comparison : Family Comparison.leading? Comparison.symbol where
  exists_append := Comparison.exists_of_leading?
  isSome_append := Phrase.isSome_leading?_comparison
  symbol_ne_nil op := Operator.symbol_ne_nil (.comparison op)
  symbol_outside op := Operator.symbol_outside (.comparison op)
  symbol_reserved op := Operator.symbol_reserved (.comparison op)

/-- The cut of a text that stands so deep in groups, inside a literal or not: the first
operand, and each operator with the operand after it. -/
inductive Cuts {α : Type} (leading? : List Char → Option α) (symbol : α → String) :
    (depth : Nat) → (inside : Bool) → List Char → List Char → List (α × List Char) → Prop where
  | nil {depth : Nat} {inside : Bool} : Cuts leading? symbol depth inside [] [] []
  | quote {depth : Nat} {inside : Bool} {rest first : List Char} {more : List (α × List Char)} :
      Cuts leading? symbol depth (!inside) rest first more →
      Cuts leading? symbol depth inside ('"' :: rest) ('"' :: first) more
  | literal {depth : Nat} {c : Char} {rest first : List Char} {more : List (α × List Char)} :
      c ≠ '"' → Cuts leading? symbol depth true rest first more →
      Cuts leading? symbol depth true (c :: rest) (c :: first) more
  | opening {depth : Nat} {rest first : List Char} {more : List (α × List Char)} :
      Cuts leading? symbol (depth + 1) false rest first more →
      Cuts leading? symbol depth false ('(' :: rest) ('(' :: first) more
  | closing {depth : Nat} {rest first : List Char} {more : List (α × List Char)} :
      Cuts leading? symbol (depth - 1) false rest first more →
      Cuts leading? symbol depth false (')' :: rest) (')' :: first) more
  | plain {depth : Nat} {c : Char} {rest first : List Char} {more : List (α × List Char)} :
      c ≠ '"' ∧ c ≠ '(' ∧ c ≠ ')' → (depth = 0 → leading? (c :: rest) = none) →
      Cuts leading? symbol depth false rest first more →
      Cuts leading? symbol depth false (c :: rest) (c :: first) more
  | operator {op : α} {rest first : List Char} {more : List (α × List Char)} :
      leading? ((symbol op).toList ++ rest) = some op →
      Cuts leading? symbol 0 false rest first more →
      Cuts leading? symbol 0 false ((symbol op).toList ++ rest) [] ((op, first) :: more)

variable {α : Type} {leading? : List Char → Option α} {symbol : α → String} {depth : Nat}
  {inside : Bool} {text first a : List Char} {more : List (α × List Char)}

namespace Family

/-- An operator that begins a text begins every longer one, maybe as a part of another. -/
theorem eq_none_of_append (h : Family leading? symbol) {b : List Char}
    (hnone : leading? (a ++ b) = none) : leading? a = none := by
  cases hop : leading? a with
  | none => rfl
  | some op =>
      obtain ⟨rest, rfl⟩ := h.exists_append hop
      have hsome := h.isSome_append op (rest ++ b)
      rw [← List.append_assoc, hnone] at hsome
      exact Bool.noConfusion hsome

/-- No operator begins with a parenthesis. -/
theorem eq_none_of_paren (h : Family leading? symbol) {c : Char} (hc : c = '(' ∨ c = ')')
    (rest : List Char) : leading? (c :: rest) = none := by
  cases hop : leading? (c :: rest) with
  | none => rfl
  | some op =>
      obtain ⟨after, hafter⟩ := h.exists_append hop
      cases hsymbol : (symbol op).toList with
      | nil => exact absurd hsymbol (h.symbol_ne_nil op)
      | cons d more =>
          rw [hsymbol, List.cons_append] at hafter
          have hmem : c ∈ (symbol op).toList := by
            rw [hsymbol, (List.cons.inj hafter).1]
            exact List.mem_cons_self
          obtain ⟨-, hopen, hclose⟩ := h.symbol_outside op c hmem
          rcases hc with hc | hc
          · exact absurd hc hopen
          · exact absurd hc hclose

/-- What is found in the first part is found in the whole. -/
theorem occursOutside_append_of_true (h : Family leading? symbol) {b : List Char}
    (ha : occursOutside (fun rest => (leading? rest).isSome) inside a = true) :
    occursOutside (fun rest => (leading? rest).isSome) inside (a ++ b) = true := by
  induction a generalizing inside with
  | nil => exact Bool.noConfusion ha
  | cons c rest ih =>
      rw [occursOutside] at ha
      rw [List.cons_append, occursOutside]
      by_cases hquote : c = '"'
      · rw [if_pos hquote] at ha ⊢
        exact ih ha
      · rw [if_neg hquote] at ha ⊢
        rcases Bool.or_eq_true_iff.mp ha with hhere | hrest
        · obtain ⟨hinside, hlead⟩ := Bool.and_eq_true_iff.mp hhere
          obtain ⟨op, hop⟩ := Option.isSome_iff_exists.mp hlead
          obtain ⟨after, hafter⟩ := h.exists_append hop
          have hwhole := h.isSome_append op (after ++ b)
          rw [← List.append_assoc, ← hafter, List.cons_append] at hwhole
          rw [hinside, hwhole, Bool.and_self, Bool.true_or]
        · rw [ih hrest, Bool.or_true]

/-- The number `skip` counts the characters that belong to the last operator. -/
theorem cuts_cutOperands (h : Family leading? symbol) (skip depth : Nat) (inside : Bool)
    (text : List Char) :
    let cut := cutOperands leading? (fun op => (symbol op).length) skip depth inside text
    Cuts leading? symbol depth inside (text.drop skip) cut.1 cut.2 := by
  induction text generalizing skip depth inside with
  | nil =>
      rw [List.drop_nil, cutOperands]
      exact .nil
  | cons c rest ih =>
      cases skip with
      | succ skip => exact ih skip depth inside
      | zero =>
          have hrest (depth : Nat) (inside : Bool) := ih 0 depth inside
          rw [List.drop_zero, cutOperands]
          rcases scan_cases inside c with rfl | ⟨hquote, rfl⟩ | ⟨rfl, rfl⟩ | ⟨rfl, rfl⟩ |
            ⟨hplain, rfl⟩
          · exact .quote (hrest _ _)
          · rw [if_neg hquote, if_pos rfl]
            exact .literal hquote (hrest _ _)
          · exact .opening (hrest _ _)
          · exact .closing (hrest _ _)
          · rw [if_neg hplain.1, if_neg Bool.false_ne_true, if_neg hplain.2.1, if_neg hplain.2.2]
            split
            · next op hop =>
              obtain ⟨rfl, hlead⟩ : depth = 0 ∧ leading? (c :: rest) = some op := by
                by_cases hdepth : depth = 0
                · exact ⟨hdepth, by rwa [if_pos hdepth] at hop⟩
                · rw [if_neg hdepth] at hop
                  cases hop
              obtain ⟨after, hafter⟩ := h.exists_append hlead
              have hpos : 0 < (symbol op).length := by
                rw [← String.length_toList]
                exact List.length_pos_iff.mpr (h.symbol_ne_nil op)
              have hdrop : rest.drop ((symbol op).length - 1) = after := by
                have hwhole := congrArg (List.drop (symbol op).length) hafter
                rwa [← String.length_toList, List.drop_left, String.length_toList,
                  ← Nat.sub_add_cancel hpos, List.drop_succ_cons] at hwhole
              have hcut := ih ((symbol op).length - 1) 0 false
              rw [hdrop] at hcut
              rw [hafter] at hlead ⊢
              exact .operator hlead hcut
            · next hop =>
              exact .plain hplain (fun hdepth => by rwa [if_pos hdepth] at hop) (hrest _ _)

end Family

theorem cuts_conjuncts (text : List Char) :
    Cuts Connective.leading? Connective.symbol 0 false text (conjuncts text).1
      (conjuncts text).2 :=
  family_connective.cuts_cutOperands 0 0 false text

theorem cuts_comparands (text : List Char) :
    Cuts Comparison.leading? Comparison.symbol 0 false text (comparands text).1
      (comparands text).2 :=
  family_comparison.cuts_cutOperands 0 0 false text

namespace Cuts

/-! ## The text of a cut -/

/-- **Cutting loses nothing.** The operands and the symbols between them are the text. -/
theorem join (h : Cuts leading? symbol depth inside text first more) :
    text = first ++ more.flatMap fun operand => (symbol operand.1).toList ++ operand.2 := by
  induction h with
  | nil => rfl
  | operator _ _ ih => rw [ih]; simp
  | quote _ ih | literal _ _ ih | opening _ ih | closing _ ih | plain _ _ _ ih =>
      rw [List.cons_append, ← ih]

/-- The place of an operand in the text. -/
theorem exists_append (hfamily : Family leading? symbol)
    (h : Cuts leading? symbol depth inside text first more) {operand : α × List Char}
    (hmem : operand ∈ more) :
    ∃ front back, text = front ++ (operand.2 ++ back) ∧ insideAfter inside front = false := by
  induction h with
  | nil => exact absurd hmem List.not_mem_nil
  | quote _ ih =>
      obtain ⟨front, back, rfl, hfront⟩ := ih hmem
      exact ⟨'"' :: front, back, rfl, hfront⟩
  | literal hquote _ ih =>
      obtain ⟨front, back, rfl, hfront⟩ := ih hmem
      exact ⟨_ :: front, back, rfl, by rw [insideAfter, if_neg hquote, hfront]⟩
  | opening _ ih | closing _ ih =>
      obtain ⟨front, back, rfl, hfront⟩ := ih hmem
      exact ⟨_ :: front, back, rfl, hfront⟩
  | plain hplain _ _ ih =>
      obtain ⟨front, back, rfl, hfront⟩ := ih hmem
      exact ⟨_ :: front, back, rfl, by rw [insideAfter, if_neg hplain.1, hfront]⟩
  | @operator op rest first more _ hrest ih =>
      have hsymbol : insideAfter false (symbol op).toList = false :=
        insideAfter_of_not_mem (fun hquote => (hfamily.symbol_outside op _ hquote).1 rfl) false
      rcases List.mem_cons.mp hmem with rfl | hmem
      · exact ⟨(symbol op).toList, _, congrArg _ hrest.join, hsymbol⟩
      · obtain ⟨front, back, rfl, hfront⟩ := ih hmem
        exact ⟨(symbol op).toList ++ front, back, by rw [List.append_assoc],
          by rw [insideAfter_append, hsymbol, hfront]⟩

/-! ## Operands are not cut again -/

/-- Whatever the first operand begins with. -/
theorem first_prefix (hfamily : Family leading? symbol)
    (h : Cuts leading? symbol depth inside text first more) (ha : a <+: first) :
    Cuts leading? symbol depth inside a a [] := by
  induction h generalizing a with
  | nil =>
      rw [List.prefix_nil.mp ha]
      exact .nil
  | operator =>
      rw [List.prefix_nil.mp ha]
      exact .nil
  | quote _ ih =>
      rcases List.prefix_cons_iff.mp ha with rfl | ⟨b, rfl, hb⟩
      · exact .nil
      · exact .quote (ih hb)
  | literal hquote _ ih =>
      rcases List.prefix_cons_iff.mp ha with rfl | ⟨b, rfl, hb⟩
      · exact .nil
      · exact .literal hquote (ih hb)
  | opening _ ih =>
      rcases List.prefix_cons_iff.mp ha with rfl | ⟨b, rfl, hb⟩
      · exact .nil
      · exact .opening (ih hb)
  | closing _ ih =>
      rcases List.prefix_cons_iff.mp ha with rfl | ⟨b, rfl, hb⟩
      · exact .nil
      · exact .closing (ih hb)
  | @plain depth c rest first more hplain hnone hrest ih =>
      rcases List.prefix_cons_iff.mp ha with rfl | ⟨b, rfl, hb⟩
      · exact .nil
      · obtain ⟨beyond, rfl⟩ := hb
        refine .plain hplain (fun hdepth => ?_) (ih ⟨beyond, rfl⟩)
        have hwhole := hnone hdepth
        rw [hrest.join, List.append_assoc, ← List.cons_append] at hwhole
        exact hfamily.eq_none_of_append hwhole

/-- Whatever an operand begins with. -/
theorem operand_prefix (hfamily : Family leading? symbol)
    (h : Cuts leading? symbol depth inside text first more) {operand : α × List Char}
    (hmem : operand ∈ more) (ha : a <+: operand.2) : Cuts leading? symbol 0 false a a [] := by
  induction h with
  | nil => exact absurd hmem List.not_mem_nil
  | operator _ hrest ih =>
      rcases List.mem_cons.mp hmem with rfl | hmem
      · exact hrest.first_prefix hfamily ha
      · exact ih hmem
  | quote _ ih | literal _ _ ih | opening _ ih | closing _ ih | plain _ _ _ ih => exact ih hmem

/-- A text that is not cut is its only operand. -/
theorem cutOperands_eq {width : α → Nat} (h : Cuts leading? symbol depth inside text first []) :
    cutOperands leading? width 0 depth inside text = (first, []) := by
  generalize hmore : ([] : List (α × List Char)) = more at h
  induction h with
  | nil => rfl
  | operator => cases hmore
  | quote _ ih =>
      rw [cutOperands, if_pos rfl, ih hmore]
      rfl
  | literal hquote _ ih =>
      rw [cutOperands, if_neg hquote, if_pos rfl, ih hmore]
      rfl
  | opening _ ih =>
      rw [cutOperands, if_neg (by decide), if_neg Bool.false_ne_true, if_pos rfl, ih hmore]
      rfl
  | closing _ ih =>
      rw [cutOperands, if_neg (by decide), if_neg Bool.false_ne_true, if_neg (by decide),
        if_pos rfl, ih hmore]
      rfl
  | @plain depth c rest first more hplain hnone _ ih =>
      have hlead : (if depth = 0 then leading? (c :: rest) else none) = none := by
        split
        · next hdepth => exact hnone hdepth
        · rfl
      rw [cutOperands, if_neg hplain.1, if_neg Bool.false_ne_true, if_neg hplain.2.1,
        if_neg hplain.2.2, hlead, ih hmore]
      rfl

theorem of_plain_cons {c : Char} {rest : List Char} (hc : c ≠ '"' ∧ c ≠ '(' ∧ c ≠ ')')
    (h : Cuts leading? symbol depth false text first more) (htext : text = c :: rest)
    (hfirst : first = text) : Cuts leading? symbol depth false rest rest more := by
  cases h with
  | nil => cases htext
  | quote => exact absurd (List.cons.inj htext).1.symm hc.1
  | opening => exact absurd (List.cons.inj htext).1.symm hc.2.1
  | closing => exact absurd (List.cons.inj htext).1.symm hc.2.2
  | plain _ _ hrest =>
      obtain ⟨-, rfl⟩ := List.cons.inj htext
      obtain rfl := (List.cons.inj hfirst).2
      exact hrest
  | operator => rw [htext] at hfirst; cases hfirst

/-- Blanks at the ends of a text do not matter to how it is cut. -/
theorem trim (hfamily : Family leading? symbol) (h : Cuts leading? symbol 0 false text text []) :
    Cuts leading? symbol 0 false (Text.trim text) (Text.trim text) [] := by
  obtain ⟨front, back, htext, hfront, -⟩ := exists_append_trim text
  generalize Text.trim text = core at htext
  subst htext
  induction front with
  | nil => exact h.first_prefix hfamily ⟨back, rfl⟩
  | cons c front ih =>
      obtain ⟨hc, hrest⟩ := List.forall_mem_cons.mp hfront
      exact ih hrest (h.of_plain_cons (outside_of_isBlank hc) rfl rfl)

/-- Where no group opens, an operator that stands outside the literals is a place to cut. -/
theorem not_occursOutside (hfamily : Family leading? symbol)
    (h : Cuts leading? symbol depth inside text first []) (hdepth : depth = 0)
    (hflat : openings inside text = 0) :
    occursOutside (fun rest => (leading? rest).isSome) inside text = false := by
  generalize hmore : ([] : List (α × List Char)) = more at h
  induction h with
  | nil => rfl
  | operator => cases hmore
  | quote _ ih =>
      rw [openings, if_pos rfl] at hflat
      rw [occursOutside, if_pos rfl, ih hdepth hflat hmore]
  | literal hquote _ ih =>
      rw [openings, if_neg hquote] at hflat
      rw [occursOutside, if_neg hquote, ih hdepth hflat hmore]
      rfl
  | opening _ _ => exact absurd hflat (Nat.succ_ne_zero _)
  | closing _ ih =>
      rw [occursOutside, if_neg (by decide), hfamily.eq_none_of_paren (.inr rfl)]
      exact ih (by rw [hdepth]) hflat hmore
  | plain hplain hnone _ ih =>
      rw [openings, if_neg hplain.1, if_neg (by simp [hplain.2.1])] at hflat
      rw [occursOutside, if_neg hplain.1, hnone hdepth, ih hdepth hflat hmore]
      rfl

/-! ## Operands on their own -/

/-- No operand is cut again, with or without the blanks around it. -/
theorem uncut (hfamily : Family leading? symbol)
    (h : Cuts leading? symbol 0 false text first more) :
    ∀ operand ∈ first :: more.map Prod.snd,
      Cuts leading? symbol 0 false (Text.trim operand) (Text.trim operand) [] := by
  rw [List.forall_mem_cons, List.forall_mem_map]
  exact ⟨(h.first_prefix hfamily List.prefix_rfl).trim hfamily,
    fun operand hmem => (h.operand_prefix hfamily hmem List.prefix_rfl).trim hfamily⟩

/-- An operand has no more groups than the text. -/
theorem openings_le (hfamily : Family leading? symbol)
    (h : Cuts leading? symbol depth false text first more) :
    ∀ operand ∈ first :: more.map Prod.snd, openings false operand ≤ openings false text := by
  rw [List.forall_mem_cons, List.forall_mem_map]
  constructor
  · rw [h.join, openings_append]
    exact Nat.le_add_right _ _
  · intro operand hmem
    obtain ⟨front, back, rfl, hfront⟩ := h.exists_append hfamily hmem
    rw [openings_append, openings_append, hfront]
    omega

/-- An operand has no operators of any family that the text has not. -/
theorem occursOutside_operand {β : Type} {leading'? : List Char → Option β} {symbol' : β → String}
    (hfamily : Family leading? symbol) (hfamily' : Family leading'? symbol')
    (h : Cuts leading? symbol depth false text first more)
    (hnone : occursOutside (fun rest => (leading'? rest).isSome) false text = false) :
    ∀ operand ∈ first :: more.map Prod.snd,
      occursOutside (fun rest => (leading'? rest).isSome) false operand = false := by
  rw [List.forall_mem_cons, List.forall_mem_map]
  constructor
  · refine Bool.eq_false_iff.mpr fun hfirst => ?_
    rw [h.join, hfamily'.occursOutside_append_of_true hfirst] at hnone
    exact Bool.noConfusion hnone
  · intro operand hmem
    refine Bool.eq_false_iff.mpr fun hoperand => ?_
    obtain ⟨front, back, rfl, hfront⟩ := h.exists_append hfamily hmem
    rw [occursOutside_append_of_true] at hnone
    · exact Bool.noConfusion hnone
    · rw [hfront]
      exact hfamily'.occursOutside_append_of_true hoperand

end Cuts

end Flowchart.Expr
