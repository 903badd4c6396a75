import Flowchart.Proofs.Expr.Flattening

/-!
# Cutting a phrase at its operators

Cutting the text of a phrase at the connectives outside its groups gives the texts of its
conjuncts (`Phrase.Ok.conjuncts_text`), and cutting it at a comparison gives the two
sides. Joining the truth values of the conjuncts, conjunctions before disjunctions, gives
the truth value of the phrase (`Phrase.Ok.condition_conjuncts`), although the cut has
forgotten the tree and kept only the order.
-/

namespace Flowchart.Expr

namespace Phrase

/-! ## Cuts -/

section Cut

variable {α : Type} {leading? : List Char → Option α} {width : α → Nat}

/-- Where no operator outside the groups is of the family, the text stays in one piece. -/
theorem Ok.cutOperands_text {p : Phrase} (h : p.Ok)
    (hplain : ∀ c, c ∉ reserved → ∀ rest, leading? (c :: rest) = none)
    (hminus : ∀ rest, leading? ('-' :: rest) = none)
    (hops : ∀ op : Operator, p.level ≤ op.level → ∀ c ∈ op.symbol.toList, ∀ rest,
      leading? (c :: rest) = none) (rest : List Char) :
    cutOperands leading? width 0 0 false (p.text ++ rest) =
      let cut := cutOperands leading? width 0 0 false rest
      (p.text ++ cut.1, cut.2) := by
  have run {s : List Char} (hs : ∀ c ∈ s, c ∉ reserved) (rest : List Char) :
      cutOperands leading? width 0 0 false (s ++ rest) =
        let cut := cutOperands leading? width 0 0 false rest
        (s ++ cut.1, cut.2) :=
    Balanced.cutOperands_run (fun c hmem =>
      ⟨hplain c (hs c hmem), outside_of_not_reserved (hs c hmem)⟩) rest
  have blanks {s : List Char} (hs : ∀ c ∈ s, Text.isBlank c = true) (rest : List Char) :=
    run (fun c hmem => not_reserved_of_isBlank (hs c hmem)) rest
  induction p generalizing rest with
  | operand front lexeme back =>
      obtain ⟨hfront, hlexeme, hback⟩ := h
      rw [text, List.append_assoc, List.append_assoc, blanks hfront]
      rcases hlexeme.literal_or with ⟨held, rfl, hheld⟩ | hrun
      · have happend : (Lexeme.literal held).text ++ (back ++ rest)
            = '"' :: held ++ '"' :: (back ++ rest) := by simp [Lexeme.text]
        rw [happend, Balanced.cutOperands_literal hheld, blanks hback]
        simp [Lexeme.text]
      · rw [run hrun, blanks hback]
        simp
  | group front inner back =>
      obtain ⟨hfront, hinner, hback⟩ := h
      have happend : (group front inner back).text ++ rest
          = front ++ ('(' :: inner.text ++ ')' :: (back ++ rest)) := by simp [text]
      rw [happend, blanks hfront, hinner.balanced_any.cutOperands_group, blanks hback]
      simp [text]
  | negation front a ih =>
      obtain ⟨hfront, ha, hlevel⟩ := h
      -- a sign starts no operator of the family
      have hsign : ∀ rest, leading? ('-' :: rest) = none := hminus
      have happend : (negation front a).text ++ rest = front ++ (['-'] ++ (a.text ++ rest)) := by
        simp [text]
      rw [happend, blanks hfront,
        Balanced.cutOperands_run (by simpa using hsign),
        ih ha fun op hop => hops op (Nat.le_trans hlevel hop)]
      simp [text]
  | joined op a b iha ihb =>
      obtain ⟨ha, hb, hleft, hright⟩ := h
      have hsymbol : ∀ c ∈ op.symbol.toList, (∀ rest, leading? (c :: rest) = none) ∧
          c ≠ '"' ∧ c ≠ '(' ∧ c ≠ ')' := fun c hmem =>
        ⟨hops op (Nat.le_refl _) c hmem, op.symbol_outside c hmem⟩
      have hlevel := op.level_le_leftLevel
      have happend : (joined op a b).text ++ rest
          = a.text ++ (op.symbol.toList ++ (b.text ++ rest)) := by simp [text]
      rw [happend, iha ha fun o ho => hops o (by simp only [level]; omega),
        Balanced.cutOperands_run hsymbol, ihb hb fun o ho => hops o (by simp only [level]; omega)]
      simp [text]

end Cut

theorem cut_connective (op : Connective) (rest : List Char) :
    cutOperands Connective.leading? (·.symbol.length) 0 0 false (op.symbol.toList ++ rest) =
      let cut := cutOperands Connective.leading? (·.symbol.length) 0 0 false rest
      ([], (op, cut.1) :: cut.2) := by
  cases op <;> rfl

/-- A phrase that binds more tightly than connectives is not cut at any. -/
theorem Ok.cut_connectives {p : Phrase} (h : p.Ok) (hlevel : 2 ≤ p.level) (rest : List Char) :
    cutOperands Connective.leading? (·.symbol.length) 0 0 false (p.text ++ rest) =
      let cut := cutOperands Connective.leading? (·.symbol.length) 0 0 false rest
      (p.text ++ cut.1, cut.2) := by
  have hquiet {c : Char} (hc : c ∉ reserved) : c ∉ ['&', '|'] := fun hmem =>
    hc (Text.forall_mem_of_all (by decide) c hmem)
  refine h.cutOperands_text (fun c hc => leading?_connective_eq_none (hquiet hc))
    (leading?_connective_eq_none (by decide)) (fun op hop c hmem => ?_) rest
  have hle : 2 ≤ op.level := Nat.le_trans hlevel hop
  exact leading?_connective_eq_none
    (Operator.symbol_of_not_connective (Operator.not_connective hle) c hmem)

/-- A phrase that binds more tightly than comparisons is not cut at any. -/
theorem Ok.cut_comparisons {p : Phrase} (h : p.Ok) (hlevel : 3 ≤ p.level) (rest : List Char) :
    cutOperands Comparison.leading? (·.symbol.length) 0 0 false (p.text ++ rest) =
      let cut := cutOperands Comparison.leading? (·.symbol.length) 0 0 false rest
      (p.text ++ cut.1, cut.2) := by
  have hquiet {c : Char} (hc : c ∉ reserved) : c ∉ ['=', '!', '<', '>'] := fun hmem =>
    hc (Text.forall_mem_of_all (by decide) c hmem)
  refine h.cutOperands_text (fun c hc => leading?_comparison_eq_none (hquiet hc))
    (leading?_comparison_eq_none (by decide)) (fun op hop c hmem => ?_) rest
  have hle : 3 ≤ op.level := Nat.le_trans hlevel hop
  exact leading?_comparison_eq_none
    (Operator.symbol_of_not_comparison (Operator.not_comparison hle) c hmem)

/-! ## Comparisons -/

/-- No phrase begins with the character that would make a longer comparison of the one in
front of it. -/
theorem Ok.exists_cons {p : Phrase} (h : p.Ok) : ∃ c rest, p.text = c :: rest ∧ c ≠ '=' := by
  have blanks {front : List Char} (hfront : ∀ c ∈ front, Text.isBlank c = true) {c : Char}
      (hc : c ≠ '=') (rest : List Char) : ∃ d s, front ++ c :: rest = d :: s ∧ d ≠ '=' := by
    cases front with
    | nil => exact ⟨c, rest, rfl, hc⟩
    | cons d more =>
        refine ⟨d, more ++ c :: rest, rfl, ?_⟩
        rintro rfl
        exact absurd (hfront '=' List.mem_cons_self) (by decide)
  induction p with
  | operand front lexeme back =>
      obtain ⟨hfront, hlexeme, hback⟩ := h
      obtain ⟨c, rest, htext, -⟩ := hlexeme.ends.1
      have hc : c ≠ '=' := by
        rintro rfl
        rcases hlexeme.literal_or with ⟨held, rfl, -⟩ | hrun
        · exact absurd (List.cons.inj htext).1 (by decide)
        · refine hrun '=' ?_ (by decide)
          rw [htext]
          exact List.mem_cons_self
      rw [text, htext, List.append_assoc, List.cons_append]
      exact blanks hfront hc _
  | group front inner back =>
      rw [text, List.append_assoc, List.cons_append, List.cons_append]
      exact blanks h.1 (by decide) _
  | negation front a => exact blanks h.1 (by decide) _
  | joined op a b iha ihb =>
      obtain ⟨c, rest, htext, hc⟩ := iha h.1
      exact ⟨c, rest ++ (op.symbol.toList ++ b.text), by simp [text, htext], hc⟩

theorem cut_comparison (op : Comparison) {rest : List Char} (h : ∀ s, rest ≠ '=' :: s) :
    cutOperands Comparison.leading? (·.symbol.length) 0 0 false (op.symbol.toList ++ rest) =
      let cut := cutOperands Comparison.leading? (·.symbol.length) 0 0 false rest
      ([], (op, cut.1) :: cut.2) := by
  have hlt : Comparison.leading? ('<' :: rest) = some .lt := by
    unfold Comparison.leading?
    split <;> simp_all
  have hgt : Comparison.leading? ('>' :: rest) = some .gt := by
    unfold Comparison.leading?
    split <;> simp_all
  cases op with
  | eq | ne | le | ge => rfl
  | lt =>
      show cutOperands Comparison.leading? (·.symbol.length) 0 0 false ('<' :: rest) = _
      rw [cutOperands, if_pos rfl, hlt]
      rfl
  | gt =>
      show cutOperands Comparison.leading? (·.symbol.length) 0 0 false ('>' :: rest) = _
      rw [cutOperands, if_pos rfl, hgt]
      rfl

/-- The sides of a comparison. -/
theorem Ok.comparands_text {op : Comparison} {a b : Phrase} (h : (joined (.comparison op) a b).Ok) :
    comparands (joined (.comparison op) a b).text = (a.text, [(op, b.text)]) := by
  obtain ⟨ha, hb, hleft, hright⟩ := h
  obtain ⟨c, rest, htext, hc⟩ := hb.exists_cons
  have hcutB := hb.cut_comparisons hright []
  -- the symbol is not the first half of a longer one
  have hne : ∀ s, b.text ≠ '=' :: s := by
    intro s heq
    rw [htext] at heq
    exact hc (List.cons.inj heq).1
  have hcut := cut_comparison op hne
  rw [List.append_nil] at hcutB
  rw [comparands, text, List.append_assoc, ha.cut_comparisons hleft]
  simp only [Operator.symbol]
  rw [hcut, hcutB]
  simp [cutOperands]

/-- All comparisons of such a phrase are inside its groups. -/
theorem Ok.comparands_text_of_level {p : Phrase} (h : p.Ok) (hlevel : 3 ≤ p.level) :
    comparands p.text = (p.text, []) := by
  have hcut := h.cut_comparisons hlevel []
  rw [List.append_nil] at hcut
  rw [comparands, hcut]
  simp [cutOperands]

/-! ## Conjuncts -/

/-- The operands of the connectives outside the groups, in order. -/
def conjuncts : Phrase → Phrase × List (Connective × Phrase)
  | joined (.connective op) a b =>
    (a.conjuncts.1, a.conjuncts.2 ++ (op, b.conjuncts.1) :: b.conjuncts.2)
  | p => (p, [])

theorem conjuncts_of_level {p : Phrase} (h : 2 ≤ p.level) : p.conjuncts = (p, []) := by
  cases p with
  | operand | group | negation => rfl
  | joined op a b =>
      rcases op with op | op | op
      · rfl
      · rfl
      · cases op <;> exact absurd h (by simp [level, Operator.level])

/-- Induction along the connectives outside the groups. -/
theorem connective_induction {motive : Phrase → Prop}
    (tight : ∀ p : Phrase, 2 ≤ p.level → motive p)
    (joined : ∀ op a b, motive a → motive b → motive (joined (.connective op) a b)) (p : Phrase) :
    motive p := by
  induction p with
  | operand | group => exact tight _ (by omega : 2 ≤ 6)
  | negation => exact tight _ (by omega : 2 ≤ 5)
  | joined op a b iha ihb =>
      rcases op with op | op | op
      · exact tight _ (Nat.le_add_right 2 op.precedence)
      · exact tight _ (Nat.le_refl 2)
      · exact joined op a b iha ihb

/-- A property of phrases that operands inherit holds for all conjuncts. -/
theorem forall_conjuncts {motive : Phrase → Prop}
    (hjoined : ∀ op a b, motive (joined (.connective op) a b) → motive a ∧ motive b) {p : Phrase}
    (h : motive p) : motive p.conjuncts.1 ∧ ∀ o ∈ p.conjuncts.2, motive o.2 := by
  induction p using connective_induction with
  | tight p hlevel =>
      rw [conjuncts_of_level hlevel]
      exact ⟨h, by simp⟩
  | joined op a b iha ihb =>
      obtain ⟨ha, hb⟩ := hjoined op a b h
      obtain ⟨hfirstA, hmoreA⟩ := iha ha
      obtain ⟨hfirstB, hmoreB⟩ := ihb hb
      refine ⟨hfirstA, ?_⟩
      intro o hmem
      rcases List.mem_append.mp hmem with hmem | hmem
      · exact hmoreA o hmem
      · rcases List.mem_cons.mp hmem with rfl | hmem
        · exact hfirstB
        · exact hmoreB o hmem

/-- No conjunct is itself joined by a connective. -/
theorem two_le_level_conjuncts (p : Phrase) :
    2 ≤ p.conjuncts.1.level ∧ ∀ o ∈ p.conjuncts.2, 2 ≤ o.2.level := by
  induction p using connective_induction with
  | tight p hlevel =>
      rw [conjuncts_of_level hlevel]
      exact ⟨hlevel, by simp⟩
  | joined op a b iha ihb =>
      refine ⟨iha.1, ?_⟩
      intro o hmem
      rcases List.mem_append.mp hmem with hmem | hmem
      · exact iha.2 o hmem
      · rcases List.mem_cons.mp hmem with rfl | hmem
        · exact ihb.1
        · exact ihb.2 o hmem

/-- Cutting a text at its connectives, in front of a text that begins with one or is empty. -/
theorem Ok.cut_text {p : Phrase} (h : p.Ok) {rest : List Char}
    (hrest : (cutOperands Connective.leading? (·.symbol.length) 0 0 false rest).1 = []) :
    cutOperands Connective.leading? (·.symbol.length) 0 0 false (p.text ++ rest) =
      (p.conjuncts.1.text, p.conjuncts.2.map (fun o => (o.1, o.2.text)) ++
        (cutOperands Connective.leading? (·.symbol.length) 0 0 false rest).2) := by
  induction p using connective_induction generalizing rest with
  | tight p hlevel =>
      rw [h.cut_connectives hlevel, conjuncts_of_level hlevel]
      dsimp only
      rw [hrest, List.append_nil, List.map_nil, List.nil_append]
  | joined op a b iha ihb =>
      obtain ⟨ha, hb, -, -⟩ := h
      have happend : (joined (.connective op) a b).text ++ rest
          = a.text ++ (op.symbol.toList ++ (b.text ++ rest)) := by simp [text, Operator.symbol]
      -- the left operand stands in front of a connective, where its last piece ends
      have hcut := cut_connective op (b.text ++ rest)
      rw [happend, iha ha (by rw [hcut]), hcut, ihb hb hrest]
      simp [Phrase.conjuncts]

/-- **The conjuncts of a text are those of the phrase.** -/
theorem Ok.conjuncts_text {p : Phrase} (h : p.Ok) :
    Expr.conjuncts p.text
      = (p.conjuncts.1.text, p.conjuncts.2.map fun o => (o.1, o.2.text)) := by
  have hnil : (cutOperands Connective.leading? (·.symbol.length) 0 0 false []).1 = [] := rfl
  have hcut := h.cut_text hnil
  rw [List.append_nil] at hcut
  rw [Expr.conjuncts, hcut]
  simp [cutOperands]

end Phrase

/-! ## Truth values -/

/-- A value as a truth value, if it is one. -/
def truth? : Value → Option Bool
  | .bool b => some b
  | _ => none

namespace Phrase

/-- The truth value of a phrase, if its value is one. -/
def condition (scope : Scope) (p : Phrase) : Option Bool :=
  (p.value scope).bind truth?

/-- The truth values of operands, if all of them have one. -/
def conditions (scope : Scope) : List (Connective × Phrase) → Option (List (Connective × Bool))
  | [] => some []
  | (op, p) :: rest =>
    (p.condition scope).bind fun b => (conditions scope rest).map ((op, b) :: ·)

theorem conditions_append (scope : Scope) (ps qs : List (Connective × Phrase)) :
    conditions scope (ps ++ qs) =
      (conditions scope ps).bind fun bs => (conditions scope qs).map (bs ++ ·) := by
  induction ps with
  | nil => exact Option.map_id_apply.symm
  | cons o rest ih =>
      obtain ⟨op, p⟩ := o
      rw [List.cons_append, conditions, ih, conditions]
      cases p.condition scope with
      | none => rfl
      | some b =>
          cases conditions scope rest with
          | none => rfl
          | some bs => cases conditions scope qs <;> rfl

theorem condition_joined (scope : Scope) (op : Connective) (a b : Phrase) :
    (joined (.connective op) a b).condition scope =
      (a.condition scope).bind fun x => (b.condition scope).map fun y =>
        match op with
        | .and => x && y
        | .or => x || y := by
  -- no short circuit: a side without a value takes the whole value away
  unfold condition
  rw [value]
  cases a.value scope with
  | none => rfl
  | some x =>
      cases b.value scope with
      | none => cases x <;> rfl
      | some y => cases op <;> cases x <;> cases y <;> rfl

/-- Connectives give truth values and nothing else. -/
theorem value_joined_connective (scope : Scope) (op : Connective) (a b : Phrase) :
    (joined (.connective op) a b).value scope
      = ((joined (.connective op) a b).condition scope).map .bool := by
  unfold condition
  rw [value]
  cases a.value scope with
  | none => rfl
  | some x =>
      cases b.value scope with
      | none => rfl
      | some y => cases op <;> cases x <;> cases y <;> rfl

end Phrase

theorem joinConditions_or (earlier run : Bool) (operands : List (Connective × Bool)) :
    joinConditions earlier run operands = (earlier || joinConditions false run operands) := by
  induction operands generalizing earlier run with
  | nil => simp [joinConditions]
  | cons o rest ih =>
      obtain ⟨op, b⟩ := o
      cases op with
      | and => rw [joinConditions, joinConditions, ih]
      | or =>
          rw [joinConditions, joinConditions, ih, ih (false || run)]
          cases earlier <;> simp

theorem joinConditions_append_or (earlier run b : Bool) (xs ys : List (Connective × Bool)) :
    joinConditions earlier run (xs ++ (.or, b) :: ys)
      = (joinConditions earlier run xs || joinConditions false b ys) := by
  induction xs generalizing earlier run with
  | nil =>
      show joinConditions (earlier || run) b ys = (earlier || run || joinConditions false b ys)
      exact joinConditions_or _ _ _
  | cons o rest ih =>
      obtain ⟨op, c⟩ := o
      cases op <;> rw [List.cons_append, joinConditions, joinConditions, ih]

theorem joinConditions_append_and {xs : List (Connective × Bool)} (h : ∀ o ∈ xs, o.1 = .and)
    (run b : Bool) :
    joinConditions false run (xs ++ [(.and, b)]) = (joinConditions false run xs && b) := by
  induction xs generalizing run with
  | nil => simp [joinConditions]
  | cons o rest ih =>
      obtain ⟨op, c⟩ := o
      obtain rfl : op = .and := h _ List.mem_cons_self
      rw [List.cons_append, joinConditions, joinConditions,
        ih fun o hmem => h o (List.mem_cons_of_mem _ hmem)]

namespace Phrase

/-- Inside a conjunction there are no disjunctions. -/
theorem Ok.and_of_mem_conjuncts {p : Phrase} (h : p.Ok) (hlevel : 1 ≤ p.level) :
    ∀ o ∈ p.conjuncts.2, o.1 = .and := by
  induction p using connective_induction with
  | tight p htight => simp [conjuncts_of_level htight]
  | joined op a b iha ihb =>
      obtain ⟨ha, hb, hleft, hright⟩ := h
      cases op with
      | or => exact absurd hlevel (by simp [level, Operator.level])
      | and =>
          have hb : b.conjuncts = (b, []) := conjuncts_of_level hright
          intro o hmem
          rw [Phrase.conjuncts, hb] at hmem
          rcases List.mem_append.mp hmem with hmem | hmem
          · exact iha ha hleft o hmem
          · rw [List.mem_singleton.mp hmem]

theorem fst_of_conditions {scope : Scope} {ps : List (Connective × Phrase)}
    {bs : List (Connective × Bool)} (h : conditions scope ps = some bs) :
    bs.map (·.1) = ps.map (·.1) := by
  induction ps generalizing bs with
  | nil => rw [← Option.some.inj h]; rfl
  | cons o rest ih =>
      obtain ⟨b, -, h⟩ := Option.bind_eq_some_iff.mp h
      obtain ⟨more, hmore, rfl⟩ := Option.map_eq_some_iff.mp h
      rw [List.map_cons, List.map_cons, ih hmore]

/-- **Joining the conjuncts gives the truth value of the phrase.** -/
theorem Ok.condition_conjuncts {p : Phrase} (h : p.Ok) (scope : Scope) :
    ((p.conjuncts.1.condition scope).bind fun b =>
      (conditions scope p.conjuncts.2).map (joinConditions false b)) = p.condition scope := by
  induction p using connective_induction with
  | tight p hlevel =>
      rw [conjuncts_of_level hlevel]
      cases p.condition scope <;> simp [conditions, joinConditions]
  | joined op a b iha ihb =>
      obtain ⟨ha, hb, hleft, hright⟩ := h
      rw [condition_joined, ← iha ha, ← ihb hb, Phrase.conjuncts, conditions_append]
      cases hx : a.conjuncts.1.condition scope with
      | none => rfl
      | some x =>
          cases hxs : conditions scope a.conjuncts.2 with
          | none => simp
          | some xs =>
              cases op with
              | or =>
                  cases hy : b.conjuncts.1.condition scope with
                  | none => simp [conditions, hy]
                  | some y =>
                      cases hys : conditions scope b.conjuncts.2 with
                      | none => simp [conditions, hy, hys]
                      | some ys => simp [conditions, hy, hys, joinConditions_append_or]
              | and =>
                  -- the right operand of a conjunction is one conjunct
                  have hxsAnd : ∀ o ∈ xs, o.1 = .and := by
                    intro o hmem
                    have hfst : o.1 ∈ a.conjuncts.2.map (·.1) := by
                      rw [← fst_of_conditions hxs]
                      exact List.mem_map_of_mem hmem
                    obtain ⟨o', hmem', heq⟩ := List.mem_map.mp hfst
                    rw [← heq]
                    exact ha.and_of_mem_conjuncts hleft o' hmem'
                  have hbConjuncts : b.conjuncts = (b, []) := conjuncts_of_level hright
                  rw [hbConjuncts]
                  cases hy : b.condition scope with
                  | none => simp [conditions, hy]
                  | some y =>
                      simp [conditions, hy, joinConditions, joinConditions_append_and hxsAnd]

end Phrase

end Flowchart.Expr
