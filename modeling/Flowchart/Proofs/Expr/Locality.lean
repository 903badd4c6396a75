import Flowchart.Proofs.Expr.Slots

/-!
# Evaluation depends only on the names in the text

Two scopes that give the same values to the names of a text give the same result to
evaluating it, value or error (`evaluate_congr`).

The text that is evaluated in the end is not the text that was written: groups have
become slots. But its names are names that were written, or slots in range, and what a
slot stands for is the value of a group, which is the same in both scopes. So scopes
that agree on the names of a text still agree when the slots are put in front, on the
names of the flat text (`Agree.withSlots`).
-/

namespace Flowchart.Expr

/-- The two scopes give the same values to the names of the text. -/
def Agree (s s' : Scope) (text : List Char) : Prop :=
  ∀ name ∈ names text, s (String.ofList name) = s' (String.ofList name)

/-- An evaluator that asks about the names of a text only. -/
def Local (eval : Evaluator) : Prop :=
  ∀ text s s', Agree s s' text → eval text s = eval text s'

section Agree

variable {s s' : Scope} {a b text : List Char} {c : Char}

theorem Agree.of_subset (h : Agree s s' text) (hsub : names a ⊆ names text) : Agree s s' a :=
  fun name hmem => h name (hsub hmem)

theorem agree_append_cons (hc : endsName c = true) :
    Agree s s' (a ++ c :: b) ↔ Agree s s' a ∧ Agree s s' b := by
  unfold Agree
  rw [names_append_cons hc]
  constructor
  · exact fun h => ⟨fun name hmem => h name (List.mem_append_left _ hmem),
      fun name hmem => h name (List.mem_append_right _ hmem)⟩
  · rintro ⟨ha, hb⟩ name hmem
    rcases List.mem_append.mp hmem with hmem | hmem
    · exact ha name hmem
    · exact hb name hmem

@[simp]
theorem agree_trim : Agree s s' (Text.trim text) ↔ Agree s s' text := by
  rw [Agree, names_trim, Agree]

@[simp]
theorem agree_unwrap : Agree s s' (unwrap text) ↔ Agree s s' text := by
  rw [Agree, names_unwrap, Agree]

end Agree

/-! ## Tokens -/

/-- The name that the meaning of a lexeme is looked up by. -/
def Lexeme.name? : Lexeme → Option (List Char)
  | word text => some text
  | slot name => some name
  | _ => none

theorem names_dropWhile_isNumberChar (text : List Char) :
    names (text.dropWhile isNumberChar) = names text := by
  induction text with
  | nil => rfl
  | cons c rest ih =>
      by_cases hc : isNumberChar c = true
      · rw [List.dropWhile_cons_of_pos hc, ih, names]
        simp [hc]
      · rw [List.dropWhile_cons_of_neg hc]

/-- Scanning finds no names but those of the text. -/
theorem mem_names_of_mem_scan {text name : List Char} {lexeme : Lexeme}
    (hmem : lexeme ∈ Lexeme.scan text) (hname : lexeme.name? = some name) :
    name ∈ names text := by
  fun_induction Lexeme.scan text with
  | case1 => exact absurd hmem (by simp)
  | case2 c rest hblank ih => rw [names_cons (endsName_of_isBlank hblank)]; exact ih hmem
  | case3 c rest hblank hnumber ih =>
      rw [names, if_neg hblank, if_pos hnumber]
      rcases List.mem_cons.mp hmem with rfl | hmem
      · exact absurd hname (by simp [Lexeme.name?])
      · rw [← names_dropWhile_isNumberChar]
        exact ih hmem
  | case4 rest hblank hnumber ih =>
      rw [names, if_neg hblank, if_neg hnumber, if_pos rfl]
      rcases List.mem_cons.mp hmem with rfl | hmem
      · exact Option.some.inj hname ▸ List.mem_cons_self
      · exact List.mem_cons_of_mem _ (ih hmem)
  | case5 c rest hblank hnumber hdollar hstart ih =>
      rw [names, if_neg hblank, if_neg hnumber, if_neg hdollar, if_pos hstart]
      rcases List.mem_cons.mp hmem with rfl | hmem
      · exact Option.some.inj hname ▸ List.mem_cons_self
      · exact List.mem_cons_of_mem _ (ih hmem)
  | case6 rest =>
      obtain rfl := List.mem_singleton.mp hmem
      exact absurd hname (by simp [Lexeme.name?])
  | case7 rest quote beyond hcut _ _ _ _ ih =>
      have hquote : endsName '"' = true := by decide
      obtain ⟨-, hparts⟩ := cut_literal hcut
      rw [names_cons hquote, hparts, names_append_cons hquote]
      rcases List.mem_cons.mp hmem with rfl | hmem
      · exact absurd hname (by simp [Lexeme.name?])
      · exact List.mem_append_right _ (ih hmem)
  | case8 c rest hblank hnumber hdollar hstart hquote ih =>
      rw [names, if_neg hblank, if_neg hnumber, if_neg hdollar, if_neg hstart]
      rcases List.mem_cons.mp hmem with rfl | hmem
      · refine absurd hname ?_
        unfold Lexeme.ofChar
        split
        · simp [Lexeme.name?]
        · split
          · simp [Lexeme.name?]
          · split <;> simp [Lexeme.name?]
      · exact ih hmem

theorem ofLexeme_congr {s s' : Scope} {lexeme : Lexeme}
    (h : ∀ name, lexeme.name? = some name → s (String.ofList name) = s' (String.ofList name))
    (whole : List Char) (afterOperand : Bool) :
    Token.ofLexeme s whole afterOperand lexeme = Token.ofLexeme s' whole afterOperand lexeme := by
  cases lexeme with
  | slot name => simp only [Token.ofLexeme, h name rfl]
  | word text => simp only [Token.ofLexeme, h text rfl]
  | number _ | literal _ | unterminated | operator _ | leftParen | rightParen | unknown _ => rfl

theorem ofLexemes_congr {s s' : Scope} {lexemes : List Lexeme}
    (h : ∀ lexeme ∈ lexemes, ∀ name, lexeme.name? = some name →
      s (String.ofList name) = s' (String.ofList name))
    (whole : List Char) (afterOperand : Bool) :
    Token.ofLexemes s whole afterOperand lexemes
      = Token.ofLexemes s' whole afterOperand lexemes := by
  induction lexemes generalizing afterOperand with
  | nil => rfl
  | cons lexeme rest ih =>
      rw [Token.ofLexemes, Token.ofLexemes, ofLexeme_congr (h lexeme (by simp))]
      have hrest := ih fun other hmem => h other (List.mem_cons_of_mem _ hmem)
      simp only [hrest]

theorem evaluateArithmetic_congr : Local evaluateArithmetic := by
  intro text s s' h
  have hread : Token.read text s = Token.read text s' :=
    ofLexemes_congr (fun lexeme hmem name hname => h name (mem_names_of_mem_scan hmem hname))
      text false
  rw [evaluateArithmetic, evaluateArithmetic, hread]

/-! ## Groups -/

/-- Scopes that agree on a name still do once the same slots are put in front. -/
theorem withSlots_congr {s s' : Scope} {name : String} (values more : List Value)
    (h : withSlots values s name = withSlots values s' name) :
    withSlots (values ++ more) s name = withSlots (values ++ more) s' name := by
  unfold withSlots at h ⊢
  cases hslot : slotIndex? name with
  | none =>
      rw [hslot] at h
      exact h
  | some n =>
      rw [hslot] at h
      simp only [Option.bind_some] at h ⊢
      cases hmore : (values ++ more)[n]? with
      | some value => rfl
      | none =>
          -- out of range for all the slots is out of range for the first ones
          have hnone : values[n]? = none := by
            rw [List.getElem?_eq_none_iff] at hmore ⊢
            rw [List.length_append] at hmore
            omega
          rw [hnone] at h
          exact h

theorem withSlots_nil (outer : Scope) : withSlots [] outer = outer := by
  funext name
  unfold withSlots
  cases slotIndex? name <;> rfl

/-- Scopes that agree on what was written agree on a text in which the given values have
become slots. -/
theorem Agree.withSlots {s s' : Scope} {written text : List Char} {values : List Value}
    (h : Agree s s' written) (hslots : Slotted written values text) :
    Agree (withSlots values s) (withSlots values s') text := by
  intro name hmem
  rcases hslots name hmem with hname | ⟨n, hn, rfl⟩
  · have hagree : Expr.withSlots [] s (String.ofList name)
        = Expr.withSlots [] s' (String.ofList name) := by
      rw [withSlots_nil, withSlots_nil, h name hname]
    exact withSlots_congr [] values hagree
  · have hslot := List.getElem?_eq_getElem hn
    rw [withSlots_slotName hslot, withSlots_slotName hslot]

variable {eval : Evaluator} {s s' : Scope}

/-- One pass over the groups of the end of a text gives the same in both scopes. -/
theorem resolveFrom_congr (hlocal : Local eval) (whole : List Char) (inside : Bool)
    {text : List Char} (h : ∀ a b, text = a ++ '(' :: b → Agree s s' b) :
    resolveFrom eval s whole inside text = resolveFrom eval s' whole inside text := by
  induction text generalizing inside with
  | nil => rfl
  | cons c rest ih =>
      have hrest := ih (if c = '"' then !inside else inside) fun a b heq =>
        h (c :: a) b (by rw [heq, List.cons_append])
      rw [resolveFrom, resolveFrom, ← hrest]
      cases hp : resolveFrom eval s whole (if c = '"' then !inside else inside) rest with
      | error e => rfl
      | ok p =>
          dsimp only
          by_cases hopen : (!inside && decide (c = '(')) = true
          -- the stretch is a text of its own, so the two scopes give it one value
          · obtain rfl : c = '(' := by simpa using (Bool.and_eq_true_iff.mp hopen).2
            have hafter : Agree s s' rest := h [] rest rfl
            have hgroup := hlocal p.stretch _ _ (hafter.withSlots (names_resolveFrom [] hp).1)
            simp only [Pending.open?, hgroup]
          · rw [if_neg hopen, if_neg hopen]

theorem resolveGroups_congr (hlocal : Local eval) {text : List Char} (h : Agree s s' text) :
    resolveGroups eval text s = resolveGroups eval text s' ∧
      ∀ flat, resolveGroups eval text s = .ok flat →
        Agree (withSlots flat.values s) (withSlots flat.values s') flat.text := by
  refine ⟨?_, fun flat hflat => h.withSlots (names_resolveGroups hflat)⟩
  have hafter : ∀ a b, text = a ++ '(' :: b → Agree s s' b := by
    rintro a b rfl
    exact ((agree_append_cons endsName_paren.1).mp h).2
  rw [resolveGroups, resolveGroups, resolveFrom_congr hlocal text false hafter]

/-! ## Operands -/

theorem Connective.exists_of_leading? {text : List Char} {op : Connective}
    (h : Connective.leading? text = some op) : ∃ rest, text = op.symbol.toList ++ rest := by
  unfold Connective.leading? at h
  split at h <;> cases h
  · exact ⟨_, rfl⟩
  · exact ⟨_, rfl⟩

theorem Comparison.exists_of_leading? {text : List Char} {op : Comparison}
    (h : Comparison.leading? text = some op) : ∃ rest, text = op.symbol.toList ++ rest := by
  unfold Comparison.leading? at h
  split at h <;> cases h <;> exact ⟨_, rfl⟩

/-- A family of operators whose characters end names. -/
structure Separates {α : Type} (leading? : List Char → Option α) (width : α → Nat) : Prop where
  endsName : ∀ {text op}, leading? text = some op → ∀ c ∈ text.take (width op), endsName c = true
  pos : ∀ op, 0 < width op

theorem take_length_symbol (symbol : String) (rest : List Char) :
    (symbol.toList ++ rest).take symbol.length = symbol.toList := by
  rw [← String.length_toList, List.take_left]

theorem separates_connective : Separates Connective.leading? (·.symbol.length) where
  pos op := by cases op <;> decide
  endsName {text op} h c hmem := by
    obtain ⟨rest, rfl⟩ := Connective.exists_of_leading? h
    rw [take_length_symbol] at hmem
    have hneutral : ∀ op : Connective, op.symbol.toList.all Expr.endsName = true := by
      intro op
      cases op <;> decide
    exact List.all_eq_true.mp (hneutral op) c hmem

theorem separates_comparison : Separates Comparison.leading? (·.symbol.length) where
  pos op := by cases op <;> decide
  endsName {text op} h c hmem := by
    obtain ⟨rest, rfl⟩ := Comparison.exists_of_leading? h
    rw [take_length_symbol] at hmem
    have hneutral : ∀ op : Comparison, op.symbol.toList.all Expr.endsName = true := by
      intro op
      cases op <;> decide
    exact List.all_eq_true.mp (hneutral op) c hmem

theorem names_append_neutral {skipped : List Char} (h : ∀ c ∈ skipped, endsName c = true)
    (hne : skipped ≠ []) (a b : List Char) : names (a ++ skipped ++ b) = names a ++ names b := by
  induction skipped generalizing a with
  | nil => exact absurd rfl hne
  | cons c rest ih =>
      have hc := h c (by simp)
      cases rest with
      | nil => rw [List.append_assoc, List.singleton_append, names_append_cons hc]
      | cons d more =>
          have hih := ih (fun e hmem => h e (List.mem_cons_of_mem _ hmem)) (by simp) (a ++ [c])
          rw [List.append_assoc a [c], List.singleton_append] at hih
          rw [hih, names_append_singleton hc]

/-- The names of the operands are names of the text. The text `front` is what stands
before the part that is being cut, `skip` the characters that belong to an operator. -/
theorem names_cutOperands {α : Type} {leading? : List Char → Option α} {width : α → Nat}
    (hsep : Separates leading? width) (skip depth : Nat) (inside : Bool)
    (text front : List Char) :
    names (front ++ (cutOperands leading? width skip depth inside text).1)
        ⊆ names (front ++ text.drop skip) ∧
      ∀ operand ∈ (cutOperands leading? width skip depth inside text).2,
        names operand.2 ⊆ names (front ++ text.drop skip) := by
  induction text generalizing skip depth inside front with
  | nil => simp [cutOperands]
  | cons c rest ih =>
      cases skip with
      | succ skip => exact ih skip depth inside front
      | zero =>
          -- where nothing is cut, the character joins what stands before
          have keep (depth : Nat) (inside : Bool) :
              names (front ++ (ahead c (cutOperands leading? width 0 depth inside rest)).1)
                  ⊆ names (front ++ c :: rest) ∧
                ∀ operand ∈ (ahead c (cutOperands leading? width 0 depth inside rest)).2,
                  names operand.2 ⊆ names (front ++ c :: rest) := by
            have hih := ih 0 depth inside (front ++ [c])
            simp only [List.append_assoc, List.singleton_append, List.drop_zero] at hih
            exact hih
          rw [cutOperands, List.drop_zero]
          split
          · exact keep _ _
          split
          · exact keep _ _
          split
          · exact keep _ _
          split
          · exact keep _ _
          split
          · next op hop =>
            have hlead : leading? (c :: rest) = some op := by
              by_cases hdepth : depth = 0
              · rwa [if_pos hdepth] at hop
              · rw [if_neg hdepth] at hop
                exact absurd hop (by simp)
            -- no symbol of an operator is part of a name, so the cut goes through none
            obtain ⟨extra, hextra⟩ := Nat.exists_eq_add_of_lt (hsep.pos op)
            rw [Nat.zero_add] at hextra
            have hneutral := hsep.endsName hlead
            rw [hextra, List.take_succ_cons] at hneutral
            have hwidth : width op - 1 = extra := by omega
            have hsplit : names (front ++ c :: rest) = names front ++ names (rest.drop extra) := by
              have hcut := names_append_neutral hneutral (by simp) front (rest.drop extra)
              rwa [List.append_assoc, List.cons_append, List.take_append_drop] at hcut
            obtain ⟨hfirst, hmore⟩ := ih extra depth inside []
            rw [hwidth, hsplit, List.append_nil]
            refine ⟨List.subset_append_left _ _, ?_⟩
            intro operand hmem
            rcases List.mem_cons.mp hmem with rfl | hmem
            · exact List.Subset.trans hfirst (List.subset_append_right _ _)
            · exact List.Subset.trans (hmore operand hmem) (List.subset_append_right _ _)
          · exact keep _ _

/-! ## Any text -/

theorem conditionWith_congr (hlocal : Local eval) {text : List Char} (h : Agree s s' text) :
    conditionWith eval text s = conditionWith eval text s' := by
  rw [conditionWith, conditionWith, hlocal text s s' h]

theorem conditionsWith_congr (hlocal : Local eval) {operands : List (Connective × List Char)}
    (h : ∀ operand ∈ operands, Agree s s' operand.2) :
    conditionsWith eval s operands = conditionsWith eval s' operands := by
  induction operands with
  | nil => rfl
  | cons operand rest ih =>
      rw [conditionsWith, conditionsWith,
        conditionWith_congr hlocal (h operand List.mem_cons_self),
        ih fun other hmem => h other (List.mem_cons_of_mem _ hmem)]

/-- The operands of a text ask about the names of the text only. -/
theorem agree_operands {α : Type} {leading? : List Char → Option α} {width : α → Nat}
    (hsep : Separates leading? width) {text : List Char} (h : Agree s s' text) :
    Agree s s' (cutOperands leading? width 0 0 false text).1 ∧
      ∀ operand ∈ (cutOperands leading? width 0 0 false text).2, Agree s s' operand.2 := by
  obtain ⟨hfirst, hmore⟩ := names_cutOperands hsep 0 0 false text []
  exact ⟨h.of_subset hfirst, fun operand hmem => h.of_subset (hmore operand hmem)⟩

theorem evaluateLogical_congr (hlocal : Local eval) {text : List Char} (h : Agree s s' text) :
    evaluateLogical eval text s = evaluateLogical eval text s' := by
  obtain ⟨heq, hflat⟩ := resolveGroups_congr hlocal h
  unfold evaluateLogical
  rw [← heq]
  cases hresolve : resolveGroups eval text s with
  | error e => rfl
  | ok flat =>
      obtain ⟨hfirst, hmore⟩ := agree_operands separates_connective (hflat flat hresolve)
      have hbegin := conditionWith_congr hlocal (agree_trim.mpr hfirst)
      have htrimmed : ∀ operand ∈ (conjuncts flat.text).2.map
          (fun operand => (operand.1, Text.trim operand.2)),
          Agree (withSlots flat.values s) (withSlots flat.values s') operand.2 := by
        intro operand hmem
        obtain ⟨whole, hwhole, rfl⟩ := List.mem_map.mp hmem
        exact agree_trim.mpr (hmore whole hwhole)
      have hrest := conditionsWith_congr hlocal htrimmed
      simp only [conjuncts] at hbegin hrest ⊢
      rw [hbegin, hrest]

theorem evaluateComparison_congr (hlocal : Local eval) {text : List Char}
    (h : Agree s s' text) :
    evaluateComparison eval text s = evaluateComparison eval text s' := by
  obtain ⟨heq, hflat⟩ := resolveGroups_congr hlocal h
  obtain ⟨hfirst, hmore⟩ := agree_operands separates_comparison h
  unfold evaluateComparison
  split
  · rfl
  · unfold comparands
    split
    · rw [← heq]
      cases hresolve : resolveGroups eval text s with
      | error e => rfl
      | ok flat => exact hlocal flat.text _ _ (hflat flat hresolve)
    · next left op right hcut =>
      rw [hcut] at hfirst hmore
      have hleft := hlocal (Text.trim left) s s' (agree_trim.mpr hfirst)
      have hright := hlocal (Text.trim right) s s' (agree_trim.mpr (hmore _ List.mem_cons_self))
      simp only [hleft, hright]
    · rfl

theorem evaluateBody_congr (hlocal : Local eval) : Local (evaluateBody eval) := by
  intro text s s' h
  have hinner : Agree s s' (unwrap (Text.trim text)) := by
    rwa [agree_unwrap, agree_trim]
  have hlogical := evaluateLogical_congr hlocal hinner
  have hcomparison := evaluateComparison_congr hlocal hinner
  have harithmetic := evaluateArithmetic_congr _ _ _ hinner
  unfold evaluateBody
  simp only [hlogical, hcomparison, harithmetic]

theorem evaluateWithin_congr {deeper : Evaluator} (hdeeper : Local deeper) (depth : Nat) :
    Local (evaluateWithin deeper depth) := by
  induction depth with
  | zero => exact hdeeper
  | succ depth ih => exact evaluateBody_congr ih

/-- **Evaluation is local.** It asks about the names in the text only. -/
theorem evaluate_congr : Local evaluate :=
  fun text => evaluateWithin_congr (fun _ _ _ _ => rfl) (depthBound text) text

theorem evaluateCondition_congr {text : List Char} (h : Agree s s' text) :
    evaluateCondition text s = evaluateCondition text s' :=
  conditionWith_congr evaluate_congr h

/-- Scopes that agree on every part of a text agree on its names. -/
theorem agree_of_infix {text : List Char}
    (h : ∀ name, name <:+: text → s (String.ofList name) = s' (String.ofList name)) :
    Agree s s' text :=
  fun name hmem => h name (infix_of_mem_names hmem)

end Flowchart.Expr
