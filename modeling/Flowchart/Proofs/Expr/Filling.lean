import Flowchart.Proofs.Expr.Flattening
import Flowchart.Proofs.Expr.Position
import Mathlib.Logic.Function.Basic

/-!
# A word in the place of a group

Where a text has a group, its phrase has one (`Phrase.Ok.exists_fills`), and a word can be
put in the place of either. This keeps the phrase well-formed and its level, and the
operators of the group are gone from it (`Fills.connected_eq`). In a scope in which the word
stands for the value of the group, the value is the same (`Fills.value_eq`): this is the
substitution lemma of the language.
-/

namespace Flowchart.Expr

namespace Phrase

/-! ## Phrases with a word put in -/

/-- The second phrase is the inside of a group of the first one, and the third is the first
one with the word in the place of this group. -/
inductive Fills (word : List Char) : Phrase → Phrase → Phrase → Prop where
  | here (front : List Char) (inner : Phrase) (back : List Char) :
      Fills word (group front inner back) inner
        (operand (front ++ [' ']) (.word word) (' ' :: back))
  | group (front : List Char) {a inner a' : Phrase} (back : List Char) :
      Fills word a inner a' → Fills word (group front a back) inner (group front a' back)
  | negation (front : List Char) {a inner a' : Phrase} :
      Fills word a inner a' → Fills word (negation front a) inner (negation front a')
  | left (op : Operator) {a inner a' : Phrase} (b : Phrase) :
      Fills word a inner a' → Fills word (joined op a b) inner (joined op a' b)
  | right (op : Operator) (a : Phrase) {b inner b' : Phrase} :
      Fills word b inner b' → Fills word (joined op a b) inner (joined op a b')

namespace Fills

variable {word : List Char} {p inner q : Phrase}

theorem level_eq (h : Fills word p inner q) : q.level = p.level := by
  cases h <;> rfl

theorem ok (h : Fills word p inner q) (hword : (Lexeme.word word).IsOperand) (hp : p.Ok) :
    inner.Ok ∧ q.Ok := by
  induction h with
  | here front inner back =>
      obtain ⟨hfront, hinner, hback⟩ := hp
      have hspace : Text.isBlank ' ' = true := by decide
      refine ⟨hinner, fun c hmem => ?_, hword, fun c hmem => ?_⟩
      · rcases List.mem_append.mp hmem with hmem | hmem
        · exact hfront c hmem
        · rwa [List.mem_singleton.mp hmem]
      · rcases List.mem_cons.mp hmem with rfl | hmem
        · exact hspace
        · exact hback c hmem
  | group front back _ ih =>
      obtain ⟨hfront, ha, hback⟩ := hp
      exact ⟨(ih ha).1, hfront, (ih ha).2, hback⟩
  | negation front h ih =>
      obtain ⟨hfront, ha, hlevel⟩ := hp
      exact ⟨(ih ha).1, hfront, (ih ha).2, by rwa [h.level_eq]⟩
  | left op b h ih =>
      obtain ⟨ha, hb, hleft, hright⟩ := hp
      exact ⟨(ih ha).1, (ih ha).2, hb, by rwa [h.level_eq], hright⟩
  | right op a h ih =>
      obtain ⟨ha, hb, hleft, hright⟩ := hp
      exact ⟨(ih hb).1, ha, (ih hb).2, hleft, by rwa [h.level_eq]⟩

theorem below_of (h : Fills word p inner q) {n : Nat} (hp : p.Below n) :
    inner.Below n ∧ q.Below n := by
  induction h with
  | here front inner back => exact ⟨hp, fun k hk => by cases hk⟩
  | group front back _ ih => exact ih hp
  | negation front _ ih => exact ih hp
  | left op b _ ih => exact ⟨(ih hp.1).1, (ih hp.1).2, hp.2⟩
  | right op a _ ih => exact ⟨(ih hp.2).1, hp.1, (ih hp.2).2⟩

/-- The operators are those of the group and those that are left. -/
theorem connected_eq (h : Fills word p inner q) :
    p.connected = (inner.connected || q.connected) := by
  have hgroup (front : List Char) (a : Phrase) (back : List Char) :
      (Phrase.group front a back).connected = a.connected := rfl
  have hnegation (front : List Char) (a : Phrase) :
      (Phrase.negation front a).connected = a.connected := rfl
  have hjoined (op : Operator) (a b : Phrase) :
      (joined op a b).connected = (op.isConnective || (a.connected || b.connected)) := by
    simp [connected, operators]
  induction h with
  | here front inner back =>
      rw [hgroup, show (operand _ (.word word) _).connected = false from rfl, Bool.or_false]
  | group front back _ ih => rw [hgroup, hgroup, ih]
  | negation front _ ih => rw [hnegation, hnegation, ih]
  | left op b _ ih => rw [hjoined, hjoined, ih]; ac_rfl
  | right op a _ ih => rw [hjoined, hjoined, ih]; ac_rfl

end Fills

/-! ## Values -/

section Parts

variable (front : List Char) (op : Operator) (a b : Phrase) (back : List Char)

theorem text_infix_group : a.text <:+: (group front a back).text :=
  ⟨front ++ ['('], ')' :: back, by simp [text]⟩

theorem text_infix_negation : a.text <:+: (negation front a).text :=
  ⟨front ++ ['-'], [], by simp [text]⟩

theorem text_infix_left : a.text <:+: (joined op a b).text :=
  ⟨[], op.symbol.toList ++ b.text, by simp [text]⟩

theorem text_infix_right : b.text <:+: (joined op a b).text :=
  ⟨a.text ++ op.symbol.toList, [], by simp [text]⟩

end Parts

/-- The value depends on the names in the text. -/
theorem Ok.value_congr {p : Phrase} (h : p.Ok) {s s' : Scope}
    (hagree : ∀ name, name <:+: p.text → s (String.ofList name) = s' (String.ofList name)) :
    p.value s = p.value s' := by
  induction p with
  | operand front lexeme back =>
      have hlexeme : s (String.ofList lexeme.text) = s' (String.ofList lexeme.text) :=
        hagree _ (List.infix_append front lexeme.text back)
      cases lexeme with
      | slot name => exact hlexeme
      | word name =>
          have hname : s (String.ofList name) = s' (String.ofList name) := hlexeme
          simp only [value, Lexeme.value?, hname]
      | number | literal | unterminated | operator | leftParen | rightParen | unknown => rfl
  | group front inner back ih =>
      exact ih h.2.1 fun name hname => hagree name (hname.trans (text_infix_group front inner back))
  | negation front a ih =>
      have ha := ih h.2.1 fun name hname => hagree name (hname.trans (text_infix_negation front a))
      rw [value, ha, value]
  | joined op a b iha ihb =>
      have ha := iha h.1 fun name hname => hagree name (hname.trans (text_infix_left op a b))
      have hb := ihb h.2.1 fun name hname => hagree name (hname.trans (text_infix_right op a b))
      rw [value, ha, hb, value]

/-- A phrase without the word is worth the same whatever the word stands for. -/
theorem Ok.value_update {p : Phrase} (h : p.Ok) {word : List Char} (hfresh : ¬word <:+: p.text)
    (scope : Scope) (value : Option Value) :
    p.value (Function.update scope (String.ofList word) value) = p.value scope := by
  refine h.value_congr fun name hname => Function.update_of_ne ?_ _ _
  intro heq
  rw [String.ofList_injective heq] at hname
  exact hfresh hname

/-- **Substitution.** Where the word stands for the value of the group, nothing changes. -/
theorem Fills.value_eq {word : List Char} {p inner q : Phrase} (h : Fills word p inner q)
    (hp : p.Ok) (hword : Value.boolOfWord? word = none) (hfresh : ¬word <:+: p.text)
    {scope : Scope} {w : Value} (hinner : inner.value scope = some w) :
    q.value (Function.update scope (String.ofList word) (some w)) = p.value scope := by
  -- a part does not have the word either
  have part {a p : Phrase} (ha : a.text <:+: p.text) (hfresh : ¬word <:+: p.text) :
      ¬word <:+: a.text := fun hfound => hfresh (hfound.trans ha)
  induction h with
  | here front inner back => simp [value, Lexeme.value?, hword, hinner]
  | @group front a inner a' back _ ih =>
      exact ih hp.2.1 (part (text_infix_group front a back) hfresh) hinner
  | @negation front a inner a' _ ih =>
      have ha := ih hp.2.1 (part (text_infix_negation front a) hfresh) hinner
      rw [value, ha, value]
  | @left op a inner a' b _ ih =>
      have ha := ih hp.1 (part (text_infix_left op a b) hfresh) hinner
      have hb := part (text_infix_right op a b) hfresh
      rw [value, ha, hp.2.1.value_update hb, value]
  | @right op a b inner b' _ ih =>
      have hb := ih hp.2.1 (part (text_infix_right op a b) hfresh) hinner
      have ha := part (text_infix_left op a b) hfresh
      rw [value, hb, hp.1.value_update ha, value]

/-! ## Finding the group -/

/-- **A group of the text is a group of the phrase.** -/
theorem Ok.exists_fills {p : Phrase} (h : p.Ok) (word : List Char)
    {before held after : List Char} (hinside : insideAfter false before = false)
    (hheld : Balanced (fun _ => True) held) (htext : p.text = grouped before held after) :
    ∃ inner q, Fills word p inner q ∧ inner.text = held ∧ q.text = filled before word after := by
  induction p generalizing before after with
  | operand front lexeme back =>
      have hopenings := h.openings_text
      rw [htext, groups] at hopenings
      exact absurd hopenings (Nat.ne_of_gt (openings_grouped hinside))
  | group front inner back ih =>
      obtain ⟨hfront, hinner, hback⟩ := h
      have hparts : front ++ '(' :: (inner.text ++ ')' :: back) = grouped before held after := by
        rw [← htext]
        simp [text]
      obtain ⟨start, rfl, hstart, hrest⟩ :=
        exists_grouped_of_run (outside_of_blanks hfront) hheld hinside hparts
      cases start with
      | nil =>
          -- two balanced texts that end at one parenthesis are the same
          have hcut := hinner.balanced_any.cutGroup_close back
          rw [(List.cons.inj hrest).2, hheld.cutGroup_close] at hcut
          obtain ⟨rfl, rfl⟩ := Prod.mk.inj (Option.some.inj hcut)
          exact ⟨inner, _, .here front inner after, rfl, by simp [text, filled, Lexeme.text]⟩
      | cons d start =>
          obtain ⟨hd, hinside'⟩ := List.cons.inj hrest
          rw [insideAfter, ← hd, if_neg (by decide)] at hstart
          rcases hinner.balanced_any.locate hheld hstart hinside' with
            ⟨rest, hrest', rfl⟩ | ⟨beyond, -, -, hbeyond⟩
          · obtain ⟨inside, q, hfills, hheld', hq⟩ := ih hinner hstart hrest'
            refine ⟨inside, _, hfills.group front back, hheld', ?_⟩
            rw [text, hq, ← hd]
            simp [filled]
          · have hmem : '(' ∈ ')' :: back := hbeyond ▸ mem_grouped beyond held after
            rcases List.mem_cons.mp hmem with hparen | hmem
            · exact absurd hparen (by decide)
            · exact absurd rfl (outside_of_blanks hback '(' hmem).2.1
  | negation front a ih =>
      obtain ⟨hfront, ha, -⟩ := h
      have hrun : ∀ c ∈ front ++ ['-'], c ≠ '"' ∧ c ≠ '(' ∧ c ≠ ')' := by
        intro c hmem
        rcases List.mem_append.mp hmem with hmem | hmem
        · exact outside_of_blanks hfront c hmem
        · rw [List.mem_singleton.mp hmem]
          decide
      have hparts : front ++ ['-'] ++ a.text = grouped before held after := by
        rw [← htext]
        simp [text]
      obtain ⟨start, rfl, hstart, hrest⟩ := exists_grouped_of_run hrun hheld hinside hparts
      obtain ⟨inner, q, hfills, hheld', hq⟩ := ih ha hstart hrest
      exact ⟨inner, _, hfills.negation front, hheld', by simp [text, hq, filled]⟩
  | joined op a b iha ihb =>
      obtain ⟨ha, hb, -, -⟩ := h
      rw [text, List.append_assoc] at htext
      rcases ha.balanced_any.locate hheld hinside htext with
        ⟨rest, hrest, rfl⟩ | ⟨start, rfl, hstart, hrest⟩
      · obtain ⟨inner, q, hfills, hheld', hq⟩ := iha ha hinside hrest
        exact ⟨inner, _, hfills.left op b, hheld', by simp [text, hq, filled]⟩
      · obtain ⟨start', rfl, hstart', hrest'⟩ :=
          exists_grouped_of_run op.symbol_outside hheld hstart hrest
        obtain ⟨inner, q, hfills, hheld', hq⟩ := ihb hb hstart' hrest'
        exact ⟨inner, _, hfills.right op a, hheld', by simp [text, hq, filled]⟩

end Phrase

end Flowchart.Expr
