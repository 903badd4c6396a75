import Flowchart.Proofs.Expr.Phrase

/-!
# What is left of a phrase when it is evaluated

Before it decides anything, the evaluator takes blanks and parentheses off that surround
the whole text. On phrases this is `Phrase.core`, which drops outer groups and outer
blanks (`unwrap_trim_text`). The parentheses that are dropped are those of groups: in
a text such as `(a) + (b)` the first one is closed before the end.
-/

namespace Flowchart.Expr

namespace Phrase

/-! ## The blanks at the ends -/

/-- The phrase with other characters in front. -/
def mapFront (f : List Char → List Char) : Phrase → Phrase
  | operand front lexeme back => operand (f front) lexeme back
  | group front inner back => group (f front) inner back
  | negation front a => negation (f front) a
  | joined op a b => joined op (a.mapFront f) b

/-- The phrase with other characters at the end. -/
def mapBack (f : List Char → List Char) : Phrase → Phrase
  | operand front lexeme back => operand front lexeme (f back)
  | group front inner back => group front inner (f back)
  | negation front a => negation front (a.mapBack f)
  | joined op a b => joined op a (b.mapBack f)

section Map

variable (f : List Char → List Char) (p : Phrase)

@[simp]
theorem value_mapFront (scope : Scope) : (p.mapFront f).value scope = p.value scope := by
  induction p with
  | operand | group | negation => rfl
  | joined op a b iha ihb => rw [mapFront, value, iha, value]

@[simp]
theorem value_mapBack (scope : Scope) : (p.mapBack f).value scope = p.value scope := by
  induction p with
  | operand | group => rfl
  | negation front a ih => rw [mapBack, value, ih, value]
  | joined op a b iha ihb => rw [mapBack, value, ihb, value]

@[simp]
theorem level_mapFront : (p.mapFront f).level = p.level := by
  cases p <;> rfl

@[simp]
theorem level_mapBack : (p.mapBack f).level = p.level := by
  cases p <;> rfl

@[simp]
theorem groups_mapFront : (p.mapFront f).groups = p.groups := by
  induction p with
  | operand | group | negation => rfl
  | joined op a b iha ihb => rw [mapFront, groups, iha, groups]

@[simp]
theorem groups_mapBack : (p.mapBack f).groups = p.groups := by
  induction p with
  | operand | group => rfl
  | negation front a ih => rw [mapBack, groups, ih, groups]
  | joined op a b iha ihb => rw [mapBack, groups, ihb, groups]

@[simp]
theorem operators_mapFront : (p.mapFront f).operators = p.operators := by
  induction p with
  | operand | group | negation => rfl
  | joined op a b iha ihb => rw [mapFront, operators, iha, operators]

@[simp]
theorem operators_mapBack : (p.mapBack f).operators = p.operators := by
  induction p with
  | operand | group => rfl
  | negation front a ih => rw [mapBack, operators, ih, operators]
  | joined op a b iha ihb => rw [mapBack, operators, ihb, operators]

variable {f p}

theorem Ok.mapFront (h : p.Ok)
    (hf : ∀ s, (∀ c ∈ s, Text.isBlank c = true) → ∀ c ∈ f s, Text.isBlank c = true) :
    (p.mapFront f).Ok := by
  induction p with
  | operand front lexeme back => exact ⟨hf front h.1, h.2⟩
  | group front inner back => exact ⟨hf front h.1, h.2⟩
  | negation front a => exact ⟨hf front h.1, h.2⟩
  | joined op a b iha ihb =>
      obtain ⟨ha, hb, hleft, hright⟩ := h
      exact ⟨iha ha, hb, by rwa [level_mapFront], hright⟩

theorem Ok.mapBack (h : p.Ok)
    (hf : ∀ s, (∀ c ∈ s, Text.isBlank c = true) → ∀ c ∈ f s, Text.isBlank c = true) :
    (p.mapBack f).Ok := by
  induction p with
  | operand front lexeme back => exact ⟨h.1, h.2.1, hf back h.2.2⟩
  | group front inner back => exact ⟨h.1, h.2.1, hf back h.2.2⟩
  | negation front a ih =>
      obtain ⟨hfront, ha, hlevel⟩ := h
      exact ⟨hfront, ih ha, by rwa [level_mapBack]⟩
  | joined op a b iha ihb =>
      obtain ⟨ha, hb, hleft, hright⟩ := h
      exact ⟨ha, ihb hb, hleft, by rwa [level_mapBack]⟩

end Map

end Phrase

/-- An operand begins and ends with a character that is no blank. -/
theorem Lexeme.IsOperand.ends {lexeme : Lexeme} (h : lexeme.IsOperand) :
    (∃ c rest, lexeme.text = c :: rest ∧ Text.isBlank c = false) ∧
      ∃ start c, lexeme.text = start ++ [c] ∧ Text.isBlank c = false := by
  rcases h.literal_or_chars with ⟨held, rfl, -⟩ | hrun
  · exact ⟨⟨'"', held ++ ['"'], rfl, by decide⟩, ⟨'"' :: held, '"', rfl, by decide⟩⟩
  · have hne := h.text_ne_nil
    have hblank : ∀ c ∈ lexeme.text, Text.isBlank c = false := fun c hmem =>
      not_isBlank_of_isOperandChar (hrun c hmem)
    refine ⟨?_, lexeme.text.dropLast, lexeme.text.getLast hne,
      (List.dropLast_concat_getLast hne).symm, hblank _ (List.getLast_mem hne)⟩
    cases htext : lexeme.text with
    | nil => exact absurd htext hne
    | cons c rest => exact ⟨c, rest, rfl, hblank c (htext ▸ List.mem_cons_self)⟩

namespace Phrase

variable {p : Phrase}

/-- The blanks in front of a phrase, and the rest of its text. -/
theorem Ok.text_mapFront (h : p.Ok) :
    ∃ front c rest, (∀ d ∈ front, Text.isBlank d = true) ∧ Text.isBlank c = false ∧
      p.text = front ++ c :: rest ∧ ∀ f, (p.mapFront f).text = f front ++ c :: rest := by
  induction p with
  | operand front lexeme back =>
      obtain ⟨hfront, hlexeme, hback⟩ := h
      obtain ⟨c, rest, htext, hc⟩ := hlexeme.ends.1
      exact ⟨front, c, rest ++ back, hfront, hc, by simp [text, htext],
        fun f => by simp [Phrase.mapFront, text, htext]⟩
  | group front inner back =>
      exact ⟨front, '(', inner.text ++ ')' :: back, h.1, by decide, by simp [text],
        fun f => by simp [Phrase.mapFront, text]⟩
  | negation front a => exact ⟨front, '-', a.text, h.1, by decide, rfl, fun f => rfl⟩
  | joined op a b iha ihb =>
      obtain ⟨front, c, rest, hfront, hc, htext, hmap⟩ := iha h.1
      exact ⟨front, c, rest ++ (op.symbol.toList ++ b.text), hfront, hc, by simp [text, htext],
        fun f => by simp [Phrase.mapFront, text, hmap]⟩

/-- The blanks at the end of a phrase, and what stands before them. -/
theorem Ok.text_mapBack (h : p.Ok) :
    ∃ start c back, (∀ d ∈ back, Text.isBlank d = true) ∧ Text.isBlank c = false ∧
      p.text = start ++ c :: back ∧ ∀ f, (p.mapBack f).text = start ++ c :: f back := by
  induction p with
  | operand front lexeme back =>
      obtain ⟨hfront, hlexeme, hback⟩ := h
      obtain ⟨start, c, htext, hc⟩ := hlexeme.ends.2
      exact ⟨front ++ start, c, back, hback, hc, by simp [text, htext],
        fun f => by simp [Phrase.mapBack, text, htext]⟩
  | group front inner back =>
      exact ⟨front ++ '(' :: inner.text, ')', back, h.2.2, by decide, by simp [text],
        fun f => by simp [Phrase.mapBack, text]⟩
  | negation front a ih =>
      obtain ⟨start, c, back, hback, hc, htext, hmap⟩ := ih h.2.1
      exact ⟨front ++ '-' :: start, c, back, hback, hc, by simp [text, htext],
        fun f => by simp [Phrase.mapBack, text, hmap]⟩
  | joined op a b iha ihb =>
      obtain ⟨start, c, back, hback, hc, htext, hmap⟩ := ihb h.2.1
      exact ⟨a.text ++ (op.symbol.toList ++ start), c, back, hback, hc, by simp [text, htext],
        fun f => by simp [Phrase.mapBack, text, hmap]⟩

end Phrase

theorem trimEnd_blanks {blanks : List Char} (h : ∀ c ∈ blanks, Text.isBlank c = true) :
    Text.trimEnd blanks = [] := by
  induction blanks with
  | nil => rfl
  | cons c rest ih =>
      rw [Text.trimEnd, ih fun d hmem => h d (List.mem_cons_of_mem _ hmem)]
      simp [h c List.mem_cons_self]

/-- Trimming stops at the last character that is no blank. -/
theorem trimEnd_append {c : Char} (hc : Text.isBlank c = false) {blanks : List Char}
    (h : ∀ d ∈ blanks, Text.isBlank d = true) (start : List Char) :
    Text.trimEnd (start ++ c :: blanks) = start ++ [c] := by
  induction start with
  | nil => simp [Text.trimEnd, trimEnd_blanks h, hc]
  | cons d start ih =>
      rw [List.cons_append, Text.trimEnd, ih]
      cases start <;> rfl

theorem dropWhile_isBlank_append {c : Char} (hc : Text.isBlank c = false) {blanks : List Char}
    (h : ∀ d ∈ blanks, Text.isBlank d = true) (rest : List Char) :
    (blanks ++ c :: rest).dropWhile Text.isBlank = c :: rest := by
  rw [List.dropWhile_append_of_pos h, List.dropWhile_cons_of_neg (by simp [hc])]

namespace Phrase

variable {p : Phrase}

/-- The phrase without blanks at its ends. -/
def tight (p : Phrase) : Phrase :=
  (p.mapFront fun _ => []).mapBack fun _ => []

theorem Ok.tight (h : p.Ok) : p.tight.Ok :=
  (h.mapFront fun _ _ => by simp).mapBack fun _ _ => by simp

@[simp]
theorem value_tight (p : Phrase) (scope : Scope) : p.tight.value scope = p.value scope := by
  simp [Phrase.tight]

@[simp]
theorem level_tight (p : Phrase) : p.tight.level = p.level := by
  simp [Phrase.tight]

@[simp]
theorem groups_tight (p : Phrase) : p.tight.groups = p.groups := by
  simp [Phrase.tight]

@[simp]
theorem operators_tight (p : Phrase) : p.tight.operators = p.operators := by
  simp [Phrase.tight]

theorem Ok.trim_text (h : p.Ok) : Text.trim p.text = p.tight.text := by
  obtain ⟨front, c, rest, hfront, hc, htext, hmap⟩ := h.text_mapFront
  have hmapped : (p.mapFront fun _ => []).text = c :: rest := hmap fun _ => []
  obtain ⟨start, d, back, hback, hd, htext', hmap'⟩ :=
    (h.mapFront (f := fun _ => []) fun _ _ => by simp).text_mapBack
  rw [Text.trim, htext, dropWhile_isBlank_append hc hfront, ← hmapped, htext',
    trimEnd_append hd hback, Phrase.tight, hmap' fun _ => []]

/-- A phrase without outer blanks begins with the first character of an operand. -/
theorem Ok.tight_text_ne_nil (h : p.Ok) : p.tight.text ≠ [] := by
  obtain ⟨_, c, rest, -, -, htext, -⟩ := h.tight.text_mapFront
  rw [htext]
  simp

/-! ## Outer groups -/

/-- The phrase without outer groups and outer blanks. -/
def core : Phrase → Phrase
  | group _ inner _ => inner.core
  | p => p.tight

theorem Ok.core (h : p.Ok) : p.core.Ok := by
  induction p with
  | group front inner back ih => exact ih h.2.1
  | operand | negation | joined => exact h.tight

@[simp]
theorem value_core (p : Phrase) (scope : Scope) : p.core.value scope = p.value scope := by
  induction p with
  | group front inner back ih => exact ih
  | operand | negation | joined => exact value_tight _ scope

@[simp]
theorem operators_core (p : Phrase) : p.core.operators = p.operators := by
  induction p with
  | group front inner back ih => exact ih
  | operand | negation | joined => exact operators_tight _

theorem groups_core_le (p : Phrase) : p.core.groups ≤ p.groups := by
  induction p with
  | group front inner back ih => exact Nat.le_succ_of_le ih
  | operand | negation | joined => exact Nat.le_of_eq (groups_tight _)

end Phrase

theorem unwrap_of_ne {text : List Char} (h : ∀ rest, text ≠ '(' :: rest) : unwrap text = text := by
  unfold unwrap
  split
  · exact absurd rfl (h _)
  · rfl

theorem unwrap_group {rest held : List Char} (h : cutGroup 0 false rest = some (held, [])) :
    unwrap ('(' :: rest) = unwrap (Text.trim held) := by
  rw [unwrap]
  split
  · next held' hcut =>
    rw [h] at hcut
    rw [(Prod.mk.inj (Option.some.inj hcut)).1]
  · next hcut => exact absurd h (hcut held)

theorem unwrap_of_cutGroup {rest held after : List Char}
    (h : cutGroup 0 false rest = some (held, after)) (hafter : after ≠ []) :
    unwrap ('(' :: rest) = '(' :: rest := by
  rw [unwrap]
  split
  · next held' hcut =>
    rw [h] at hcut
    exact absurd (Prod.mk.inj (Option.some.inj hcut)).2 hafter
  · rfl

/-- A balanced text that begins with a parenthesis begins with a group. -/
theorem Balanced.exists_group {plain : Char → Prop} {rest : List Char}
    (h : Balanced plain ('(' :: rest)) :
    ∃ held more, rest = held ++ ')' :: more ∧ Balanced plain held := by
  generalize htext : '(' :: rest = text at h
  cases h with
  | nil => exact absurd htext (by simp)
  | char _ _ hopen _ _ => exact absurd (List.cons.inj htext).1.symm hopen
  | literal => exact absurd (List.cons.inj htext).1 (by decide)
  | @group held more hheld _ => exact ⟨held, more, (List.cons.inj htext).2, hheld⟩

/-- A text that goes on after a balanced one is not one group. -/
theorem Balanced.unwrap_append {plain : Char → Prop} {text more : List Char}
    (h : Balanced plain text) (htext : text ≠ []) (hmore : more ≠ []) :
    unwrap (text ++ more) = text ++ more := by
  obtain ⟨c, rest, rfl⟩ := List.exists_cons_of_ne_nil htext
  by_cases hc : c = '('
  · subst hc
    obtain ⟨held, after, rfl, hheld⟩ := h.exists_group
    have hcut := hheld.cutGroup_close (after ++ more)
    have hassoc : '(' :: (held ++ ')' :: after) ++ more
        = '(' :: (held ++ ')' :: (after ++ more)) := by simp
    rw [hassoc]
    exact unwrap_of_cutGroup hcut (by simp [hmore])
  · refine unwrap_of_ne ?_
    intro rest' heq
    exact hc (List.cons.inj heq).1

namespace Phrase

variable {p : Phrase}

/-- Only the parentheses of outer groups are dropped. -/
theorem Ok.unwrap_trim_text (h : p.Ok) : unwrap (Text.trim p.text) = p.core.text := by
  rw [h.trim_text]
  induction p with
  | group front inner back ih =>
      obtain ⟨hfront, hinner, hback⟩ := h
      have htext : (group front inner back).tight.text = '(' :: (inner.text ++ [')']) := by
        simp [Phrase.tight, Phrase.mapFront, Phrase.mapBack, text]
      rw [htext, unwrap_group (hinner.balanced_any.cutGroup_close []), hinner.trim_text]
      exact ih hinner
  | operand front lexeme back =>
      refine unwrap_of_ne ?_
      intro rest heq
      have htext : (operand front lexeme back).tight.text = lexeme.text := by
        simp [Phrase.tight, Phrase.mapFront, Phrase.mapBack, text]
      rw [htext] at heq
      rcases h.2.1.literal_or with ⟨held, rfl, -⟩ | hrun
      · exact absurd (List.cons.inj heq).1 (by decide)
      · refine hrun '(' ?_ (by decide)
        rw [heq]
        exact List.mem_cons_self
  | negation front a =>
      refine unwrap_of_ne ?_
      intro rest heq
      exact absurd (List.cons.inj heq).1 (by decide)
  | joined op a b iha ihb =>
      obtain ⟨ha, hb, hleft, hright⟩ := h
      -- the group with which the text may begin ends inside the left operand
      have hokA : (a.mapFront fun _ => []).Ok := ha.mapFront fun _ _ => by simp
      have htext : (joined op a b).tight.text = (a.mapFront fun _ => []).text
          ++ (op.symbol.toList ++ (b.mapBack fun _ => []).text) := by
        simp [Phrase.tight, Phrase.mapFront, Phrase.mapBack, text]
      obtain ⟨_, c, rest, -, -, -, hmap⟩ := ha.text_mapFront
      have hne : (a.mapFront fun _ => []).text ≠ [] := by
        rw [hmap]
        simp
      rw [show (joined op a b).core = (joined op a b).tight from rfl, htext]
      exact hokA.balanced_any.unwrap_append hne (by simp [op.symbol_ne_nil])

/-! ## Truth values -/

/-- The letters of which truth values are spelled. -/
def truthLetters : List Char :=
  "truefalsTRUEFALS".toList

end Phrase

theorem mem_truthLetters_of_toLower {c : Char} (h : c.toLower ∈ "truefals".toList) :
    c ∈ Phrase.truthLetters := by
  have hsub : ∀ d ∈ "truefals".toList, d ∈ Phrase.truthLetters :=
    Text.forall_mem_of_all (by decide)
  -- only the characters of ASCII have lower forms here, and those can be checked one by one
  by_cases hupper : c.toNat < 128
  · have hall : ∀ n < 128, (Char.ofNat n).toLower ∈ "truefals".toList →
        Char.ofNat n ∈ Phrase.truthLetters := by decide
    have hc := hall c.toNat hupper
    rw [Char.ofNat_toNat] at hc
    exact hc h
  · have hlower : c.toLower = c := by
      unfold Char.toLower
      rw [dif_neg]
      rintro ⟨-, hle⟩
      refine hupper ?_
      have hle' : c.toNat ≤ 90 := hle
      omega
    rw [hlower] at h
    exact hsub c h

/-- Only these letters can spell a truth value. -/
theorem mem_truthLetters_of_boolOfWord? {word : List Char} {b : Bool}
    (h : Value.boolOfWord? word = some b) : ∀ c ∈ word, c ∈ Phrase.truthLetters := by
  intro c hmem
  refine mem_truthLetters_of_toLower ?_
  have hlower : c.toLower ∈ Decimal.lowerAscii word := List.mem_map_of_mem hmem
  unfold Value.boolOfWord? at h
  dsimp only at h
  split at h
  · next heq =>
    rw [heq] at hlower
    exact Text.forall_mem_of_all (by decide) c.toLower hlower
  split at h
  · next heq =>
    rw [heq] at hlower
    exact Text.forall_mem_of_all (by decide) c.toLower hlower
  · exact absurd h (by simp)

namespace Phrase

/-- A phrase of such letters only is a word. -/
theorem Ok.eq_word {p : Phrase} (h : p.Ok) (hletters : ∀ c ∈ p.text, c ∈ truthLetters) :
    ∃ word, p = operand [] (.word word) [] := by
  have hblank : ∀ c ∈ truthLetters, Text.isBlank c = false :=
    Text.forall_mem_of_all (by decide)
  -- everything but a bare word has a character that is no such letter
  have hreserved : ∀ c ∈ truthLetters, c ∉ reserved := Text.forall_mem_of_all (by decide)
  have hnumber : ∀ c ∈ truthLetters, isNumberChar c = false :=
    Text.forall_mem_of_all (by decide)
  have nil {s : List Char} (hs : ∀ c ∈ s, Text.isBlank c = true)
      (hsub : ∀ c ∈ s, c ∈ p.text) : s = [] := by
    refine List.eq_nil_iff_forall_not_mem.mpr ?_
    intro c hmem
    have hc := hblank c (hletters c (hsub c hmem))
    rw [hs c hmem] at hc
    exact Bool.noConfusion hc
  cases p with
  | operand front lexeme back =>
      obtain ⟨hfront, hlexeme, hback⟩ := h
      obtain rfl := nil hfront fun c hmem => by simp [text, hmem]
      obtain rfl := nil hback fun c hmem => by simp [text, hmem]
      have hall : ∀ c ∈ lexeme.text, c ∈ truthLetters := by simpa [text] using hletters
      cases lexeme with
      | number digits =>
          obtain ⟨c, rest, htext, -⟩ := hlexeme.ends.1
          have hmem : c ∈ (Lexeme.number digits).text := htext ▸ List.mem_cons_self
          have hc := hnumber c (hall c hmem)
          rw [hlexeme.2 c hmem] at hc
          exact Bool.noConfusion hc
      | slot name =>
          obtain ⟨n, rfl⟩ := hlexeme
          exact absurd (hall '$' List.mem_cons_self) (by decide)
      | word word => exact ⟨word, rfl⟩
      | literal held => exact absurd (hall '"' List.mem_cons_self) (by decide)
      | unterminated | operator | leftParen | rightParen | unknown =>
          exact absurd hlexeme (by simp [Lexeme.IsOperand])
  | group front inner back =>
      exact absurd (hletters '(' (by simp [text])) (by decide)
  | negation front a => exact absurd (hletters '-' (by simp [text])) (by decide)
  | joined op a b =>
      obtain ⟨c, hmem⟩ := List.exists_mem_of_ne_nil _ op.symbol_ne_nil
      exact absurd (op.symbol_reserved c hmem) (hreserved c (hletters c (by simp [text, hmem])))

/-- A text that spells a truth value means it. -/
theorem Ok.value_of_boolOfWord? {p : Phrase} (h : p.Ok) {b : Bool}
    (hb : Value.boolOfWord? p.text = some b) (scope : Scope) :
    p.value scope = some (.bool b) := by
  obtain ⟨word, rfl⟩ := h.eq_word (mem_truthLetters_of_boolOfWord? hb)
  have hword : Value.boolOfWord? word = some b := by simpa [text, Lexeme.text] using hb
  simp [value, Lexeme.value?, hword]

end Phrase

end Flowchart.Expr
