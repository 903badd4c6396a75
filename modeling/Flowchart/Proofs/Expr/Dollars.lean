import Flowchart.Proofs.Expr.Depth

/-!
# Dollar signs

A dollar sign outside the literals begins the name of a slot. Where a text without groups
has a value, the names of its slots have values too: the digits behind each dollar sign
count one of the slots of the scope (`readsSlots_evaluateWithin`). The groups of a text, and
what they leave of it, are such texts.
-/

namespace Flowchart.Expr

variable {eval : Evaluator} {scope : Scope} {text : List Char} {limit : Nat}

/-- The digits behind each dollar sign that stands outside the literals. -/
def dollars : (inside : Bool) → List Char → List (List Char)
  | _, [] => []
  | inside, c :: rest =>
    if c = '"' then dollars (!inside) rest
    else if !inside && c = '$' then rest.takeWhile Char.isDigit :: dollars inside rest
    else dollars inside rest

/-- The digits number one of so many slots. -/
def Numbers (limit : Nat) (digits : List Char) : Prop :=
  ∃ n, Decimal.readNat? digits = some n ∧ n < limit

/-- The scope has values for so many slots at most. -/
def KnowsSlots (limit : Nat) (scope : Scope) : Prop :=
  ∀ digits value, scope (String.ofList ('$' :: digits)) = some value → Numbers limit digits

/-- An evaluator that looks the slots up that a text without groups names. -/
def ReadsSlots (eval : Evaluator) : Prop :=
  ∀ text scope limit value, Flat text → KnowsSlots limit scope → eval text scope = .ok value →
    ∀ digits ∈ dollars false text, Numbers limit digits

/-! ## Parts of a text -/

theorem dollars_append_of_plain {run : List Char} (h : ∀ c ∈ run, c ≠ '"' ∧ c ≠ '$')
    (inside : Bool) (b : List Char) : dollars inside (run ++ b) = dollars inside b := by
  induction run with
  | nil => rfl
  | cons c rest ih =>
      obtain ⟨⟨hquote, hdollar⟩, hrest⟩ := List.forall_mem_cons.mp h
      rw [List.cons_append, dollars, if_neg hquote, if_neg (by simp [hdollar]), ih hrest]

theorem dollars_inside {held : List Char} (h : '"' ∉ held) (rest : List Char) :
    dollars true (held ++ '"' :: rest) = dollars false rest := by
  induction held with
  | nil => rfl
  | cons c held ih =>
      obtain ⟨hc, hheld⟩ := List.ne_and_not_mem_of_not_mem_cons h
      rw [List.cons_append, dollars, if_neg (Ne.symm hc), if_neg (by simp), ih hheld]

theorem dollars_of_not_mem {held : List Char} (h : '"' ∉ held) : dollars true held = [] := by
  induction held with
  | nil => rfl
  | cons c held ih =>
      obtain ⟨hc, hheld⟩ := List.ne_and_not_mem_of_not_mem_cons h
      rw [dollars, if_neg (Ne.symm hc), if_neg (by simp), ih hheld]

theorem takeWhile_append_of_nil {p : Char → Bool} (a : List Char) {b : List Char}
    (hb : b.takeWhile p = []) : (a ++ b).takeWhile p = a.takeWhile p := by
  rw [List.takeWhile_append, hb]
  split
  · next hlength =>
    rw [List.append_nil]
    exact (List.IsPrefix.eq_of_length (List.takeWhile_prefix p) hlength).symm
  · rfl

/-- Where no digit begins the second part, no number goes across. -/
theorem dollars_append (inside : Bool) (a : List Char) {b : List Char}
    (hb : b.takeWhile Char.isDigit = []) :
    dollars inside (a ++ b) = dollars inside a ++ dollars (insideAfter inside a) b := by
  induction a generalizing inside with
  | nil => rfl
  | cons c rest ih =>
      rw [List.cons_append, dollars, dollars, insideAfter]
      by_cases hquote : c = '"'
      · rw [if_pos hquote, if_pos hquote, if_pos hquote, ih]
      · rw [if_neg hquote, if_neg hquote, if_neg hquote, ih, takeWhile_append_of_nil rest hb]
        split
        · rfl
        · rfl

theorem mem_dollars {inside : Bool} {before : List Char} (h : insideAfter inside before = false)
    (after : List Char) :
    after.takeWhile Char.isDigit ∈ dollars inside (before ++ '$' :: after) := by
  rw [dollars_append inside before (by simp), h]
  exact List.mem_append_right _ List.mem_cons_self

/-- The place of a dollar sign. -/
theorem exists_of_mem_dollars {inside : Bool} {digits : List Char}
    (h : digits ∈ dollars inside text) :
    ∃ before after, text = before ++ '$' :: after ∧ insideAfter inside before = false ∧
      digits = after.takeWhile Char.isDigit := by
  induction text generalizing inside with
  | nil => exact absurd h List.not_mem_nil
  | cons c rest ih =>
      have behind {inside' : Bool} (hstate : (if c = '"' then !inside else inside) = inside')
          (hrest : digits ∈ dollars inside' rest) :
          ∃ before after, c :: rest = before ++ '$' :: after ∧ insideAfter inside before = false ∧
            digits = after.takeWhile Char.isDigit := by
        obtain ⟨before, after, rfl, hbefore, hdigits⟩ := ih hrest
        exact ⟨c :: before, after, rfl, by rw [insideAfter, hstate, hbefore], hdigits⟩
      rw [dollars] at h
      by_cases hquote : c = '"'
      · rw [if_pos hquote] at h
        exact behind (if_pos hquote) h
      · rw [if_neg hquote] at h
        split at h
        · next hdollar =>
          obtain ⟨hinside, rfl⟩ : inside = false ∧ c = '$' := by simpa using hdollar
          rcases List.mem_cons.mp h with rfl | h
          · exact ⟨[], rest, rfl, hinside, rfl⟩
          · exact behind (if_neg hquote) h
        · exact behind (if_neg hquote) h

/-- What stands before a text hides none of its dollar signs. -/
theorem dollars_subset_append (inside : Bool) (a b : List Char) :
    dollars (insideAfter inside a) b ⊆ dollars inside (a ++ b) := by
  intro digits hmem
  obtain ⟨before, after, rfl, hbefore, rfl⟩ := exists_of_mem_dollars hmem
  rw [← List.append_assoc]
  exact mem_dollars (by rw [insideAfter_append, hbefore]) after

theorem dollars_trim (text : List Char) : dollars false (Text.trim text) = dollars false text := by
  have plain {run : List Char} (h : ∀ c ∈ run, Text.isBlank c = true) :
      ∀ c ∈ run, c ≠ '"' ∧ c ≠ '$' := by
    intro c hmem
    constructor
    · rintro rfl
      exact absurd (h _ hmem) (by decide)
    · rintro rfl
      exact absurd (h _ hmem) (by decide)
  obtain ⟨front, back, htext, hfront, hback⟩ := exists_append_trim text
  have hdigits : back.takeWhile Char.isDigit = [] := by
    cases back with
    | nil => rfl
    | cons c rest =>
        refine List.takeWhile_cons_of_neg fun hdigit => ?_
        have hblank := not_isBlank_of_isOperandChar (isOperandChar_of_isDigit hdigit)
        rw [hback c List.mem_cons_self] at hblank
        exact Bool.noConfusion hblank
  have hnone : dollars (insideAfter false (Text.trim text)) (back ++ []) = [] :=
    dollars_append_of_plain (plain hback) _ []
  rw [List.append_nil] at hnone
  conv => rhs; rw [htext]
  rw [dollars_append_of_plain (plain hfront), dollars_append _ _ hdigits, hnone, List.append_nil]

theorem dollars_unwrap (text : List Char) : dollars false (unwrap text) = dollars false text := by
  fun_induction unwrap text with
  | case1 rest held hcut ih =>
      have hopen : dollars false ('(' :: rest) = dollars false rest := rfl
      have hclose (inside : Bool) : dollars inside [')'] = [] := by
        rw [dollars, if_neg (by decide), if_neg (by simp), dollars]
      rw [ih, dollars_trim, hopen, cutGroup_eq_some hcut, dollars_append _ _ (by simp), hclose,
        List.append_nil]
  | case2 => rfl
  | case3 => rfl

theorem dollars_core (text : List Char) :
    dollars false (core text) = dollars false text :=
  (dollars_unwrap _).trans (dollars_trim text)

/-- No digit begins an operator. -/
theorem Family.takeWhile_operands {α : Type} {leading? : List Char → Option α} {symbol : α → String}
    (h : Family leading? symbol) (more : List (α × List Char)) :
    (more.flatMap fun operand => (symbol operand.1).toList ++ operand.2).takeWhile Char.isDigit
      = [] := by
  cases more with
  | nil => rfl
  | cons operand rest =>
      rw [List.flatMap_cons]
      cases hsymbol : (symbol operand.1).toList with
      | nil => exact absurd hsymbol (h.symbol_ne_nil _)
      | cons c after =>
          refine List.takeWhile_cons_of_neg fun hdigit => ?_
          have hreserved := h.symbol_reserved operand.1 c (hsymbol ▸ List.mem_cons_self)
          exact not_reserved_of_isOperandChar (isOperandChar_of_isDigit hdigit) hreserved

/-- A dollar sign of the text is one of an operand. -/
theorem Cuts.dollars_eq {α : Type} {leading? : List Char → Option α} {symbol : α → String}
    (hfamily : Family leading? symbol) {depth : Nat} {inside : Bool} {first : List Char}
    {more : List (α × List Char)} (h : Cuts leading? symbol depth inside text first more) :
    dollars inside text
      = dollars inside first ++ more.flatMap fun operand => dollars false operand.2 := by
  induction h with
  | nil => rfl
  | quote _ ih => rw [dollars, if_pos rfl, ih, dollars, if_pos rfl]
  | literal hquote _ ih => simp [dollars, hquote, ih]
  | opening _ ih => simp [dollars, ih]
  | closing _ ih => simp [dollars, ih]
  | @plain depth c rest first more hplain _ hrest ih =>
      have hdigits : rest.takeWhile Char.isDigit = first.takeWhile Char.isDigit := by
        rw [hrest.join, takeWhile_append_of_nil first (hfamily.takeWhile_operands more)]
      rw [dollars, dollars, if_neg hplain.1, if_neg hplain.1, ih, hdigits]
      split
      · rfl
      · rfl
  | @operator op rest first more _ _ ih =>
      have hsymbol : ∀ c ∈ (symbol op).toList, c ≠ '"' ∧ c ≠ '$' := by
        intro c hmem
        refine ⟨(hfamily.symbol_outside op c hmem).1, ?_⟩
        rintro rfl
        exact absurd (hfamily.symbol_reserved op _ hmem) (by decide)
      rw [dollars_append_of_plain hsymbol, ih]
      rfl

theorem dollars_of_boolOfWord? {b : Bool} (h : Value.boolOfWord? text = some b) :
    dollars false text = [] := by
  have hletters : ∀ c ∈ Phrase.truthLetters, c ≠ '"' ∧ c ≠ '$' := Text.forall_mem_of_all (by decide)
  have hplain : ∀ c ∈ text, c ≠ '"' ∧ c ≠ '$' := fun c hmem =>
    hletters c (mem_truthLetters_of_boolOfWord? h c hmem)
  have hnone : dollars false (text ++ []) = [] := dollars_append_of_plain hplain false []
  rwa [List.append_nil] at hnone

/-! ## Slots of a scope -/

theorem KnowsSlots.withSlots (h : KnowsSlots 0 scope) (values : List Value) :
    KnowsSlots values.length (withSlots values scope) := by
  intro digits value hvalue
  have hindex : slotIndex? (String.ofList ('$' :: digits)) = Decimal.readNat? digits := by
    rw [slotIndex?, String.toList_ofList]
    rfl
  rw [Expr.withSlots, hindex] at hvalue
  rcases Option.or_eq_some_iff.mp hvalue with hslot | ⟨-, houter⟩
  · obtain ⟨n, hn, hvalues⟩ := Option.bind_eq_some_iff.mp hslot
    exact ⟨n, hn, (List.getElem?_eq_some_iff.mp hvalues).1⟩
  · obtain ⟨n, -, hlt⟩ := h digits value houter
    exact absurd hlt (Nat.not_lt_zero n)

/-! ## Tokens -/

theorem slot_mem_scan {digits : List Char} (h : digits ∈ dollars false text) :
    .slot ('$' :: digits) ∈ Lexeme.scan text := by
  have cons {c : Char} (hc : c ≠ '"' ∧ c ≠ '$') (rest : List Char) :
      dollars false (c :: rest) = dollars false rest :=
    dollars_append_of_plain (List.forall_mem_singleton.mpr hc) false rest
  have run {q : Char → Bool} (hq : ∀ c, q c = true → c ≠ '"' ∧ c ≠ '$') (rest : List Char) :
      dollars false rest = dollars false (rest.dropWhile q) := by
    conv => lhs; rw [← rest.takeWhile_append_dropWhile (p := q)]
    exact dollars_append_of_plain (fun c hmem => hq c (List.mem_takeWhile_imp hmem)) false _
  -- no dollar sign is part of a number or a word
  have plain {q : Char → Bool} (hquote : q '"' = false) (hdollar : q '$' = false) (c : Char)
      (hc : q c = true) : c ≠ '"' ∧ c ≠ '$' := by
    constructor
    · rintro rfl
      exact Bool.noConfusion (hc.symm.trans hquote)
    · rintro rfl
      exact Bool.noConfusion (hc.symm.trans hdollar)
  fun_induction Lexeme.scan text with
  | case1 => exact absurd h List.not_mem_nil
  | case2 c rest hblank ih =>
      rw [cons (plain (q := Text.isBlank) (by decide) (by decide) c hblank)] at h
      exact ih h
  | case3 c rest hblank hnumber ih =>
      have hplain := plain (q := isNumberChar) (by decide) (by decide)
      rw [cons (hplain c hnumber), run hplain] at h
      exact List.mem_cons_of_mem _ (ih h)
  | case4 rest hblank hnumber ih =>
      have hdollar : dollars false ('$' :: rest)
          = rest.takeWhile Char.isDigit :: dollars false rest := rfl
      rw [hdollar, run (plain (q := Char.isDigit) (by decide) (by decide))] at h
      rcases List.mem_cons.mp h with rfl | h
      · exact List.mem_cons_self
      · exact List.mem_cons_of_mem _ (ih h)
  | case5 c rest hblank hnumber hdollar hstart ih =>
      have hplain := plain (q := Text.isWordChar) (by decide) (by decide)
      rw [cons (hplain c (Text.isWordChar_of_startsWord hstart)), run hplain] at h
      exact List.mem_cons_of_mem _ (ih h)
  | case6 rest hcut =>
      have hfree : '"' ∉ rest := fun hmem => by
        simpa using List.dropWhile_eq_nil_iff.mp hcut '"' hmem
      have hquote : dollars false ('"' :: rest) = dollars true rest := rfl
      rw [hquote, dollars_of_not_mem hfree] at h
      exact absurd h List.not_mem_nil
  | case7 rest quote beyond hcut _ _ _ _ ih =>
      obtain ⟨hfree, hrest⟩ := cut_literal hcut
      have hquote : dollars false ('"' :: rest) = dollars true rest := rfl
      rw [hquote, hrest, dollars_inside hfree] at h
      exact List.mem_cons_of_mem _ (ih h)
  | case8 c rest hblank hnumber hdollar hstart hquote ih =>
      rw [cons ⟨hquote, hdollar⟩] at h
      exact List.mem_cons_of_mem _ (ih h)

theorem numbers_of_evaluateArithmetic (hscope : KnowsSlots limit scope) {value : Value}
    (h : evaluateArithmetic text scope = .ok value) :
    ∀ digits ∈ dollars false text, Numbers limit digits := by
  intro digits hdigits
  obtain ⟨tokens, hread, -⟩ := evaluateArithmetic_eq_ok h
  obtain ⟨_, token, htoken⟩ := exists_token_of_mem hread (slot_mem_scan hdigits)
  have hslot : Token.operand? ('$' :: digits) (scope (String.ofList ('$' :: digits)))
      = .ok token := htoken
  cases hvalue : scope (String.ofList ('$' :: digits)) with
  | none => rw [hvalue] at hslot; cases hslot
  | some value => exact hscope digits value hvalue

/-! ## Any flat text -/

/-- A flat text is left as it is. -/
theorem Resolves.of_flat {inside : Bool} {p : Pending} (h : Resolves eval scope inside text p)
    (hflat : openings inside text = 0) (hclosing : closesTooOften 0 inside text = false) :
    p.stretch = text ∧ p.values = [] := by
  induction h with
  | nil => exact ⟨rfl, rfl⟩
  -- the equations of the scan split on the depth, so it is unfolded as a whole
  | quote _ ih =>
      rw [closesTooOften.eq_def] at hclosing
      obtain ⟨hstretch, hvalues⟩ := ih hflat hclosing
      exact ⟨congrArg (_ :: ·) hstretch, hvalues⟩
  | literal hquote _ ih =>
      rw [openings, if_neg hquote] at hflat
      rw [closesTooOften.eq_def] at hclosing
      obtain ⟨hstretch, hvalues⟩ := ih hflat (by simpa [hquote] using hclosing)
      exact ⟨congrArg (_ :: ·) hstretch, hvalues⟩
  | plain hplain _ ih =>
      rw [openings, if_neg hplain.1, if_neg (by simp [hplain.2.1])] at hflat
      rw [closesTooOften.eq_def] at hclosing
      obtain ⟨hstretch, hvalues⟩ := ih hflat (by simpa [hplain] using hclosing)
      exact ⟨congrArg (_ :: ·) hstretch, hvalues⟩
  | closing => exact Bool.noConfusion hclosing
  | opening => exact absurd hflat (Nat.succ_ne_zero _)

theorem resolveGroups_flat_eq {flat : Flattened} (hflat : Flat text)
    (h : resolveGroups eval text scope = .ok flat) : flat.text = text ∧ flat.values = [] := by
  obtain ⟨hclosing, beyond, hresolves⟩ := resolveGroups_eq_ok h
  exact hresolves.of_flat hflat hclosing

/-- A text reads the slots that its operands read. -/
theorem ReadsSlots.operands {α : Type} {leading? : List Char → Option α} {symbol : α → String}
    {first : List Char} {more : List (α × List Char)} (heval : ReadsSlots eval)
    (hfamily : Family leading? symbol) (h : Cuts leading? symbol 0 false text first more)
    (hflat : Flat text) (hscope : KnowsSlots limit scope)
    (hvalues : ∀ operand ∈ first :: more.map Prod.snd,
      ∃ value, eval (Text.trim operand) scope = .ok value) :
    ∀ digits ∈ dollars false text, Numbers limit digits := by
  have hoperands : ∀ operand ∈ first :: more.map Prod.snd,
      ∀ digits ∈ dollars false operand, Numbers limit digits := by
    intro operand hmem
    obtain ⟨value, hvalue⟩ := hvalues operand hmem
    have hoperand : Flat (Text.trim operand) :=
      (openings_trim false operand).trans
        (Nat.le_zero.mp ((h.openings_le hfamily operand hmem).trans_eq hflat))
    have hdigits := heval _ scope limit value hoperand hscope hvalue
    rwa [dollars_trim] at hdigits
  rw [List.forall_mem_cons, List.forall_mem_map] at hoperands
  intro digits hmem
  rw [h.dollars_eq hfamily] at hmem
  rcases List.mem_append.mp hmem with hmem | hmem
  · exact hoperands.1 digits hmem
  · obtain ⟨operand, hoperand, hmem⟩ := List.mem_flatMap.mp hmem
    exact hoperands.2 operand hoperand digits hmem

theorem ReadsSlots.evaluateBody (heval : ReadsSlots eval) : ReadsSlots (evaluateBody eval) := by
  intro text scope limit value hflat hscope h
  have hcore := flat_core hflat
  rw [← dollars_core]
  rcases evaluateBody_eq_ok h with ⟨b, hbool⟩ | ⟨-, b, hlogical⟩ | ⟨-, -, hcomparison⟩ |
    harithmetic
  · rw [dollars_of_boolOfWord? hbool]
    exact fun digits hmem => absurd hmem List.not_mem_nil
  · obtain ⟨flat, hresolve, hfirst, hmore⟩ := evaluateLogical_eq_ok hlogical
    obtain ⟨htext, hvalues⟩ := resolveGroups_flat_eq hcore hresolve
    rw [htext, hvalues, withSlots_nil] at hfirst hmore
    refine heval.operands family_connective (cuts_conjuncts _) hcore hscope ?_
    exact List.forall_mem_cons.mpr ⟨hfirst, List.forall_mem_map.mpr hmore⟩
  · obtain ⟨-, ⟨flat, -, hresolve, hvalue⟩ | ⟨left, op, right, a, b, hcut, hleft, hright⟩⟩ :=
      evaluateComparison_eq_ok hcomparison
    · obtain ⟨htext, hvalues⟩ := resolveGroups_flat_eq hcore hresolve
      rw [htext, hvalues, withSlots_nil] at hvalue
      exact heval _ scope limit value hcore hscope hvalue
    · refine heval.operands family_comparison (cuts_comparands _) hcore hscope ?_
      rw [hcut]
      exact List.forall_mem_cons.mpr ⟨⟨a, hleft⟩, List.forall_mem_singleton.mpr ⟨b, hright⟩⟩
  · exact numbers_of_evaluateArithmetic hscope harithmetic

theorem readsSlots_evaluateWithin (depth : Nat) : ReadsSlots (evaluateWithin outOfReach depth) := by
  induction depth with
  | zero => exact fun _ _ _ _ _ _ h => nomatch h
  | succ depth ih => exact ih.evaluateBody

end Flowchart.Expr
