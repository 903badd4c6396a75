import Flowchart.Expr.Evaluate
import Flowchart.Proofs.Text.Classes
import Mathlib.Data.List.TakeWhile

/-!
# The names in a text

Which names can evaluating a text ask its scope about? The words and slots that stand
in it, as long as they can be, whether inside a literal or not (`names`). They are
parts of the text (`infix_of_mem_names`), and cutting the text at a character that
belongs to no name cuts the list of names in two (`names_append_cons`). That is all
that the evaluator does to a text before it looks names up, apart from putting slots
into it.
-/

namespace Flowchart.Expr

/-- The words and slots of a text, in order. -/
def names : List Char → List (List Char)
  | [] => []
  | c :: rest =>
    if Text.isBlank c then names rest
    else if isNumberChar c then names rest
    else if c = '$' then
      (c :: rest.takeWhile Char.isDigit) :: names (rest.dropWhile Char.isDigit)
    else if Text.startsWord c then
      (c :: rest.takeWhile Text.isWordChar) :: names (rest.dropWhile Text.isWordChar)
    else names rest
termination_by text => text.length
decreasing_by
  all_goals simp only [List.length_cons]
  · omega
  · omega
  · have := List.length_dropWhile_le Char.isDigit rest; omega
  · have := List.length_dropWhile_le Text.isWordChar rest; omega
  · omega

/-- A character that no name goes across. -/
def endsName (c : Char) : Bool :=
  !Text.isWordChar c && c ≠ '$'

theorem endsName_of_isBlank {c : Char} (h : Text.isBlank c = true) : endsName c = true := by
  have hne : c ≠ '$' := by
    rintro rfl
    exact absurd h (by decide)
  simp [endsName, Text.not_isWordChar_of_isBlank h, hne]

theorem takeWhile_append_cons {α : Type} {p : α → Bool} {c : α} (hc : p c = false)
    (a b : List α) : (a ++ c :: b).takeWhile p = a.takeWhile p := by
  induction a with
  | nil => simp [hc]
  | cons d rest ih => by_cases hd : p d = true <;> simp [hd, ih]

theorem dropWhile_append_cons {α : Type} {p : α → Bool} {c : α} (hc : p c = false)
    (a b : List α) : (a ++ c :: b).dropWhile p = a.dropWhile p ++ c :: b := by
  induction a with
  | nil => simp [hc]
  | cons d rest ih => by_cases hd : p d = true <;> simp [hd, ih]

/-- A literal that is closed, and what stands behind it. -/
theorem cut_literal {rest beyond : List Char} {quote : Char}
    (h : rest.dropWhile (· ≠ '"') = quote :: beyond) :
    '"' ∉ rest.takeWhile (· ≠ '"') ∧ rest = rest.takeWhile (· ≠ '"') ++ '"' :: beyond := by
  have hhead := List.head?_dropWhile_not (fun c => decide (c ≠ '"')) rest
  have hwhole := List.takeWhile_append_dropWhile (p := fun c => decide (c ≠ '"')) (l := rest)
  rw [h] at hhead hwhole
  have hquote : quote = '"' := by simpa using hhead
  rw [hquote] at hwhole
  exact ⟨fun hmem => by simpa using List.mem_takeWhile_imp hmem, hwhole.symm⟩

/-- A character that ends names is skipped. -/
theorem names_cons {c : Char} (h : endsName c = true) (rest : List Char) :
    names (c :: rest) = names rest := by
  obtain ⟨hword, hdollar⟩ := Bool.and_eq_true_iff.mp h
  rw [Bool.not_eq_true'] at hword
  have hstart := Text.not_startsWord_of_not_isWordChar hword
  rw [names]
  simp [of_decide_eq_true hdollar, hstart]

/-- Cutting a text at a character that ends names cuts its names. -/
theorem names_append_cons {c : Char} (h : endsName c = true) (a b : List Char) :
    names (a ++ c :: b) = names a ++ names b := by
  obtain ⟨hword, -⟩ := Bool.and_eq_true_iff.mp h
  rw [Bool.not_eq_true'] at hword
  have hdigit := Text.not_isDigit_of_not_isWordChar hword
  fun_induction names a with
  | case1 => exact names_cons h b
  | case2 d rest hblank ih => rw [List.cons_append, names]; simp only [hblank, if_true, ih]
  | case3 d rest hblank hnumber ih =>
      rw [List.cons_append, names]
      simp only [hblank, hnumber, if_true, ih]
      simp
  | case4 rest hblank hnumber ih =>
      rw [List.cons_append, names]
      simp only [hblank, hnumber, if_true, takeWhile_append_cons hdigit,
        dropWhile_append_cons hdigit, ih]
      simp
  | case5 d rest hblank hnumber hdollar hstart ih =>
      rw [List.cons_append, names]
      simp only [hblank, hnumber, hdollar, hstart, if_true, takeWhile_append_cons hword,
        dropWhile_append_cons hword, ih]
      simp
  | case6 d rest hblank hnumber hdollar hstart ih =>
      rw [List.cons_append, names]
      simp only [hblank, hnumber, hdollar, hstart, ih]
      simp

theorem names_append_singleton {c : Char} (h : endsName c = true) (a : List Char) :
    names (a ++ [c]) = names a := by
  rw [names_append_cons h, names, List.append_nil]

/-- The names of a text are parts of it. -/
theorem infix_of_mem_names {text name : List Char} (h : name ∈ names text) : name <:+: text := by
  have skip {c : Char} {rest : List Char} (hrest : name <:+: rest) : name <:+: c :: rest :=
    hrest.trans (List.suffix_cons c rest).isInfix
  have run {p : Char → Bool} (c : Char) (rest : List Char) :
      c :: rest.takeWhile p <:+: c :: rest :=
    (List.prefix_cons_inj c |>.mpr (List.takeWhile_prefix p)).isInfix
  have after {p : Char → Bool} {rest : List Char} (hrest : name <:+: rest.dropWhile p) :
      name <:+: rest :=
    hrest.trans (List.dropWhile_suffix p).isInfix
  fun_induction names text with
  | case1 => exact absurd h (by simp)
  | case2 c rest _ ih => exact skip (ih h)
  | case3 c rest _ _ ih => exact skip (ih h)
  | case4 rest _ _ ih =>
      rcases List.mem_cons.mp h with rfl | h
      · exact run '$' rest
      · exact skip (after (ih h))
  | case5 c rest _ _ _ _ ih =>
      rcases List.mem_cons.mp h with rfl | h
      · exact run c rest
      · exact skip (after (ih h))
  | case6 c rest _ _ _ _ ih => exact skip (ih h)

/-! ## What the evaluator does to a text before it reads names -/

theorem names_dropWhile_isBlank (text : List Char) :
    names (text.dropWhile Text.isBlank) = names text := by
  induction text with
  | nil => rfl
  | cons c rest ih =>
      by_cases hc : Text.isBlank c = true
      · rw [List.dropWhile_cons_of_pos hc, ih, names_cons (endsName_of_isBlank hc)]
      · rw [List.dropWhile_cons_of_neg hc]

/-- The blanks that trimming takes from the end. -/
theorem exists_append_trimEnd (text : List Char) :
    ∃ blanks, text = Text.trimEnd text ++ blanks ∧ ∀ c ∈ blanks, Text.isBlank c = true := by
  induction text with
  | nil => exact ⟨[], rfl, by simp⟩
  | cons c rest ih =>
      obtain ⟨blanks, heq, hblanks⟩ := ih
      rw [Text.trimEnd]
      split
      · next hnil =>
        rw [hnil, List.nil_append] at heq
        subst heq
        split
        · next hc =>
          refine ⟨c :: rest, rfl, ?_⟩
          intro d hmem
          rcases List.mem_cons.mp hmem with rfl | hmem
          · exact hc
          · exact hblanks d hmem
        · exact ⟨rest, rfl, hblanks⟩
      · exact ⟨blanks, by rw [List.cons_append, ← heq], hblanks⟩

theorem names_blanks {blanks : List Char} (h : ∀ c ∈ blanks, Text.isBlank c = true) :
    names blanks = [] := by
  induction blanks with
  | nil => rw [names]
  | cons c rest ih =>
      rw [names_cons (endsName_of_isBlank (h c (by simp)))]
      exact ih fun d hmem => h d (List.mem_cons_of_mem _ hmem)

theorem names_append_blanks {blanks : List Char} (h : ∀ c ∈ blanks, Text.isBlank c = true)
    (a : List Char) : names (a ++ blanks) = names a := by
  cases blanks with
  | nil => rw [List.append_nil]
  | cons c rest =>
      rw [names_append_cons (endsName_of_isBlank (h c (by simp))),
        names_blanks fun d hmem => h d (List.mem_cons_of_mem _ hmem), List.append_nil]

@[simp]
theorem names_trim (text : List Char) : names (Text.trim text) = names text := by
  obtain ⟨blanks, heq, hblanks⟩ := exists_append_trimEnd (text.dropWhile Text.isBlank)
  rw [← names_dropWhile_isBlank text, heq, names_append_blanks hblanks]
  rfl

theorem endsName_paren : endsName '(' = true ∧ endsName ')' = true := by
  decide

@[simp]
theorem names_unwrap (text : List Char) : names (unwrap text) = names text := by
  fun_induction unwrap text with
  | case1 rest held hcut ih =>
      rw [ih, names_trim, cutGroup_eq_some hcut, names_cons endsName_paren.1,
        names_append_singleton endsName_paren.2]
  | case2 => rfl
  | case3 => rfl

end Flowchart.Expr
