import Flowchart.Expr.Literals
import Flowchart.Expr.Operands

/-!
# Balanced texts

A text is balanced when its literals are closed and its parentheses match. Every scan
of an expression comes out of a balanced text in the state in which it went in, so that
what follows is scanned as if it stood alone. There is one lemma of this kind for each
scan.

Which other characters may stand outside the literals is left open: a text without
operators of some family is a balanced text over the remaining characters.
-/

namespace Flowchart.Expr

/-- Literals are closed, parentheses match, and all other characters outside the literals
are plain. -/
inductive Balanced (plain : Char → Prop) : List Char → Prop where
  | nil : Balanced plain []
  | char {c : Char} {rest : List Char} :
      plain c → c ≠ '"' → c ≠ '(' → c ≠ ')' → Balanced plain rest → Balanced plain (c :: rest)
  | literal {held rest : List Char} :
      '"' ∉ held → Balanced plain rest → Balanced plain ('"' :: held ++ '"' :: rest)
  | group {held rest : List Char} :
      Balanced plain held → Balanced plain rest → Balanced plain ('(' :: held ++ ')' :: rest)

namespace Balanced

variable {plain : Char → Prop} {a b : List Char}

theorem append (ha : Balanced plain a) (hb : Balanced plain b) : Balanced plain (a ++ b) := by
  induction ha with
  | nil => exact hb
  | char hc hquote hopen hclose _ ih => exact .char hc hquote hopen hclose ih
  | @literal held rest hheld _ ih =>
      have happend : '"' :: held ++ '"' :: rest ++ b = '"' :: held ++ '"' :: (rest ++ b) := by simp
      exact happend ▸ .literal hheld ih
  | @group held rest hheld _ _ ih =>
      have happend : '(' :: held ++ ')' :: rest ++ b = '(' :: held ++ ')' :: (rest ++ b) := by simp
      exact happend ▸ .group hheld ih

/-- A text of plain characters only. -/
theorem of_forall (h : ∀ c ∈ a, plain c ∧ c ≠ '"' ∧ c ≠ '(' ∧ c ≠ ')') : Balanced plain a := by
  induction a with
  | nil => exact .nil
  | cons c rest ih =>
      obtain ⟨hc, hquote, hopen, hclose⟩ := h c List.mem_cons_self
      exact .char hc hquote hopen hclose (ih fun d hmem => h d (List.mem_cons_of_mem _ hmem))

theorem of_literal (h : '"' ∉ a) : Balanced plain ('"' :: a ++ ['"']) :=
  .literal h .nil

theorem of_group (h : Balanced plain a) : Balanced plain ('(' :: a ++ [')']) :=
  .group h .nil

/-! ## Parentheses -/

theorem openings_inside {held : List Char} (h : '"' ∉ held) (rest : List Char) :
    openings true (held ++ '"' :: rest) = openings false rest := by
  induction held with
  | nil => rfl
  | cons c held ih =>
      obtain ⟨hc, hheld⟩ := List.ne_and_not_mem_of_not_mem_cons h
      rw [List.cons_append, openings, if_neg (Ne.symm hc)]
      simpa using ih hheld

theorem openings_append (h : Balanced plain a) (b : List Char) :
    openings false (a ++ b) = openings false a + openings false b := by
  induction h generalizing b with
  | nil => simp [openings]
  | @char c rest _ hquote hopen _ _ ih => simp [openings, hquote, hopen, ih]
  | @literal held rest hheld _ ih =>
      have hinside := openings_inside hheld
      simp [openings, hinside, ih]
  | @group held rest _ _ iheld ih =>
      simp only [List.cons_append, List.append_assoc, openings, iheld, ih]
      simp
      omega

theorem closesTooOften_inside {held : List Char} (h : '"' ∉ held) (depth : Nat)
    (rest : List Char) :
    closesTooOften depth true (held ++ '"' :: rest) = closesTooOften depth false rest := by
  induction held with
  | nil => simp [closesTooOften]
  | cons c held ih =>
      obtain ⟨hc, hheld⟩ := List.ne_and_not_mem_of_not_mem_cons h
      -- the equations of the scan split on the depth, so it is unfolded as a whole
      rw [List.cons_append, closesTooOften.eq_def]
      simp [Ne.symm hc, ih hheld]

theorem closesTooOften_append (h : Balanced plain a) (depth : Nat) (b : List Char) :
    closesTooOften depth false (a ++ b) = closesTooOften depth false b := by
  induction h generalizing depth b with
  | nil => rfl
  | @char c rest _ hquote hopen hclose _ ih => simp [closesTooOften, hquote, hopen, hclose, ih]
  | @literal held rest hheld _ ih =>
      have hinside := closesTooOften_inside hheld depth
      simp [closesTooOften, hinside, ih]
  | @group held rest _ _ iheld ih => simp [closesTooOften, iheld, ih]

/-- A balanced text closes nothing that it has not opened. -/
theorem not_closesTooOften (h : Balanced plain a) (depth : Nat) :
    closesTooOften depth false a = false := by
  have happend := h.closesTooOften_append depth []
  rw [List.append_nil] at happend
  rw [happend]
  unfold closesTooOften
  rfl

theorem cutGroup_inside {held : List Char} (h : '"' ∉ held) (depth : Nat) (rest : List Char) :
    cutGroup depth true (held ++ '"' :: rest)
      = (cutGroup depth false rest).map fun cut => (held ++ '"' :: cut.1, cut.2) := by
  induction held with
  | nil => rw [List.nil_append, cutGroup.eq_def]; rfl
  | cons c held ih =>
      obtain ⟨hc, hheld⟩ := List.ne_and_not_mem_of_not_mem_cons h
      rw [List.cons_append, cutGroup.eq_def]
      simp [Ne.symm hc, ih hheld, Function.comp_def, ahead]

theorem cutGroup_append (h : Balanced plain a) (depth : Nat) (b : List Char) :
    cutGroup depth false (a ++ b)
      = (cutGroup depth false b).map fun cut => (a ++ cut.1, cut.2) := by
  induction h generalizing depth b with
  | nil => simp
  | @char c rest _ hquote hopen hclose _ ih =>
      rw [List.cons_append, cutGroup.eq_def]
      simp [hquote, hopen, hclose, ih, Function.comp_def, ahead]
  | @literal held rest hheld _ ih =>
      rw [List.append_assoc, List.cons_append, List.cons_append, cutGroup.eq_def]
      simp [cutGroup_inside hheld, ih, Function.comp_def, ahead]
  | @group held rest _ _ iheld ih =>
      rw [List.append_assoc, List.cons_append, List.cons_append, cutGroup.eq_def]
      simp [iheld, cutGroup, ih, Function.comp_def, ahead]

/-- The group that a balanced text fills ends at the parenthesis after it. -/
theorem cutGroup_close (h : Balanced plain a) (b : List Char) :
    cutGroup 0 false (a ++ ')' :: b) = some (a, b) := by
  rw [h.cutGroup_append]
  simp [cutGroup]

/-! ## Operators -/

section Occurs

variable {test : List Char → Bool}

theorem occursOutside_inside (test : List Char → Bool) {held : List Char} (h : '"' ∉ held)
    (rest : List Char) :
    occursOutside test true (held ++ '"' :: rest) = occursOutside test false rest := by
  induction held with
  | nil => rfl
  | cons c held ih =>
      obtain ⟨hc, hheld⟩ := List.ne_and_not_mem_of_not_mem_cons h
      rw [List.cons_append, occursOutside, if_neg (Ne.symm hc), ih hheld, Bool.not_true,
        Bool.false_and, Bool.false_or]

/-- What no plain character starts is not found in a balanced text. -/
theorem occursOutside_append (h : Balanced plain a)
    (hplain : ∀ c, plain c → ∀ rest, test (c :: rest) = false)
    (hopen : ∀ rest, test ('(' :: rest) = false) (hclose : ∀ rest, test (')' :: rest) = false)
    (b : List Char) : occursOutside test false (a ++ b) = occursOutside test false b := by
  induction h generalizing b with
  | nil => rfl
  | @char c rest hc hquote _ _ _ ih => simp [occursOutside, hquote, hplain c hc, ih]
  | @literal held rest hheld _ ih =>
      have hinside := occursOutside_inside test hheld
      simp [occursOutside, hinside, ih]
  | @group held rest _ _ iheld ih => simp [occursOutside, hopen, hclose, iheld, ih]

/-- What is found after a balanced text is found. -/
theorem occursOutside_append_of_true (h : Balanced plain a)
    (hb : occursOutside test false b = true) : occursOutside test false (a ++ b) = true := by
  induction h generalizing b with
  | nil => exact hb
  | @char c rest _ hquote _ _ _ ih => simp [occursOutside, hquote, ih hb]
  | @literal held rest hheld _ ih =>
      have hinside := occursOutside_inside test hheld
      simp [occursOutside, hinside, ih hb]
  | @group held rest _ _ iheld ih =>
      -- what is found after the group is found from inside it too
      have hrest : occursOutside test false (')' :: (rest ++ b)) = true := by
        simp [occursOutside, ih hb]
      have happend : '(' :: held ++ ')' :: rest ++ b = '(' :: (held ++ ')' :: (rest ++ b)) := by
        simp
      rw [happend]
      simp [occursOutside, iheld hrest]

end Occurs

section Cut

variable {α : Type} {leading? : List Char → Option α} {width : α → Nat}

theorem cutOperands_inside {held : List Char} (h : '"' ∉ held) (depth : Nat) (rest : List Char) :
    cutOperands leading? width 0 depth true (held ++ '"' :: rest) =
      let cut := cutOperands leading? width 0 depth false rest
      (held ++ '"' :: cut.1, cut.2) := by
  induction held with
  | nil => rw [List.nil_append, cutOperands, if_pos rfl]; rfl
  | cons c held ih =>
      obtain ⟨hc, hheld⟩ := List.ne_and_not_mem_of_not_mem_cons h
      rw [List.cons_append, cutOperands, if_neg (Ne.symm hc), if_pos rfl, ih hheld]
      rfl

/-- A literal belongs to the operand in which it stands. -/
theorem cutOperands_literal {held : List Char} (h : '"' ∉ held) (depth : Nat)
    (rest : List Char) :
    cutOperands leading? width 0 depth false ('"' :: held ++ '"' :: rest) =
      let cut := cutOperands leading? width 0 depth false rest
      ('"' :: held ++ '"' :: cut.1, cut.2) := by
  rw [List.cons_append, cutOperands, if_pos rfl, Bool.not_false, cutOperands_inside h]
  rfl

/-- Inside a group nothing is cut. -/
theorem cutOperands_append (h : Balanced plain a) (depth : Nat) (b : List Char) :
    cutOperands leading? width 0 (depth + 1) false (a ++ b) =
      let cut := cutOperands leading? width 0 (depth + 1) false b
      (a ++ cut.1, cut.2) := by
  induction h generalizing depth b with
  | nil => rfl
  | @char c rest _ hquote hopen hclose _ ih =>
      rw [List.cons_append, cutOperands, if_neg hquote, if_neg Bool.false_ne_true, if_neg hopen,
        if_neg hclose, if_neg (Nat.succ_ne_zero depth), ih]
      rfl
  | @literal held rest hheld _ ih =>
      have happend : '"' :: held ++ '"' :: rest ++ b = '"' :: held ++ '"' :: (rest ++ b) := by simp
      rw [happend, cutOperands_literal hheld, ih]
      simp
  | @group held rest _ _ iheld ih =>
      have happend : '(' :: held ++ ')' :: rest ++ b = '(' :: (held ++ ')' :: (rest ++ b)) := by
        simp
      have hclosing : cutOperands leading? width 0 (depth + 1 + 1) false (')' :: (rest ++ b))
          = ahead ')' (cutOperands leading? width 0 (depth + 1) false (rest ++ b)) := by
        rw [cutOperands, if_neg (by decide), if_neg Bool.false_ne_true, if_neg (by decide),
          if_pos rfl, Nat.add_sub_cancel]
      rw [happend, cutOperands, if_neg (by decide), if_neg Bool.false_ne_true, if_pos rfl, iheld,
        hclosing, ih]
      simp [ahead]

/-- A group belongs to the operand in which it stands. -/
theorem cutOperands_group (h : Balanced plain a) (depth : Nat) (b : List Char) :
    cutOperands leading? width 0 depth false ('(' :: a ++ ')' :: b) =
      let cut := cutOperands leading? width 0 depth false b
      ('(' :: a ++ ')' :: cut.1, cut.2) := by
  have hclosing : cutOperands leading? width 0 (depth + 1) false (')' :: b)
      = ahead ')' (cutOperands leading? width 0 depth false b) := by
    rw [cutOperands, if_neg (by decide), if_neg Bool.false_ne_true, if_neg (by decide),
      if_pos rfl, Nat.add_sub_cancel]
  rw [List.cons_append, cutOperands, if_neg (by decide), if_neg Bool.false_ne_true, if_pos rfl,
    h.cutOperands_append, hclosing]
  rfl

/-- A run of characters that start no operator belongs to one operand. -/
theorem cutOperands_run {run : List Char} {depth : Nat}
    (h : ∀ c ∈ run, (∀ rest, leading? (c :: rest) = none) ∧ c ≠ '"' ∧ c ≠ '(' ∧ c ≠ ')')
    (b : List Char) :
    cutOperands leading? width 0 depth false (run ++ b) =
      let cut := cutOperands leading? width 0 depth false b
      (run ++ cut.1, cut.2) := by
  induction run with
  | nil => rfl
  | cons c run ih =>
      obtain ⟨hc, hquote, hopen, hclose⟩ := h c List.mem_cons_self
      rw [List.cons_append, cutOperands, if_neg hquote, if_neg Bool.false_ne_true, if_neg hopen,
        if_neg hclose, hc, ite_self, ih fun d hmem => h d (List.mem_cons_of_mem _ hmem)]
      rfl

end Cut

end Balanced

end Flowchart.Expr
