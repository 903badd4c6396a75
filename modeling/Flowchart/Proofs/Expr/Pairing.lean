import Flowchart.Proofs.Expr.Position
import Mathlib.Data.List.Infix

/-!
# Quotes and parentheses in pairs

When is a text complete in itself? Counted, when its quotes are even in number and when
outside the literals that they delimit no prefix closes more parentheses than it opens and
all of them close in the end (`Paired`). Scanned, when a scan that starts outside the
literals with no parenthesis open comes out in the same state (`Closes 0 false`). Built up,
when it consists of plain characters, literals and groups (`Balanced`).

The three are one (`paired_iff_closes`, `paired_iff_balanced`). The count is what a reader
of the text checks, the scan is what the evaluator goes by, and the structure is what
lemmas about parts of a text use.
-/

namespace Flowchart.Expr

/-- The characters outside the literals. The quotes belong to the literals. -/
def outside : (inside : Bool) → List Char → List Char
  | _, [] => []
  | inside, c :: rest =>
    if c = '"' then outside (!inside) rest
    else if inside then outside inside rest
    else c :: outside inside rest

/-- Quotes and parentheses come in pairs. -/
structure Paired (text : List Char) : Prop where
  /-- Every literal is closed. -/
  quotes : text.count '"' % 2 = 0
  /-- Outside the literals nothing closes that is not open. -/
  sane : ∀ front, front <+: outside false text → front.count ')' ≤ front.count '('
  /-- At the end nothing is left open. -/
  settled : (outside false text).count ')' = (outside false text).count '('

/-- The text closes so many parentheses more than it opens, and at no place in it more than
that. It ends outside the literals. -/
def Closes : (depth : Nat) → (inside : Bool) → List Char → Prop
  | depth, inside, [] => depth = 0 ∧ inside = false
  | depth, inside, c :: rest =>
    if c = '"' then Closes depth (!inside) rest
    else if inside then Closes depth inside rest
    else if c = '(' then Closes (depth + 1) inside rest
    else if c = ')' then 0 < depth ∧ Closes (depth - 1) inside rest
    else Closes depth inside rest

instance decidableCloses : (depth : Nat) → (inside : Bool) → (text : List Char) →
    Decidable (Closes depth inside text)
  | depth, inside, [] => inferInstanceAs (Decidable (depth = 0 ∧ inside = false))
  | _, inside, c :: rest =>
    have (depth : Nat) (inside : Bool) : Decidable (Closes depth inside rest) :=
      decidableCloses depth inside rest
    inferInstanceAs (Decidable (if c = '"' then _ else if inside then _ else if c = '(' then _
      else if c = ')' then _ ∧ _ else _))

/-! ## One character -/

/-- What one character can be to a scan. -/
theorem scan_cases (inside : Bool) (c : Char) :
    c = '"' ∨ (c ≠ '"' ∧ inside = true) ∨ (c = '(' ∧ inside = false) ∨
      (c = ')' ∧ inside = false) ∨ (c ≠ '"' ∧ c ≠ '(' ∧ c ≠ ')') ∧ inside = false := by
  by_cases hquote : c = '"'
  · exact .inl hquote
  cases inside with
  | true => exact .inr (.inl ⟨hquote, rfl⟩)
  | false =>
      by_cases hopen : c = '('
      · exact .inr (.inr (.inl ⟨hopen, rfl⟩))
      by_cases hclose : c = ')'
      · exact .inr (.inr (.inr (.inl ⟨hclose, rfl⟩)))
      exact .inr (.inr (.inr (.inr ⟨⟨hquote, hopen, hclose⟩, rfl⟩)))

section Closes

variable {depth : Nat} {inside : Bool} {c : Char} {rest : List Char}

theorem closes_nil : Closes depth inside [] ↔ depth = 0 ∧ inside = false :=
  Iff.rfl

theorem closes_quote : Closes depth inside ('"' :: rest) ↔ Closes depth (!inside) rest := by
  rw [Closes, if_pos rfl]

theorem closes_literal (h : c ≠ '"') :
    Closes depth true (c :: rest) ↔ Closes depth true rest := by
  rw [Closes, if_neg h, if_pos rfl]

theorem closes_open : Closes depth false ('(' :: rest) ↔ Closes (depth + 1) false rest := by
  rw [Closes, if_neg (by decide), if_neg Bool.false_ne_true, if_pos rfl]

theorem closes_close :
    Closes depth false (')' :: rest) ↔ 0 < depth ∧ Closes (depth - 1) false rest := by
  rw [Closes, if_neg (by decide), if_neg Bool.false_ne_true, if_neg (by decide), if_pos rfl]

theorem closes_plain (h : c ≠ '"' ∧ c ≠ '(' ∧ c ≠ ')') :
    Closes depth false (c :: rest) ↔ Closes depth false rest := by
  rw [Closes, if_neg h.1, if_neg Bool.false_ne_true, if_neg h.2.1, if_neg h.2.2]

end Closes

/-! ## Counting -/

theorem insideAfter_eq_count (inside : Bool) (text : List Char) :
    insideAfter inside text = (inside ^^ decide (text.count '"' % 2 = 1)) := by
  induction text generalizing inside with
  | nil => simp [insideAfter]
  | cons c rest ih =>
      rw [insideAfter, ih]
      by_cases hquote : c = '"'
      · subst hquote
        rw [if_pos rfl, List.count_cons_self, Nat.add_mod]
        rcases Nat.mod_two_eq_zero_or_one (rest.count '"') with hcount | hcount <;>
          simp [hcount]
      · rw [if_neg hquote, List.count_cons_of_ne hquote]

theorem forall_prefix_cons {α : Type} {motive : List α → Prop} {a : α} {l : List α} :
    (∀ front, front <+: a :: l → motive front) ↔
      motive [] ∧ ∀ front, front <+: l → motive (a :: front) := by
  constructor
  · exact fun h => ⟨h [] List.nil_prefix,
      fun front hfront => h _ ((List.prefix_cons_inj a).mpr hfront)⟩
  · rintro ⟨hnil, hcons⟩ front hfront
    rcases List.prefix_cons_iff.mp hfront with rfl | ⟨more, rfl, hmore⟩
    · exact hnil
    · exact hcons more hmore

/-- **What a scan finds is what counting finds.** -/
theorem closes_iff_count {depth : Nat} {inside : Bool} {text : List Char} :
    Closes depth inside text ↔ insideAfter inside text = false ∧
      (∀ front, front <+: outside inside text → front.count ')' ≤ front.count '(' + depth) ∧
      (outside inside text).count ')' = (outside inside text).count '(' + depth := by
  induction text generalizing depth inside with
  | nil =>
      rw [closes_nil, insideAfter, outside]
      constructor
      · rintro ⟨rfl, rfl⟩
        exact ⟨rfl, fun front hfront => by rw [List.prefix_nil.mp hfront]; simp, rfl⟩
      · rintro ⟨hinside, -, hcount⟩
        exact ⟨(Nat.zero_add depth).symm.trans hcount.symm, hinside⟩
  | cons c rest ih =>
      rcases scan_cases inside c with rfl | ⟨hquote, rfl⟩ | ⟨rfl, rfl⟩ | ⟨rfl, rfl⟩ |
        ⟨hplain, rfl⟩
      · rw [closes_quote, ih, insideAfter, outside, if_pos rfl, if_pos rfl]
      · rw [closes_literal hquote, ih, insideAfter, outside, if_neg hquote, if_neg hquote,
          if_pos rfl]
      · have hopen : outside false ('(' :: rest) = '(' :: outside false rest := rfl
        rw [closes_open, ih, insideAfter, hopen, if_neg (by decide), forall_prefix_cons]
        simp only [List.count_cons_self, List.count_cons_of_ne (by decide : '(' ≠ ')')]
        refine and_congr_right fun _ => and_congr ?_ (by omega)
        constructor
        · exact fun h => ⟨Nat.zero_le _, fun front hfront => by have := h front hfront; omega⟩
        · exact fun h front hfront => by have := h.2 front hfront; omega
      · have hclose : outside false (')' :: rest) = ')' :: outside false rest := rfl
        rw [closes_close, ih, insideAfter, hclose, if_neg (by decide), forall_prefix_cons]
        simp only [List.count_cons_self, List.count_cons_of_ne (by decide : ')' ≠ '(')]
        constructor
        · rintro ⟨hdepth, hinside, hfront, hcount⟩
          refine ⟨hinside, ⟨Nat.zero_le _, fun front h => ?_⟩, by omega⟩
          have := hfront front h
          omega
        · rintro ⟨hinside, ⟨-, hfront⟩, hcount⟩
          have hdepth := hfront [] List.nil_prefix
          rw [List.count_nil, List.count_nil] at hdepth
          refine ⟨by omega, hinside, fun front h => ?_, by omega⟩
          have := hfront front h
          omega
      · have hchar : outside false (c :: rest) = c :: outside false rest := by
          rw [outside, if_neg hplain.1, if_neg Bool.false_ne_true]
        rw [closes_plain hplain, ih, insideAfter, hchar, if_neg hplain.1, forall_prefix_cons]
        simp only [List.count_cons_of_ne hplain.2.1, List.count_cons_of_ne hplain.2.2]
        refine and_congr_right fun _ => and_congr_left fun _ => ?_
        exact (and_iff_right (Nat.zero_le _)).symm

theorem paired_iff_closes {text : List Char} : Paired text ↔ Closes 0 false text := by
  have hquotes : insideAfter false text = false ↔ text.count '"' % 2 = 0 := by
    rw [insideAfter_eq_count]
    rcases Nat.mod_two_eq_zero_or_one (text.count '"') with hcount | hcount <;> simp [hcount]
  rw [closes_iff_count, hquotes]
  exact ⟨fun h => ⟨h.quotes, h.sane, h.settled⟩, fun h => ⟨h.1, h.2.1, h.2.2⟩⟩

instance (text : List Char) : Decidable (Paired text) :=
  decidable_of_iff _ paired_iff_closes.symm

/-! ## Building up -/

namespace Balanced

variable {plain : Char → Prop} {a b : List Char}

theorem closes_inside {held : List Char} (h : '"' ∉ held) (depth : Nat) (rest : List Char) :
    Closes depth true (held ++ '"' :: rest) ↔ Closes depth false rest := by
  induction held with
  | nil => exact closes_quote
  | cons c held ih =>
      obtain ⟨hc, hheld⟩ := List.ne_and_not_mem_of_not_mem_cons h
      rw [List.cons_append, closes_literal (Ne.symm hc), ih hheld]

theorem closes_append (h : Balanced plain a) {depth : Nat} {b : List Char} :
    Closes depth false (a ++ b) ↔ Closes depth false b := by
  induction h generalizing depth b with
  | nil => rfl
  | char _ hquote hopen hclose _ ih =>
      rw [List.cons_append, closes_plain ⟨hquote, hopen, hclose⟩, ih]
  | literal hheld _ ih =>
      rw [List.append_assoc, List.cons_append, List.cons_append, closes_quote, Bool.not_false,
        closes_inside hheld, ih]
  | group _ _ iheld ih =>
      rw [List.append_assoc, List.cons_append, List.cons_append, closes_open, iheld, closes_close,
        Nat.add_sub_cancel, ih]
      exact and_iff_right (Nat.succ_pos _)

theorem closes (h : Balanced plain a) : Closes 0 false a := by
  have hclosed : Closes 0 false (a ++ []) := h.closes_append.mpr ⟨rfl, rfl⟩
  rwa [List.append_nil] at hclosed

end Balanced

/-- A text that ends outside the literals ends the one that it begins in. -/
theorem Closes.exists_literal {depth : Nat} {text : List Char} (h : Closes depth true text) :
    ∃ held rest, text = held ++ '"' :: rest ∧ '"' ∉ held ∧ Closes depth false rest := by
  induction text with
  | nil => exact Bool.noConfusion h.2
  | cons c rest ih =>
      by_cases hquote : c = '"'
      · subst hquote
        exact ⟨[], rest, rfl, List.not_mem_nil, closes_quote.mp h⟩
      · obtain ⟨held, more, rfl, hheld, hmore⟩ := ih ((closes_literal hquote).mp h)
        exact ⟨c :: held, more, rfl, List.not_mem_cons_of_ne_of_not_mem (Ne.symm hquote) hheld,
          hmore⟩

/-- A text that closes more than it opens is cut by the first parenthesis that does so. By
induction on the length, since a group is followed by a text of its own. -/
theorem Closes.balanced_or {depth : Nat} {text : List Char} (h : Closes depth false text) :
    depth = 0 ∧ Balanced (fun _ => True) text ∨ ∃ outer held rest, depth = outer + 1 ∧
      text = held ++ ')' :: rest ∧ Balanced (fun _ => True) held ∧ Closes outer false rest := by
  induction hlength : text.length using Nat.strong_induction_on generalizing depth text with
  | _ length ih =>
  subst hlength
  -- what stands in front of the rest belongs to the first part
  have front {run rest : List Char} (hrun : Balanced (fun _ => True) run)
      (hshort : rest.length < text.length) (hrest : Closes depth false rest)
      (htext : text = run ++ rest) :
      depth = 0 ∧ Balanced (fun _ => True) text ∨ ∃ outer held rest, depth = outer + 1 ∧
        text = held ++ ')' :: rest ∧ Balanced (fun _ => True) held ∧ Closes outer false rest := by
    rcases ih _ hshort hrest rfl with
      ⟨hzero, hbalanced⟩ | ⟨outer, held, more, hdepth, rfl, hheld, hmore⟩
    · exact .inl ⟨hzero, htext ▸ hrun.append hbalanced⟩
    · exact .inr ⟨outer, run ++ held, more, hdepth, by rw [htext, List.append_assoc],
        hrun.append hheld, hmore⟩
  cases text with
  | nil => exact .inl ⟨h.1, .nil⟩
  | cons c rest =>
      rcases scan_cases false c with rfl | ⟨-, hfalse⟩ | ⟨rfl, -⟩ | ⟨rfl, -⟩ | ⟨hplain, -⟩
      · obtain ⟨held, more, rfl, hheld, hmore⟩ := (closes_quote.mp h).exists_literal
        exact front (.of_literal hheld) (by simp; omega) hmore (by simp)
      · exact Bool.noConfusion hfalse
      · rcases ih _ (Nat.lt_succ_self _) (closes_open.mp h) rfl with
          ⟨hzero, -⟩ | ⟨outer, held, more, hdepth, rfl, hheld, hmore⟩
        · exact absurd hzero (Nat.succ_ne_zero _)
        · obtain rfl := Nat.succ.inj hdepth
          exact front (.of_group hheld) (by simp; omega) hmore (by simp)
      · obtain ⟨hdepth, hrest⟩ := closes_close.mp h
        exact .inr ⟨depth - 1, [], rest, by omega, rfl, .nil, hrest⟩
      · exact front (.char trivial hplain.1 hplain.2.1 hplain.2.2 .nil) (Nat.lt_succ_self _)
          ((closes_plain hplain).mp h) rfl

theorem closes_zero_iff {text : List Char} :
    Closes 0 false text ↔ Balanced (fun _ => True) text := by
  refine ⟨fun h => ?_, Balanced.closes⟩
  rcases h.balanced_or with ⟨-, hbalanced⟩ | ⟨outer, -, -, hdepth, -⟩
  · exact hbalanced
  · exact absurd hdepth (Nat.succ_ne_zero outer).symm

/-- **Counting pairs is building up.** -/
theorem paired_iff_balanced {text : List Char} :
    Paired text ↔ Balanced (fun _ => True) text :=
  paired_iff_closes.trans closes_zero_iff

end Flowchart.Expr
