import Flowchart.Proofs.Expr.Balanced

/-!
# Positions in a text

Whether a position lies inside a literal is told by the text before it (`insideAfter`).
A parenthesis that opens outside the literals of a balanced text is closed in it, and
what it encloses is balanced too (`Balanced.exists_close`). So when a balanced text is
the first part of another one, a group of the whole is a group of that part or of the
rest (`Balanced.locate`): groups do not reach across.
-/

namespace Flowchart.Expr

/-- A text with a group in the middle. -/
def grouped (before held after : List Char) : List Char :=
  before ++ '(' :: (held ++ ')' :: after)

/-- The same with a word in the place of the group. -/
def filled (before word after : List Char) : List Char :=
  before ++ ' ' :: (word ++ ' ' :: after)

/-- Whether a scan that starts inside a literal, or outside, is inside after the text. -/
def insideAfter : (inside : Bool) → List Char → Bool
  | inside, [] => inside
  | inside, c :: rest => insideAfter (if c = '"' then !inside else inside) rest

theorem insideAfter_append (inside : Bool) (a b : List Char) :
    insideAfter inside (a ++ b) = insideAfter (insideAfter inside a) b := by
  induction a generalizing inside with
  | nil => rfl
  | cons c rest ih => exact ih _

theorem insideAfter_of_not_mem {a : List Char} (h : '"' ∉ a) (inside : Bool) :
    insideAfter inside a = inside := by
  induction a with
  | nil => rfl
  | cons c rest ih =>
      obtain ⟨hc, hrest⟩ := List.ne_and_not_mem_of_not_mem_cons h
      rw [insideAfter, if_neg (Ne.symm hc), ih hrest]

/-- After the end of a literal a scan is outside. -/
theorem insideAfter_literal {held : List Char} (h : '"' ∉ held) (rest : List Char) :
    insideAfter false ('"' :: held ++ '"' :: rest) = insideAfter false rest := by
  rw [List.cons_append, insideAfter, insideAfter_append, if_pos rfl, insideAfter_of_not_mem h]
  rfl

namespace Balanced

variable {plain plain' : Char → Prop} {a b before held after : List Char}

theorem insideAfter_eq (h : Balanced plain a) : insideAfter false a = false := by
  induction h with
  | nil => rfl
  | char _ hquote _ _ _ ih => rw [insideAfter, if_neg hquote, ih]
  | literal hheld _ ih => rw [insideAfter_literal hheld, ih]
  | group _ _ iheld ih =>
      rw [List.cons_append, insideAfter, if_neg (by decide), insideAfter_append, iheld,
        insideAfter, if_neg (by decide), ih]

theorem insideAfter_append (h : Balanced plain a) (b : List Char) :
    insideAfter false (a ++ b) = insideAfter false b := by
  rw [Expr.insideAfter_append, h.insideAfter_eq]

/-- A parenthesis that opens outside the literals of a balanced text is closed in it. -/
theorem exists_close (h : Balanced plain a) (hinside : insideAfter false before = false)
    (heq : a = before ++ '(' :: after) :
    ∃ held rest, after = held ++ ')' :: rest ∧ Balanced plain held := by
  induction h generalizing before after with
  | nil => exact absurd heq (by simp)
  | @char c rest _ hquote hopen _ _ ih =>
      cases before with
      | nil => exact absurd (List.cons.inj heq).1 hopen
      | cons d before =>
          obtain ⟨hd, htail⟩ := List.cons.inj heq
          rw [insideAfter, ← hd, if_neg hquote] at hinside
          exact ih hinside htail
  | @literal held rest hheld _ ih =>
      cases before with
      | nil => exact absurd (List.cons.inj heq).1 (by decide)
      | cons d before =>
          obtain ⟨hd, htail⟩ := List.cons.inj heq
          rw [← hd] at hinside
          -- a position before the closing quote would be inside
          rcases List.append_eq_append_iff.mp htail with ⟨more, hbefore, hmore⟩ | ⟨more, hsplit, -⟩
          · cases more with
            | nil => exact absurd (List.cons.inj hmore).1 (by decide)
            | cons d more =>
                obtain ⟨hd, hrest⟩ := List.cons.inj hmore
                rw [hbefore, ← hd, ← List.cons_append, insideAfter_literal hheld] at hinside
                exact ih hinside hrest
          · have hfree : '"' ∉ before := fun hmem => hheld (hsplit ▸ List.mem_append_left _ hmem)
            rw [insideAfter, if_pos rfl, insideAfter_of_not_mem hfree] at hinside
            exact Bool.noConfusion hinside
  | @group held rest hheld _ iheld ih =>
      cases before with
      | nil => exact ⟨held, rest, (List.cons.inj heq).2.symm, hheld⟩
      | cons d before =>
          obtain ⟨hd, htail⟩ := List.cons.inj heq
          rw [insideAfter, ← hd, if_neg (by decide)] at hinside
          rcases List.append_eq_append_iff.mp htail with
            ⟨more, hbefore, hmore⟩ | ⟨more, hsplit, hmore⟩
          -- the parenthesis stands behind the group
          · cases more with
            | nil => exact absurd (List.cons.inj hmore).1 (by decide)
            | cons d more =>
                obtain ⟨hd, hrest⟩ := List.cons.inj hmore
                rw [hbefore, hheld.insideAfter_append, insideAfter, ← hd,
                  if_neg (by decide)] at hinside
                exact ih hinside hrest
          -- it stands inside, since it is not the closing one
          · cases more with
            | nil => exact absurd (List.cons.inj hmore).1 (by decide)
            | cons d more =>
                obtain ⟨hd, hafter⟩ := List.cons.inj hmore
                rw [← hd] at hsplit
                obtain ⟨inner, beyond, hmore', hinner⟩ := iheld hinside hsplit
                exact ⟨inner, beyond ++ ')' :: rest, by rw [hafter, hmore']; simp, hinner⟩

/-- **Groups do not reach across.** Where a balanced text is followed by another one, a group
of the whole is in one of the two. -/
theorem locate (h : Balanced plain a) (hheld : Balanced plain' held)
    (hinside : insideAfter false before = false) (heq : a ++ b = grouped before held after) :
    (∃ rest, a = grouped before held rest ∧ after = rest ++ b) ∨
      ∃ start, before = a ++ start ∧ insideAfter false start = false ∧
        b = grouped start held after := by
  have behind {start : List Char} (hbefore : before = a ++ start) :
      insideAfter false start = false := by
    rwa [hbefore, h.insideAfter_append] at hinside
  rcases List.append_eq_append_iff.mp heq with ⟨start, hbefore, hb⟩ | ⟨more, ha, hmore⟩
  · exact .inr ⟨start, hbefore, behind hbefore, hb⟩
  · cases more with
    | nil =>
        rw [List.append_nil] at ha
        have hbefore : before = a ++ [] := by rw [ha, List.append_nil]
        exact .inr ⟨[], hbefore, behind hbefore, hmore.symm⟩
    | cons d more =>
        rw [List.cons_append] at hmore
        obtain ⟨hd, hafter⟩ := List.cons.inj hmore
        rw [← hd] at ha
        -- the parenthesis is closed in the first part, and only one closes it
        obtain ⟨held', rest, rfl, hheld'⟩ := h.exists_close hinside ha
        have hcut : cutGroup 0 false (held ++ ')' :: after) = some (held', rest ++ b) := by
          rw [hafter, List.append_assoc, List.cons_append]
          exact hheld'.cutGroup_close _
        rw [hheld.cutGroup_close] at hcut
        obtain ⟨rfl, rfl⟩ := Prod.mk.inj (Option.some.inj hcut)
        exact .inl ⟨rest, ha, rfl⟩

end Balanced

theorem mem_grouped (before held after : List Char) : '(' ∈ grouped before held after := by
  simp [grouped]

/-- Where a text begins with a run without quotes and parentheses, its groups begin behind
the run. -/
theorem exists_grouped_of_run {plain : Char → Prop} {run rest before held after : List Char}
    (hrun : ∀ c ∈ run, c ≠ '"' ∧ c ≠ '(' ∧ c ≠ ')') (hheld : Balanced plain held)
    (hinside : insideAfter false before = false) (heq : run ++ rest = grouped before held after) :
    ∃ start, before = run ++ start ∧ insideAfter false start = false ∧
      rest = grouped start held after := by
  have hbalanced : Balanced (fun _ => True) run :=
    .of_forall fun c hmem => ⟨trivial, hrun c hmem⟩
  rcases hbalanced.locate hheld hinside heq with ⟨more, hmore, -⟩ | hbehind
  · have hmem : '(' ∈ run := hmore ▸ mem_grouped before held more
    exact absurd rfl (hrun '(' hmem).2.1
  · exact hbehind

/-- The parenthesis of a group opens outside the literals. -/
theorem openings_grouped {before held after : List Char} {inside : Bool}
    (h : insideAfter inside before = false) : 0 < openings inside (grouped before held after) := by
  induction before generalizing inside with
  | nil =>
      have hinside : inside = false := h
      subst hinside
      simp [grouped, openings]
  | cons c before ih =>
      have hrest := ih h
      show 0 < openings inside (c :: grouped before held after)
      rw [openings]
      split at hrest
      · next hquote => rwa [if_pos hquote]
      · next hquote =>
        rw [if_neg hquote]
        split
        · exact Nat.succ_pos _
        · exact hrest

end Flowchart.Expr
