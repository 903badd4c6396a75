import Flowchart.Proofs.Expr.Reach
import Flowchart.Proofs.Expr.Turns

/-!
# The groups of a text

A group is a pair of parentheses outside the literals (`Group`). The groups of a complete
text are numbered from the right, by the places where they open, so that a group has a
greater number than those inside it (`Group.number_lt_of_inside`). The turns of the loop go
by these numbers. In its turn a group is evaluated, with slots in the place of the groups
inside it, in the scope of the values so far (`Group.turn`).

What is left in the end is the text with a slot in the place of each outermost group
(`Outline`). The slots of the other groups have gone with the groups around them, while
their numbers stay in use.
-/

namespace Flowchart.Expr

variable {eval : Evaluator} {scope : Scope} {text : List Char}

/-- A group of a text. -/
@[ext]
structure Group (text : List Char) where
  before : List Char
  held : List Char
  after : List Char
  eq_grouped : text = grouped before held after
  /-- The group opens outside the literals. -/
  outside : insideAfter false before = false
  paired : Paired held

namespace Group

/-- How many groups open behind the one that opens here. -/
def number (g : Group text) : Nat :=
  openings false (g.held ++ ')' :: g.after)

/-- The group opens and closes inside another one. -/
def Inside (g outer : Group text) : Prop :=
  outer.before.length < g.before.length ∧ outer.after.length < g.after.length

/-- The group is not inside another one. -/
def Outermost (g : Group text) : Prop :=
  ∀ outer, ¬ g.Inside outer

variable {g g' outer : Group text}

theorem balanced (g : Group text) : Balanced (fun _ => True) g.held :=
  paired_iff_balanced.mp g.paired

theorem number_eq (g : Group text) :
    g.number = openings false g.held + openings false g.after :=
  g.balanced.openings_append _

theorem openings_eq (g : Group text) :
    openings false text = openings false g.before + (g.number + 1) := by
  conv => lhs; rw [g.eq_grouped, grouped, openings_append, g.outside]
  rfl

theorem number_lt (g : Group text) : g.number < openings false text := by
  rw [g.openings_eq]
  exact Nat.lt_of_lt_of_le (Nat.lt_succ_self _) (Nat.le_add_left _ _)

/-- What is behind the place where a group opens. -/
theorem behind (g : Group text) : Behind text g.before false ('(' :: (g.held ++ ')' :: g.after)) :=
  ⟨g.eq_grouped, g.outside⟩

/-- A group that opens further to the right has a smaller number. -/
theorem number_lt_of_before_lt (h : g'.before.length < g.before.length) :
    g.number < g'.number := by
  have heq : g'.before ++ '(' :: (g'.held ++ ')' :: g'.after)
      = g.before ++ '(' :: (g.held ++ ')' :: g.after) :=
    g'.eq_grouped.symm.trans g.eq_grouped
  rcases List.append_eq_append_iff.mp heq with ⟨more, hbefore, hmore⟩ | ⟨more, hbefore, -⟩
  · cases more with
    | nil =>
        rw [hbefore, List.append_nil] at h
        exact absurd h (Nat.lt_irrefl _)
    | cons d more =>
        obtain ⟨rfl, hrest⟩ := List.cons.inj hmore
        replace hrest : g'.held ++ ')' :: g'.after = more ++ '(' :: (g.held ++ ')' :: g.after) :=
          hrest
        have hinside := g.outside
        rw [hbefore, insideAfter_append, g'.outside, insideAfter, if_neg (by decide)] at hinside
        rw [number, number, hrest, openings_append false more, hinside]
        exact Nat.lt_of_lt_of_le (Nat.lt_succ_self _) (Nat.le_add_left _ _)
  · rw [hbefore, List.length_append] at h
    omega

/-- **Inner groups come first.** -/
theorem number_lt_of_inside (h : g.Inside outer) : g.number < outer.number :=
  number_lt_of_before_lt h.1

/-- Groups have different numbers. -/
theorem eq_of_number_eq (h : g.number = g'.number) : g = g' := by
  have hlength : g.before.length = g'.before.length := by
    rcases Nat.lt_trichotomy g.before.length g'.before.length with hlt | heq | hgt
    · exact absurd h (Nat.ne_of_gt (number_lt_of_before_lt hlt))
    · exact heq
    · exact absurd h (Nat.ne_of_lt (number_lt_of_before_lt hgt))
  obtain ⟨hbefore, hrest⟩ :=
    List.append_inj (g.eq_grouped.symm.trans g'.eq_grouped) hlength
  have hcut := g.balanced.cutGroup_close g.after
  rw [(List.cons.inj hrest).2, g'.balanced.cutGroup_close] at hcut
  obtain ⟨hheld, hafter⟩ := Prod.mk.inj (Option.some.inj hcut)
  exact Group.ext hbefore hheld.symm hafter.symm

end Group

/-- There is a place to open for each number of those behind it. -/
theorem exists_opening {inside : Bool} {n : Nat} (h : n < openings inside text) :
    ∃ before rest, text = before ++ '(' :: rest ∧ insideAfter inside before = false ∧
      openings false rest = n := by
  induction text generalizing inside with
  | nil => exact absurd h (Nat.not_lt_zero n)
  | cons c rest ih =>
      have further (h : n < openings (if c = '"' then !inside else inside) rest) :
          ∃ before more, c :: rest = before ++ '(' :: more ∧ insideAfter inside before = false ∧
            openings false more = n := by
        obtain ⟨before, more, rfl, hinside, hnumber⟩ := ih h
        exact ⟨c :: before, more, rfl, hinside, hnumber⟩
      rw [openings] at h
      split at h
      · next hquote => exact further (by rwa [if_pos hquote])
      · next hquote =>
        rw [if_neg hquote] at further
        split at h
        · next hopen =>
          obtain ⟨hinside, hc⟩ := Bool.and_eq_true_iff.mp hopen
          obtain rfl : inside = false := by simpa using hinside
          obtain rfl : c = '(' := by simpa using hc
          rcases Nat.lt_succ_iff_lt_or_eq.mp h with hlt | rfl
          · exact further hlt
          · exact ⟨[], rest, rfl, rfl, rfl⟩
        · exact further h

/-- **The groups of a complete text are numbered.** -/
theorem Paired.existsUnique_group (h : Paired text) {n : Nat} (hn : n < openings false text) :
    ∃! g : Group text, g.number = n := by
  obtain ⟨before, rest, htext, hinside, hnumber⟩ := exists_opening hn
  obtain ⟨held, after, rfl, hheld⟩ :=
    (paired_iff_balanced.mp h).exists_close hinside htext
  exact ⟨⟨before, held, after, htext, hinside, paired_iff_balanced.mpr hheld⟩, hnumber,
    fun g hg => Group.eq_of_number_eq (hg.trans hnumber.symm)⟩

/-! ## Slots in the place of groups -/

/-- What is left of a text when a slot has taken the place of each outermost group. The
number of a slot is the number of its group, where so many groups open behind the text. -/
inductive Outline : (behind : Nat) → List Char → List Char → Prop where
  | nil {behind : Nat} : Outline behind [] []
  | char {behind : Nat} {c : Char} {rest left : List Char} :
      c ≠ '"' ∧ c ≠ '(' ∧ c ≠ ')' → Outline behind rest left →
      Outline behind (c :: rest) (c :: left)
  | literal {behind : Nat} {held rest left : List Char} :
      '"' ∉ held → Outline behind rest left →
      Outline behind ('"' :: (held ++ '"' :: rest)) ('"' :: (held ++ '"' :: left))
  | group {behind : Nat} {held rest left : List Char} :
      Paired held → Outline behind rest left →
      Outline behind ('(' :: (held ++ ')' :: rest))
        (slotText (openings false held + openings false rest + behind) ++ left)

/-- A literal ends with the first quote. -/
theorem eq_of_append_quote {held held' rest rest' : List Char} (h : '"' ∉ held)
    (h' : '"' ∉ held') (heq : held ++ '"' :: rest = held' ++ '"' :: rest') :
    held = held' ∧ rest = rest' := by
  induction held generalizing held' with
  | nil =>
      cases held' with
      | nil => exact ⟨rfl, (List.cons.inj heq).2⟩
      | cons c held' => exact absurd (List.mem_cons.mpr (.inl (List.cons.inj heq).1)) h'
  | cons c held ih =>
      cases held' with
      | nil => exact absurd (List.mem_cons.mpr (.inl (List.cons.inj heq).1.symm)) h
      | cons c' held' =>
          obtain ⟨rfl, hrest⟩ := List.cons.inj heq
          obtain ⟨rfl, rfl⟩ := ih (fun hmem => h (List.mem_cons_of_mem _ hmem))
            (fun hmem => h' (List.mem_cons_of_mem _ hmem)) hrest
          exact ⟨rfl, rfl⟩

namespace Outline

variable {behind : Nat} {left left' : List Char}

/-- The slots stand in the place of all parentheses. -/
theorem bare (h : Outline behind text left) : Bare false left := by
  induction h with
  | nil => exact bare_nil
  | char hplain _ ih => exact (bare_plain hplain).mpr ih
  | literal hheld _ ih => exact bare_quote.mpr ((bare_inside hheld).mpr ih)
  | group _ _ ih => exact (bare_run (slotText_plain _)).mpr ih

/-- There is one way to put slots in the place of groups. -/
theorem unique (h : Outline behind text left) (h' : Outline behind text left') :
    left = left' := by
  induction h generalizing left' with
  | nil => cases h'; rfl
  | @char c rest left hplain _ ih =>
      cases h' with
      | char _ hrest => rw [ih hrest]
      | literal => exact absurd rfl hplain.1
      | group => exact absurd rfl hplain.2.1
  | @literal held rest left hheld _ ih =>
      generalize htext : held ++ '"' :: rest = more at h'
      cases h' with
      | char hplain => exact absurd rfl hplain.1
      | @literal held' rest' _ hheld' hrest =>
          obtain ⟨rfl, rfl⟩ := eq_of_append_quote hheld hheld' htext
          rw [ih hrest]
  | @group held rest left hheld _ ih =>
      generalize htext : held ++ ')' :: rest = more at h'
      cases h' with
      | char hplain => exact absurd rfl hplain.2.1
      | @group held' rest' _ hheld' hrest =>
          have hcut := (paired_iff_balanced.mp hheld).cutGroup_close rest
          rw [htext, (paired_iff_balanced.mp hheld').cutGroup_close] at hcut
          obtain ⟨rfl, rfl⟩ := Prod.mk.inj (Option.some.inj hcut)
          rw [ih hrest]

end Outline

/-- What the pass makes of a literal. -/
theorem Resolves.of_inside {held rest : List Char} (hheld : '"' ∉ held) {p : Pending}
    (h : Resolves eval scope true (held ++ '"' :: rest) p) :
    ∃ q, Resolves eval scope false rest q ∧ p.stretch = held ++ '"' :: q.stretch ∧
      p.beyond = q.beyond := by
  induction held generalizing p with
  | nil =>
      cases h with
      | quote hq => exact ⟨_, hq, rfl, rfl⟩
      | literal hquote => exact absurd rfl hquote
  | cons c held ih =>
      obtain ⟨hc, hrest⟩ := List.ne_and_not_mem_of_not_mem_cons hheld
      cases h with
      | quote => exact absurd rfl hc
      | literal _ hq =>
          obtain ⟨q, hq', hstretch, hbeyond⟩ := ih hrest hq
          exact ⟨q, hq', congrArg (c :: ·) hstretch, hbeyond⟩

/-- **The pass puts slots in the place of groups.** What it makes of a complete part of a text
is the outline of that part, in front of what it makes of the rest. -/
theorem Balanced.outline {part rest : List Char} (hpart : Balanced (fun _ => True) part)
    {p : Pending} (h : Resolves eval scope false (part ++ rest) p) :
    ∃ q left, Resolves eval scope false rest q ∧ p.stretch = left ++ q.stretch ∧
      p.beyond = q.beyond ∧ Outline (openings false rest) part left := by
  induction hpart generalizing rest p with
  | nil => exact ⟨p, [], h, rfl, rfl, .nil⟩
  | @char c more _ hquote hopen hclose _ ih =>
      cases h with
      | quote => exact absurd rfl hquote
      | closing => exact absurd rfl hclose
      | opening => exact absurd rfl hopen
      | plain hplain hq =>
          obtain ⟨q, left, hrest, hstretch, hbeyond, houtline⟩ := ih hq
          exact ⟨q, c :: left, hrest, congrArg (c :: ·) hstretch, hbeyond, .char hplain houtline⟩
  | @literal held more hheld _ ih =>
      rw [List.append_assoc, List.cons_append, List.cons_append] at h
      cases h with
      | plain hplain => exact absurd rfl hplain.1
      | quote hliteral =>
          obtain ⟨q', hq', hstretch', hbeyond'⟩ := hliteral.of_inside hheld
          obtain ⟨q, left, hrest, hstretch, hbeyond, houtline⟩ := ih hq'
          refine ⟨q, '"' :: (held ++ '"' :: left), hrest, ?_, hbeyond'.trans hbeyond,
            .literal hheld houtline⟩
          rw [Pending.ahead, hstretch', hstretch]
          simp
  | @group held more hheld hmore iheld ih =>
      rw [List.append_assoc, List.cons_append, List.cons_append] at h
      cases h with
      | plain hplain => exact absurd rfl hplain.2.1
      | @opening _ next beyond p value hp hbeyond hvalue =>
          obtain ⟨q', inner, hq', -, hbeyond', -⟩ := iheld hp
          cases hq' with
          | plain hplain => exact absurd rfl hplain.2.2
          | @closing _ q'' hq'' =>
              obtain ⟨q, left, hrest, hstretch, hbeyond'', houtline⟩ := ih hq''
              obtain ⟨rfl, rfl⟩ := List.cons.inj (hbeyond.symm.trans hbeyond')
              have hnumber : p.values.length
                  = openings false held + openings false more + openings false rest := by
                rw [hp.length_values, hheld.openings_append, Nat.add_assoc,
                  ← hmore.openings_append]
                rfl
              refine ⟨q, slotText p.values.length ++ left, hrest, ?_, hbeyond'', ?_⟩
              · rw [hstretch, List.append_assoc]
              · rw [List.cons_append, hnumber]
                exact .group (paired_iff_balanced.mpr hheld) houtline

/-! ## The turn of a group -/

/-- What happens to a group in its turn. The groups inside it are slots by now. What it holds
is evaluated in the scope of the values so far, and a slot of its own takes its place. -/
structure Group.Turn (eval : Evaluator) (scope : Scope) (g : Group text) (flat : Flattened)
    (part rest : List Char) : Prop where
  text_eq : flat.text = grouped g.before part rest
  outline : Outline (openings false g.after) g.held part
  bare : Bare false part
  failed : ∀ e, eval part (withSlots flat.values scope) = .error e →
    takeGroup eval scope text flat = .error e
  taken : ∀ value, eval part (withSlots flat.values scope) = .ok value →
    takeGroup eval scope text flat =
      .ok (some ⟨g.before ++ slotText g.number ++ rest, flat.values ++ [value]⟩)

/-- When the turn of a group comes, the pass has been through all that is behind its
parenthesis. -/
theorem Group.exists_resolves (h : Paired text) (g : Group text) {flat : Flattened}
    (htaken : Taken eval scope text g.number flat) :
    ∃ p, Resolves eval scope false (g.held ++ ')' :: g.after) p ∧
      flat = ⟨g.before ++ '(' :: p.source, p.values⟩ := by
  have hclosing := (paired_iff_balanced.mp h).not_closesTooOften 0
  have hbehind := g.behind.next
  rw [if_neg (by decide)] at hbehind
  cases hp : resolveFrom eval scope text false (g.held ++ ')' :: g.after) with
  | error e =>
      -- the loop would have stopped before
      obtain ⟨n, flat', hn, htaken', hstop⟩ := taken_of_resolveFrom_error hbehind hclosing hp
      exact absurd hn (Nat.not_lt_of_le ((Ends.failed htaken' hstop).le htaken))
  | ok p =>
      have hresolves := resolves_of_resolveFrom hp
      refine ⟨p, hresolves, ?_⟩
      rw [htaken.unique (hresolves.taken hbehind hclosing), ← List.append_cons]

/-- **Each group has its turn.** -/
theorem Group.turn (h : Paired text) (g : Group text) {flat : Flattened}
    (htaken : Taken eval scope text g.number flat) :
    ∃ part rest, g.Turn eval scope flat part rest := by
  have hclosing := (paired_iff_balanced.mp h).not_closesTooOften 0
  obtain ⟨p, hresolves, hflat⟩ := g.exists_resolves h htaken
  obtain ⟨q, part, hq, hstretch, hbeyond, houtline⟩ := g.balanced.outline hresolves
  cases hq with
  | plain hplain => exact absurd rfl hplain.2.2
  | @closing _ q hq =>
      replace hbeyond : p.beyond = q.stretch :: q.beyond := hbeyond
      replace hstretch : p.stretch = part := hstretch.trans (List.append_nil part)
      have hturn : takeGroup eval scope text flat =
          (p.open? eval scope text).map fun q => some ⟨g.before ++ q.source, q.values⟩ := by
        rw [hflat]
        exact takeGroup_source hresolves.stretches g.outside
          (hresolves.closesTooOften_opening g.behind hclosing)
      rw [Pending.open?, hbeyond, hstretch] at hturn
      have hvalues : flat.values = p.values := by rw [hflat]
      refine ⟨part, q.source, ?_, houtline, houtline.bare, fun e he => ?_, fun value hvalue => ?_⟩
      · rw [hflat, Pending.source_of_beyond hbeyond, hstretch]
        rfl
      · rw [hvalues] at he
        rw [hturn]
        dsimp only
        rw [he]
        rfl
      · have hnumber : p.values.length = g.number := hvalues ▸ htaken.length_values
        rw [hvalues] at hvalue
        rw [hturn, hvalues, ← hnumber]
        dsimp only
        rw [hvalue]
        simp only [Except.map, Pending.source, List.append_assoc]

/-! ## Outermost groups -/

/-- A character that stands in one of two parts. -/
theorem append_eq_append_cons {a b before after : List Char} {c : Char}
    (h : a ++ b = before ++ c :: after) :
    (∃ start, before = a ++ start ∧ b = start ++ c :: after) ∨
      ∃ more, a = before ++ c :: more ∧ after = more ++ b := by
  rcases List.append_eq_append_iff.mp h with ⟨start, hbefore, hb⟩ | ⟨more, ha, hmore⟩
  · exact .inl ⟨start, hbefore, hb⟩
  · cases more with
    | nil => exact .inl ⟨[], by rw [ha, List.append_nil, List.append_nil], hmore.symm⟩
    | cons d more =>
        obtain ⟨rfl, hafter⟩ := List.cons.inj hmore
        exact .inr ⟨more, ha, hafter⟩

/-- A group that opens in the first text closes in the second one. -/
def StillOpen (before after : List Char) : Prop :=
  ∃ outer back inner rest, before = outer ++ '(' :: back ∧ insideAfter false outer = false ∧
    after = inner ++ ')' :: rest ∧ Balanced (fun _ => True) (back ++ '(' :: inner)

/-- A complete text in front makes no difference. -/
theorem Balanced.append_or_stillOpen {run start after : List Char} (hrun : Balanced (fun _ => True) run)
    (h : Balanced (fun _ => True) start ∨ StillOpen start after) :
    Balanced (fun _ => True) (run ++ start) ∨ StillOpen (run ++ start) after := by
  rcases h with hstart | ⟨outer, back, inner, rest, rfl, houter, hafter, hinner⟩
  · exact .inl (hrun.append hstart)
  · exact .inr ⟨run ++ outer, back, inner, rest, (List.append_assoc ..).symm,
      (hrun.insideAfter_append _).trans houter, hafter, hinner⟩

/-- What is in front of a parenthesis is complete, or a group is still open there. -/
theorem Balanced.balanced_or_stillOpen {whole before after : List Char}
    (h : Balanced (fun _ => True) whole) (hinside : insideAfter false before = false)
    (heq : whole = before ++ '(' :: after) :
    Balanced (fun _ => True) before ∨ StillOpen before after := by
  induction h generalizing before after with
  | nil => exact absurd heq (by simp)
  | @char c more hc hquote hopen hclose _ ih =>
      have hrun : Balanced (fun _ => True) [c] := .char hc hquote hopen hclose .nil
      rcases append_eq_append_cons (a := [c]) heq with ⟨start, rfl, hmore⟩ | ⟨inner, hchar, -⟩
      · exact hrun.append_or_stillOpen (ih ((hrun.insideAfter_append _).symm.trans hinside) hmore)
      · have hmem : '(' ∈ [c] := hchar ▸ List.mem_append_right _ List.mem_cons_self
        exact absurd (List.mem_singleton.mp hmem).symm hopen
  | @literal held more hheld _ ih =>
      have hrun : Balanced (fun _ => True) ('"' :: held ++ ['"']) := .of_literal hheld
      have hsplit : '"' :: held ++ '"' :: more = '"' :: held ++ ['"'] ++ more := by simp
      rcases append_eq_append_cons (hsplit.symm.trans heq) with
        ⟨start, rfl, hmore⟩ | ⟨inner, hliteral, -⟩
      · exact hrun.append_or_stillOpen (ih ((hrun.insideAfter_append _).symm.trans hinside) hmore)
      · have hnone : openings false ('"' :: held ++ ['"']) = 0 := openings_inside hheld []
        rw [hliteral, Expr.openings_append, hinside] at hnone
        exact absurd hnone (Nat.succ_ne_zero _)
  | @group held more hheld _ _ ih =>
      have hrun : Balanced (fun _ => True) ('(' :: held ++ [')']) := .of_group hheld
      have hsplit : '(' :: held ++ ')' :: more = '(' :: held ++ [')'] ++ more := by simp
      rcases append_eq_append_cons (hsplit.symm.trans heq) with
        ⟨start, rfl, hmore⟩ | ⟨inner, hgroup, hafter⟩
      · exact hrun.append_or_stillOpen (ih ((hrun.insideAfter_append _).symm.trans hinside) hmore)
      · cases before with
        | nil => exact .inl .nil
        | cons d back =>
            obtain ⟨rfl, hrest⟩ := List.cons.inj hgroup
            rcases append_eq_append_cons hrest with ⟨start, -, hstart⟩ | ⟨inner', hback, rfl⟩
            · have hmem : '(' ∈ [')'] := hstart ▸ List.mem_append_right _ List.mem_cons_self
              exact absurd hmem (by decide)
            · refine .inr ⟨[], back, inner', more, rfl, rfl, ?_, hback ▸ hheld⟩
              rw [hafter, List.append_assoc]
              rfl

/-- The text in front of an outermost group is complete. -/
theorem Group.Outermost.balanced_before (h : Paired text) {g : Group text} (hg : g.Outermost) :
    Balanced (fun _ => True) g.before := by
  refine ((paired_iff_balanced.mp h).balanced_or_stillOpen g.outside g.eq_grouped).resolve_right ?_
  rintro ⟨outer, back, inner, rest, hbefore, houter, hafter, hinner⟩
  -- the group that is still open closes behind this one
  have hback : insideAfter false back = false := by
    have hinside := g.outside
    rwa [hbefore, insideAfter_append, houter, insideAfter, if_neg (by decide)] at hinside
  obtain ⟨held, more, rfl, hheld⟩ := hinner.exists_close hback rfl
  have hcut := g.balanced.cutGroup_close g.after
  rw [hafter, List.append_assoc, List.cons_append, hheld.cutGroup_close] at hcut
  obtain ⟨-, hrest⟩ := Prod.mk.inj (Option.some.inj hcut)
  have htext : text = grouped outer (back ++ '(' :: (held ++ ')' :: more)) rest := by
    rw [g.eq_grouped, grouped, hbefore, hafter]
    simp [grouped]
  have hopens : outer.length < g.before.length := by
    rw [hbefore, List.length_append, List.length_cons]
    omega
  have hcloses : rest.length < g.after.length := by
    rw [← hrest, List.length_append, List.length_cons]
    omega
  exact hg ⟨outer, _, rest, htext, houter, paired_iff_balanced.mpr hinner⟩ ⟨hopens, hcloses⟩

/-! ## What the groups leave -/

/-- The text behind an outermost group is complete. -/
theorem Group.Outermost.balanced_after (h : Paired text) {g : Group text} (hg : g.Outermost) :
    Balanced (fun _ => True) g.after := by
  have hclosed := paired_iff_closes.mp h
  have hgroup : Balanced (fun _ => True) ('(' :: (g.held ++ [')'])) := .of_group g.balanced
  rw [g.eq_grouped, grouped, (hg.balanced_before h).closes_append, List.append_cons g.held,
    ← List.cons_append, hgroup.closes_append] at hclosed
  exact closes_zero_iff.mp hclosed

/-- An outermost group gives way to a slot with its number. -/
theorem Group.Outermost.slot (h : Paired text) {g : Group text} (hg : g.Outermost) {p : Pending}
    (hresolves : Resolves eval scope false text p) :
    ∃ front back, p.stretch = front ++ slotText g.number ++ back ∧
      Outline (g.number + 1) g.before front ∧ Outline 0 g.after back := by
  rw [g.eq_grouped] at hresolves
  obtain ⟨q, front, hq, hstretch, -, hfront⟩ := (hg.balanced_before h).outline hresolves
  rw [List.append_cons g.held, ← List.cons_append] at hq
  obtain ⟨q', middle, hq', hstretch', -, hmiddle⟩ := (Balanced.of_group g.balanced).outline hq
  rw [← List.append_nil g.after] at hq'
  obtain ⟨q'', back, hq'', hstretch'', -, hback⟩ := (hg.balanced_after h).outline hq'
  have hslot : middle = slotText g.number := by
    rw [hmiddle.unique (.group g.paired .nil), List.append_nil, g.number_eq]
    rfl
  cases hq''
  refine ⟨front, back, ?_, hfront, hback⟩
  rw [hstretch, hstretch', hstretch'', hslot, List.append_nil, List.append_assoc]

/-- What a text becomes when all of its groups have had their turn. -/
structure Resolution (eval : Evaluator) (scope : Scope) (text : List Char) (flat : Flattened) :
    Prop where
  /-- There has been a turn for each group, and none is left. -/
  ends : Ends eval scope text (openings false text) (.ok flat)
  bare : Bare false flat.text
  length_values : flat.values.length = openings false text
  /-- Outside the groups nothing has changed. -/
  outline : Outline 0 text flat.text
  /-- The slot with the number of a group holds its value. -/
  value : ∀ g : Group text, ∃ part value, Outline (openings false g.after) g.held part ∧
    Bare false part ∧ eval part (withSlots (flat.values.take g.number) scope) = .ok value ∧
    flat.values[g.number]? = some value
  /-- An outermost group has given way to its slot. -/
  slot : ∀ g : Group text, g.Outermost → ∃ front back,
    flat.text = front ++ slotText g.number ++ back ∧
    Outline (g.number + 1) g.before front ∧ Outline 0 g.after back

/-- A group has a value in its turn, if there is a later one. -/
theorem Group.exists_value (h : Paired text) (g : Group text) {n : Nat} {flat : Flattened}
    (htaken : Taken eval scope text n flat) (hlt : g.number < n) :
    ∃ part value, Outline (openings false g.after) g.held part ∧ Bare false part ∧
      eval part (withSlots (flat.values.take g.number) scope) = .ok value ∧
      flat.values[g.number]? = some value := by
  obtain ⟨flat', htaken'⟩ := htaken.exists_of_le hlt
  cases htaken' with
  | @next _ flat₀ _ hbefore hturn =>
      obtain ⟨part, rest, turn⟩ := g.turn h hbefore
      cases hvalue : eval part (withSlots flat₀.values scope) with
      | error e =>
          rw [turn.failed e hvalue] at hturn
          cases hturn
      | ok value =>
          have hprefix := (hbefore.next hturn).values_mono htaken hlt
          rw [turn.taken value hvalue] at hturn
          obtain rfl := Option.some.inj (Except.ok.inj hturn)
          obtain ⟨more, hmore⟩ := hprefix
          have hlength := hbefore.length_values
          have htake : flat.values.take g.number = flat₀.values := by
            rw [← hmore, List.append_assoc, ← hlength, List.take_left]
          have hget : flat.values[g.number]? = some value := by
            rw [← hmore, List.append_assoc, ← hlength, List.getElem?_append_right (Nat.le_refl _),
              Nat.sub_self]
            rfl
          exact ⟨part, value, turn.outline, turn.bare, by rw [htake, hvalue], hget⟩

theorem resolution_of_resolveGroups (h : Paired text) {flat : Flattened}
    (hflat : resolveGroups eval text scope = .ok flat) : Resolution eval scope text flat := by
  have hends := ends_of_resolveGroups hflat
  obtain ⟨-, beyond, hresolves⟩ := resolveGroups_eq_ok hflat
  have hwhole := hresolves
  rw [← List.append_nil text] at hwhole
  obtain ⟨q, left, hq, hstretch, -, houtline⟩ := (paired_iff_balanced.mp h).outline hwhole
  cases hq
  replace hstretch : flat.text = left := hstretch.trans (List.append_nil left)
  cases hends with
  | done htaken hstop =>
      exact {
        ends := .done htaken hstop
        bare := hstretch ▸ houtline.bare
        length_values := htaken.length_values
        outline := hstretch ▸ houtline
        value := fun g => g.exists_value h htaken g.number_lt
        slot := fun g hg => hg.slot h hresolves }

/-- The pass fails where the turn of a group does. -/
theorem resolveGroups_eq_error_iff (h : Paired text) {e : Error} :
    resolveGroups eval text scope = .error e ↔
      ∃ (g : Group text) (flat : Flattened) (part rest : List Char),
        Taken eval scope text g.number flat ∧ g.Turn eval scope flat part rest ∧
        eval part (withSlots flat.values scope) = .error e := by
  constructor
  · intro herror
    obtain ⟨n, flat, hn, htaken, hstop⟩ := taken_of_resolveGroups_error
      ((paired_iff_balanced.mp h).not_closesTooOften 0) herror
    obtain ⟨g, rfl, -⟩ := h.existsUnique_group hn
    obtain ⟨part, rest, turn⟩ := g.turn h htaken
    refine ⟨g, flat, part, rest, htaken, turn, ?_⟩
    cases hvalue : eval part (withSlots flat.values scope) with
    | ok value =>
        rw [turn.taken value hvalue] at hstop
        cases hstop
    | error e' =>
        rw [turn.failed e' hvalue] at hstop
        exact congrArg Except.error (Except.error.inj hstop)
  · rintro ⟨g, flat, part, rest, htaken, turn, he⟩
    exact resolveGroups_eq_iff.mpr ⟨_, .failed htaken (turn.failed e he)⟩

/-- **Groups are resolved in turn.** The groups of a complete text have the numbers below the
number of parentheses that open, and those inside a group have smaller ones than the group.
Each turn is that of the group with its number, in which the group is evaluated on a text
without parentheses. The first group that fails ends the loop with its error. Otherwise each
has its turn, and a text without parentheses is left in which slots with the values of the
outermost groups have taken their place. -/
theorem resolveGroups_inTurn (eval : Evaluator) (scope : Scope) (text : List Char)
    (h : Paired text) :
    ((∀ n < openings false text, ∃! g : Group text, g.number = n) ∧
      ∀ g : Group text, g.number < openings false text ∧
        ∀ outer : Group text, g.Inside outer → g.number < outer.number) ∧
    (∀ n flat, Taken eval scope text n flat → n ≤ openings false text ∧ flat.values.length = n ∧
      ∀ g : Group text, g.number = n → ∃ part rest, g.Turn eval scope flat part rest) ∧
    (∀ e, resolveGroups eval text scope = .error e ↔
      ∃ (g : Group text) (flat : Flattened) (part rest : List Char),
        Taken eval scope text g.number flat ∧ g.Turn eval scope flat part rest ∧
        eval part (withSlots flat.values scope) = .error e) ∧
    ∀ flat, resolveGroups eval text scope = .ok flat → Resolution eval scope text flat := by
  refine ⟨⟨fun n hn => h.existsUnique_group hn, fun g => ⟨g.number_lt, fun outer =>
    Group.number_lt_of_inside⟩⟩, fun n flat htaken => ?_, fun e => resolveGroups_eq_error_iff h,
    fun flat hflat => resolution_of_resolveGroups h hflat⟩
  refine ⟨htaken.le_openings, htaken.length_values, ?_⟩
  rintro g rfl
  exact g.turn h htaken

/-- A group in a group, and one behind them. The slot of the inner one is gone. -/
theorem resolveGroups_inTurn_nested :
    Paired "(1 + (2 * 3)) - (\")\")".toList ∧ ∃ flat,
      resolveGroups evaluate "(1 + (2 * 3)) - (\")\")".toList (fun _ => none) = .ok flat ∧
      flat.text = " $2  -  $0 ".toList ∧ flat.values = [.str ")", .int 6, .int 7] ∧
      Resolution evaluate (fun _ => none) "(1 + (2 * 3)) - (\")\")".toList flat := by
  have hpaired : Paired "(1 + (2 * 3)) - (\")\")".toList := by decide
  have hrun : (resolveGroups evaluate "(1 + (2 * 3)) - (\")\")".toList (fun _ => none)).map
      (fun flat => (flat.text, flat.values))
      = .ok (" $2  -  $0 ".toList, [.str ")", .int 6, .int 7]) := by decide +kernel
  have hresolution := (resolveGroups_inTurn evaluate (fun _ => none)
    "(1 + (2 * 3)) - (\")\")".toList hpaired).2.2.2
  cases hflat : resolveGroups evaluate "(1 + (2 * 3)) - (\")\")".toList (fun _ => none) with
  | error e => rw [hflat] at hrun; cases hrun
  | ok flat =>
      rw [hflat] at hrun
      obtain ⟨htext, hvalues⟩ := Prod.mk.inj (Except.ok.inj hrun)
      exact ⟨hpaired, flat, rfl, htext, hvalues, hresolution flat hflat⟩

end Flowchart.Expr
