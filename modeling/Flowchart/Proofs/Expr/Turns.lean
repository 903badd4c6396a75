import Flowchart.Proofs.Expr.Depth
import Flowchart.Proofs.Expr.Rejection

/-!
# Groups, one at a time

The pass of `resolveGroups` reads a text once. The same can be told as a loop over a text
that changes. A turn of the loop looks for the last parenthesis that opens, evaluates what
it encloses and writes a slot in the place of the group, and the next turn scans the new
text from its start (`takeGroup`). So many turns lead from a text to another one with the
values of its slots (`Taken`).

The loop and the pass are one, on every text: they have the same result and the same error
(`resolveGroups_eq_iff`). What the pass knows of a text behind a position can be written out
as a text again (`Pending.source`), and behind the part that is not read yet this is the text
that the loop has come to (`Resolves.taken`).
-/

namespace Flowchart.Expr

variable {eval : Evaluator} {scope : Scope} {whole text before : List Char} {inside : Bool}

/-! ## The loop -/

/-- Cuts a text at the last parenthesis that opens outside the literals: into what is in
front of it and what is behind it. -/
def lastOpening? : (inside : Bool) → List Char → Option (List Char × List Char)
  | _, [] => none
  | inside, c :: rest =>
    match lastOpening? (if c = '"' then !inside else inside) rest with
    | some cut => some (ahead c cut)
    | none => if !inside && c = '(' then some ([], rest) else none

/-- One turn: a slot takes the place of the last group, whose value is kept. There is
nothing to take where no parenthesis opens. -/
def takeGroup (eval : Evaluator) (scope : Scope) (whole : List Char) (flat : Flattened) :
    Except Error (Option Flattened) :=
  if closesTooOften 0 false flat.text then
    .error (.illFormed (.unopenedGroup (String.ofList whole)))
  else
    match lastOpening? false flat.text with
    | none => .ok none
    | some (before, rest) =>
      match cutGroup 0 false rest with
      | none => .error (.illFormed (.unclosedGroup (String.ofList whole)))
      | some (held, after) =>
        match eval held (withSlots flat.values scope) with
        | .error e => .error e
        | .ok value =>
          .ok (some ⟨before ++ slotText flat.values.length ++ after, flat.values ++ [value]⟩)

/-- After so many turns the loop has come to this. -/
inductive Taken (eval : Evaluator) (scope : Scope) (whole : List Char) : Nat → Flattened → Prop where
  | start : Taken eval scope whole 0 ⟨whole, []⟩
  | next {n : Nat} {flat flat' : Flattened} :
      Taken eval scope whole n flat → takeGroup eval scope whole flat = .ok (some flat') →
      Taken eval scope whole (n + 1) flat'

namespace Taken

variable {n m : Nat} {flat flat' : Flattened}

/-- A loop comes to one text after so many turns. -/
theorem unique (h : Taken eval scope whole n flat) (h' : Taken eval scope whole n flat') :
    flat = flat' := by
  induction h generalizing flat' with
  | start => cases h'; rfl
  | next _ hturn ih =>
      cases h' with
      | next hbefore hturn' =>
          rw [ih hbefore, hturn'] at hturn
          exact (Option.some.inj (Except.ok.inj hturn)).symm

/-- Turns come one after the other. -/
theorem exists_of_le (h : Taken eval scope whole n flat) (hle : m ≤ n) :
    ∃ flat', Taken eval scope whole m flat' := by
  induction h with
  | start =>
      obtain rfl := Nat.le_zero.mp hle
      exact ⟨_, .start⟩
  | @next n _ flat hbefore hturn ih =>
      rcases Nat.le_succ_iff.mp hle with hlt | rfl
      · exact ih hlt
      · exact ⟨flat, hbefore.next hturn⟩

end Taken

/-- So many turns lead to the end, where no group is left or a turn fails. -/
inductive Ends (eval : Evaluator) (scope : Scope) (whole : List Char) :
    Nat → Except Error Flattened → Prop where
  | done {n : Nat} {flat : Flattened} :
      Taken eval scope whole n flat → takeGroup eval scope whole flat = .ok none →
      Ends eval scope whole n (.ok flat)
  | failed {n : Nat} {flat : Flattened} {e : Error} :
      Taken eval scope whole n flat → takeGroup eval scope whole flat = .error e →
      Ends eval scope whole n (.error e)

namespace Ends

variable {n m : Nat} {outcome outcome' : Except Error Flattened}

/-- There is no turn after the end. -/
theorem le {flat : Flattened} (h : Ends eval scope whole n outcome)
    (h' : Taken eval scope whole m flat) : m ≤ n := by
  by_contra hlt
  obtain ⟨later, hlater⟩ := h'.exists_of_le (Nat.lt_of_not_le hlt)
  cases hlater with
  | next hbefore hturn =>
      cases h with
      | done htaken hstop | failed htaken hstop =>
          rw [hbefore.unique htaken, hstop] at hturn
          cases hturn

/-- The loop ends in one way. -/
theorem unique (h : Ends eval scope whole n outcome) (h' : Ends eval scope whole m outcome') :
    n = m ∧ outcome = outcome' := by
  have hle : m ≤ n := by
    cases h' with
    | done htaken | failed htaken => exact h.le htaken
  have hge : n ≤ m := by
    cases h with
    | done htaken | failed htaken => exact h'.le htaken
  obtain rfl := Nat.le_antisymm hge hle
  refine ⟨rfl, ?_⟩
  cases h with
  | done htaken hstop =>
      cases h' with
      | done htaken' _ => rw [htaken.unique htaken']
      | failed htaken' hstop' =>
          rw [htaken.unique htaken', hstop'] at hstop
          cases hstop
  | failed htaken hstop =>
      cases h' with
      | done htaken' hstop' =>
          rw [htaken.unique htaken', hstop'] at hstop
          cases hstop
      | failed htaken' hstop' =>
          rw [htaken.unique htaken', hstop'] at hstop
          rw [Except.error.inj hstop]

end Ends

theorem takeGroup_eq_some {flat flat' : Flattened}
    (h : takeGroup eval scope whole flat = .ok (some flat')) :
    ∃ value, flat'.values = flat.values ++ [value] := by
  rw [takeGroup] at h
  split at h
  · cases h
  · split at h
    · cases h
    · split at h
      · cases h
      · split at h
        · cases h
        · next value _ =>
          obtain rfl := Option.some.inj (Except.ok.inj h)
          exact ⟨value, rfl⟩

/-- Each turn adds a value, and those that are there stay. -/
theorem Taken.values_mono {n : Nat} {flat flat' : Flattened}
    (h : Taken eval scope whole n flat) {m : Nat} (h' : Taken eval scope whole m flat')
    (hle : n ≤ m) : flat.values <+: flat'.values := by
  induction h' with
  | start =>
      obtain rfl := Nat.le_zero.mp hle
      rw [h.unique .start]
  | next hbefore hturn ih =>
      rcases Nat.le_succ_iff.mp hle with hlt | rfl
      · obtain ⟨value, hvalues⟩ := takeGroup_eq_some hturn
        exact (ih hlt).trans (hvalues ▸ List.prefix_append _ _)
      · rw [h.unique (hbefore.next hturn)]

theorem Taken.length_values {n : Nat} {flat : Flattened} (h : Taken eval scope whole n flat) :
    flat.values.length = n := by
  induction h with
  | start => rfl
  | next _ hturn ih =>
      obtain ⟨value, hvalues⟩ := takeGroup_eq_some hturn
      rw [hvalues, List.length_append, ih, List.length_singleton]

/-! ## Texts without parentheses -/

/-- No parenthesis stands outside the literals. -/
def Bare (inside : Bool) (text : List Char) : Prop :=
  '(' ∉ outside inside text ∧ ')' ∉ outside inside text

section Bare

variable {c : Char} {rest : List Char}

theorem bare_nil : Bare inside [] :=
  ⟨List.not_mem_nil, List.not_mem_nil⟩

theorem bare_quote : Bare inside ('"' :: rest) ↔ Bare (!inside) rest := by
  rw [Bare, outside, if_pos rfl, Bare]

theorem bare_literal (h : c ≠ '"') : Bare true (c :: rest) ↔ Bare true rest := by
  rw [Bare, outside, if_neg h, if_pos rfl, Bare]

theorem bare_plain (h : c ≠ '"' ∧ c ≠ '(' ∧ c ≠ ')') :
    Bare false (c :: rest) ↔ Bare false rest := by
  rw [Bare, outside, if_neg h.1, if_neg Bool.false_ne_true, Bare, List.mem_cons, List.mem_cons,
    or_iff_right (Ne.symm h.2.1), or_iff_right (Ne.symm h.2.2)]

theorem bare_run {run : List Char} (h : ∀ c ∈ run, c ≠ '"' ∧ c ≠ '(' ∧ c ≠ ')') :
    Bare false (run ++ rest) ↔ Bare false rest := by
  induction run with
  | nil => rfl
  | cons c run ih =>
      obtain ⟨hc, hrun⟩ := List.forall_mem_cons.mp h
      rw [List.cons_append, bare_plain hc, ih hrun]

/-- A literal holds no parentheses that count. -/
theorem bare_inside {held : List Char} (h : '"' ∉ held) :
    Bare true (held ++ '"' :: rest) ↔ Bare false rest := by
  induction held with
  | nil => exact bare_quote
  | cons c held ih =>
      obtain ⟨hc, hheld⟩ := List.ne_and_not_mem_of_not_mem_cons h
      rw [List.cons_append, bare_literal (Ne.symm hc), ih hheld]

/-- A text without parentheses is complete if it ends outside the literals. -/
theorem Bare.paired (h : Bare false text) (hinside : insideAfter false text = false) :
    Paired text := by
  rw [paired_iff_closes, closes_iff_count]
  refine ⟨hinside, fun front hfront => ?_, ?_⟩
  · rw [List.count_eq_zero_of_not_mem fun hmem => h.2 (hfront.mem hmem)]
    exact Nat.zero_le _
  · rw [List.count_eq_zero_of_not_mem h.1, List.count_eq_zero_of_not_mem h.2]

theorem Bare.openings_eq_zero (h : Bare inside text) : openings inside text = 0 := by
  induction text generalizing inside with
  | nil => rfl
  | cons c rest ih =>
      rcases scan_cases inside c with rfl | ⟨hquote, rfl⟩ | ⟨rfl, rfl⟩ | ⟨rfl, rfl⟩ |
        ⟨hplain, rfl⟩
      · exact ih (bare_quote.mp h)
      · rw [openings, if_neg hquote]
        exact ih ((bare_literal hquote).mp h)
      · exact absurd List.mem_cons_self h.1
      · exact absurd List.mem_cons_self h.2
      · rw [openings, if_neg hplain.1, if_neg (by simp [hplain.2.1])]
        exact ih ((bare_plain hplain).mp h)

/-- Nothing is cut off a text without parentheses. -/
theorem Bare.cutGroup_eq_none (h : Bare inside text) (depth : Nat) :
    cutGroup depth inside text = none := by
  induction text generalizing inside with
  | nil => rfl
  | cons c rest ih =>
      rw [cutGroup.eq_def]
      rcases scan_cases inside c with rfl | ⟨hquote, rfl⟩ | ⟨rfl, rfl⟩ | ⟨rfl, rfl⟩ |
        ⟨hplain, rfl⟩
      · simp [ih (bare_quote.mp h)]
      · simp [hquote, ih ((bare_literal hquote).mp h)]
      · exact absurd List.mem_cons_self h.1
      · exact absurd List.mem_cons_self h.2
      · simp [hplain, ih ((bare_plain hplain).mp h)]

end Bare

theorem lastOpening?_eq_none (h : openings inside text = 0) : lastOpening? inside text = none := by
  induction text generalizing inside with
  | nil => rfl
  | cons c rest ih =>
      rw [openings] at h
      rw [lastOpening?]
      by_cases hquote : c = '"'
      · rw [if_pos hquote] at h
        simp [hquote, ih h]
      · rw [if_neg hquote] at h
        by_cases hopen : (!inside && decide (c = '(')) = true
        · rw [if_pos hopen] at h
          exact absurd h (Nat.succ_ne_zero _)
        · rw [if_neg hopen] at h
          simp only [if_neg hquote, ih h, if_neg hopen]

/-- The last parenthesis that opens is the one behind which none does. -/
theorem lastOpening?_append (hinside : insideAfter inside before = false)
    (h : openings false text = 0) :
    lastOpening? inside (before ++ '(' :: text) = some (before, text) := by
  induction before generalizing inside with
  | nil =>
      obtain rfl : inside = false := hinside
      rw [List.nil_append, lastOpening?, if_neg (by decide), lastOpening?_eq_none h]
      rfl
  | cons c before ih =>
      rw [List.cons_append, lastOpening?, ih hinside]
      rfl

/-! ## What is known, as a text -/

/-- The stretches behind a position hold no parentheses, and all but the last end outside
the literals. -/
def Stretches : (inside : Bool) → List Char → List (List Char) → Prop
  | inside, stretch, [] => Bare inside stretch
  | inside, stretch, next :: beyond =>
    Bare inside stretch ∧ insideAfter inside stretch = false ∧ Stretches false next beyond

namespace Stretches

variable {stretch : List Char} {beyond : List (List Char)}

theorem bare (h : Stretches inside stretch beyond) : Bare inside stretch := by
  cases beyond with
  | nil => exact h
  | cons next beyond => exact h.1

/-- Another first stretch, with as little in it. -/
theorem front {inside' : Bool} {stretch' : List Char}
    (hbare : Bare inside stretch → Bare inside' stretch')
    (hinside : insideAfter inside' stretch' = insideAfter inside stretch)
    (h : Stretches inside stretch beyond) : Stretches inside' stretch' beyond := by
  cases beyond with
  | nil => exact hbare h
  | cons next beyond => exact ⟨hbare h.1, hinside.trans h.2.1, h.2.2⟩

end Stretches

theorem Resolves.stretches {p : Pending} (h : Resolves eval scope inside text p) :
    Stretches inside p.stretch p.beyond := by
  induction h with
  | nil => exact bare_nil
  | quote _ ih => exact ih.front bare_quote.mpr rfl
  | literal hquote _ ih =>
      exact ih.front (bare_literal hquote).mpr (by rw [Pending.ahead, insideAfter, if_neg hquote])
  | plain hplain _ ih =>
      exact ih.front (bare_plain hplain).mpr (by rw [Pending.ahead, insideAfter, if_neg hplain.1])
  | closing _ ih => exact ⟨bare_nil, rfl, ih⟩
  | opening _ hbeyond _ ih =>
      rw [hbeyond] at ih
      have hslot := slotText_plain
      refine ih.2.2.front (bare_run (hslot _)).mpr ?_
      rw [insideAfter_append, insideAfter_of_not_mem fun hmem => (hslot _ _ hmem).1 rfl]

/-- What is known of the text behind a position, as a text: the groups that have been
evaluated are slots, and the parentheses that wait are still there. -/
def Pending.source (p : Pending) : List Char :=
  p.stretch ++ p.beyond.flatMap fun stretch => ')' :: stretch

theorem Pending.source_of_beyond {p : Pending} {next : List Char} {beyond : List (List Char)}
    (h : p.beyond = next :: beyond) :
    p.source = p.stretch ++ ')' :: (⟨next, beyond, p.values⟩ : Pending).source := by
  rw [Pending.source, h]
  rfl

theorem Stretches.openings_source {p : Pending} (h : Stretches inside p.stretch p.beyond) :
    openings inside p.source = 0 := by
  obtain ⟨stretch, beyond, values⟩ := p
  induction beyond generalizing inside stretch with
  | nil =>
      rw [Pending.source, List.flatMap_nil, List.append_nil]
      exact h.openings_eq_zero
  | cons next beyond ih =>
      obtain ⟨hbare, hinside, hnext⟩ := h
      rw [Pending.source_of_beyond rfl, openings_append, hinside, hbare.openings_eq_zero, Nat.zero_add]
      exact ih _ hnext

/-- The parenthesis that closes the group in front of what is known is the first that
waits. -/
theorem Stretches.cutGroup_source {p : Pending} (h : Stretches false p.stretch p.beyond) :
    cutGroup 0 false p.source = p.beyond.head?.map fun next =>
      (p.stretch, (⟨next, p.beyond.tail, p.values⟩ : Pending).source) := by
  cases hbeyond : p.beyond with
  | nil =>
      rw [Pending.source, hbeyond, List.flatMap_nil, List.append_nil]
      exact h.bare.cutGroup_eq_none 0
  | cons next beyond =>
      rw [hbeyond] at h
      rw [Pending.source_of_beyond hbeyond]
      exact (paired_iff_balanced.mp (h.1.paired h.2.1)).cutGroup_close _

theorem closesTooOften_front {a b : List Char}
    (h : ∀ depth, closesTooOften depth (insideAfter inside before) a = false →
      closesTooOften depth (insideAfter inside before) b = false) {depth : Nat}
    (ha : closesTooOften depth inside (before ++ a) = false) :
    closesTooOften depth inside (before ++ b) = false := by
  induction before generalizing inside depth with
  | nil => exact h depth ha
  | cons c before ih =>
      rw [List.cons_append, closesTooOften.eq_def] at ha ⊢
      rw [insideAfter] at h
      rcases scan_cases inside c with rfl | ⟨hquote, rfl⟩ | ⟨rfl, rfl⟩ | ⟨rfl, rfl⟩ |
        ⟨hplain, rfl⟩
      · exact ih h ha
      · rw [if_neg hquote] at h
        simp only [if_neg hquote, if_pos] at ha ⊢
        exact ih h ha
      · exact ih h ha
      · cases depth with
        | zero => exact Bool.noConfusion ha
        | succ depth => exact ih h ha
      · rw [if_neg hplain.1] at h
        simp only [hplain, if_false, Bool.false_eq_true] at ha ⊢
        exact ih h ha

/-- What is known closes no more than the text does. -/
theorem Resolves.closesTooOften_source {p : Pending} (h : Resolves eval scope inside text p)
    {depth : Nat} (hclosing : closesTooOften depth inside text = false) :
    closesTooOften depth inside p.source = false := by
  have front {c : Char} {inside : Bool} {rest : List Char} {p : Pending} {depth : Nat}
      (ih : ∀ {depth : Nat}, closesTooOften depth (insideAfter inside [c]) rest = false →
        closesTooOften depth (insideAfter inside [c]) p.source = false)
      (hclosing : closesTooOften depth inside (c :: rest) = false) :
      closesTooOften depth inside (c :: p.source) = false :=
    show closesTooOften depth inside ([c] ++ p.source) = false from
      closesTooOften_front (fun _ => ih) hclosing
  induction h generalizing depth with
  | nil => rfl
  | quote _ ih => exact front ih hclosing
  | literal hquote _ ih =>
      exact front (by rw [insideAfter, if_neg hquote]; exact ih) hclosing
  | plain hplain _ ih =>
      exact front (by rw [insideAfter, if_neg hplain.1]; exact ih) hclosing
  | closing _ ih => exact front ih hclosing
  | @opening rest next beyond q value hq hbeyond _ ih =>
      have hstretches := hq.stretches
      rw [hbeyond] at hstretches
      have hheld : Balanced (fun _ => True) q.stretch :=
        paired_iff_balanced.mp (hstretches.1.paired hstretches.2.1)
      have hslot : Balanced (fun _ => True) (slotText q.values.length) :=
        .of_forall fun c hmem => ⟨trivial, slotText_plain _ c hmem⟩
      have hrest : closesTooOften (depth + 1) false q.source = false := ih hclosing
      rw [Pending.source_of_beyond hbeyond, hheld.closesTooOften_append] at hrest
      rw [Pending.source, List.append_assoc, hslot.closesTooOften_append]
      exact hrest

/-! ## The pass and the loop -/

/-- The rest of the whole behind a position, which is inside a literal or outside. -/
structure Behind (whole before : List Char) (inside : Bool) (text : List Char) : Prop where
  eq : whole = before ++ text
  insideAfter_eq : insideAfter false before = inside

theorem Behind.next {c : Char} (h : Behind whole before inside (c :: text)) :
    Behind whole (before ++ [c]) (if c = '"' then !inside else inside) text where
  eq := h.eq.trans (List.append_cons before c text)
  insideAfter_eq := by
    rw [insideAfter_append, h.insideAfter_eq]
    rfl

theorem Resolves.closesTooOften_opening {p : Pending} (h : Resolves eval scope false text p)
    (hbehind : Behind whole before false ('(' :: text))
    (hclosing : closesTooOften 0 false whole = false) :
    closesTooOften 0 false (before ++ '(' :: p.source) = false := by
  rw [hbehind.eq, List.append_cons] at hclosing
  rw [List.append_cons]
  refine closesTooOften_front (fun depth => ?_) hclosing
  rw [hbehind.next.insideAfter_eq]
  exact h.closesTooOften_source

/-- A turn takes the group that opens in front of what is known. -/
theorem takeGroup_source {p : Pending} (h : Stretches false p.stretch p.beyond)
    (hinside : insideAfter false before = false)
    (hclosing : closesTooOften 0 false (before ++ '(' :: p.source) = false) :
    takeGroup eval scope whole ⟨before ++ '(' :: p.source, p.values⟩
      = (p.open? eval scope whole).map fun q => some ⟨before ++ q.source, q.values⟩ := by
  rw [takeGroup, if_neg (Bool.eq_false_iff.mp hclosing),
    lastOpening?_append hinside h.openings_source]
  dsimp only
  rw [h.cutGroup_source, Pending.open?]
  cases hbeyond : p.beyond with
  | nil => rfl
  | cons next beyond =>
      dsimp only [List.head?_cons, Option.map_some, List.tail_cons]
      cases eval p.stretch (withSlots p.values scope) with
      | error e => rfl
      | ok value =>
          rw [List.append_assoc]
          simp only [Except.map, Pending.source, List.append_assoc]

/-- The text behind a position, read by the pass, is the text that the loop comes to when it
has taken the groups that open there. -/
theorem Resolves.taken {p : Pending} (h : Resolves eval scope inside text p)
    (hbehind : Behind whole before inside text) (hclosing : closesTooOften 0 false whole = false) :
    Taken eval scope whole (openings inside text) ⟨before ++ p.source, p.values⟩ := by
  induction h generalizing before with
  | nil =>
      rw [hbehind.eq]
      exact .start
  | quote _ ih =>
      have hrest := ih hbehind.next
      rwa [← List.append_cons] at hrest
  | literal hquote _ ih =>
      have hnext := hbehind.next
      rw [if_neg hquote] at hnext
      have hrest := ih hnext
      rw [← List.append_cons] at hrest
      rwa [openings, if_neg hquote, if_neg (by simp)]
  | plain hplain _ ih =>
      have hnext := hbehind.next
      rw [if_neg hplain.1] at hnext
      have hrest := ih hnext
      rw [← List.append_cons] at hrest
      rwa [openings, if_neg hplain.1, if_neg (by simp [hplain.2.1])]
  | closing _ ih =>
      have hrest := ih hbehind.next
      rwa [← List.append_cons] at hrest
  | @opening rest next beyond p value hp hbeyond hvalue ih =>
      have hrest := ih hbehind.next
      rw [← List.append_cons] at hrest
      refine hrest.next ?_
      rw [takeGroup_source hp.stretches hbehind.insideAfter_eq
        (hp.closesTooOften_opening hbehind hclosing), Pending.open?, hbeyond]
      dsimp only
      rw [hvalue]
      rfl

/-- Where the pass fails, the loop fails in the same way before it has taken all groups. -/
theorem taken_of_resolveFrom_error {e : Error} (hbehind : Behind whole before inside text)
    (hclosing : closesTooOften 0 false whole = false)
    (h : resolveFrom eval scope whole inside text = .error e) :
    ∃ n flat, n < openings inside text ∧ Taken eval scope whole n flat ∧
      takeGroup eval scope whole flat = .error e := by
  induction text generalizing inside before with
  | nil => cases h
  | cons c rest ih =>
      rw [resolveFrom] at h
      cases hrest : resolveFrom eval scope whole (if c = '"' then !inside else inside) rest with
      | error e' =>
          rw [hrest] at h
          obtain rfl : e' = e := by simpa using h
          obtain ⟨n, flat, hn, htaken⟩ := ih hbehind.next hrest
          exact ⟨n, flat, hn.trans_le ((Nat.le_add_left _ _).trans_eq
            (openings_append inside [c] rest).symm), htaken⟩
      | ok q =>
          rw [hrest] at h
          dsimp only at h
          split at h
          · cases h
          · split at h
            · next hopen =>
              obtain ⟨hinside, hc⟩ := Bool.and_eq_true_iff.mp hopen
              obtain rfl : inside = false := by simpa using hinside
              obtain rfl : c = '(' := by simpa using hc
              have hq : Resolves eval scope false rest q := resolves_of_resolveFrom hrest
              have htaken := hq.taken hbehind.next hclosing
              rw [← List.append_cons] at htaken
              refine ⟨_, _, Nat.lt_succ_self _, htaken, ?_⟩
              rw [takeGroup_source hq.stretches hbehind.insideAfter_eq
                (hq.closesTooOften_opening hbehind hclosing), h]
              rfl
            · cases h

/-- Where the pass has a result, the loop ends with it when it has taken each group. -/
theorem ends_of_resolveGroups {flat : Flattened} (h : resolveGroups eval text scope = .ok flat) :
    Ends eval scope text (openings false text) (.ok flat) := by
  obtain ⟨hclosing, beyond, hresolves⟩ := resolveGroups_eq_ok h
  obtain rfl : beyond = [] :=
    List.eq_nil_of_length_eq_zero (Nat.le_zero.mp (hresolves.length_beyond_le hclosing))
  have hsource : (⟨flat.text, [], flat.values⟩ : Pending).source = flat.text :=
    List.append_nil flat.text
  have hstart : Behind text [] false text := ⟨rfl, rfl⟩
  have htaken := hresolves.taken hstart hclosing
  have hleft := hresolves.closesTooOften_source hclosing
  rw [List.nil_append, hsource] at htaken
  rw [hsource] at hleft
  refine .done htaken ?_
  rw [takeGroup, if_neg (Bool.eq_false_iff.mp hleft), lastOpening?_eq_none hresolves.flat.1]

/-- Where the pass fails on a group, so does the loop. -/
theorem taken_of_resolveGroups_error {e : Error} (hclosing : closesTooOften 0 false text = false)
    (h : resolveGroups eval text scope = .error e) :
    ∃ n flat, n < openings false text ∧ Taken eval scope text n flat ∧
      takeGroup eval scope text flat = .error e := by
  rw [resolveGroups, if_neg (Bool.eq_false_iff.mp hclosing)] at h
  cases hp : resolveFrom eval scope text false text with
  | ok p => rw [hp] at h; cases h
  | error e' =>
      rw [hp] at h
      obtain rfl := Except.error.inj h
      have hstart : Behind text [] false text := ⟨rfl, rfl⟩
      exact taken_of_resolveFrom_error hstart hclosing hp

/-- The loop ends with what the pass comes to, after no more turns than parentheses open. -/
theorem ends_resolveGroups (eval : Evaluator) (scope : Scope) (text : List Char) :
    ∃ n ≤ openings false text, Ends eval scope text n (resolveGroups eval text scope) := by
  cases hresult : resolveGroups eval text scope with
  | ok flat => exact ⟨_, Nat.le_refl _, ends_of_resolveGroups hresult⟩
  | error e =>
      cases hclosing : closesTooOften 0 false text with
      | true =>
          rw [resolveGroups, if_pos hclosing] at hresult
          refine ⟨0, Nat.zero_le _, .failed .start ?_⟩
          rw [takeGroup, if_pos hclosing]
          exact congrArg Except.error (Except.error.inj hresult)
      | false =>
          obtain ⟨n, flat, hn, htaken, hstop⟩ := taken_of_resolveGroups_error hclosing hresult
          exact ⟨n, Nat.le_of_lt hn, .failed htaken hstop⟩

/-- **The pass is the loop**: it comes to what the loop ends with. -/
theorem resolveGroups_eq_iff {outcome : Except Error Flattened} :
    resolveGroups eval text scope = outcome ↔ ∃ n, Ends eval scope text n outcome := by
  obtain ⟨n, -, hends⟩ := ends_resolveGroups eval scope text
  constructor
  · rintro rfl
    exact ⟨n, hends⟩
  · rintro ⟨m, hends'⟩
    exact (hends.unique hends').2

/-- There are at most as many turns as parentheses that open. -/
theorem Taken.le_openings {n : Nat} {flat : Flattened} (h : Taken eval scope text n flat) :
    n ≤ openings false text := by
  obtain ⟨m, hm, hends⟩ := ends_resolveGroups eval scope text
  exact (hends.le h).trans hm

/-- Where a turn has come to an end, no parenthesis closed too often at the start. -/
theorem Taken.not_closesTooOften {n : Nat} {flat : Flattened} (h : Taken eval scope text n flat)
    (hclosing : closesTooOften 0 false flat.text = false) : closesTooOften 0 false text = false := by
  induction h with
  | start => exact hclosing
  | @next _ flat _ _ hturn ih =>
      refine ih ?_
      cases hmany : closesTooOften 0 false flat.text with
      | false => rfl
      | true =>
          rw [takeGroup, if_pos hmany] at hturn
          cases hturn

/-- A turn that has got to a group and fails there comes after fewer turns than parentheses
that open. -/
theorem Taken.lt_openings {n : Nat} {flat : Flattened} {e : Error}
    (h : Taken eval scope text n flat) (hclosing : closesTooOften 0 false flat.text = false)
    (hfails : takeGroup eval scope text flat = .error e) : n < openings false text := by
  have hends := Ends.failed h hfails
  obtain ⟨m, flat', hm, htaken, hfails'⟩ := taken_of_resolveGroups_error
    (h.not_closesTooOften hclosing) (resolveGroups_eq_iff.mpr ⟨n, hends⟩)
  rwa [(hends.unique (.failed htaken hfails')).1]

end Flowchart.Expr
