import Flowchart.Proofs.Expr.Depth

/-!
# Parentheses around a text mean nothing

A complete text has the same value, or the same error, with any blanks and parentheses
around it (`evaluate_wrapped`). What makes this so is that parentheses come off a text in
pairs that match, and all that wrap it do (`unwrap_eq_iff`): then the wrapped text and the
bare one are the same to the evaluator from there on, and that it may go deeper in the one
than in the other makes no difference (`evaluate_eq_evaluateBody`).
-/

namespace Flowchart.Expr

variable {text held rest wrapped : List Char}

/-- The text inside any number of parentheses, with any blanks at each level. -/
inductive Wrapped (text : List Char) : List Char → Prop where
  | bare : Wrapped text text
  | blankFront {c : Char} {wrapped : List Char} :
      Text.isBlank c = true → Wrapped text wrapped → Wrapped text (c :: wrapped)
  | blankBack {c : Char} {wrapped : List Char} :
      Text.isBlank c = true → Wrapped text wrapped → Wrapped text (wrapped ++ [c])
  | group {wrapped : List Char} : Wrapped text wrapped → Wrapped text ('(' :: wrapped ++ [')'])

/-- Parentheses come off the text, and the blanks inside them, to leave the rest. The first
and the last one match each time: what they hold is complete, so that the last one closes
the first. -/
inductive Strips : List Char → List Char → Prop where
  | none {text : List Char} : Strips text text
  | group {held rest : List Char} :
      Paired held → Strips (Text.trim held) rest → Strips ('(' :: held ++ [')']) rest

/-! ## Blanks -/

theorem trim_cons {c : Char} (hc : Text.isBlank c = true) (text : List Char) :
    Text.trim (c :: text) = Text.trim text := by
  rw [Text.trim, List.dropWhile_cons_of_pos hc, Text.trim]

theorem trimEnd_concat {c : Char} (hc : Text.isBlank c = true) (text : List Char) :
    Text.trimEnd (text ++ [c]) = Text.trimEnd text := by
  induction text with
  | nil => exact trimEnd_blanks (List.forall_mem_singleton.mpr hc)
  | cons d rest ih => rw [List.cons_append, Text.trimEnd, ih, Text.trimEnd]

theorem trim_concat {c : Char} (hc : Text.isBlank c = true) (text : List Char) :
    Text.trim (text ++ [c]) = Text.trim text := by
  rw [Text.trim, Text.trim, List.dropWhile_append]
  split
  · next hempty =>
    rw [List.dropWhile_cons_of_pos hc, List.isEmpty_iff.mp hempty]
    rfl
  · exact trimEnd_concat hc _

theorem trim_group (held : List Char) :
    Text.trim ('(' :: held ++ [')']) = '(' :: held ++ [')'] := by
  have hopen : ('(' :: held ++ [')']).dropWhile Text.isBlank = '(' :: held ++ [')'] :=
    List.dropWhile_cons_of_neg (by decide)
  rw [Text.trim, hopen]
  exact trimEnd_append (by decide) (fun c hmem => absurd hmem List.not_mem_nil) _

/-! ## Parentheses -/

/-- What a group holds is complete, up to the parentheses that were open before. -/
theorem closes_of_cutGroup {depth : Nat} {inside : Bool} {after : List Char}
    (h : cutGroup depth inside text = some (held, after)) : Closes depth inside held := by
  induction text generalizing depth inside held with
  | nil => cases h
  | cons c rest ih =>
      have ahead_eq {cut : Option (List Char × List Char)}
          (hmap : cut.map (ahead c) = some (held, after)) :
          ∃ held', cut = some (held', after) ∧ held = c :: held' := by
        obtain ⟨⟨held', after'⟩, hcut, heq⟩ := Option.map_eq_some_iff.mp hmap
        obtain ⟨rfl, rfl⟩ := Prod.mk.inj heq
        exact ⟨held', hcut, rfl⟩
      rcases scan_cases inside c with rfl | ⟨hquote, rfl⟩ | ⟨rfl, rfl⟩ | ⟨rfl, rfl⟩ |
        ⟨hplain, rfl⟩
      · rw [cutGroup.eq_def] at h
        obtain ⟨held', hcut, rfl⟩ := ahead_eq h
        exact closes_quote.mpr (ih hcut)
      · rw [cutGroup.eq_def] at h
        obtain ⟨held', hcut, rfl⟩ := ahead_eq (by simpa [hquote] using h)
        exact (closes_literal hquote).mpr (ih hcut)
      · rw [cutGroup_open] at h
        obtain ⟨held', hcut, rfl⟩ := ahead_eq h
        exact closes_open.mpr (ih hcut)
      · cases depth with
        | zero =>
            rw [cutGroup_zero_close] at h
            obtain ⟨rfl, -⟩ := Prod.mk.inj (Option.some.inj h)
            exact ⟨rfl, rfl⟩
        | succ depth =>
            rw [cutGroup_succ_close] at h
            obtain ⟨held', hcut, rfl⟩ := ahead_eq h
            exact closes_close.mpr ⟨Nat.succ_pos depth, ih hcut⟩
      · rw [cutGroup.eq_def] at h
        obtain ⟨held', hcut, rfl⟩ := ahead_eq (by simpa [hplain] using h)
        exact (closes_plain hplain).mpr (ih hcut)

/-- The cut of a text that a pair of parentheses wraps. -/
theorem cutGroup_eq_some_nil {rest held : List Char} :
    cutGroup 0 false rest = some (held, []) ↔ Paired held ∧ rest = held ++ [')'] := by
  constructor
  · exact fun h => ⟨paired_iff_closes.mpr (closes_of_cutGroup h), cutGroup_eq_some h⟩
  · rintro ⟨hpaired, rfl⟩
    exact (paired_iff_balanced.mp hpaired).cutGroup_close []

theorem unwrap_paired (h : Paired held) :
    unwrap ('(' :: held ++ [')']) = unwrap (Text.trim held) :=
  unwrap_group (cutGroup_eq_some_nil.mpr ⟨h, rfl⟩)

/-- **Which parentheses are dropped.** Those that wrap all of the text in pairs, and not less
than all of these. -/
theorem unwrap_eq_iff : unwrap text = rest ↔
    Strips text rest ∧ ∀ held, Paired held → rest ≠ '(' :: held ++ [')'] := by
  constructor
  · rintro rfl
    fun_induction unwrap text with
    | case1 rest held hcut ih =>
        obtain ⟨hpaired, rfl⟩ := cutGroup_eq_some_nil.mp hcut
        exact ⟨.group hpaired ih.1, ih.2⟩
    | case2 rest hnone =>
        refine ⟨.none, fun held hpaired heq => hnone held ?_⟩
        exact cutGroup_eq_some_nil.mpr ⟨hpaired, (List.cons.inj heq).2⟩
    | case3 text hnone => exact ⟨.none, fun held _ heq => hnone _ heq⟩
  · rintro ⟨h, hmost⟩
    induction h with
    | none =>
        fun_cases unwrap with
        | case1 rest held hcut =>
            obtain ⟨hpaired, rfl⟩ := cutGroup_eq_some_nil.mp hcut
            exact absurd rfl (hmost held hpaired)
        | case2 => rfl
        | case3 => rfl
    | group hpaired _ ih => rw [unwrap_paired hpaired, ih hmost]

/-! ## Evaluation -/

theorem Wrapped.balanced (h : Wrapped text wrapped) (htext : Balanced (fun _ => True) text) :
    Balanced (fun _ => True) wrapped := by
  have blank {c : Char} (hc : Text.isBlank c = true) : Balanced (fun _ => True) [c] :=
    .of_forall (List.forall_mem_singleton.mpr ⟨trivial, outside_of_isBlank hc⟩)
  induction h with
  | bare => exact htext
  | blankFront hc _ ih => exact (blank hc).append ih
  | blankBack hc _ ih => exact ih.append (blank hc)
  | group _ ih => exact .of_group ih

/-- The wrapped text and the bare one are the same once they are unwrapped. -/
theorem Wrapped.core_eq (h : Wrapped text wrapped) (htext : Paired text) :
    core wrapped = core text := by
  induction h with
  | bare => rfl
  | blankFront hc _ ih => rw [core, trim_cons hc, ← ih, core]
  | blankBack hc _ ih => rw [core, trim_concat hc, ← ih, core]
  | group hwrapped ih =>
      have hpaired := paired_iff_balanced.mpr (hwrapped.balanced (paired_iff_balanced.mp htext))
      rw [core, trim_group, unwrap_paired hpaired, ← ih, core]

/-- Only what is left of a text without wrapping parentheses matters. -/
theorem evaluate_of_core {a b : List Char}
    (h : core a = core b) : evaluate a = evaluate b := by
  rw [evaluate_eq_evaluateBody a, evaluate_eq_evaluateBody b]
  funext scope
  rw [evaluateBody_eq, evaluateBody_eq, h]

/-- **Wrapping changes nothing.** A complete text in parentheses and blanks has the result of
the text, value or error. Of any text, complete or not, only parentheses that match come off,
and all that wrap it. -/
theorem evaluate_wrapped :
    (∀ text, Paired text → ∀ wrapped, Wrapped text wrapped →
      ∀ scope, evaluate wrapped scope = evaluate text scope) ∧
    ∀ text rest, unwrap text = rest ↔
      Strips text rest ∧ ∀ held, Paired held → rest ≠ '(' :: held ++ [')'] :=
  ⟨fun _ htext _ hwrapped scope => congrFun (evaluate_of_core (hwrapped.core_eq htext)) scope,
    fun _ _ => unwrap_eq_iff⟩

/-- The first parenthesis of the text is not closed by the last one, and a parenthesis in a
literal is none. -/
theorem evaluate_wrapped_sum :
    unwrap "(1) + (2)".toList = "(1) + (2)".toList ∧
    evaluate " ((1) + (2) )".toList (fun _ => none) = .ok (.int 3) ∧
    evaluate "( \"(\" + 1)".toList (fun _ => none)
      = evaluate "\"(\" + 1".toList (fun _ => none) := by
  have hblank : Text.isBlank ' ' = true := by decide
  have hsum : Wrapped "(1) + (2)".toList " ((1) + (2) )".toList :=
    cast (congrArg (Wrapped _) (by decide))
      (Wrapped.blankFront hblank (.group (.blankBack hblank .bare)))
  have hliteral : Wrapped "\"(\" + 1".toList "( \"(\" + 1)".toList :=
    cast (congrArg (Wrapped _) (by decide)) (Wrapped.group (.blankFront hblank .bare))
  have hvalue : evaluate "(1) + (2)".toList (fun _ => none) = .ok (.int 3) := by decide +kernel
  refine ⟨(evaluate_wrapped.2 _ _).mpr ⟨.none, fun held hpaired heq => ?_⟩,
    (evaluate_wrapped.1 _ (by decide) _ hsum _).trans hvalue,
    evaluate_wrapped.1 _ (by decide) _ hliteral _⟩
  obtain rfl : held = "1) + (2".toList := by
    have htail := (List.cons.inj heq).2
    exact (List.append_inj_left' htail rfl).symm
  exact absurd hpaired (by decide)

end Flowchart.Expr
