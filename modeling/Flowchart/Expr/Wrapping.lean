import Flowchart.Text.Blank

/-!
# Parentheses around a whole expression

Parentheses that wrap a whole expression mean nothing and are dropped, together
with the blanks inside them, before anything else is decided. Only a pair that
matches counts: in `(a) + (b)` the first and the last parenthesis do not.
-/

namespace Flowchart.Expr

/-- A character in front of the first part of a pair of texts. -/
def ahead {α : Type} (c : Char) (cut : List Char × α) : List Char × α :=
  (c :: cut.1, cut.2)

/-- Cuts the text after an opening parenthesis at the parenthesis that closes it:
what the group holds, and what comes after it. -/
def cutGroup : (depth : Nat) → (inside : Bool) → List Char → Option (List Char × List Char)
  | _, _, [] => none
  | depth, inside, c :: rest =>
    if c = '"' then (cutGroup depth (!inside) rest).map (ahead c)
    else if inside then (cutGroup depth inside rest).map (ahead c)
    else if c = '(' then (cutGroup (depth + 1) inside rest).map (ahead c)
    else if c = ')' then
      match depth with
      | 0 => some ([], rest)
      | outer + 1 => (cutGroup outer inside rest).map (ahead c)
    else (cutGroup depth inside rest).map (ahead c)

/-- A cut loses nothing but the closing parenthesis. -/
theorem cutGroup_eq_some {depth : Nat} {inside : Bool} {text held after : List Char}
    (h : cutGroup depth inside text = some (held, after)) : text = held ++ ')' :: after := by
  induction text generalizing depth inside held after with
  | nil => simp [cutGroup] at h
  | cons c rest ih =>
    have step {depth : Nat} {inside : Bool}
        (h : (cutGroup depth inside rest).map (ahead c) = some (held, after)) :
        c :: rest = held ++ ')' :: after := by
      obtain ⟨⟨held', after'⟩, cut, e⟩ := Option.map_eq_some_iff.mp h
      simp only [ahead, Prod.mk.injEq] at e
      obtain ⟨rfl, rfl⟩ := e
      rw [ih cut, List.cons_append]
    unfold cutGroup at h
    split at h
    · exact step h
    · split at h
      · exact step h
      · split at h
        · exact step h
        · split at h
          · next closing =>
            split at h
            · cases h; rw [closing, List.nil_append]
            · exact step h
          · exact step h

/-- The text without the parentheses that wrap all of it. -/
def unwrap (text : List Char) : List Char :=
  match text with
  | '(' :: rest =>
    match _ : cutGroup 0 false rest with
    | some (held, []) => unwrap (Text.trim held)
    | _ => '(' :: rest
  | _ => text
termination_by text.length
decreasing_by
  have parts := cutGroup_eq_some ‹_›
  have shorter := Text.length_trim_le held
  simp only [parts, List.length_cons, List.length_append, List.length_nil]
  omega

end Flowchart.Expr
