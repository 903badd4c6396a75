import Flowchart.Template
import Flowchart.Text.Blank
import Mathlib.Data.List.TakeWhile
import Mathlib.Logic.ExistsUnique

/-!
# The segments of a template

A template is made of quotes, the characters between them, words and other characters.
`Proper` says what a list of such segments must be like to be a cut of the text it was cut
from, and a text has exactly one proper cut (`existsUnique_cut`): a word goes as far as it
can, and a quote that is not closed goes on to the end.

Rendering never sees the segments. It holds back one word and settles it in three different
places, and still the line is what the segments become one after the other
(`render_eq_flatMap`). The invariant is that the word held back belongs in front of the text
that is left.
-/

namespace Flowchart.Template

/-- A piece of a template. -/
inductive Segment where
  | quote
  /-- A character of a quoted region. -/
  | quoted (c : Char)
  /-- A run of word characters outside the quotes, as long as it can be. -/
  | word (text : List Char)
  /-- Any other character outside the quotes. -/
  | other (c : Char)
  deriving DecidableEq, Repr

/-- The segments of a template. A quote that is not closed goes on to the end. -/
def segments : (inside : Bool) → List Char → List Segment
  | _, [] => []
  | inside, c :: rest =>
    if c = '"' then .quote :: segments (!inside) rest
    else if inside then .quoted c :: segments inside rest
    else if Text.isWordChar c then
      .word (c :: rest.takeWhile Text.isWordChar) ::
        segments inside (rest.dropWhile Text.isWordChar)
    else .other c :: segments inside rest
termination_by _ text => text.length
decreasing_by
  all_goals simp only [List.length_cons]
  · omega
  · omega
  · have := List.length_dropWhile_le Text.isWordChar rest; omega
  · omega

/-- The characters that a segment was cut from. -/
def Segment.source : Segment → List Char
  | quote => ['"']
  | quoted c => [c]
  | word text => text
  | other c => [c]

/-- What a segment becomes. -/
def Segment.fill (scope : Scope) : Segment → List Char
  | word text =>
    match scope (String.ofList text) with
    | some value => value.literal.toList
    | none => text
  | segment => segment.source

/-! ## Proper cuts -/

/-- The lists of segments that a template can be cut into, inside quotes or outside: quotes
alternate between the two, a word is not empty and has no other word right behind it, and
each single character is of its kind. -/
inductive Proper : (inside : Bool) → List Segment → Prop where
  | nil {inside : Bool} : Proper inside []
  | quote {inside : Bool} {cut : List Segment} :
      Proper (!inside) cut → Proper inside (.quote :: cut)
  | quoted {c : Char} {cut : List Segment} :
      c ≠ '"' → Proper true cut → Proper true (.quoted c :: cut)
  | word {text : List Char} {cut : List Segment} :
      text ≠ [] → (∀ c ∈ text, Text.isWordChar c = true) →
        (∀ next, .word next ∉ cut.head?) → Proper false cut → Proper false (.word text :: cut)
  | other {c : Char} {cut : List Segment} :
      c ≠ '"' → Text.isWordChar c = false → Proper false cut → Proper false (.other c :: cut)

variable {inside : Bool} {cut : List Segment} {word rest : List Char}

theorem not_isWordChar_quote : Text.isWordChar '"' = false := by
  decide

/-- The text behind a word goes on with something else. -/
theorem Proper.head_source (h : Proper false cut) (hword : ∀ next, .word next ∉ cut.head?) :
    ∀ c ∈ (cut.flatMap Segment.source).head?, Text.isWordChar c = false := by
  intro c hc
  cases h with
  | nil => simp at hc
  | quote _ =>
      obtain rfl : '"' = c := by simpa [Segment.source] using hc
      exact not_isWordChar_quote
  | @word text _ _ _ _ _ => exact absurd rfl (hword text)
  | other _ hother _ =>
      obtain rfl := by simpa [Segment.source] using hc
      exact hother

theorem segments_nil (inside : Bool) : segments inside [] = [] := by
  rw [segments]

theorem segments_quote (inside : Bool) (rest : List Char) :
    segments inside ('"' :: rest) = .quote :: segments (!inside) rest := by
  rw [segments, if_pos rfl]

theorem segments_quoted {c : Char} (hc : c ≠ '"') (rest : List Char) :
    segments true (c :: rest) = .quoted c :: segments true rest := by
  rw [segments, if_neg hc, if_pos rfl]

theorem segments_other {c : Char} (hc : c ≠ '"') (hother : Text.isWordChar c = false)
    (rest : List Char) : segments false (c :: rest) = .other c :: segments false rest := by
  rw [segments, if_neg hc, if_neg (by simp), if_neg (by simp [hother])]

/-- A word ends where the text goes on with something else. -/
theorem segments_word (hne : word ≠ []) (hword : ∀ c ∈ word, Text.isWordChar c = true)
    (hrest : ∀ c ∈ rest.head?, Text.isWordChar c = false) :
    segments false (word ++ rest) = .word word :: segments false rest := by
  obtain ⟨c, more, rfl⟩ := List.exists_cons_of_ne_nil hne
  obtain ⟨hc, hmore⟩ := List.forall_mem_cons.mp hword
  have hquote : c ≠ '"' := by
    rintro rfl
    exact absurd hc (by simp [not_isWordChar_quote])
  obtain ⟨htake, hdrop⟩ := Text.takeWhile_run hmore hrest
  rw [List.cons_append, segments, if_neg hquote, if_neg (by simp), if_pos hc, htake, hdrop]

/-- A proper cut is found again in the text that it was cut from. -/
theorem Proper.segments_source (h : Proper inside cut) :
    segments inside (cut.flatMap Segment.source) = cut := by
  induction h with
  | nil => exact segments_nil _
  | quote _ ih =>
      rw [List.flatMap_cons, Segment.source, List.singleton_append, segments_quote, ih]
  | quoted hc _ ih =>
      rw [List.flatMap_cons, Segment.source, List.singleton_append, segments_quoted hc, ih]
  | word hne htext hnext hcut ih =>
      rw [List.flatMap_cons, Segment.source, segments_word hne htext (hcut.head_source hnext), ih]
  | other hc hother _ ih =>
      rw [List.flatMap_cons, Segment.source, List.singleton_append, segments_other hc hother, ih]

/-- Cutting a template loses nothing. -/
theorem flatMap_source_segments (inside : Bool) (template : List Char) :
    (segments inside template).flatMap Segment.source = template := by
  fun_induction segments inside template with
  | case1 => rfl
  | case2 inside rest ih => simp [Segment.source, ih]
  | case3 c rest _ ih => simp [Segment.source, ih]
  | case4 inside c rest _ _ _ ih =>
    simp [Segment.source, ih, List.takeWhile_append_dropWhile]
  | case5 inside c rest _ _ _ ih => simp [Segment.source, ih]

/-- A text that does not start with a word character is not cut into a word first. -/
theorem head_segments (hrest : ∀ c ∈ rest.head?, Text.isWordChar c = false) :
    ∀ next, .word next ∉ (segments inside rest).head? := by
  intro next
  cases rest with
  | nil => simp [segments_nil]
  | cons c rest =>
      have hc := hrest c rfl
      rw [segments, if_neg (Bool.eq_false_iff.mp hc)]
      split
      · simp
      · split <;> simp

theorem proper_segments (inside : Bool) (template : List Char) :
    Proper inside (segments inside template) := by
  fun_induction segments inside template with
  | case1 => exact .nil
  | case2 inside rest ih => exact .quote ih
  | case3 c rest hc ih => exact .quoted hc ih
  | case4 inside c rest _ hinside hc ih =>
      obtain rfl : inside = false := by simpa using hinside
      refine .word (by simp) ?_ (head_segments ?_) ih
      · intro d hd
        rcases List.mem_cons.mp hd with rfl | hd
        · exact hc
        · exact List.mem_takeWhile_imp hd
      · have hhead := List.head?_dropWhile_not Text.isWordChar rest
        intro d hd
        rw [hd] at hhead
        simpa using hhead
  | case5 inside c rest hc hinside hother ih =>
      obtain rfl : inside = false := by simpa using hinside
      exact .other hc (by simpa using hother) ih

/-- **A text has exactly one proper cut.** -/
theorem existsUnique_cut (inside : Bool) (template : List Char) :
    ∃! cut, Proper inside cut ∧ cut.flatMap Segment.source = template := by
  refine ⟨segments inside template,
    ⟨proper_segments inside template, flatMap_source_segments inside template⟩, ?_⟩
  rintro cut ⟨hproper, rfl⟩
  exact hproper.segments_source.symm

/-! ## Rendering -/

/-- A word that is held back is settled as the segment that it will be, if there is one. -/
theorem settle_append_fill (scope : Scope) (hword : ∀ c ∈ word, Text.isWordChar c = true)
    (hinside : inside = true → word = [])
    (hrest : ∀ c ∈ rest.head?, Text.isWordChar c = false) :
    settle scope word ++ (segments inside rest).flatMap (Segment.fill scope)
      = (segments inside (word ++ rest)).flatMap (Segment.fill scope) := by
  by_cases hne : word = []
  · subst hne
    rfl
  · obtain rfl : inside = false := Bool.eq_false_iff.mpr fun hin => hne (hinside hin)
    have hsettle : settle scope word = Segment.fill scope (.word word) :=
      if_neg (by simpa using hne)
    rw [segments_word hne hword hrest, List.flatMap_cons, hsettle]

/-- The word that is held back belongs in front of the rest. Inside quotes there is none. -/
theorem renderFrom_eq (scope : Scope) (inside : Bool) (word rest : List Char)
    (hword : ∀ c ∈ word, Text.isWordChar c = true) (hinside : inside = true → word = []) :
    renderFrom scope inside word rest
      = (segments inside (word ++ rest)).flatMap (Segment.fill scope) := by
  induction rest generalizing inside word with
  | nil =>
      rw [← settle_append_fill scope hword hinside (by simp), segments_nil, List.flatMap_nil,
        List.append_nil, renderFrom]
  | cons c rest ih =>
      rw [renderFrom]
      by_cases hquote : c = '"'
      · -- the word ends at a quote, or the quote ends a region in which there was none
        subst hquote
        rw [if_pos rfl, ih (!inside) [] (by simp) (fun _ => rfl),
          ← settle_append_fill scope hword hinside (by simp [not_isWordChar_quote]),
          segments_quote]
        rfl
      · rw [if_neg hquote]
        cases inside with
        | true =>
            obtain rfl := hinside rfl
            rw [if_pos rfl, ih true [] (by simp) (fun _ => rfl), List.nil_append,
              List.nil_append, segments_quoted hquote]
            rfl
        | false =>
            rw [if_neg (by simp)]
            by_cases hc : Text.isWordChar c = true
            · have hlonger : ∀ d ∈ word ++ [c], Text.isWordChar d = true := by
                intro d hd
                rcases List.mem_append.mp hd with hd | hd
                · exact hword d hd
                · rwa [List.mem_singleton.mp hd]
              rw [if_pos hc, ih false (word ++ [c]) hlonger (by simp), List.append_assoc,
                List.singleton_append]
            · have hother : Text.isWordChar c = false := by simpa using hc
              rw [if_neg hc, ih false [] (by simp) (fun _ => rfl),
                ← settle_append_fill scope hword hinside (by simpa using hother),
                segments_other hquote hother]
              rfl

/-- **Rendering fills in the segments one after the other.** -/
theorem render_eq_flatMap (scope : Scope) (template : List Char) :
    render scope template = (segments false template).flatMap (Segment.fill scope) :=
  renderFrom_eq scope false [] template (by simp) (fun _ => rfl)

end Flowchart.Template
