import Flowchart.Proofs.Expr.Pairing
import Flowchart.Proofs.Segments
import Mathlib.Algebra.Group.Nat.Even

/-!
# Rendering is the segment map

A template is rendered segment by segment, and its cut into segments is determined by the
template alone (`render_by_segments`). So a value that takes the place of a word is not
looked at again, whatever quotes and names there are in it, and a template without variables
stays as it is.

Where a text is cut in two outside the quotes, and not within a run of word characters, both
parts are rendered on their own. That is a fact about cuts: the cuts of the parts, one behind
the other, are a proper cut of the whole (`Proper.append`), and there is no other one.
-/

namespace Flowchart.Template

variable {inside : Bool} {cut more : List Segment} {before after : List Char}

/-- Whether a run of word characters goes on from the one text into the other. -/
def splitsRun (before after : List Char) : Bool :=
  before.getLast?.any Text.isWordChar && after.head?.any Text.isWordChar

/-! ## Cuts of two parts -/

theorem Proper.of_word_mem (h : Proper inside cut) {word : List Char} (hmem : .word word ∈ cut) :
    word ≠ [] ∧ ∀ c ∈ word, Text.isWordChar c = true := by
  induction h with
  | nil => exact absurd hmem (by simp)
  | quote _ ih => exact ih (by simpa using hmem)
  | quoted _ _ ih => exact ih (by simpa using hmem)
  | other _ _ _ ih => exact ih (by simpa using hmem)
  | word hne htext _ _ ih =>
      rcases List.mem_cons.mp hmem with heq | hmem
      · cases heq
        exact ⟨hne, htext⟩
      · exact ih hmem

/-- When a word comes last, the text ends with a word character. -/
theorem Proper.getLast_source (h : Proper inside cut) {word : List Char}
    (hlast : .word word ∈ cut.getLast?) :
    (cut.flatMap Segment.source).getLast?.any Text.isWordChar = true := by
  obtain ⟨front, rfl⟩ := List.getLast?_eq_some_iff.mp hlast
  obtain ⟨hne, hword⟩ := h.of_word_mem (List.mem_append_right _ (List.mem_singleton_self _))
  rw [List.flatMap_append, List.flatMap_singleton, Segment.source,
    List.getLast?_append_of_ne_nil _ hne, List.getLast?_eq_some_getLast hne]
  exact hword _ (List.getLast_mem hne)

/-- Proper cuts make a proper cut, unless a word stands on either side of the seam. -/
theorem Proper.append (h : Proper inside cut)
    (hmore : Proper (Expr.insideAfter inside (cut.flatMap Segment.source)) more)
    (hseam : ∀ word, .word word ∈ cut.getLast? → ∀ next, .word next ∉ more.head?) :
    Proper inside (cut ++ more) := by
  have later {segment : Segment} {cut : List Segment}
      (hseam : ∀ word, .word word ∈ (segment :: cut).getLast? → ∀ next, .word next ∉ more.head?) :
      ∀ word, .word word ∈ cut.getLast? → ∀ next, .word next ∉ more.head? := by
    intro word hlast
    refine hseam word ?_
    rw [List.getLast?_cons, Option.mem_def.mp hlast]
    rfl
  induction h with
  | nil => exact hmore
  | quote _ ih =>
      exact .quote (ih (by simpa [Segment.source, Expr.insideAfter] using hmore) (later hseam))
  | quoted hc _ ih =>
      exact .quoted hc
        (ih (by simpa [Segment.source, Expr.insideAfter, hc] using hmore) (later hseam))
  | other hc hother _ ih =>
      exact .other hc hother
        (ih (by simpa [Segment.source, Expr.insideAfter, hc] using hmore) (later hseam))
  | @word text cut hne htext hnext _ ih =>
      have hquote : '"' ∉ text := by
        intro hmem
        exact absurd (htext _ hmem) (by simp [not_isWordChar_quote])
      rw [List.flatMap_cons, Segment.source, Expr.insideAfter_append,
        Expr.insideAfter_of_not_mem hquote] at hmore
      refine .word hne htext ?_ (ih hmore (later hseam))
      cases cut with
      | nil => exact hseam text rfl
      | cons segment cut => exact hnext

/-- A text is cut like its parts. -/
theorem segments_append (hsplit : splitsRun before after = false) (inside : Bool) :
    segments inside (before ++ after)
      = segments inside before ++ segments (Expr.insideAfter inside before) after := by
  have hbefore := proper_segments inside before
  have hafter := proper_segments (Expr.insideAfter inside before) after
  have hseam : ∀ word, .word word ∈ (segments inside before).getLast? →
      ∀ next, .word next ∉ (segments (Expr.insideAfter inside before) after).head? := by
    intro word hlast
    have hend := hbefore.getLast_source hlast
    rw [flatMap_source_segments] at hend
    rw [splitsRun, hend, Bool.true_and] at hsplit
    refine head_segments fun c hc => ?_
    rw [Option.mem_def.mp hc] at hsplit
    exact hsplit
  have hwhole := hbefore.append (by rwa [flatMap_source_segments]) hseam
  have hfound := hwhole.segments_source
  rwa [List.flatMap_append, flatMap_source_segments, flatMap_source_segments] at hfound

/-! ## Rendering in parts -/

variable {scope : Scope}

/-- With an even number of quotes in front, what follows is outside. -/
theorem insideAfter_of_even (h : Even (before.count '"')) :
    Expr.insideAfter false before = false := by
  rw [Expr.insideAfter_eq_count, Nat.even_iff.mp h]
  rfl

theorem render_append (heven : Even (before.count '"')) (hsplit : splitsRun before after = false) :
    render scope (before ++ after) = render scope before ++ render scope after := by
  rw [render_eq_flatMap, segments_append hsplit, insideAfter_of_even heven, List.flatMap_append,
    ← render_eq_flatMap, ← render_eq_flatMap]

/-- A word alone is rendered as its variable. -/
theorem render_word {word : List Char} {value : Value} (hne : word ≠ [])
    (hword : ∀ c ∈ word, Text.isWordChar c = true)
    (hvalue : scope (String.ofList word) = some value) :
    render scope word = value.literal.toList := by
  have hcut : segments false (word ++ []) = .word word :: segments false [] :=
    segments_word hne hword (by simp)
  rw [List.append_nil, segments_nil] at hcut
  rw [render_eq_flatMap, hcut, List.flatMap_singleton, Segment.fill, hvalue]

/-- A variable between two parts becomes its literal. -/
theorem render_variable {word : List Char} {value : Value} (heven : Even (before.count '"'))
    (hne : word ≠ []) (hword : ∀ c ∈ word, Text.isWordChar c = true)
    (hfront : splitsRun before word = false) (hback : splitsRun word after = false)
    (hvalue : scope (String.ofList word) = some value) :
    render scope (before ++ (word ++ after))
      = render scope before ++ (value.literal.toList ++ render scope after) := by
  have hclosed : Even (word.count '"') := by
    have hquote : '"' ∉ word := by
      intro hmem
      exact absurd (hword _ hmem) (by simp [not_isWordChar_quote])
    rw [List.count_eq_zero_of_not_mem hquote]
    exact Even.zero
  have hstart : splitsRun before (word ++ after) = false := by
    obtain ⟨c, run, rfl⟩ := List.exists_cons_of_ne_nil hne
    exact hfront
  rw [render_append heven hstart, render_append hclosed hback, render_word hne hword hvalue]

/-- Where no segment is a variable, nothing changes. -/
theorem flatMap_fill_eq_source
    (h : ∀ word, .word word ∈ cut → scope (String.ofList word) = none) :
    cut.flatMap (Segment.fill scope) = cut.flatMap Segment.source := by
  refine List.flatMap_congr ?_
  intro segment hmem
  cases segment with
  | word word => rw [Segment.fill, h word hmem, Segment.source]
  | quote => rfl
  | quoted c => rfl
  | other c => rfl

/-- **Rendering is the segment map.** There is one way to cut a template into segments, and
the line is what they become one after the other. A template in which no segment is a
variable is its own line. Two parts with whole runs, of which the first has an even number of
quotes, are rendered each on its own, and a variable behind such a part becomes its literal,
which stands there as it is. -/
theorem render_by_segments (scope : Scope) (template : List Char) :
    (∃! cut, Proper false cut ∧ cut.flatMap Segment.source = template) ∧
      (∀ cut, Proper false cut → cut.flatMap Segment.source = template →
        render scope template = cut.flatMap (Segment.fill scope) ∧
        ((∀ word, .word word ∈ cut → scope (String.ofList word) = none) →
          render scope template = template)) ∧
      (∀ rest, Even (template.count '"') → splitsRun template rest = false →
        render scope (template ++ rest) = render scope template ++ render scope rest) ∧
      ∀ word rest value, Even (template.count '"') →
        word ≠ [] → (∀ c ∈ word, Text.isWordChar c = true) →
        splitsRun template word = false → splitsRun word rest = false →
        scope (String.ofList word) = some value →
          render scope (template ++ (word ++ rest))
            = render scope template ++ (value.literal.toList ++ render scope rest) := by
  refine ⟨existsUnique_cut false template, ?_, fun rest => render_append,
    fun word rest value => render_variable⟩
  rintro cut hproper rfl
  have hline : render scope (cut.flatMap Segment.source) = cut.flatMap (Segment.fill scope) := by
    rw [render_eq_flatMap, hproper.segments_source]
  exact ⟨hline, fun hnone => hline.trans (flatMap_fill_eq_source hnone)⟩

/-- The value has a quote and a name in it, the name stands in quotes too, and the last quote
is not closed. -/
theorem render_by_segments_quoteInValue :
    let scope : Scope := fun name => if name = "n" then some (.str "\" n") else none
    render scope "\"n\" ".toList = "\"n\" ".toList ∧
      render scope ("\"n\" ".toList ++ ("n".toList ++ ", n2 \"n".toList))
        = "\"n\" \"\" n\", n2 \"n".toList := by
  intro scope
  obtain ⟨-, hcut, -, hvariable⟩ := render_by_segments scope "\"n\" ".toList
  have hsame : render scope "\"n\" ".toList = "\"n\" ".toList := by
    refine (hcut _ (proper_segments false _) (flatMap_source_segments false _)).2 ?_
    have hcharacters : segments false "\"n\" ".toList
        = [.quote, .quoted 'n', .quote, .other ' '] := by decide +kernel
    rw [hcharacters]
    simp
  have hword : ∀ c ∈ "n".toList, Text.isWordChar c = true := List.all_eq_true.mp (by decide)
  refine ⟨hsame, ?_⟩
  rw [hvariable "n".toList ", n2 \"n".toList (.str "\" n") (by decide) (by decide) hword
    (by decide) (by decide) (by decide), hsame]
  decide

end Flowchart.Template
