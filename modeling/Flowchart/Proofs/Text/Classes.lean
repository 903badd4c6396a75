import Flowchart.Text.Blank
import Flowchart.Text.Letter

/-!
# Blanks and the characters of words are apart

No character is both a blank and part of a word: the tables of the three properties
have no code point in common. So blanks end words, and trimming never cuts into one.
-/

namespace Flowchart.Text

/-- Checks the characters of a list one by one. Deciding the statement itself may go through
all characters there are. -/
theorem forall_mem_of_all {chars : List Char} {p : Char → Prop} [DecidablePred p]
    (h : chars.all (fun c => decide (p c)) = true) : ∀ c ∈ chars, p c :=
  fun c hmem => of_decide_eq_true (List.all_eq_true.mp h c hmem)

theorem exists_of_covers {n : Nat} {ranges : List (Nat × Nat)} (h : covers n ranges = true) :
    ∃ range ∈ ranges, range.1 ≤ n ∧ n ≤ range.2 := by
  induction ranges with
  | nil => exact absurd h (by simp [covers])
  | cons range rest ih =>
      obtain ⟨lo, hi⟩ := range
      rw [covers] at h
      split at h
      · exact absurd h (by simp)
      next hlo =>
      rcases Bool.or_eq_true_iff.mp h with hhi | hrest
      · exact ⟨(lo, hi), by simp, Nat.not_lt.mp hlo, of_decide_eq_true hhi⟩
      · obtain ⟨range, hmem, hin⟩ := ih hrest
        exact ⟨range, List.mem_cons_of_mem _ hmem, hin⟩

/-- Whether no range of the one list meets a range of the other. -/
def apart (left right : List (Nat × Nat)) : Bool :=
  left.all fun a => right.all fun b => a.2 < b.1 || b.2 < a.1

theorem not_covers_of_apart {n : Nat} {left right : List (Nat × Nat)}
    (h : apart left right = true) (hn : covers n left = true) : covers n right = false := by
  rw [Bool.eq_false_iff]
  intro hright
  obtain ⟨a, ha, halo, hahi⟩ := exists_of_covers hn
  obtain ⟨b, hb, hblo, hbhi⟩ := exists_of_covers hright
  have hab := List.all_eq_true.mp (List.all_eq_true.mp h a ha) b hb
  rw [Bool.or_eq_true, decide_eq_true_eq, decide_eq_true_eq] at hab
  omega

theorem not_isWordChar_of_isBlank {c : Char} (h : isBlank c = true) : isWordChar c = false := by
  have hletter : isLetter c = false :=
    not_covers_of_apart (by decide +kernel : apart blankRanges letterRanges = true) h
  have hnumeral : isNumeral c = false :=
    not_covers_of_apart (by decide +kernel : apart blankRanges numeralRanges = true) h
  have hscore : c ≠ '_' := by
    rintro rfl
    exact absurd h (by decide)
  simp [isWordChar, hletter, hnumeral, hscore]

theorem isWordChar_of_startsWord {c : Char} (h : startsWord c = true) : isWordChar c = true := by
  unfold startsWord at h
  unfold isWordChar
  rcases Bool.or_eq_true_iff.mp h with h | h <;> simp [h]

theorem not_startsWord_of_not_isWordChar {c : Char} (h : isWordChar c = false) :
    startsWord c = false := by
  rw [Bool.eq_false_iff]
  intro hstart
  rw [isWordChar_of_startsWord hstart] at h
  exact Bool.noConfusion h

theorem isWordChar_of_isDigit {c : Char} (h : c.isDigit = true) : isWordChar c = true := by
  simp [isWordChar, isNumeral_of_isDigit h]

theorem not_isDigit_of_not_isWordChar {c : Char} (h : isWordChar c = false) :
    c.isDigit = false := by
  rw [Bool.eq_false_iff]
  intro hdigit
  rw [isWordChar_of_isDigit hdigit] at h
  exact Bool.noConfusion h

/-- Digits are word characters, but no word starts with one. -/
theorem not_startsWord_of_isDigit {c : Char} (h : c.isDigit = true) : startsWord c = false := by
  have hletter : isLetter c = false := by
    have hapart : apart [(48, 57)] letterRanges = true := by decide +kernel
    refine not_covers_of_apart hapart ?_
    simp only [Char.isDigit, Bool.and_eq_true, decide_eq_true_eq] at h
    exact covers_cons_of_le h.1 h.2
  have hscore : c ≠ '_' := by
    rintro rfl
    exact absurd h (by decide)
  simp [startsWord, hletter, hscore]

end Flowchart.Text
