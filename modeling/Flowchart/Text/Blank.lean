/-!
# Blank characters and trimming

A character is blank when it has the Unicode property `White_Space`. Expressions,
assignment targets and replies are trimmed of blanks at both ends before they
are read.

A property of characters is a table: the ranges of code points that have it, in
ascending order. Ascending order is what lets a lookup stop early, and the
letters and blanks of everyday text sit in the first few ranges.
-/

namespace Flowchart.Text

/-! ## Ranges of code points -/

/-- Whether the code point lies in one of the ranges (both ends included),
which stand in ascending order. -/
def covers (n : Nat) : List (Nat × Nat) → Bool
  | [] => false
  | (lo, hi) :: rest => if n < lo then false else n ≤ hi || covers n rest

theorem covers_cons_of_le {n lo hi : Nat} {rest : List (Nat × Nat)} (h : lo ≤ n) (h' : n ≤ hi) :
    covers n ((lo, hi) :: rest) = true := by
  simp [covers, Nat.not_lt.mpr h, h']

theorem covers_cons_of_covers {n lo hi : Nat} {rest : List (Nat × Nat)} (h : lo ≤ n)
    (h' : covers n rest = true) : covers n ((lo, hi) :: rest) = true := by
  simp [covers, Nat.not_lt.mpr h, h']

/-! ## Blanks -/

/-- The code points with the property `White_Space`. -/
def blankRanges : List (Nat × Nat) := [
  (0x9, 0xd), (0x20, 0x20), (0x85, 0x85), (0xa0, 0xa0), (0x1680, 0x1680), (0x2000, 0x200a),
  (0x2028, 0x2029), (0x202f, 0x202f), (0x205f, 0x205f), (0x3000, 0x3000)]

/-- A blank separates words and carries no meaning of its own. -/
def isBlank (c : Char) : Bool :=
  covers c.toNat blankRanges

/-- The four blanks of ASCII that every text editor writes are among them. -/
theorem isBlank_of_isWhitespace {c : Char} (h : c.isWhitespace) : isBlank c := by
  simp only [Char.isWhitespace, Bool.or_eq_true, decide_eq_true_eq] at h
  rcases h with ((rfl | rfl) | rfl) | rfl <;> decide

/-- The text without the blanks at its end. -/
def trimEnd : List Char → List Char
  | [] => []
  | c :: rest =>
    match trimEnd rest with
    | [] => if isBlank c then [] else [c]
    | kept => c :: kept

/-- The text without the blanks at either end. -/
def trim (text : List Char) : List Char :=
  trimEnd (text.dropWhile isBlank)

theorem length_trimEnd_le (text : List Char) : (trimEnd text).length ≤ text.length := by
  induction text with
  | nil => simp [trimEnd]
  | cons c rest ih =>
    rw [trimEnd]
    split
    · split <;> simp
    · simpa using ih

/-- A run as long as it can be ends where the text goes on with something else. -/
theorem takeWhile_run {q : Char → Bool} {run rest : List Char} (hrun : ∀ c ∈ run, q c = true)
    (hrest : ∀ c ∈ rest.head?, q c = false) :
    (run ++ rest).takeWhile q = run ∧ (run ++ rest).dropWhile q = rest := by
  rw [List.takeWhile_append_of_pos hrun, List.dropWhile_append_of_pos hrun]
  cases rest with
  | nil => simp
  | cons c more =>
      have hc := hrest c rfl
      simp [hc]

theorem length_trim_le (text : List Char) : (trim text).length ≤ text.length :=
  Nat.le_trans (length_trimEnd_le _) (List.dropWhile_sublist _).length_le

end Flowchart.Text
