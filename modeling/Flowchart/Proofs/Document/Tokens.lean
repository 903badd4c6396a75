import Flowchart.Document.Reader
import Flowchart.Document.Writer
import Flowchart.Text.Blank

/-!
# Strings and integers read back

A string is written with an escape for each character that must not stand in it, and is
read in two steps: the units that the text writes, and the characters that the units name.
The escape of a character writes its one unit, whatever comes after it
(`cutUnits?_escape`). No character is half of a surrogate pair, so units that come from
characters name these again (`stringOfUnits?_map`).

An integer has no mark at its end, so it is read as itself only where the text goes on with
something that cannot belong to a number (`cutNumeral?_integer`).
-/

namespace Flowchart.Document

/-! ## Strings -/

theorem hexDigit?_hexChar {n : Nat} (h : n < 16) : hexDigit? (hexChar n) = some n := by
  have hall : ∀ n < 16, hexDigit? (hexChar n) = some n := by decide
  exact hall n h

/-- A control character is written by its two last hexadecimal digits. -/
theorem hex4?_control {n : Nat} (h : n < 0x20) :
    hex4? '0' '0' (hexChar (n / 16)) (hexChar (n % 16)) = some n := by
  have hzero : hexDigit? '0' = some 0 := by decide
  unfold hex4?
  rw [hzero, hexDigit?_hexChar (by omega), hexDigit?_hexChar (by omega)]
  simp only [Option.some.injEq]
  omega

/-- A character that needs no escape is its own unit. -/
theorem cutUnits?_cons {c : Char} (hquote : c ≠ '"') (hslash : c ≠ '\\') (h : ¬c.toNat < 0x20)
    (rest : List Char) : cutUnits? (c :: rest) = (cutUnits? rest).map (unitAhead c.toNat) := by
  rw [cutUnits?, if_neg h]
  · exact hquote
  · intro _ _ _ _ _ heq _
    exact hslash heq
  · intro _ _ heq _
    exact hslash heq

/-- A letter after a backslash is one unit, but for the letter that announces four digits. -/
theorem cutUnits?_backslash {letter c : Char} (hletter : letter ≠ 'u')
    (h : escaped? letter = some c) (rest : List Char) :
    cutUnits? ('\\' :: letter :: rest) = (cutUnits? rest).map (unitAhead c.toNat) := by
  rw [cutUnits?, h]
  intro _ _ _ _ _ heq
  exact absurd heq hletter

/-- The escape of a character writes the unit of the character. -/
theorem cutUnits?_escape (c : Char) (rest : List Char) :
    cutUnits? (escape c ++ rest) = (cutUnits? rest).map (unitAhead c.toNat) := by
  unfold escape
  split
  case h_8 c hquote hslash _ _ _ _ _ =>
    split
    · next hcontrol =>
      simp only [List.cons_append, List.nil_append]
      rw [cutUnits?, hex4?_control hcontrol]
    · next hplain => exact cutUnits?_cons hquote hslash hplain rest
  all_goals exact cutUnits?_backslash (by decide) rfl rest

/-- The units between the quotes of a string are those of its characters. -/
theorem cutUnits?_flatMap_escape (text rest : List Char) :
    cutUnits? (text.flatMap escape ++ '"' :: rest) = some (text.map Char.toNat, rest) := by
  induction text with
  | nil => simp [cutUnits?]
  | cons c text ih =>
      rw [List.flatMap_cons, List.append_assoc, cutUnits?_escape, ih]
      rfl

/-- No character is half of a surrogate pair. -/
theorem not_isHalf (c : Char) : isHighHalf c.toNat = false ∧ isLowHalf c.toNat = false := by
  have hvalid : c.toNat < 0xd800 ∨ 0xdfff < c.toNat ∧ c.toNat < 0x110000 := c.valid
  simp only [isHighHalf, isLowHalf, Bool.and_eq_false_iff, decide_eq_false_iff_not]
  omega

/-- Units that come from characters name these characters. -/
theorem joinUnits?_map (text : List Char) : joinUnits? (text.map Char.toNat) = some text := by
  induction text with
  | nil => rfl
  | cons c text ih =>
      obtain ⟨hhigh, hlow⟩ := not_isHalf c
      cases text with
      | nil => simp [joinUnits?, hhigh, hlow]
      | cons d text =>
          rw [List.map_cons, List.map_cons, joinUnits?, hhigh, hlow, ← List.map_cons, ih]
          simp

/-- The units of a string name the string. -/
theorem stringOfUnits?_map (text : String) :
    stringOfUnits? (text.toList.map Char.toNat) = some text := by
  rw [stringOfUnits?, joinUnits?_map, Option.map_some, String.ofList_toList]

/-! ## Numbers -/

/-- Whether a text can stand right after a number. -/
def Ends (rest : List Char) : Prop :=
  ∀ c ∈ rest.head?, isSpace c = true ∨ c = ',' ∨ c = ']' ∨ c = closeBrace

theorem Ends.not_continues {rest : List Char} (h : Ends rest) :
    ∀ c ∈ rest.head?, c.isDigit = false ∧ c ≠ '.' ∧ c ≠ 'e' ∧ c ≠ 'E' := by
  have hspace (c : Char) (hc : isSpace c = true) : c = ' ' ∨ c = '\t' ∨ c = '\n' ∨ c = '\r' := by
    simpa [isSpace, or_assoc] using hc
  intro c hc
  rcases h c hc with hblank | rfl | rfl | rfl
  · rcases hspace c hblank with rfl | rfl | rfl | rfl <;> decide
  all_goals decide

/-- Whether an integer is held exactly by a number of a document. -/
def Fits (n : Int) : Prop :=
  -(wordLimit : Int) ≤ 2 * n ∧ n < wordLimit

theorem toDigits_cases (n : Nat) : Nat.toDigits 10 n = ['0'] ∧ n = 0 ∨
    ∃ c run, Nat.toDigits 10 n = c :: run ∧ c ≠ '0' ∧ 0 < n := by
  induction n using Nat.strongRecOn with
  | ind n ih =>
      rw [Nat.toDigits_eq_if (by decide)]
      split
      · next hlt =>
        have hall : ∀ n < 10, [Nat.digitChar n] = ['0'] ∧ n = 0 ∨ Nat.digitChar n ≠ '0' ∧ 0 < n := by
          decide
        rcases hall n hlt with h | h
        · exact .inl h
        · exact .inr ⟨_, _, rfl, h⟩
      · next hge =>
        rcases ih (n / 10) (by omega) with ⟨-, h⟩ | ⟨c, run, h, hc, -⟩
        · omega
        · exact .inr ⟨c, run ++ [Nat.digitChar (n % 10)], by rw [h, List.cons_append], hc, by omega⟩

/-- The digits of a natural number are a whole part. -/
theorem cutWhole?_toDigits (n : Nat) {rest : List Char} (h : Ends rest) :
    cutWhole? (Nat.toDigits 10 n ++ rest) = some (Nat.toDigits 10 n, rest) := by
  have hdigits : ∀ c ∈ Nat.toDigits 10 n, c.isDigit = true := fun c hmem =>
    Nat.isDigit_of_mem_toDigits (by decide) (by decide) hmem
  have hrest : ∀ c ∈ rest.head?, c.isDigit = false := fun c hc => (h.not_continues c hc).1
  rcases toDigits_cases n with ⟨hzero, -⟩ | ⟨c, run, hrun, hc, -⟩
  · rw [hzero, List.singleton_append]
    cases rest with
    | nil => rfl
    | cons d more => simp [cutWhole?, hrest d rfl]
  · rw [hrun] at hdigits ⊢
    obtain ⟨htake, hdrop⟩ :=
      Text.takeWhile_run (fun d hmem => hdigits d (List.mem_cons_of_mem _ hmem)) hrest
    rw [List.cons_append]
    simp only [cutWhole?, hc, if_false, hdigits c List.mem_cons_self, if_true, htake, hdrop]

theorem cutUnsigned?_toDigits (negative : Bool) (n : Nat) {rest : List Char} (h : Ends rest) :
    cutUnsigned? negative (Nat.toDigits 10 n ++ rest)
      = some (⟨negative, Nat.toDigits 10 n, [], none⟩, rest) := by
  have hfraction : cutFraction? rest = some ([], rest) := by
    unfold cutFraction?
    split
    · next more => exact absurd rfl (h.not_continues '.' rfl).2.1
    · rfl
  have hexponent : cutExponent? rest = some (none, rest) := by
    unfold cutExponent?
    split
    · rfl
    · next c more =>
      rw [if_neg]
      rintro (rfl | rfl)
      · exact (h.not_continues 'e' rfl).2.2.1 rfl
      · exact (h.not_continues 'E' rfl).2.2.2 rfl
  rw [cutUnsigned?, cutWhole?_toDigits n h]
  simp only [hfraction, hexponent]

/-- The characters that a number can begin with. -/
def startsNumber (c : Char) : Bool :=
  c = '-' || c.isDigit

theorem not_mem_of_startsNumber {c : Char} (hc : startsNumber c = true) {chars : List Char}
    (h : chars.any startsNumber = false) : c ∉ chars :=
  fun hmem => List.any_eq_false.mp h c hmem hc

theorem integer_head (n : Int) : ∃ c run, integer n = c :: run ∧ startsNumber c = true := by
  unfold integer
  by_cases hneg : n < 0
  · exact ⟨'-', _, by rw [decide_eq_true hneg]; rfl, rfl⟩
  · rw [decide_eq_false hneg]
    cases hd : Nat.toDigits 10 n.natAbs with
    | nil => exact absurd hd Nat.toDigits_ne_nil
    | cons c run =>
        refine ⟨c, run, rfl, ?_⟩
        have hdigit : c.isDigit = true :=
          Nat.isDigit_of_mem_toDigits (by decide) (by decide) (hd ▸ List.mem_cons_self)
        rw [startsNumber, hdigit, Bool.or_true]

/-- The number at the front of a text that starts with no sign has none. -/
theorem cutNumeral?_of_ne {c : Char} (h : c ≠ '-') (rest : List Char) :
    cutNumeral? (c :: rest) = cutUnsigned? false (c :: rest) := by
  rw [cutNumeral?]
  intro _ heq
  exact h (List.cons.inj heq).1

/-- What an integer is read as, sign and digits. -/
def Numeral.ofInt (n : Int) : Numeral :=
  ⟨n < 0, Nat.toDigits 10 n.natAbs, [], none⟩

theorem cutNumeral?_integer (n : Int) {rest : List Char} (h : Ends rest) :
    cutNumeral? (integer n ++ rest) = some (.ofInt n, rest) := by
  unfold Numeral.ofInt integer
  by_cases hneg : n < 0
  · rw [decide_eq_true hneg]
    exact cutUnsigned?_toDigits true n.natAbs h
  · rw [decide_eq_false hneg, ← cutUnsigned?_toDigits false n.natAbs h]
    show cutNumeral? (Nat.toDigits 10 n.natAbs ++ rest) = _
    -- the first digit is no sign
    cases hd : Nat.toDigits 10 n.natAbs with
    | nil => exact absurd hd Nat.toDigits_ne_nil
    | cons c run =>
        refine cutNumeral?_of_ne ?_ _
        rintro rfl
        have hdigit : '-'.isDigit = true :=
          Nat.isDigit_of_mem_toDigits (by decide) (by decide) (hd ▸ List.mem_cons_self)
        exact absurd hdigit (by decide)

theorem document_ofInt {n : Int} (hn : Fits n) : (Numeral.ofInt n).document = .number (.int n) := by
  have hint : (Numeral.ofInt n).int? = some n := by
    obtain ⟨hlow, hhigh⟩ := hn
    simp only [Numeral.ofInt, Numeral.int?, Nat.ofDigitChars_ten_toDigits]
    rw [if_neg (by simp)]
    by_cases hneg : n < 0
    · rw [if_pos (decide_eq_true hneg), if_pos (by omega), Int.ofNat_natAbs_of_nonpos (by omega),
        Int.neg_neg]
    · rw [if_neg (by simpa using hneg), if_pos (by omega), Int.natAbs_of_nonneg (by omega)]
  rw [Numeral.document, hint]

end Flowchart.Document
