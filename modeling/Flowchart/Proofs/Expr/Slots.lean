import Flowchart.Proofs.Expr.Names

/-!
# Slots are in range

Once its groups have been evaluated, a text holds names that nobody wrote: the slots.
Each of them was put between blanks, so it is a name of its own (`names_append_slotText`),
and it was put there together with its value, so the scope that goes with the flat text
never asks any further for it (`withSlots_slotName`).

Both facts are about one pass over the groups. After it the names are accounted for: a
name of the flat text is a name of the text that was written, or the slot of a value
that is there (`names_resolveGroups`).
-/

namespace Flowchart.Expr

theorem slotIndex?_slotName (n : Nat) : slotIndex? (String.ofList (slotName n)) = some n := by
  unfold slotIndex? slotName
  rw [String.toList_ofList]
  show Decimal.readNat? _ = _
  unfold Decimal.readNat?
  rw [if_pos, Nat.ofDigitChars_ten_toDigits]
  refine ⟨Nat.toDigits_ne_nil, List.all_eq_true.mpr fun c hmem => ?_⟩
  exact Nat.isDigit_of_mem_toDigits (by decide) (by decide) hmem

theorem withSlots_slotName {values : List Value} {n : Nat} {value : Value}
    (h : values[n]? = some value) (outer : Scope) :
    withSlots values outer (String.ofList (slotName n)) = some value := by
  rw [withSlots, slotIndex?_slotName, Option.bind_some, h, Option.some_or]

theorem names_slotName (n : Nat) : names (slotName n) = [slotName n] := by
  have hdigits : ∀ c ∈ Nat.toDigits 10 n, c.isDigit = true := fun c hmem =>
    Nat.isDigit_of_mem_toDigits (by decide) (by decide) hmem
  unfold slotName
  rw [names, if_neg (by decide), if_neg (by decide), if_pos rfl,
    List.takeWhile_eq_self_iff.mpr hdigits, List.dropWhile_eq_nil_iff.mpr hdigits, names]

/-- The names around a slot are those before it, the slot, and those after it. -/
theorem names_append_slotText (a b : List Char) (n : Nat) :
    names (a ++ slotText n ++ b) = names a ++ slotName n :: names b := by
  have hblank : endsName ' ' = true := endsName_of_isBlank (by decide)
  have hassoc : a ++ slotText n ++ b = a ++ ' ' :: (slotName n ++ ' ' :: b) := by
    simp [slotText]
  rw [hassoc, names_append_cons hblank, names_append_cons hblank, names_slotName,
    List.singleton_append]

/-! ## Accounting for names -/

/-- The names of a text are names that were written, or slots of values that are there. -/
def Slotted (written : List Char) (values : List Value) (text : List Char) : Prop :=
  ∀ name ∈ names text, name ∈ names written ∨ ∃ n < values.length, name = slotName n

namespace Slotted

variable {written text a b : List Char} {values : List Value}

theorem of_subset (h : names text ⊆ names written) : Slotted written values text :=
  fun _ hmem => .inl (h hmem)

theorem mono (h : Slotted a values text) (hsub : names a ⊆ names b) : Slotted b values text :=
  fun name hmem => (h name hmem).imp_left fun hname => hsub hname

/-- Slots stay in range when there are more values. -/
theorem append (h : Slotted written values text) (more : List Value) :
    Slotted written (values ++ more) text := by
  intro name hmem
  refine (h name hmem).imp_right ?_
  rintro ⟨n, hn, rfl⟩
  exact ⟨n, by rw [List.length_append]; omega, rfl⟩

/-- One value more, and its slot between two texts. -/
theorem append_slotText (ha : Slotted written values a) (hb : Slotted written values b)
    (value : Value) :
    Slotted written (values ++ [value]) (a ++ slotText values.length ++ b) := by
  intro name hmem
  rw [names_append_slotText] at hmem
  rcases List.mem_append.mp hmem with hmem | hmem
  · exact ha.append [value] name hmem
  · rcases List.mem_cons.mp hmem with rfl | hmem
    · exact .inr ⟨values.length, by simp, rfl⟩
    · exact hb.append [value] name hmem

end Slotted

variable {eval : Evaluator} {s : Scope} {whole : List Char}

/-- One pass over the groups of the end of a text accounts for the names. The text
`front` is what stands before it, so that a name that reaches across is seen as a
whole. -/
theorem names_resolveFrom {inside : Bool} {text : List Char} (front : List Char) {p : Pending}
    (h : resolveFrom eval s whole inside text = .ok p) :
    Slotted (front ++ text) p.values (front ++ p.stretch) ∧
      ∀ stretch ∈ p.beyond, Slotted (front ++ text) p.values stretch := by
  induction text generalizing inside front p with
  | nil =>
      obtain rfl := Except.ok.inj h
      exact ⟨.of_subset (List.Subset.refl _), by simp⟩
  | cons c rest ih =>
      rw [resolveFrom] at h
      cases hrest : resolveFrom eval s whole (if c = '"' then !inside else inside) rest with
      | error e => rw [hrest] at h; exact absurd h (by simp)
      | ok q =>
          rw [hrest] at h
          dsimp only at h
          obtain ⟨hstretch, hbeyond⟩ := ih (front ++ [c]) hrest
          rw [List.append_assoc, List.append_assoc, List.singleton_append,
            List.singleton_append] at hstretch
          rw [List.append_assoc, List.singleton_append] at hbeyond
          -- what stands after a parenthesis is a text of its own
          have cut (hc : endsName c = true) :
              names front ⊆ names (front ++ c :: rest) ∧
                Slotted (front ++ c :: rest) q.values q.stretch := by
            rw [names_append_cons hc]
            refine ⟨List.subset_append_left _ _, (ih [] hrest).1.mono ?_⟩
            rw [List.nil_append, names_append_cons hc]
            exact List.subset_append_right _ _
          by_cases hclose : (!inside && decide (c = ')')) = true
          · rw [if_pos hclose] at h
            obtain rfl : c = ')' := by simpa using (Bool.and_eq_true_iff.mp hclose).2
            obtain rfl := Except.ok.inj h
            obtain ⟨hfront, hafter⟩ := cut endsName_paren.2
            refine ⟨.of_subset ?_, fun stretch hmem => ?_⟩
            · show names (front ++ []) ⊆ _
              rwa [List.append_nil]
            · rcases List.mem_cons.mp hmem with rfl | hmem
              · exact hafter
              · exact hbeyond stretch hmem
          · rw [if_neg hclose] at h
            by_cases hopen : (!inside && decide (c = '(')) = true
            -- the slot of the group comes between what stands before and the next stretch
            · rw [if_pos hopen, Pending.open?] at h
              obtain rfl : c = '(' := by simpa using (Bool.and_eq_true_iff.mp hopen).2
              cases hb : q.beyond with
              | nil => rw [hb] at h; exact absurd h (by simp)
              | cons next beyond =>
                  rw [hb] at h hbeyond
                  dsimp only at h
                  cases hvalue : eval q.stretch (withSlots q.values s) with
                  | error e => rw [hvalue] at h; exact absurd h (by simp)
                  | ok value =>
                      rw [hvalue] at h
                      obtain rfl := Except.ok.inj h
                      obtain ⟨hfront, -⟩ := cut endsName_paren.1
                      refine ⟨?_, fun stretch hmem => ?_⟩
                      · show Slotted _ _ (front ++ (slotText q.values.length ++ next))
                        rw [← List.append_assoc]
                        exact (Slotted.of_subset hfront).append_slotText
                          (hbeyond next List.mem_cons_self) value
                      · exact (hbeyond stretch (List.mem_cons_of_mem _ hmem)).append [value]
            -- any other character joins what stands before
            · rw [if_neg hopen] at h
              obtain rfl := Except.ok.inj h
              exact ⟨hstretch, hbeyond⟩

/-- The names of a flat text are names of the text, or slots of its values. -/
theorem names_resolveGroups {text : List Char} {flat : Flattened}
    (h : resolveGroups eval text s = .ok flat) : Slotted text flat.values flat.text := by
  unfold resolveGroups at h
  split at h
  · exact absurd h (by simp)
  · cases hp : resolveFrom eval s text false text with
    | error e => rw [hp] at h; exact absurd h (by simp)
    | ok p =>
        rw [hp] at h
        obtain rfl := Except.ok.inj h
        exact (names_resolveFrom [] hp).1

end Flowchart.Expr
