import Flowchart.Proofs.Expr.Locality
import Flowchart.Proofs.Expr.Stripping

/-!
# Phrases without groups

Resolving the groups of a text replaces each of them by a slot that holds its value, the
last one first. On phrases this is `Phrase.flatten`: it gives a phrase without groups and
the values of its slots, or nothing when a group has no value. The flat phrase has the
value of the whole one, in the scope that knows the slots (`Phrase.value_flatten`), and
resolving the text gives its text (`Phrase.Ok.resolveGroups_text`).

Both are inductions over the phrase that go through it from right to left, as the
evaluator does. The slots that are already there are kept, since more of them only come
behind.
-/

namespace Flowchart.Expr

namespace Phrase

/-- The phrase with its groups evaluated, and the values of all slots. -/
def flatten (outer : Scope) : Phrase → List Value → Option (Phrase × List Value)
  | operand front lexeme back, values => some (operand front lexeme back, values)
  | group front inner back, values =>
    (inner.flatten outer values).bind fun flat =>
      (flat.1.value (withSlots flat.2 outer)).map fun x =>
        (operand (front ++ [' ']) (.slot (slotName flat.2.length)) (' ' :: back), flat.2 ++ [x])
  | negation front a, values =>
    (a.flatten outer values).map fun flat => (negation front flat.1, flat.2)
  | joined op a b, values =>
    (b.flatten outer values).bind fun flatB =>
      (a.flatten outer flatB.2).map fun flatA => (joined op flatA.1 flatB.1, flatA.2)

/-- The slots of the phrase are among the first so many. -/
def Below (n : Nat) : Phrase → Prop
  | operand _ lexeme _ => ∀ k, lexeme = .slot (slotName k) → k < n
  | group _ inner _ => inner.Below n
  | negation _ a => a.Below n
  | joined _ a b => a.Below n ∧ b.Below n

theorem Below.mono {p : Phrase} {m n : Nat} (h : p.Below m) (hle : m ≤ n) : p.Below n := by
  induction p with
  | operand front lexeme back => exact fun k hk => Nat.lt_of_lt_of_le (h k hk) hle
  | group front inner back ih => exact ih h
  | negation front a ih => exact ih h
  | joined op a b iha ihb => exact ⟨iha h.1, ihb h.2⟩

variable {outer : Scope}

/-- Flattening leaves a well-formed phrase without groups, of the same level. -/
theorem Ok.flatten {p flat : Phrase} {values values' : List Value} (h : p.Ok)
    (hflat : p.flatten outer values = some (flat, values')) :
    flat.Ok ∧ flat.groups = 0 ∧ flat.level = p.level := by
  induction p generalizing flat values values' with
  | operand front lexeme back =>
      obtain ⟨rfl, rfl⟩ := Prod.mk.inj (Option.some.inj hflat)
      exact ⟨h, rfl, rfl⟩
  | group front inner back ih =>
      obtain ⟨hfront, hinner, hback⟩ := h
      obtain ⟨flat', -, hflat⟩ := Option.bind_eq_some_iff.mp hflat
      obtain ⟨x, -, heq⟩ := Option.map_eq_some_iff.mp hflat
      obtain ⟨rfl, rfl⟩ := Prod.mk.inj heq
      have hspace : Text.isBlank ' ' = true := by decide
      refine ⟨⟨fun c hmem => ?_, ⟨_, rfl⟩, fun c hmem => ?_⟩, rfl, rfl⟩
      · rcases List.mem_append.mp hmem with hmem | hmem
        · exact hfront c hmem
        · rwa [List.mem_singleton.mp hmem]
      · rcases List.mem_cons.mp hmem with rfl | hmem
        · exact hspace
        · exact hback c hmem
  | negation front a ih =>
      obtain ⟨hfront, ha, hlevel⟩ := h
      obtain ⟨flat', hflat', heq⟩ := Option.map_eq_some_iff.mp hflat
      obtain ⟨rfl, rfl⟩ := Prod.mk.inj heq
      obtain ⟨hok, hgroups, hlevel'⟩ := ih ha hflat'
      exact ⟨⟨hfront, hok, by rwa [hlevel']⟩, hgroups, rfl⟩
  | joined op a b iha ihb =>
      obtain ⟨ha, hb, hleft, hright⟩ := h
      obtain ⟨flatB, hflatB, hflat⟩ := Option.bind_eq_some_iff.mp hflat
      obtain ⟨flatA, hflatA, heq⟩ := Option.map_eq_some_iff.mp hflat
      obtain ⟨rfl, rfl⟩ := Prod.mk.inj heq
      obtain ⟨hokA, hgroupsA, hlevelA⟩ := iha ha hflatA
      obtain ⟨hokB, hgroupsB, hlevelB⟩ := ihb hb hflatB
      exact ⟨⟨hokA, hokB, by rwa [hlevelA], by rwa [hlevelB]⟩, by rw [groups, hgroupsA, hgroupsB],
        rfl⟩

/-- A phrase without groups is flat already. -/
theorem flatten_of_groups {p : Phrase} (h : p.groups = 0) (values : List Value) :
    p.flatten outer values = some (p, values) := by
  induction p generalizing values with
  | operand front lexeme back => rfl
  | group front inner back => exact absurd h (Nat.succ_ne_zero _)
  | negation front a ih => rw [Phrase.flatten, ih h]; rfl
  | joined op a b iha ihb =>
      obtain ⟨ha, hb⟩ := Nat.add_eq_zero_iff.mp h
      rw [Phrase.flatten, ihb hb, Option.bind_some, iha ha]
      rfl

end Phrase

/-! ## Values -/

theorem slotIndex?_word {c : Char} (h : Text.startsWord c = true) (rest : List Char) :
    slotIndex? (String.ofList (c :: rest)) = none := by
  unfold slotIndex?
  rw [String.toList_ofList]
  split
  · next heq =>
    rw [(List.cons.inj heq).1] at h
    exact absurd h (by decide)
  · rfl

theorem withSlots_of_lt {values : List Value} {n : Nat} (h : n < values.length) (outer : Scope) :
    withSlots values outer (String.ofList (slotName n)) = values[n]? := by
  rw [withSlots_slotName (List.getElem?_eq_getElem h), List.getElem?_eq_getElem h]

/-- More slots make no difference to an operand that knows the ones it has. -/
theorem Lexeme.IsOperand.value?_append {lexeme : Lexeme} (h : lexeme.IsOperand)
    {values : List Value} (hbelow : ∀ k, lexeme = .slot (slotName k) → k < values.length)
    (more : List Value) (outer : Scope) :
    lexeme.value? (withSlots (values ++ more) outer) = lexeme.value? (withSlots values outer) := by
  cases lexeme with
  | slot name =>
      obtain ⟨n, rfl⟩ := h
      have hn := hbelow n rfl
      have hn' : n < (values ++ more).length := by
        rw [List.length_append]
        omega
      rw [value?, value?, withSlots_of_lt hn', withSlots_of_lt hn, List.getElem?_append_left hn]
  | word text =>
      obtain ⟨c, rest, rfl, hstart, -⟩ := h
      have hindex := slotIndex?_word hstart rest
      simp only [value?, withSlots, hindex, Option.bind_none]
  | number | literal | unterminated | operator | leftParen | rightParen | unknown => rfl

namespace Phrase

variable {outer : Scope}

theorem Ok.value_append {p : Phrase} (h : p.Ok) {values : List Value}
    (hbelow : p.Below values.length) (more : List Value) :
    p.value (withSlots (values ++ more) outer) = p.value (withSlots values outer) := by
  induction p with
  | operand front lexeme back => exact h.2.1.value?_append hbelow more outer
  | group front inner back ih => exact ih h.2.1 hbelow
  | negation front a ih => rw [value, ih h.2.1 hbelow, value]
  | joined op a b iha ihb => rw [value, iha h.1 hbelow.1, ihb h.2.1 hbelow.2, value]

/-- Flattening adds slots behind those that are there, and knows all of them. -/
theorem Below.flatten {p flat : Phrase} {values values' : List Value}
    (h : p.Below values.length) (hflat : p.flatten outer values = some (flat, values')) :
    (∃ more, values' = values ++ more) ∧ flat.Below values'.length := by
  induction p generalizing flat values values' with
  | operand front lexeme back =>
      obtain ⟨rfl, rfl⟩ := Prod.mk.inj (Option.some.inj hflat)
      exact ⟨⟨[], by simp⟩, h⟩
  | group front inner back ih =>
      obtain ⟨flat', hflat', hflat⟩ := Option.bind_eq_some_iff.mp hflat
      obtain ⟨x, -, heq⟩ := Option.map_eq_some_iff.mp hflat
      obtain ⟨rfl, rfl⟩ := Prod.mk.inj heq
      obtain ⟨⟨more, hmore⟩, -⟩ := ih h hflat'
      refine ⟨⟨more ++ [x], by rw [hmore, List.append_assoc]⟩, ?_⟩
      intro k hk
      have hindex := congrArg (fun name => slotIndex? (String.ofList name)) (Lexeme.slot.inj hk)
      simp only [slotIndex?_slotName, Option.some.injEq] at hindex
      simp [← hindex]
  | negation front a ih =>
      obtain ⟨⟨flat', values''⟩, hflat', heq⟩ := Option.map_eq_some_iff.mp hflat
      obtain ⟨rfl, rfl⟩ := Prod.mk.inj heq
      have hih : _ ∧ flat'.Below values''.length := ih h hflat'
      exact hih
  | joined op a b iha ihb =>
      -- the right operand comes first, and the slots of the left one behind its
      obtain ⟨flatB, hflatB, hflat⟩ := Option.bind_eq_some_iff.mp hflat
      obtain ⟨flatA, hflatA, heq⟩ := Option.map_eq_some_iff.mp hflat
      obtain ⟨rfl, rfl⟩ := Prod.mk.inj heq
      obtain ⟨⟨moreB, hmoreB⟩, hbelowB⟩ := ihb h.2 hflatB
      obtain ⟨⟨moreA, hmoreA⟩, hbelowA⟩ := iha (h.1.mono (by simp [hmoreB])) hflatA
      exact ⟨⟨moreB ++ moreA, by rw [hmoreA, hmoreB, List.append_assoc]⟩, hbelowA,
        hbelowB.mono (by simp [hmoreA])⟩

/-- **Flattening keeps the value.** -/
theorem Ok.value_flatten {p : Phrase} (h : p.Ok) {values : List Value}
    (hbelow : p.Below values.length) :
    ((p.flatten outer values).bind fun flat => flat.1.value (withSlots flat.2 outer))
      = p.value (withSlots values outer) := by
  induction p generalizing values with
  | operand front lexeme back => rfl
  | group front inner back ih =>
      have hih := ih h.2.1 hbelow
      rw [value, ← hih, Phrase.flatten]
      cases hflat : inner.flatten outer values with
      | none => rfl
      | some flat =>
          simp only [Option.bind_some]
          cases hx : flat.1.value (withSlots flat.2 outer) with
          | none => rfl
          | some x =>
              -- the new slot comes last and holds the value of the group
              have hslot : (flat.2 ++ [x])[flat.2.length]? = some x := by simp
              simp only [Option.map_some, Option.bind_some, value, Lexeme.value?]
              exact withSlots_slotName hslot outer
  | negation front a ih =>
      have hih := ih h.2.1 hbelow
      rw [value, ← hih, Phrase.flatten]
      cases a.flatten outer values <;> rfl
  | joined op a b iha ihb =>
      obtain ⟨ha, hb, -, -⟩ := h
      have hihB := ihb hb hbelow.2
      rw [value, ← hihB, Phrase.flatten]
      cases hflatB : b.flatten outer values with
      | none => cases a.value (withSlots values outer) <;> rfl
      | some flatB =>
          -- the slots of each side do not change what the other one is worth
          obtain ⟨⟨moreB, hmoreB⟩, hbelowB⟩ := hbelow.2.flatten hflatB
          have hokB := (hb.flatten hflatB).1
          have hbelowA : a.Below flatB.2.length := hbelow.1.mono (by simp [hmoreB])
          have hihA := iha ha hbelowA
          rw [hmoreB, ha.value_append hbelow.1, ← hmoreB] at hihA
          rw [← hihA]
          simp only [Option.bind_some]
          cases hflatA : a.flatten outer flatB.2 with
          | none => rfl
          | some flatA =>
              obtain ⟨⟨moreA, hmoreA⟩, -⟩ := hbelowA.flatten hflatA
              have hvalueB : flatB.1.value (withSlots flatA.2 outer)
                  = flatB.1.value (withSlots flatB.2 outer) := by
                rw [hmoreA, hokB.value_append hbelowB]
              simp only [Option.map_some, Option.bind_some, value, hvalueB]

end Phrase

/-! ## Texts -/

/-- The evaluator computes phrases without groups to their values, whatever the slots. -/
def ExactOnFlat (eval : Evaluator) (outer : Scope) : Prop :=
  ∀ (flat : Phrase) (values : List Value), flat.Ok → flat.groups = 0 →
    (eval flat.text (withSlots values outer)).toOption = flat.value (withSlots values outer)

section Resolve

variable (eval : Evaluator) (outer : Scope) (whole : List Char)

/-- A character that is no parenthesis, or stands in a literal, stays where it is. -/
theorem resolveFrom_ahead {inside : Bool} {c : Char} (h : inside = true ∨ c ≠ '(' ∧ c ≠ ')')
    (rest : List Char) :
    (resolveFrom eval outer whole inside (c :: rest)).toOption
      = (resolveFrom eval outer whole (if c = '"' then !inside else inside) rest).toOption.map
          (Pending.ahead c) := by
  rw [resolveFrom]
  cases resolveFrom eval outer whole (if c = '"' then !inside else inside) rest with
  | error e => rfl
  | ok q =>
      rcases h with rfl | ⟨hopen, hclose⟩
      · rfl
      · simp [hopen, hclose, Except.toOption]

/-- Text in front of what is known. -/
def Pending.prepend (text : List Char) (q : Pending) : Pending :=
  { q with stretch := text ++ q.stretch }

theorem resolveFrom_run {run : List Char} (h : ∀ c ∈ run, c ≠ '"' ∧ c ≠ '(' ∧ c ≠ ')')
    (rest : List Char) :
    (resolveFrom eval outer whole false (run ++ rest)).toOption
      = (resolveFrom eval outer whole false rest).toOption.map (Pending.prepend run) := by
  induction run with
  | nil => exact Option.map_id_apply.symm
  | cons c run ih =>
      obtain ⟨hquote, hparens⟩ := h c List.mem_cons_self
      rw [List.cons_append, resolveFrom_ahead eval outer whole (.inr hparens), if_neg hquote,
        ih fun d hmem => h d (List.mem_cons_of_mem _ hmem), Option.map_map]
      rfl

theorem resolveFrom_inside {held : List Char} (h : '"' ∉ held) (rest : List Char) :
    (resolveFrom eval outer whole true (held ++ '"' :: rest)).toOption
      = (resolveFrom eval outer whole false rest).toOption.map
          (Pending.prepend (held ++ ['"'])) := by
  induction held with
  | nil => exact resolveFrom_ahead eval outer whole (.inl rfl) rest
  | cons c held ih =>
      obtain ⟨hc, hheld⟩ := List.ne_and_not_mem_of_not_mem_cons h
      rw [List.cons_append, resolveFrom_ahead eval outer whole (.inl rfl), if_neg (Ne.symm hc),
        ih hheld, Option.map_map]
      rfl

theorem resolveFrom_literal {held : List Char} (h : '"' ∉ held) (rest : List Char) :
    (resolveFrom eval outer whole false ('"' :: held ++ '"' :: rest)).toOption
      = (resolveFrom eval outer whole false rest).toOption.map
          (Pending.prepend ('"' :: held ++ ['"'])) := by
  rw [List.cons_append, resolveFrom_ahead eval outer whole (.inr (by decide)), if_pos rfl,
    Bool.not_false, resolveFrom_inside eval outer whole h, Option.map_map]
  rfl

theorem resolveFrom_close (rest : List Char) :
    (resolveFrom eval outer whole false (')' :: rest)).toOption
      = (resolveFrom eval outer whole false rest).toOption.map Pending.close := by
  rw [resolveFrom, if_neg (by decide)]
  cases resolveFrom eval outer whole false rest <;> rfl

theorem resolveFrom_open (rest : List Char) :
    (resolveFrom eval outer whole false ('(' :: rest)).toOption
      = (resolveFrom eval outer whole false rest).toOption.bind fun q =>
          (q.open? eval outer whole).toOption := by
  rw [resolveFrom, if_neg (by decide)]
  cases resolveFrom eval outer whole false rest <;> rfl

end Resolve

namespace Phrase

variable {eval : Evaluator} {outer : Scope}

/-- Resolving the text of the phrase, in front of what is known of the rest, flattens it. -/
def Flattens (eval : Evaluator) (outer : Scope) (whole : List Char) (p : Phrase) : Prop :=
  ∀ rest, (resolveFrom eval outer whole false (p.text ++ rest)).toOption =
    (resolveFrom eval outer whole false rest).toOption.bind fun q =>
      (p.flatten outer q.values).map fun flat =>
        ⟨flat.1.text ++ q.stretch, q.beyond, flat.2⟩

/-- There is nothing to resolve in an operand. -/
theorem resolveFrom_operand {lexeme : Lexeme} (h : lexeme.IsOperand) (whole rest : List Char) :
    (resolveFrom eval outer whole false (lexeme.text ++ rest)).toOption
      = (resolveFrom eval outer whole false rest).toOption.map (Pending.prepend lexeme.text) := by
  rcases h.literal_or with ⟨held, rfl, hheld⟩ | hrun
  · have happend : (Lexeme.literal held).text ++ rest = '"' :: held ++ '"' :: rest := by
      simp [Lexeme.text]
    rw [happend, resolveFrom_literal eval outer whole hheld]
    rfl
  · exact resolveFrom_run eval outer whole
      (fun c hmem => outside_of_not_reserved (hrun c hmem)) rest

theorem Ok.flattens_operand {front back whole : List Char} {lexeme : Lexeme}
    (h : (operand front lexeme back).Ok) : Flattens eval outer whole (operand front lexeme back) := by
  intro rest
  obtain ⟨hfront, hlexeme, hback⟩ := h
  rw [text, List.append_assoc, List.append_assoc,
    resolveFrom_run eval outer whole (outside_of_blanks hfront), resolveFrom_operand hlexeme,
    resolveFrom_run eval outer whole (outside_of_blanks hback)]
  cases (resolveFrom eval outer whole false rest).toOption with
  | none => rfl
  | some q => simp [Phrase.flatten, Pending.prepend, text]

/-- A group is evaluated as soon as its opening parenthesis is reached, and then its text is
flat. -/
theorem Ok.flattens_group {front back whole : List Char} {inner : Phrase}
    (h : (group front inner back).Ok) (hexact : ExactOnFlat eval outer)
    (hflattens : Flattens eval outer whole inner) :
    Flattens eval outer whole (group front inner back) := by
  intro rest
  obtain ⟨hfront, hinner, hback⟩ := h
  have happend : (group front inner back).text ++ rest
      = front ++ '(' :: (inner.text ++ ')' :: (back ++ rest)) := by simp [text]
  -- from the right: the closing parenthesis begins a stretch, the opening one evaluates it
  rw [happend, resolveFrom_run eval outer whole (outside_of_blanks hfront), resolveFrom_open,
    hflattens, resolveFrom_close, resolveFrom_run eval outer whole (outside_of_blanks hback)]
  cases (resolveFrom eval outer whole false rest).toOption with
  | none => rfl
  | some q =>
      simp only [Option.map_some, Option.bind_some, Pending.close, Pending.prepend,
        Phrase.flatten]
      cases hflat : inner.flatten outer q.values with
      | none => rfl
      | some flat =>
          obtain ⟨hok, hgroups, -⟩ := hinner.flatten hflat
          have hvalue := hexact flat.1 flat.2 hok hgroups
          simp only [Option.map_some, Option.bind_some, List.append_nil, Pending.open?]
          rw [← hvalue]
          cases eval flat.1.text (withSlots flat.2 outer) with
          | error e => rfl
          | ok x => simp [Except.toOption, Pending.prepend, slotText, text, Lexeme.text]

theorem Ok.flattens_negation {front whole : List Char} {a : Phrase} (h : (negation front a).Ok)
    (hflattens : Flattens eval outer whole a) : Flattens eval outer whole (negation front a) := by
  intro rest
  have happend : (negation front a).text ++ rest = front ++ '-' :: (a.text ++ rest) := by
    simp [text]
  rw [happend, resolveFrom_run eval outer whole (outside_of_blanks h.1),
    resolveFrom_ahead eval outer whole (.inr (by decide)), if_neg (by decide), hflattens]
  cases (resolveFrom eval outer whole false rest).toOption with
  | none => rfl
  | some q =>
      simp only [Option.bind_some, Phrase.flatten]
      cases a.flatten outer q.values with
      | none => rfl
      | some flat => simp [Pending.prepend, Pending.ahead, text]

theorem flattens_joined {op : Operator} {a b : Phrase} {whole : List Char}
    (ha : Flattens eval outer whole a) (hb : Flattens eval outer whole b) :
    Flattens eval outer whole (joined op a b) := by
  intro rest
  have happend : (joined op a b).text ++ rest
      = a.text ++ (op.symbol.toList ++ (b.text ++ rest)) := by simp [text]
  rw [happend, ha, resolveFrom_run eval outer whole op.symbol_outside, hb]
  cases (resolveFrom eval outer whole false rest).toOption with
  | none => rfl
  | some q =>
      simp only [Option.bind_some, Phrase.flatten]
      cases b.flatten outer q.values with
      | none => rfl
      | some flatB =>
          simp only [Option.map_some, Option.bind_some, Pending.prepend]
          cases a.flatten outer flatB.2 with
          | none => rfl
          | some flatA => simp [text]

/-- Resolving the text of a phrase, in front of what is known of the rest. -/
theorem Ok.resolveFrom_text {p : Phrase} (h : p.Ok)
    (heval : p.groups ≠ 0 → ExactOnFlat eval outer) (whole rest : List Char) :
    (resolveFrom eval outer whole false (p.text ++ rest)).toOption =
      (resolveFrom eval outer whole false rest).toOption.bind fun q =>
        (p.flatten outer q.values).map fun flat =>
          ⟨flat.1.text ++ q.stretch, q.beyond, flat.2⟩ := by
  suffices hflattens : Flattens eval outer whole p from hflattens rest
  induction p with
  | operand front lexeme back => exact h.flattens_operand
  | group front inner back ih =>
      have hexact := heval (Nat.succ_ne_zero _)
      exact h.flattens_group hexact (ih h.2.1 fun _ => hexact)
  | negation front a ih => exact h.flattens_negation (ih h.2.1 heval)
  | joined op a b iha ihb =>
      have hgroups : (joined op a b).groups = a.groups + b.groups := rfl
      exact flattens_joined (iha h.1 fun hne => heval (by omega))
        (ihb h.2.1 fun hne => heval (by omega))

/-- **Resolving the groups of a text flattens the phrase.** -/
theorem Ok.resolveGroups_text {p : Phrase} (h : p.Ok)
    (heval : p.groups ≠ 0 → ExactOnFlat eval outer) :
    (resolveGroups eval p.text outer).toOption =
      (p.flatten outer []).map fun flat => ⟨flat.1.text, flat.2⟩ := by
  have hresolve := h.resolveFrom_text heval p.text []
  have hnil : (resolveFrom eval outer p.text false []).toOption = some ⟨[], [], []⟩ := rfl
  rw [List.append_nil, hnil, Option.bind_some] at hresolve
  have hgroups : (resolveGroups eval p.text outer).toOption
      = (resolveFrom eval outer p.text false p.text).toOption.map
          fun q => ⟨q.stretch, q.values⟩ := by
    unfold resolveGroups
    rw [h.balanced_any.not_closesTooOften 0, if_neg Bool.false_ne_true]
    cases resolveFrom eval outer p.text false p.text <;> rfl
  rw [hgroups, hresolve, Option.map_map]
  simp [Function.comp_def]

end Phrase

end Flowchart.Expr
