import Flowchart.Proofs.Expr.Conditions
import Flowchart.Proofs.Expr.Reading

/-!
# The evaluator computes phrases

The parts of evaluation, put together. A flat phrase needs a depth of three at most: one
for its connectives, one for its comparisons, one for arithmetic. With that the groups of
any phrase can be resolved, and a condition with connectives comes down to flat phrases at
once. Without connectives a phrase goes down one side of a comparison, or through outer
groups, at each depth, and each of these costs a group or leaves a phrase that binds more
tightly (`Phrase.Ok.evaluateWithin_text`).
-/

namespace Flowchart.Expr

namespace Phrase

/-! ## Flat phrases -/

/-- Outside of groups, operators that bind less tightly stand further out. -/
theorem Ok.level_le_of_mem_operators {p : Phrase} (h : p.Ok) (hgroups : p.groups = 0) :
    ∀ op ∈ p.operators, p.level ≤ op.level := by
  induction p with
  | operand => simp [operators]
  | group => exact absurd hgroups (Nat.succ_ne_zero _)
  | negation front a ih =>
      obtain ⟨-, ha, hlevel⟩ := h
      intro op hmem
      exact Nat.le_trans hlevel (ih ha hgroups op hmem)
  | joined op a b iha ihb =>
      obtain ⟨ha, hb, hleft, hright⟩ := h
      obtain ⟨hgroupsA, hgroupsB⟩ := Nat.add_eq_zero_iff.mp hgroups
      have hop := op.level_le_leftLevel
      intro o hmem
      rw [level]
      rcases List.mem_cons.mp hmem with rfl | hmem
      · exact Nat.le_refl _
      · rcases List.mem_append.mp hmem with hmem | hmem
        · have hle := iha ha hgroupsA o hmem
          omega
        · have hle := ihb hb hgroupsB o hmem
          omega

/-- Connectives outside of groups show in the level. -/
theorem Ok.not_connected {p : Phrase} (h : p.Ok) (hgroups : p.groups = 0) (hlevel : 2 ≤ p.level) :
    p.connected = false := by
  refine List.any_eq_false.mpr ?_
  intro op hmem hop
  have hle := h.level_le_of_mem_operators hgroups op hmem
  rw [Operator.not_connective (Nat.le_trans hlevel hle)] at hop
  exact Bool.noConfusion hop

/-- So do comparisons. -/
theorem Ok.not_compared {p : Phrase} (h : p.Ok) (hgroups : p.groups = 0) (hlevel : 3 ≤ p.level) :
    p.compared = false := by
  refine List.any_eq_false.mpr ?_
  intro op hmem hop
  have hle := h.level_le_of_mem_operators hgroups op hmem
  rw [Operator.not_comparison (Nat.le_trans hlevel hle)] at hop
  exact Bool.noConfusion hop

/-! ## Slots and groups -/

variable {f : List Char → List Char} {n : Nat}

@[simp]
theorem below_mapFront {p : Phrase} : (p.mapFront f).Below n ↔ p.Below n := by
  induction p with
  | operand | group | negation => rfl
  | joined op a b iha ihb => exact and_congr_left fun _ => iha

@[simp]
theorem below_mapBack {p : Phrase} : (p.mapBack f).Below n ↔ p.Below n := by
  induction p with
  | operand | group => rfl
  | negation front a ih => exact ih
  | joined op a b iha ihb => exact and_congr_right fun _ => ihb

/-- A phrase that has groups has no slots yet. -/
def Unmixed (p : Phrase) : Prop :=
  p.groups ≠ 0 → p.Below 0

theorem Unmixed.left {op : Operator} {a b : Phrase} (h : (joined op a b).Unmixed) : a.Unmixed := by
  intro hne
  exact (h fun hzero => hne (Nat.add_eq_zero_iff.mp hzero).1).1

theorem Unmixed.right {op : Operator} {a b : Phrase} (h : (joined op a b).Unmixed) : b.Unmixed := by
  intro hne
  exact (h fun hzero => hne (Nat.add_eq_zero_iff.mp hzero).2).2

theorem Unmixed.tight {p : Phrase} (h : p.Unmixed) : p.tight.Unmixed := by
  intro hne
  rw [groups_tight] at hne
  simpa [Phrase.tight] using h hne

theorem Unmixed.core {p : Phrase} (h : p.Unmixed) : p.core.Unmixed := by
  induction p with
  | group front inner back ih => exact ih fun _ => h (Nat.succ_ne_zero _)
  | operand | negation | joined => exact h.tight

/-- Dropping outer groups either changes nothing or leaves fewer groups. -/
theorem level_core (p : Phrase) : p.core.level = p.level ∨ p.core.groups < p.groups := by
  cases p with
  | group front inner back => exact .inr (Nat.lt_succ_of_le (groups_core_le inner))
  | operand | negation | joined => exact .inl (level_tight _)

@[simp]
theorem connected_tight (p : Phrase) : p.tight.connected = p.connected := by
  rw [connected, operators_tight, connected]

@[simp]
theorem connected_core (p : Phrase) : p.core.connected = p.connected := by
  rw [connected, operators_core, connected]

@[simp]
theorem compared_core (p : Phrase) : p.core.compared = p.compared := by
  rw [compared, operators_core, compared]

theorem connected_joined (op : Operator) (a b : Phrase) :
    (joined op a b).connected = (op.isConnective || (a.connected || b.connected)) := by
  simp [connected, operators]

/-- Flattening a phrase without slots, or without groups, keeps its value. -/
theorem Ok.value_flatten_nil {p : Phrase} (h : p.Ok) (hslots : p.Unmixed) (scope : Scope) :
    ((p.flatten scope []).bind fun flat => flat.1.value (withSlots flat.2 scope))
      = p.value scope := by
  have hnil : withSlots [] scope = scope := by
    funext name
    simp [withSlots]
  by_cases hgroups : p.groups = 0
  · rw [flatten_of_groups hgroups, Option.bind_some, hnil]
  · have hbelow : p.Below ([] : List Value).length := hslots hgroups
    rw [h.value_flatten hbelow, hnil]

/-! ## One level of evaluation -/

variable {eval : Evaluator} {scope : Scope} {p : Phrase}

/-- A text with operators is no truth value. -/
theorem Ok.boolOfWord?_eq_none (h : p.Ok) (hops : p.operators ≠ []) :
    Value.boolOfWord? p.text = none := by
  cases hb : Value.boolOfWord? p.text with
  | none => rfl
  | some b =>
      obtain ⟨word, rfl⟩ := h.eq_word (mem_truthLetters_of_boolOfWord? hb)
      exact absurd rfl hops

theorem Ok.core_text_ne_nil (h : p.Ok) : p.core.text ≠ [] := by
  obtain ⟨_, c, rest, -, -, htext, -⟩ := h.core.text_mapFront
  simp [htext]

/-- What becomes of a text that has operators. -/
theorem Ok.evaluateBody_of_operators (h : p.Ok) (hops : p.operators ≠ []) :
    evaluateBody eval p.text scope =
      if p.connected then (evaluateLogical eval p.core.text scope).map .bool
      else if p.compared then evaluateComparison eval p.core.text scope
      else evaluateArithmetic p.core.text scope := by
  have hempty : p.core.text.isEmpty = false := by simpa using h.core_text_ne_nil
  rw [evaluateBody, h.unwrap_trim_text]
  have htruth : Value.boolOfWord? p.core.text = none :=
    h.core.boolOfWord?_eq_none (by rwa [operators_core])
  simp only [hempty, htruth, h.core.hasConnective_text, h.core.hasComparison_text, connected_core,
    compared_core, Bool.false_eq_true, if_false]

/-- Arithmetic is computed at any depth. -/
theorem Ok.evaluateBody_of_arithmetic (h : p.Ok) (hconnected : p.connected = false)
    (hcompared : p.compared = false) :
    (evaluateBody eval p.text scope).toOption = p.value scope := by
  have harith : p.core.IsArithmetic :=
    isArithmetic_of_not (by rwa [connected_core]) (by rwa [compared_core])
  have hempty : p.core.text.isEmpty = false := by simpa using h.core_text_ne_nil
  rw [evaluateBody, h.unwrap_trim_text]
  simp only [hempty, h.core.hasConnective_text, h.core.hasComparison_text, connected_core,
    compared_core, hconnected, hcompared, Bool.false_eq_true, if_false]
  rw [← value_core]
  cases hb : Value.boolOfWord? p.core.text with
  | some b => exact (h.core.value_of_boolOfWord? hb scope).symm
  | none => exact h.core.evaluateArithmetic_text harith scope

/-! ## The parts of evaluation -/

/-- The evaluator computes the phrase to its value. -/
def Computes (eval : Evaluator) (scope : Scope) (p : Phrase) : Prop :=
  (eval p.text scope).toOption = p.value scope

/-- The evaluator computes the flat phrases that bind so tightly. -/
def ComputesFlat (eval : Evaluator) (level : Nat) : Prop :=
  ∀ (q : Phrase) (s : Scope), q.Ok → q.groups = 0 → level ≤ q.level → q.Computes eval s

theorem ComputesFlat.exactOnFlat (h : ComputesFlat eval 0) (scope : Scope) :
    ExactOnFlat eval scope := by
  intro flat values hok hgroups
  exact h flat (withSlots values scope) hok hgroups (Nat.zero_le _)

/-- Resolving the groups fails, or leaves a flat phrase of the same level. -/
theorem Ok.resolveGroups_cases (h : p.Ok) (hflat : p.groups ≠ 0 → ExactOnFlat eval scope) :
    (∃ e, resolveGroups eval p.text scope = .error e ∧ p.flatten scope [] = none) ∨
      ∃ flat values, resolveGroups eval p.text scope = .ok ⟨flat.text, values⟩ ∧
        p.flatten scope [] = some (flat, values) ∧
        flat.Ok ∧ flat.groups = 0 ∧ flat.level = p.level := by
  have hresolve := h.resolveGroups_text hflat
  cases hresolved : resolveGroups eval p.text scope with
  | error e =>
      rw [hresolved] at hresolve
      exact .inl ⟨e, rfl, Option.map_eq_none_iff.mp hresolve.symm⟩
  | ok flattened =>
      rw [hresolved] at hresolve
      obtain ⟨⟨flat, values⟩, hflatten, rfl⟩ := Option.map_eq_some_iff.mp hresolve.symm
      exact .inr ⟨flat, values, rfl, hflatten, h.flatten hflatten⟩

theorem Computes.toOption_conditionWith (h : p.Computes eval scope) :
    (conditionWith eval p.text scope).toOption = p.condition scope := by
  rw [condition, ← h, conditionWith]
  cases eval p.text scope with
  | error e => rfl
  | ok v => cases v <;> rfl

@[simp]
theorem condition_tight (scope : Scope) (p : Phrase) :
    p.tight.condition scope = p.condition scope := by
  rw [condition, value_tight, condition]

/-- The truth values do not depend on the blanks around the operands. -/
theorem toOption_conditionsWith {operands : List (Connective × Phrase)}
    (h : ∀ o ∈ operands, o.2.tight.Computes eval scope) :
    (conditionsWith eval scope (operands.map fun o => (o.1, o.2.tight.text))).toOption
      = conditions scope operands := by
  induction operands with
  | nil => rfl
  | cons o rest ih =>
      obtain ⟨op, q⟩ := o
      have hfirst := (h _ List.mem_cons_self).toOption_conditionWith
      have hrest := ih fun o hmem => h o (List.mem_cons_of_mem _ hmem)
      rw [condition_tight] at hfirst
      rw [List.map_cons, conditionsWith, conditions, ← hfirst, ← hrest]
      cases conditionWith eval q.tight.text scope with
      | error e => rfl
      | ok b => cases conditionsWith eval scope (rest.map fun o => (o.1, o.2.tight.text)) <;> rfl

/-- What the conjuncts of a flat phrase are. -/
theorem Ok.conjuncts_flat (h : p.Ok) (hgroups : p.groups = 0) :
    (p.conjuncts.1.Ok ∧ p.conjuncts.1.groups = 0 ∧ 2 ≤ p.conjuncts.1.level) ∧
      ∀ o ∈ p.conjuncts.2, o.2.Ok ∧ o.2.groups = 0 ∧ 2 ≤ o.2.level := by
  have hinherit : ∀ op a b, let q := joined (.connective op) a b
      q.Ok ∧ q.groups = 0 → (a.Ok ∧ a.groups = 0) ∧ b.Ok ∧ b.groups = 0 := by
    rintro op a b q ⟨⟨ha, hb, -, -⟩, hgroups⟩
    obtain ⟨hgroupsA, hgroupsB⟩ := Nat.add_eq_zero_iff.mp hgroups
    exact ⟨⟨ha, hgroupsA⟩, hb, hgroupsB⟩
  obtain ⟨hfirst, hmore⟩ :=
    forall_conjuncts (motive := fun q => q.Ok ∧ q.groups = 0) hinherit ⟨h, hgroups⟩
  obtain ⟨hlevel, hlevels⟩ := p.two_le_level_conjuncts
  exact ⟨⟨hfirst.1, hfirst.2, hlevel⟩, fun o hmem =>
    ⟨(hmore o hmem).1, (hmore o hmem).2, hlevels o hmem⟩⟩

/-- No conjunct of a phrase is missing. -/
theorem missingConjunct?_eq_none {operands : List (Connective × Phrase)} (hp : p.Ok)
    (h : ∀ o ∈ operands, o.2.Ok) :
    missingConjunct? p.tight.text (operands.map fun o => (o.1, o.2.tight.text)) = none := by
  have hfirst : p.tight.text.isEmpty = false := by simpa using hp.tight_text_ne_nil
  rw [missingConjunct?, hfirst, if_neg Bool.false_ne_true, Option.map_eq_none_iff,
    List.find?_eq_none]
  intro o hmem
  obtain ⟨o', hmem', rfl⟩ := List.mem_map.mp hmem
  simpa using (h o' hmem').tight_text_ne_nil

/-- **Conditions with connectives.** It is enough to compute flat phrases: all of them if
there are groups, and those without connectives otherwise. -/
theorem Ok.evaluateLogical_text (h : p.Ok) (hslots : p.Unmixed)
    (hflat : p.groups ≠ 0 → ExactOnFlat eval scope) (hoperands : ComputesFlat eval 2) :
    (evaluateLogical eval p.text scope).toOption = p.condition scope := by
  rw [condition, ← h.value_flatten_nil hslots, evaluateLogical]
  rcases h.resolveGroups_cases hflat with ⟨e, hresolved, hflatten⟩ |
    ⟨flat, values, hresolved, hflatten, hok, hgroups, -⟩
  · rw [hresolved, hflatten]
    rfl
  · rw [hresolved, hflatten, Option.bind_some]
    obtain ⟨hfirst, hmore⟩ := hok.conjuncts_flat hgroups
    have computes {q : Phrase} (hq : q.Ok ∧ q.groups = 0 ∧ 2 ≤ q.level) :
        q.tight.Computes eval (withSlots values scope) :=
      hoperands _ _ hq.1.tight (by rw [groups_tight, hq.2.1]) (by rw [level_tight]; exact hq.2.2)
    have hhead := (computes hfirst).toOption_conditionWith
    have htail := toOption_conditionsWith fun o hmem => computes (hmore o hmem)
    -- trimming the conjuncts leaves phrases, and none of them is empty
    have htrimmed : (flat.conjuncts.2.map fun o => (o.1, o.2.text)).map
          (fun operand => (operand.1, Text.trim operand.2))
        = flat.conjuncts.2.map fun o => (o.1, o.2.tight.text) := by
      rw [List.map_map]
      refine List.map_congr_left ?_
      intro o hmem
      rw [← (hmore o hmem).1.trim_text]
      rfl
    have hmissing := missingConjunct?_eq_none hfirst.1 fun o hmem => (hmore o hmem).1
    show _ = flat.condition (withSlots values scope)
    rw [condition_tight] at hhead
    rw [← hok.condition_conjuncts, ← hhead, ← htail]
    dsimp only
    rw [hok.conjuncts_text]
    dsimp only
    rw [htrimmed, hfirst.1.trim_text, hmissing]
    dsimp only
    cases conditionWith eval flat.conjuncts.1.tight.text (withSlots values scope) with
    | error e => rfl
    | ok b =>
        cases conditionsWith eval (withSlots values scope)
          (flat.conjuncts.2.map fun o => (o.1, o.2.tight.text)) <;> rfl

/-- **A comparison** of two phrases that the evaluator computes. -/
theorem Ok.evaluateComparison_text {op : Comparison} {a b : Phrase}
    (h : (joined (.comparison op) a b).Ok) (ha : a.tight.Computes eval scope)
    (hb : b.tight.Computes eval scope) :
    (evaluateComparison eval (joined (.comparison op) a b).text scope).toOption
      = (joined (.comparison op) a b).value scope := by
  have hbalanced := h.balanced_any.not_closesTooOften 0
  have hcomparands := h.comparands_text
  obtain ⟨hokA, hokB, -, -⟩ := h
  have hleft : a.tight.text.isEmpty = false := by simpa using hokA.tight_text_ne_nil
  have hright : b.tight.text.isEmpty = false := by simpa using hokB.tight_text_ne_nil
  rw [evaluateComparison, hbalanced, if_neg Bool.false_ne_true, hcomparands]
  dsimp only
  rw [hokA.trim_text, hokB.trim_text, hleft, hright, value, ← value_tight a, ← value_tight b, ← ha,
    ← hb, if_neg (by decide)]
  cases eval a.tight.text scope with
  | error e => rfl
  | ok x =>
      cases eval b.tight.text scope with
      | error e => rfl
      | ok y =>
          simp only [Except.toOption, Option.bind_some, Operator.compute]
          cases compareValues op x y <;> rfl

/-- **Comparisons inside groups only.** The groups are resolved, and what is left is
arithmetic. -/
theorem Ok.evaluateComparison_of_level (h : p.Ok) (hslots : p.Unmixed) (hlevel : 3 ≤ p.level)
    (hflat : p.groups ≠ 0 → ExactOnFlat eval scope) (harithmetic : ComputesFlat eval 3) :
    (evaluateComparison eval p.text scope).toOption = p.value scope := by
  rw [← h.value_flatten_nil hslots, evaluateComparison, h.balanced_any.not_closesTooOften 0,
    if_neg Bool.false_ne_true, h.comparands_text_of_level hlevel]
  dsimp only
  rcases h.resolveGroups_cases hflat with ⟨e, hresolved, hflatten⟩ |
    ⟨flat, values, hresolved, hflatten, hok, hgroups, hsame⟩
  · rw [hresolved, hflatten]
    rfl
  · rw [hresolved, hflatten, Option.bind_some]
    exact harithmetic flat _ hok hgroups (by rwa [hsame])

/-! ## Any text -/

theorem operators_ne_nil_of_connected (h : p.connected = true) : p.operators ≠ [] := by
  intro hnil
  rw [connected, hnil] at h
  exact Bool.noConfusion h

theorem operators_ne_nil_of_compared (h : p.compared = true) : p.operators ≠ [] := by
  intro hnil
  rw [compared, hnil] at h
  exact Bool.noConfusion h

/-- A text with connectives is evaluated to a truth value or to nothing, even where its value
is none. -/
theorem Ok.evaluateBody_of_connected (h : p.Ok) (hconnected : p.connected = true)
    (hslots : p.Unmixed) (hflat : p.groups ≠ 0 → ExactOnFlat eval scope)
    (hoperands : ComputesFlat eval 2) :
    (evaluateBody eval p.text scope).toOption = (p.condition scope).map .bool := by
  have hcore : p.core.groups ≠ 0 → ExactOnFlat eval scope := by
    intro hne
    refine hflat ?_
    have hle := groups_core_le p
    omega
  have hlogical := h.core.evaluateLogical_text hslots.core hcore hoperands
  rw [condition, value_core] at hlogical
  rw [h.evaluateBody_of_operators (operators_ne_nil_of_connected hconnected), if_pos hconnected,
    condition, ← hlogical]
  cases evaluateLogical eval p.core.text scope <;> rfl

/-- A text with comparisons and without connectives is one comparison, or its comparisons are
all inside groups. -/
theorem Ok.evaluateBody_of_compared (h : p.Ok) (hconnected : p.connected = false)
    (hcompared : p.compared = true) (hslots : p.Unmixed)
    (hsides : ∀ q : Phrase, q.Ok → q.Unmixed → q.connected = false → 3 ≤ q.level →
      q.groups ≤ p.core.groups → p.core.level = 2 → q.Computes eval scope)
    (hflat : p.core.level ≠ 2 → ExactOnFlat eval scope) (harithmetic : ComputesFlat eval 3) :
    (evaluateBody eval p.text scope).toOption = p.value scope := by
  rw [h.evaluateBody_of_operators (operators_ne_nil_of_compared hcompared), hconnected,
    if_neg Bool.false_ne_true, if_pos hcompared, ← value_core]
  rw [← connected_core] at hconnected
  have hok := h.core
  have hslotsCore := hslots.core
  have inside (hlevel : 3 ≤ p.core.level) :
      (evaluateComparison eval p.core.text scope).toOption = p.core.value scope :=
    hok.evaluateComparison_of_level hslotsCore hlevel (fun _ => hflat (by omega)) harithmetic
  generalize p.core = core at *
  cases core with
  | operand | group => exact inside (by omega : 3 ≤ 6)
  | negation => exact inside (by omega : 3 ≤ 5)
  | joined op a b =>
      rw [connected_joined] at hconnected
      obtain ⟨hop, hsub⟩ := Bool.or_eq_false_iff.mp hconnected
      obtain ⟨hconnectedA, hconnectedB⟩ := Bool.or_eq_false_iff.mp hsub
      rcases op with op | op | op
      · exact inside (by cases op <;> simp [level, Operator.level, BinaryOp.precedence])
      · obtain ⟨ha, hb, hleft, hright⟩ := hok
        refine Ok.evaluateComparison_text ⟨ha, hb, hleft, hright⟩ ?_ ?_
        · refine hsides a.tight ha.tight hslotsCore.left.tight ?_ ?_ ?_ rfl
          · rwa [connected_tight]
          · rwa [level_tight]
          · rw [groups_tight]
            exact Nat.le_add_right _ _
        · refine hsides b.tight hb.tight hslotsCore.right.tight ?_ ?_ ?_ rfl
          · rwa [connected_tight]
          · rwa [level_tight]
          · rw [groups_tight]
            exact Nat.le_add_left _ _
      · exact Bool.noConfusion hop

/-! ## Depth -/

variable {deeper : Evaluator} {depth : Nat}

/-- Flat arithmetic needs one level. -/
theorem computesFlat_three (hdepth : 1 ≤ depth) :
    ComputesFlat (evaluateWithin deeper depth) 3 := by
  intro p scope h hgroups hlevel
  obtain ⟨depth, rfl⟩ := Nat.exists_eq_add_of_le' hdepth
  exact h.evaluateBody_of_arithmetic (h.not_connected hgroups (Nat.le_of_succ_le hlevel))
    (h.not_compared hgroups hlevel)

/-- Without connectives, a flat phrase needs two levels. -/
theorem computesFlat_two (hdepth : 2 ≤ depth) : ComputesFlat (evaluateWithin deeper depth) 2 := by
  intro p scope h hgroups hlevel
  obtain ⟨depth, rfl⟩ := Nat.exists_eq_add_of_le' (Nat.le_of_succ_le hdepth)
  have hconnected := h.not_connected hgroups hlevel
  have harithmetic : ComputesFlat (evaluateWithin deeper depth) 3 := computesFlat_three (by omega)
  cases hcompared : p.compared with
  | false => exact h.evaluateBody_of_arithmetic hconnected hcompared
  | true =>
      have hcore := groups_core_le p
      refine h.evaluateBody_of_compared hconnected hcompared (fun hne => absurd hgroups hne) ?_ ?_
        harithmetic
      · intro q hq _ _ hqLevel hqGroups _
        exact harithmetic q scope hq (by omega) hqLevel
      · -- the comparison is not inside a group, so the level is that of comparisons
        intro hne
        have hlevel' : ¬3 ≤ p.level := by
          intro hle
          rw [h.not_compared hgroups hle] at hcompared
          exact Bool.noConfusion hcompared
        rcases level_core p with hsame | hless
        · omega
        · omega

/-- Any flat phrase needs three levels. -/
theorem computesFlat_zero (hdepth : 3 ≤ depth) :
    ComputesFlat (evaluateWithin deeper depth) 0 := by
  intro p scope h hgroups _
  by_cases hlevel : 2 ≤ p.level
  · exact computesFlat_two (Nat.le_of_succ_le hdepth) p scope h hgroups hlevel
  · obtain ⟨depth, rfl⟩ := Nat.exists_eq_add_of_le' (Nat.le_trans (by omega : 1 ≤ 3) hdepth)
    -- flat phrases that bind less than comparisons are joined by a connective
    cases p using connective_induction with
    | tight p htight => exact absurd htight hlevel
    | joined op a b =>
        rw [Computes, value_joined_connective]
        exact h.evaluateBody_of_connected rfl (fun hne => absurd hgroups hne)
          (fun hne => absurd hgroups hne) (computesFlat_two (by omega))

/-- **Phrases without connectives are computed.** Going down one side of a comparison leaves a
phrase that binds more tightly, and going through outer groups leaves fewer groups. -/
theorem Ok.evaluateWithin_text (h : p.Ok) (hslots : p.Unmixed) (hconnected : p.connected = false)
    (hdepth : p.groups + 4 ≤ depth + if 3 ≤ p.level then 1 else 0) (scope : Scope) :
    p.Computes (evaluateWithin deeper depth) scope := by
  induction depth generalizing p with
  | zero =>
      exfalso
      split at hdepth <;> omega
  | succ depth ih =>
      cases hcompared : p.compared with
      | false => exact h.evaluateBody_of_arithmetic hconnected hcompared
      | true =>
          refine h.evaluateBody_of_compared hconnected hcompared hslots ?_ ?_
            (computesFlat_three ?_)
          · -- the sides bind more tightly than the comparison does
            intro q hq hqSlots hqConnected hqLevel hqGroups hcore
            refine ih hq hqSlots hqConnected ?_
            have hle := groups_core_le p
            rw [if_pos hqLevel]
            rcases level_core p with hsame | hless
            · rw [if_neg (by omega)] at hdepth
              omega
            · split at hdepth <;> omega
          · intro _
            refine ComputesFlat.exactOnFlat (computesFlat_zero ?_) scope
            by_cases hlevel : 3 ≤ p.level
            · -- the comparisons of such a phrase are inside groups
              have hgroups : p.groups ≠ 0 := by
                intro hgroups
                rw [h.not_compared hgroups hlevel] at hcompared
                exact Bool.noConfusion hcompared
              rw [if_pos hlevel] at hdepth
              omega
            · rw [if_neg hlevel] at hdepth
              omega
          · split at hdepth <;> omega

/-- **Evaluation agrees with phrases**, except that a text with connectives has to be a
condition. -/
theorem Ok.evaluate_text (h : p.Ok) (hslots : p.Unmixed) (scope : Scope) :
    (evaluate p.text scope).toOption =
      if p.connected then (p.condition scope).map .bool else p.value scope := by
  have hdepth : depthBound p.text = p.groups + 3 + 1 := by
    rw [depthBound, h.openings_text]
  rw [evaluate, hdepth]
  cases hconnected : p.connected with
  | false =>
      rw [if_neg Bool.false_ne_true]
      exact h.evaluateWithin_text hslots hconnected (by omega) scope
  | true =>
      rw [if_pos rfl]
      exact h.evaluateBody_of_connected hconnected hslots
        (fun _ => (computesFlat_zero (by omega)).exactOnFlat scope) (computesFlat_two (by omega))

/-- **Conditions agree with phrases.** -/
theorem Ok.evaluateCondition_text (h : p.Ok) (hslots : p.Unmixed) (scope : Scope) :
    (evaluateCondition p.text scope).toOption = p.condition scope := by
  have heval := h.evaluate_text hslots scope
  split at heval
  · rw [evaluateCondition, conditionWith]
    cases hvalue : evaluate p.text scope with
    | error e =>
        rw [hvalue] at heval
        exact (Option.map_eq_none_iff.mp heval.symm).symm
    | ok v =>
        rw [hvalue] at heval
        obtain ⟨b, hb, rfl⟩ := Option.map_eq_some_iff.mp heval.symm
        exact hb.symm
  · exact Computes.toOption_conditionWith heval

end Phrase

end Flowchart.Expr
