import Flowchart.Proofs.Expr.Derivation
import Flowchart.Proofs.Expr.Seam
import Mathlib.Data.List.Chain

/-!
# Where tokens may stand

A token list of the grammar can be recognised from left to right: it is enough to know
whether an operand has just ended and how many parentheses are open
(`derives_iff_placed`). The conversion to postfix order knows the second of these only, and
the computation just counts. So tokens that are out of place may have a value: `1 2 +` is
worth three.

How much gets through is a matter of counting (`placed_of_weight`). Where no operand begins
when another has just ended, operands can outnumber operators by one at most, and by one
only if everything is in its place. So of all lists that have a value the grammar derives
those without two operands side by side (`derives_unless_juxtaposed`).
-/

namespace Flowchart.Expr

/-! ## From left to right -/

/-- Tokens that complete an expression. Of the tokens before them it matters only whether an
operand has ended with the last one and how many parentheses are open. -/
inductive Placed : (afterOperand : Bool) → (depth : Nat) → List Token → Prop where
  | done : Placed true 0 []
  | operand {depth : Nat} {rest : List Token} (value : Value) :
      Placed true depth rest → Placed false depth (.operand value :: rest)
  | negation {depth : Nat} {rest : List Token} :
      Placed false depth rest → Placed false depth (.negation :: rest)
  | leftParen {depth : Nat} {rest : List Token} :
      Placed false (depth + 1) rest → Placed false depth (.leftParen :: rest)
  | binary {depth : Nat} {rest : List Token} (op : BinaryOp) :
      Placed false depth rest → Placed true depth (.binary op :: rest)
  | rightParen {depth : Nat} {rest : List Token} :
      Placed true depth rest → Placed true (depth + 1) (.rightParen :: rest)

/-- An expression, and after it what may come after an operand. -/
theorem Derives.placed_append {tokens : List Token} (h : Derives tokens) {depth : Nat}
    {rest : List Token} (hrest : Placed true depth rest) : Placed false depth (tokens ++ rest) := by
  induction h generalizing depth rest with
  | operand value => exact .operand value hrest
  | negation _ ih => exact .negation (ih hrest)
  | @binary op left right _ _ ihl ihr =>
      rw [List.append_assoc]
      exact ihl (.binary op (ihr hrest))
  | @group tokens _ ih =>
      have happend : .leftParen :: tokens ++ [.rightParen] ++ rest
          = Token.leftParen :: (tokens ++ .rightParen :: rest) := by simp
      rw [happend]
      exact .leftParen (ih (.rightParen hrest))

/-- Tokens that have been read in one pair of parentheses: an expression, or what becomes one
together with any expression after it. -/
def Partial (afterOperand : Bool) (read : List Token) : Prop :=
  if afterOperand then Derives read else ∀ more, Derives more → Derives (read ++ more)

/-- Tokens that have been read, with so many parentheses open. -/
def Begun (afterOperand : Bool) : (depth : Nat) → List Token → Prop
  | 0, read => Partial afterOperand read
  | depth + 1, read => ∃ outer inner, read = outer ++ .leftParen :: inner ∧
      Begun false depth outer ∧ Partial afterOperand inner

/-- What goes on with the innermost part goes on with all of it. -/
theorem Begun.append {before after : Bool} {depth : Nat} {read more : List Token}
    (h : Begun before depth read)
    (hmore : ∀ inner, Partial before inner → Partial after (inner ++ more)) :
    Begun after depth (read ++ more) := by
  cases depth with
  | zero => exact hmore read h
  | succ depth =>
      obtain ⟨outer, inner, rfl, houter, hinner⟩ := h
      exact ⟨outer, inner ++ more, by simp, houter, hmore inner hinner⟩

/-- By induction on the tokens to come, which move one by one to those that have been read. -/
theorem Placed.derives_append {afterOperand : Bool} {depth : Nat} {rest read : List Token}
    (h : Placed afterOperand depth rest) (hread : Begun afterOperand depth read) :
    Derives (read ++ rest) := by
  induction h generalizing read with
  | done =>
      rw [List.append_nil]
      exact hread
  | operand value _ ih =>
      rw [List.append_cons]
      exact ih (hread.append fun inner hinner => hinner _ (.operand value))
  | negation _ ih =>
      rw [List.append_cons]
      refine ih (hread.append fun inner hinner more hmore => ?_)
      rw [List.append_assoc]
      exact hinner _ (.negation hmore)
  | leftParen _ ih =>
      rw [List.append_cons]
      exact ih ⟨read, [], rfl, hread, fun more hmore => hmore⟩
  | binary op _ ih =>
      rw [List.append_cons]
      refine ih (hread.append fun inner hinner more hmore => ?_)
      rw [List.append_assoc]
      exact .binary op hinner hmore
  | rightParen _ ih =>
      -- the expression in the parentheses is an operand of what is around them
      obtain ⟨outer, inner, rfl, houter, hinner⟩ := hread
      have hgroup : Begun true _ (outer ++ (.leftParen :: inner ++ [.rightParen])) :=
        houter.append fun front hfront => hfront _ (.group hinner)
      have happend (rest : List Token) : outer ++ .leftParen :: inner ++ .rightParen :: rest
          = outer ++ (.leftParen :: inner ++ [.rightParen]) ++ rest := by simp
      rw [happend]
      exact ih hgroup

/-- **The grammar from left to right.** -/
theorem derives_iff_placed {tokens : List Token} : Derives tokens ↔ Placed false 0 tokens := by
  constructor
  · intro h
    have hplaced := h.placed_append .done
    rwa [List.append_nil] at hplaced
  · intro h
    have hread : Begun false 0 [] := fun more hmore => hmore
    exact h.derives_append hread

/-! ## Counting -/

/-- What is computed for a token. -/
def Token.item? : Token → Option PostfixItem
  | operand value => some (.operand value)
  | binary op => some (.binary op)
  | negation => some .negation
  | leftParen | rightParen => none

/-- What is drained is the whole stack, and there is no parenthesis on it. -/
theorem Waiting.drain?_eq_some {stack : List Waiting} {items : List PostfixItem}
    (h : drain? stack = some items) : items = stack.filterMap item? ∧ depth stack = 0 := by
  induction stack generalizing items with
  | nil => exact ⟨(Option.some.inj h).symm, rfl⟩
  | cons w rest ih =>
      rw [drain?_cons] at h
      obtain ⟨item, hitem, h⟩ := Option.bind_eq_some_iff.mp h
      obtain ⟨more, hmore, rfl⟩ := Option.map_eq_some_iff.mp h
      obtain ⟨hall, hdepth⟩ := ih hmore
      refine ⟨by rw [List.filterMap_cons_some hitem, hall], ?_⟩
      cases w with
      | paren => cases hitem
      | binary op | negation => exact hdepth

/-- A cut at a parenthesis loses that parenthesis only. -/
theorem Waiting.toParen?_eq_some {stack under : List Waiting} {items : List PostfixItem}
    (h : toParen? stack = some (items, under)) :
    stack.filterMap item? = items ++ under.filterMap item? ∧ depth stack = depth under + 1 := by
  induction stack generalizing items with
  | nil => cases h
  | cons w rest ih =>
      cases w with
      | paren =>
          cases h
          exact ⟨rfl, rfl⟩
      | binary op | negation =>
          obtain ⟨⟨more, under'⟩, hmore, heq⟩ := Option.map_eq_some_iff.mp h
          obtain ⟨rfl, rfl⟩ := Prod.mk.inj heq
          obtain ⟨hitems, hdepth⟩ := ih hmore
          refine ⟨?_, hdepth⟩
          rw [List.filterMap_cons, hitems]
          rfl

theorem Waiting.released_append_kept (op : BinaryOp) (stack : List Waiting) :
    released op stack ++ (kept op stack).filterMap item? = stack.filterMap item? := by
  rw [released, kept, ← List.filterMap_append, List.takeWhile_append_dropWhile]

/-- **Postfix order is a reordering**: nothing is lost and nothing is added. -/
theorem perm_of_toPostfixWith {stack : List Waiting} {tokens : List Token}
    {items : List PostfixItem} (h : toPostfixWith stack tokens = .ok items) :
    items.Perm (tokens.filterMap Token.item? ++ stack.filterMap Waiting.item?) := by
  fun_induction toPostfixWith stack tokens generalizing items with
  | case1 stack drained hdrain =>
      obtain rfl := Except.ok.inj h
      rw [(Waiting.drain?_eq_some hdrain).1]
      exact .refl _
  | case2 => cases h
  | case3 stack value rest ih =>
      obtain ⟨more, hmore, rfl⟩ := before_eq_ok h
      exact (ih hmore).cons _
  | case4 stack rest ih => exact (ih h).trans List.perm_middle
  | case5 stack op rest ih =>
      obtain ⟨more, hmore, rfl⟩ := before_eq_ok h
      have hrest := (ih hmore).trans List.perm_middle
      rw [← Waiting.released_append_kept op stack]
      exact (hrest.append_left _).trans (List.perm_append_comm_assoc _ (_ :: _) _)
  | case6 stack rest ih => exact ih h
  | case7 stack rest out under hparen ih =>
      obtain ⟨more, hmore, rfl⟩ := before_eq_ok h
      rw [(Waiting.toParen?_eq_some hparen).1]
      exact ((ih hmore).append_left _).trans (List.perm_append_comm_assoc _ _ _)
  | case8 => cases h

namespace PostfixItem

/-- How many more values there are when an item has been computed. -/
def weight : PostfixItem → Int
  | operand _ => 1
  | negation => 0
  | binary _ => -1

/-- How many more values there are when all items have been computed. -/
def total : List PostfixItem → Int
  | [] => 0
  | item :: rest => item.weight + total rest

theorem total_perm {items items' : List PostfixItem} (h : items.Perm items') :
    total items = total items' := by
  induction h with
  | nil => rfl
  | cons item _ ih => rw [total, total, ih]
  | swap item item' rest =>
      simp only [total]
      omega
  | trans _ _ ih ih' => exact ih.trans ih'

theorem length_compute {item : PostfixItem} {stack out : List Value}
    (h : item.compute stack = .ok out) : (out.length : Int) = stack.length + item.weight := by
  cases item with
  | operand value => cases h; simp [weight]
  | negation =>
      cases stack with
      | nil => cases h
      | cons a under =>
          rw [compute] at h
          cases hvalue : negate a with
          | error e => rw [hvalue] at h; cases h
          | ok value => rw [hvalue] at h; cases h; simp [weight]
  | binary op =>
      rcases stack with _ | ⟨b, _ | ⟨a, under⟩⟩
      · cases h
      · cases h
      · rw [compute] at h
        cases hvalue : apply op a b with
        | error e => rw [hvalue] at h; cases h
        | ok value =>
            rw [hvalue] at h
            cases h
            simp only [List.length_cons, weight]
            omega

theorem length_computeAll {items : List PostfixItem} {stack out : List Value}
    (h : computeAll stack items = .ok out) : (out.length : Int) = stack.length + total items := by
  induction items generalizing stack with
  | nil => cases h; simp [total]
  | cons item rest ih =>
      rw [computeAll] at h
      cases hstep : item.compute stack with
      | error e => rw [hstep] at h; cases h
      | ok next =>
          rw [hstep] at h
          rw [ih h, length_compute hstep, total, Int.add_assoc]

end PostfixItem

/-- The weight of what is computed for a token. -/
def Token.weight (token : Token) : Int :=
  (token.item?.map PostfixItem.weight).getD 0

/-- By how many operands outnumber binary operators. -/
def weight (tokens : List Token) : Int :=
  PostfixItem.total (tokens.filterMap Token.item?)

theorem weight_cons (token : Token) (rest : List Token) :
    weight (token :: rest) = token.weight + weight rest := by
  cases token with
  | operand value | binary op | negation => rfl
  | leftParen | rightParen => exact (Int.zero_add _).symm

/-- Where there is a value, one operand is left over. -/
theorem weight_of_evalTokens {tokens : List Token} {value : Value}
    (h : evalTokens tokens = .ok value) : weight tokens = 1 := by
  obtain ⟨items, hitems, hcompute⟩ := exists_items_of_evalTokens h
  have hperm := perm_of_toPostfixWith hitems
  rw [List.filterMap_nil, List.append_nil] at hperm
  have hlength := PostfixItem.length_computeAll hcompute
  rw [PostfixItem.total_perm hperm] at hlength
  simpa [weight] using hlength.symm

/-! ## Side by side -/

/-- Whether an operand begins with this token. -/
def Token.startsOperand : Token → Bool
  | operand _ | negation | leftParen => true
  | binary _ | rightParen => false

/-- One operand ends and another begins right after it. A sign begins an operand, but of the
tokens of a text none is a sign right after an operand. -/
def Token.Clash (t u : Token) : Prop :=
  t.endsOperand = true ∧ u.startsOperand = true

instance : DecidableRel Token.Clash :=
  fun t u => inferInstanceAs (Decidable (t.endsOperand = true ∧ u.startsOperand = true))

/-- By how many operands can outnumber operators from here on when none clash. -/
def room (afterOperand : Bool) : Int :=
  if afterOperand then 0 else 1

theorem room_injective {a b : Bool} (h : room a = room b) : a = b := by
  revert a b
  decide

theorem Token.room_le {t u : Token} (h : ¬t.Clash u) :
    room (!u.startsOperand) ≤ room t.endsOperand := by
  unfold Clash at h
  cases hends : t.endsOperand <;> cases hstarts : u.startsOperand
  · decide
  · decide
  · decide
  · exact absurd ⟨hends, hstarts⟩ h

/-- A token takes the room there is to where it ends. -/
theorem Token.weight_add_room (u : Token) :
    u.weight + room u.endsOperand = room (!u.startsOperand) := by
  cases u <;> rfl

theorem weight_le_room {previous : Token} {tokens : List Token}
    (h : (previous :: tokens).IsChain fun t u => ¬t.Clash u) :
    weight tokens ≤ room previous.endsOperand := by
  induction tokens generalizing previous with
  | nil =>
      rw [room]
      split <;> decide
  | cons token rest ih =>
      obtain ⟨hclash, hrest⟩ := List.isChain_cons_cons.mp h
      calc weight (token :: rest)
        _ = token.weight + weight rest := weight_cons token rest
        _ ≤ token.weight + room token.endsOperand := Int.add_le_add_left (ih hrest) _
        _ = room (!token.startsOperand) := token.weight_add_room
        _ ≤ room previous.endsOperand := Token.room_le hclash

/-- Where there are as many operands as can be, each token uses the room it has. -/
theorem weight_eq_room_cons {previous token : Token} {rest : List Token}
    (h : (previous :: token :: rest).IsChain fun t u => ¬t.Clash u)
    (hweight : weight (token :: rest) = room previous.endsOperand) :
    previous.endsOperand = !token.startsOperand ∧ weight rest = room token.endsOperand := by
  obtain ⟨hclash, hrest⟩ := List.isChain_cons_cons.mp h
  have hle := Token.room_le hclash
  have hrestLe := weight_le_room hrest
  have hroom := token.weight_add_room
  rw [weight_cons] at hweight
  exact ⟨room_injective (by omega), by omega⟩

/-- **Counting puts tokens in their places.** -/
theorem placed_of_weight {stack : List Waiting} {tokens : List Token} {items : List PostfixItem}
    (h : toPostfixWith stack tokens = .ok items) {previous : Token}
    (hchain : (previous :: tokens).IsChain fun t u => ¬t.Clash u)
    (hweight : weight tokens = room previous.endsOperand) :
    Placed previous.endsOperand (Waiting.depth stack) tokens := by
  fun_induction toPostfixWith stack tokens generalizing previous items with
  | case1 stack drained hdrain =>
      have hends : true = previous.endsOperand := room_injective hweight
      rw [← hends, (Waiting.drain?_eq_some hdrain).2]
      exact .done
  | case2 => cases h
  | case3 stack value rest ih =>
      obtain ⟨more, hmore, -⟩ := before_eq_ok h
      obtain ⟨hplace, hrest⟩ := weight_eq_room_cons hchain hweight
      rw [hplace]
      exact .operand value (ih hmore hchain.tail hrest)
  | case4 stack rest ih =>
      obtain ⟨hplace, hrest⟩ := weight_eq_room_cons hchain hweight
      rw [hplace]
      exact .negation (ih h hchain.tail hrest)
  | case5 stack op rest ih =>
      obtain ⟨more, hmore, -⟩ := before_eq_ok h
      obtain ⟨hplace, hrest⟩ := weight_eq_room_cons hchain hweight
      have hplaced := ih hmore hchain.tail hrest
      rw [Waiting.depth, Waiting.depth_kept] at hplaced
      rw [hplace]
      exact .binary op hplaced
  | case6 stack rest ih =>
      obtain ⟨hplace, hrest⟩ := weight_eq_room_cons hchain hweight
      rw [hplace]
      exact .leftParen (ih h hchain.tail hrest)
  | case7 stack rest out under hparen ih =>
      obtain ⟨more, hmore, -⟩ := before_eq_ok h
      obtain ⟨hplace, hrest⟩ := weight_eq_room_cons hchain hweight
      rw [hplace, (Waiting.toParen?_eq_some hparen).2]
      exact .rightParen (ih hmore hchain.tail hrest)
  | case8 => cases h

/-- Two operands stand side by side, without an operator between them. -/
def Juxtaposed (tokens : List Token) : Prop :=
  ∃ t u, [t, u] <:+: tokens ∧ t.Clash u

theorem isChain_iff_forall_pair {α : Type} {R : α → α → Prop} {l : List α} :
    l.IsChain R ↔ ∀ a b, [a, b] <:+: l → R a b := by
  constructor
  · intro h a b hpair
    have hchain := List.IsChain.infix h hpair
    exact List.isChain_pair.mp hchain
  · intro h
    refine List.isChain_iff_forall_rel_of_append_cons_cons.mpr fun a b front back heq => ?_
    exact h a b ⟨front, back, by simp [heq]⟩

theorem not_juxtaposed_iff {tokens : List Token} :
    ¬Juxtaposed tokens ↔ tokens.IsChain fun t u => ¬t.Clash u := by
  rw [isChain_iff_forall_pair]
  simp only [Juxtaposed, not_exists, not_and]

instance : DecidablePred Juxtaposed :=
  fun _ => decidable_of_iff _ (not_iff_comm.mp not_juxtaposed_iff)

/-- Tokens in the place of a whole expression, with parentheses around them. -/
def framed (tokens : List Token) : List Token :=
  .leftParen :: (tokens ++ [.rightParen])

/-- In a list of the grammar an operand begins exactly where none has ended. -/
theorem Placed.isChain {afterOperand : Bool} {depth : Nat} {tokens : List Token}
    (h : Placed afterOperand depth tokens) {previous : Token}
    (hprevious : previous.endsOperand = afterOperand) :
    (previous :: (tokens ++ [.rightParen])).IsChain
      fun t u => u.startsOperand = !t.endsOperand := by
  induction h generalizing previous with
  | done => exact List.isChain_pair.mpr (by rw [hprevious]; rfl)
  | operand value _ ih | negation _ ih | leftParen _ ih | binary op _ ih | rightParen _ ih =>
      exact List.isChain_cons_cons.mpr ⟨by rw [hprevious]; rfl, ih rfl⟩

theorem Derives.startsOperand_eq {tokens : List Token} (h : Derives tokens) {t u : Token}
    (hpair : [t, u] <:+: framed tokens) : u.startsOperand = !t.endsOperand :=
  isChain_iff_forall_pair.mp ((derives_iff_placed.mp h).isChain rfl) t u hpair

theorem infix_framed {part tokens : List Token} (h : part <:+: tokens) : part <:+: framed tokens :=
  h.trans ⟨[.leftParen], [.rightParen], rfl⟩

theorem Derives.not_juxtaposed {tokens : List Token} (h : Derives tokens) :
    ¬Juxtaposed tokens := by
  rintro ⟨t, u, hpair, hends, hstarts⟩
  have hplace := h.startsOperand_eq (infix_framed hpair)
  rw [hstarts, hends] at hplace
  exact Bool.noConfusion hplace

/-- **Juxtaposition is the only fault that goes unnoticed.** -/
theorem derives_iff_not_juxtaposed {tokens : List Token} {value : Value}
    (h : evalTokens tokens = .ok value) : Derives tokens ↔ ¬Juxtaposed tokens := by
  refine ⟨Derives.not_juxtaposed, fun hapart => derives_iff_placed.mpr ?_⟩
  obtain ⟨items, hitems, -⟩ := exists_items_of_evalTokens h
  have hchain : (Token.leftParen :: tokens).IsChain fun t u => ¬t.Clash u :=
    (not_juxtaposed_iff.mp hapart).cons fun u _ hclash => Bool.noConfusion hclash.1
  exact placed_of_weight hitems hchain (weight_of_evalTokens h)

/-! ## Faults of other kinds -/

/-- A binary operator has no operand that ends before it, or an operator or a sign none that
begins after it. -/
def LacksOperand (tokens : List Token) : Prop :=
  ∃ t u, [t, u] <:+: framed tokens ∧
    ((∃ op, u = .binary op) ∧ t.endsOperand = false ∨
      ((∃ op, t = .binary op) ∨ t = .negation) ∧ u.startsOperand = false)

/-- Parentheses with nothing in them. -/
def EmptyPair (tokens : List Token) : Prop :=
  [.leftParen, .rightParen] <:+: tokens

theorem Derives.not_lacksOperand {tokens : List Token} (h : Derives tokens) :
    ¬LacksOperand tokens := by
  rintro ⟨t, u, hpair, hlacks⟩
  have hplace := h.startsOperand_eq hpair
  rcases hlacks with ⟨⟨op, rfl⟩, hends⟩ | ⟨hoperator, hstarts⟩
  · rw [hends] at hplace
    exact Bool.noConfusion hplace
  · have hends : t.endsOperand = false := by
      rcases hoperator with ⟨op, rfl⟩ | rfl <;> rfl
    rw [hstarts, hends] at hplace
    exact Bool.noConfusion hplace

theorem Derives.not_emptyPair {tokens : List Token} (h : Derives tokens) : ¬EmptyPair tokens :=
  fun hpair => Bool.noConfusion (h.startsOperand_eq (infix_framed hpair))

/-- **What has a value is an expression, unless operands are juxtaposed.** Among the token
lists that have a value the grammar derives exactly those in which no two operands stand
side by side. So a text of arithmetic that has a value has two operands side by side, or
else no operator in it lacks an operand and no parentheses are empty. -/
theorem derives_unless_juxtaposed (scope : Scope) (value : Value) :
    (∀ tokens, evalTokens tokens = .ok value → (Derives tokens ↔ ¬Juxtaposed tokens)) ∧
    ∀ text, hasConnective text = false → hasComparison text = false →
      evaluate text scope = .ok value →
      ∃ tokens, Token.read text scope = .ok tokens ∧ evalTokens tokens = .ok value ∧
        (Juxtaposed tokens ∨ Derives tokens ∧ ¬LacksOperand tokens ∧ ¬EmptyPair tokens) := by
  refine ⟨fun _ => derives_iff_not_juxtaposed, fun text hconnective hcomparison h => ?_⟩
  obtain ⟨tokens, hread, hvalue⟩ := exists_tokens_of_evaluate hconnective hcomparison h
  refine ⟨tokens, hread, hvalue, ?_⟩
  by_cases hpair : Juxtaposed tokens
  · exact .inl hpair
  · have hderives := (derives_iff_not_juxtaposed hvalue).mpr hpair
    exact .inr ⟨hderives, hderives.not_lacksOperand, hderives.not_emptyPair⟩

/-- A sign after an operator and a group. -/
theorem derives_unless_juxtaposed_signedGroup :
    let scope : Scope := fun _ => none
    let tokens : List Token := [.operand (.int 6), .binary .div, .negation, .leftParen,
      .operand (.int 1), .binary .add, .operand (.int 2), .rightParen]
    evaluate "6 / -(1 + 2)".toList scope = .ok (.int (-2)) ∧
    Token.read "6 / -(1 + 2)".toList scope = .ok tokens ∧
    Derives tokens ∧ ¬LacksOperand tokens ∧ ¬EmptyPair tokens := by
  intro scope tokens
  have hvalue : evaluate "6 / -(1 + 2)".toList scope = .ok (.int (-2)) := by decide +kernel
  have htokens : Token.read "6 / -(1 + 2)".toList scope = .ok tokens := by decide +kernel
  obtain ⟨read, hread, -, hplaced⟩ := (derives_unless_juxtaposed scope (.int (-2))).2
    "6 / -(1 + 2)".toList (by decide +kernel) (by decide +kernel) hvalue
  obtain rfl := Except.ok.inj (htokens.symm.trans hread)
  exact ⟨hvalue, htokens, hplaced.resolve_left (by decide)⟩

/-- An operator after its operands: there is none to its right, but the computation finds
two on its stack. -/
theorem evaluate_operatorLast :
    let scope : Scope := fun _ => none
    let tokens : List Token := [.operand (.int 1), .operand (.int 2), .binary .add]
    hasConnective "1 2 +".toList = false ∧ hasComparison "1 2 +".toList = false ∧
    Token.read "1 2 +".toList scope = .ok tokens ∧ evalTokens tokens = .ok (.int 3) ∧
    evaluate "1 2 +".toList scope = .ok (.int 3) ∧ ¬Derives tokens ∧ LacksOperand tokens := by
  intro scope tokens
  refine ⟨by decide +kernel, by decide +kernel, by decide +kernel, by decide +kernel,
    by decide +kernel, fun h => h.not_juxtaposed (by decide), ?_⟩
  exact ⟨.binary .add, .rightParen, by decide, .inr ⟨.inl ⟨.add, rfl⟩, rfl⟩⟩

end Flowchart.Expr
