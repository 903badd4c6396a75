import Flowchart.Proofs.Expr.Locality
import Flowchart.Proofs.Expr.Reading

/-!
# Parentheses among tokens

Arithmetic is lenient: there are token lists that no grammar would allow and that have a
value all the same. Nevertheless parentheses mean what they should, whatever stands around
them. If the tokens in a pair of parentheses have a value by themselves, then the pair
stands for this value (`evalTokens_group`).

Two facts carry this. What is done with tokens in parentheses does not depend on what waits
below the parenthesis (`toPostfixWith_paren`), and a computation does not depend on the
values below those it uses (`computeAll_base`).
-/

namespace Flowchart.Expr

/-! ## Below the parenthesis -/

namespace Waiting

variable {pending stack : List Waiting}

theorem drain?_cons (w : Waiting) (rest : List Waiting) :
    drain? (w :: rest) = (item? w).bind fun item => (drain? rest).map (item :: ·) := by
  unfold drain?
  rw [List.mapM_cons]
  cases item? w with
  | none => rfl
  | some item => cases rest.mapM item? <;> rfl

/-- What can be drained is what stands above a parenthesis. -/
theorem toParen?_of_drain? {items : List PostfixItem} (h : drain? pending = some items)
    (stack : List Waiting) : toParen? (pending ++ .paren :: stack) = some (items, stack) := by
  induction pending generalizing items with
  | nil =>
      obtain rfl := Option.some.inj h
      rfl
  | cons w rest ih =>
      rw [drain?_cons] at h
      obtain ⟨item, hitem, h⟩ := Option.bind_eq_some_iff.mp h
      obtain ⟨more, hmore, rfl⟩ := Option.map_eq_some_iff.mp h
      cases w with
      | paren => cases hitem
      | binary op => cases hitem; rw [List.cons_append, toParen?, ih hmore]; rfl
      | negation => cases hitem; rw [List.cons_append, toParen?, ih hmore]; rfl

/-- A parenthesis that is there is found before any below it. -/
theorem toParen?_append_of_some {items : List PostfixItem} {under : List Waiting}
    (h : toParen? pending = some (items, under)) (stack : List Waiting) :
    toParen? (pending ++ stack) = some (items, under ++ stack) := by
  induction pending generalizing items with
  | nil => cases h
  | cons w rest ih =>
      cases w with
      | paren => cases h; rfl
      | binary op | negation =>
          obtain ⟨⟨more, under'⟩, hmore, heq⟩ := Option.map_eq_some_iff.mp h
          obtain ⟨rfl, rfl⟩ := Prod.mk.inj heq
          rw [List.cons_append, toParen?, ih hmore]
          rfl

/-- Operators let nothing go below a parenthesis. -/
theorem released_paren (op : BinaryOp) (pending stack : List Waiting) :
    released op (pending ++ .paren :: stack) = released op pending := by
  rw [released, takeWhile_append_cons rfl, released]

theorem kept_paren (op : BinaryOp) (pending stack : List Waiting) :
    kept op (pending ++ .paren :: stack) = kept op pending ++ .paren :: stack := by
  rw [kept, dropWhile_append_cons rfl, kept]

end Waiting

theorem before_eq_ok {items all : List PostfixItem}
    {outcome : Except Error (List PostfixItem)} (h : before items outcome = .ok all) :
    ∃ rest, outcome = .ok rest ∧ all = items ++ rest := by
  cases outcome with
  | error e => cases h
  | ok rest => exact ⟨rest, rfl, (Except.ok.inj h).symm⟩

/-- Tokens that have a postfix order by themselves have the same one in parentheses. -/
theorem toPostfixWith_paren {pending : List Waiting} {inner : List Token}
    {items : List PostfixItem} (h : toPostfixWith pending inner = .ok items)
    (stack : List Waiting) (rest : List Token) :
    toPostfixWith (pending ++ .paren :: stack) (inner ++ .rightParen :: rest)
      = before items (toPostfixWith stack rest) := by
  fun_induction toPostfixWith pending inner generalizing items with
  | case1 pending items' hdrain =>
      obtain rfl := Except.ok.inj h
      rw [List.nil_append, toPostfixWith, Waiting.toParen?_of_drain? hdrain]
  | case2 => cases h
  | case3 pending value inner ih =>
      obtain ⟨more, hmore, rfl⟩ := before_eq_ok h
      rw [List.cons_append, toPostfixWith, ih hmore, before_before]
  | case4 pending inner ih =>
      rw [List.cons_append, toPostfixWith]
      exact ih h
  | case5 pending op inner ih =>
      obtain ⟨more, hmore, rfl⟩ := before_eq_ok h
      have hinner := ih hmore
      rw [List.cons_append] at hinner
      rw [List.cons_append, toPostfixWith, Waiting.released_paren, Waiting.kept_paren, hinner,
        before_before]
  | case6 pending inner ih =>
      rw [List.cons_append, toPostfixWith]
      exact ih h
  | case7 pending inner out under hparen ih =>
      obtain ⟨more, hmore, rfl⟩ := before_eq_ok h
      rw [List.cons_append, toPostfixWith, Waiting.toParen?_append_of_some hparen]
      dsimp only
      rw [ih hmore, before_before]
  | case8 => cases h

/-! ## Below the values -/

theorem PostfixItem.compute_base {item : PostfixItem} {stack out : List Value}
    (h : item.compute stack = .ok out) (base : List Value) :
    item.compute (stack ++ base) = .ok (out ++ base) := by
  cases item with
  | operand value => cases h; rfl
  | negation =>
      cases stack with
      | nil => cases h
      | cons a under =>
          rw [compute] at h
          rw [List.cons_append, compute]
          cases hvalue : negate a with
          | error e => rw [hvalue] at h; cases h
          | ok value => rw [hvalue] at h; cases h; rfl
  | binary op =>
      rcases stack with _ | ⟨b, _ | ⟨a, under⟩⟩
      · cases h
      · cases h
      · rw [compute] at h
        rw [List.cons_append, List.cons_append, compute]
        cases hvalue : apply op a b with
        | error e => rw [hvalue] at h; cases h
        | ok value => rw [hvalue] at h; cases h; rfl

/-- A computation that has a result has it on top of any other values. -/
theorem computeAll_base {items : List PostfixItem} {stack out : List Value}
    (h : computeAll stack items = .ok out) (base : List Value) :
    computeAll (stack ++ base) items = .ok (out ++ base) := by
  induction items generalizing stack with
  | nil => cases h; rfl
  | cons item rest ih =>
      rw [computeAll] at h
      cases hstep : item.compute stack with
      | error e => rw [hstep] at h; cases h
      | ok next =>
          rw [hstep] at h
          rw [computeAll, PostfixItem.compute_base hstep]
          exact ih h

theorem toOption_computeAll_append (stack : List Value) (items more : List PostfixItem) :
    (computeAll stack (items ++ more)).toOption =
      (computeAll stack items).toOption.bind fun next => (computeAll next more).toOption := by
  induction items generalizing stack with
  | nil => rfl
  | cons item rest ih =>
      rw [List.cons_append, computeAll, computeAll]
      cases item.compute stack with
      | error e => rfl
      | ok next => exact ih next

/-! ## What a list of tokens does to the values -/

/-- The values after computing what has become of tokens. -/
def computed? (values : List Value) (outcome : Except Error (List PostfixItem)) :
    Option (List Value) :=
  outcome.toOption.bind fun items => (computeAll values items).toOption

/-- The only value. -/
def single? : List Value → Option Value
  | [value] => some value
  | _ => none

theorem toOption_evalTokens (tokens : List Token) :
    (evalTokens tokens).toOption = (computed? [] (toPostfix tokens)).bind single? := by
  rw [evalTokens, computed?]
  cases toPostfix tokens with
  | error e => rfl
  | ok items =>
      simp only [Except.toOption, Option.bind_some, evalPostfix]
      cases computeAll [] items with
      | error e => rfl
      | ok values =>
          rcases values with _ | ⟨value, _ | ⟨next, rest⟩⟩ <;> rfl

theorem computed?_before (values : List Value) (items : List PostfixItem)
    (outcome : Except Error (List PostfixItem)) :
    computed? values (before items outcome) =
      (computeAll values items).toOption.bind fun next => computed? next outcome := by
  cases outcome with
  | error e => cases computeAll values items <;> rfl
  | ok rest => exact toOption_computeAll_append values items rest

/-- Tokens do the same after any others, if they do the same whatever came before. -/
theorem computed?_congr {tokens tokens' : List Token}
    (h : ∀ values stack, computed? values (toPostfixWith stack tokens)
      = computed? values (toPostfixWith stack tokens'))
    (front : List Token) (values : List Value) (stack : List Waiting) :
    computed? values (toPostfixWith stack (front ++ tokens))
      = computed? values (toPostfixWith stack (front ++ tokens')) := by
  induction front generalizing values stack with
  | nil => exact h values stack
  | cons token front ih =>
      cases token with
      | operand value => simp only [List.cons_append, toPostfixWith, computed?_before, ih]
      | binary op => simp only [List.cons_append, toPostfixWith, computed?_before, ih]
      | negation => simp only [List.cons_append, toPostfixWith, ih]
      | leftParen => simp only [List.cons_append, toPostfixWith, ih]
      | rightParen =>
          rw [List.cons_append, List.cons_append, toPostfixWith, toPostfixWith]
          cases Waiting.toParen? stack with
          | none => rfl
          | some cut => simp only [computed?_before, ih]

theorem exists_items_of_evalTokens {tokens : List Token} {value : Value}
    (h : evalTokens tokens = .ok value) :
    ∃ items, toPostfix tokens = .ok items ∧ computeAll [] items = .ok [value] := by
  rw [evalTokens] at h
  cases hitems : toPostfix tokens with
  | error e => rw [hitems] at h; cases h
  | ok items =>
      rw [hitems] at h
      refine ⟨items, rfl, ?_⟩
      dsimp only at h
      rw [evalPostfix] at h
      split at h
      · cases h
      · cases h
      · next hvalue => rw [hvalue, Except.ok.inj h]
      · cases h

/-- **Tokens in parentheses stand for their value.** -/
theorem evalTokens_group {inner : List Token} {value : Value}
    (h : evalTokens inner = .ok value) (front back : List Token) :
    (evalTokens (front ++ .leftParen :: (inner ++ .rightParen :: back))).toOption
      = (evalTokens (front ++ .operand value :: back)).toOption := by
  obtain ⟨items, hitems, hcompute⟩ := exists_items_of_evalTokens h
  rw [toOption_evalTokens, toOption_evalTokens, toPostfix, toPostfix]
  refine congrArg (Option.bind · single?) (computed?_congr (fun values stack => ?_) front [] [])
  have hparen := toPostfixWith_paren hitems stack back
  have hbase : computeAll values items = .ok (value :: values) := computeAll_base hcompute values
  rw [List.nil_append] at hparen
  rw [toPostfixWith, toPostfixWith, hparen, computed?_before, computed?_before, hbase]
  rfl

/-- Parentheses around all tokens make no difference. -/
theorem evalTokens_paren {inner : List Token} {items : List PostfixItem}
    (h : toPostfix inner = .ok items) :
    evalTokens (.leftParen :: (inner ++ [.rightParen])) = evalTokens inner := by
  have hparen := toPostfixWith_paren h [] []
  rw [List.nil_append] at hparen
  have hsame : toPostfix (.leftParen :: (inner ++ [.rightParen])) = .ok items := by
    rw [toPostfix, toPostfixWith, hparen]
    simp [toPostfixWith, Waiting.drain?, before]
  rw [evalTokens, evalTokens, hsame, h]

/-! ## Lexemes -/

namespace Lexeme

/-- The value of lexemes in a scope. -/
def valueOf (scope : Scope) (lexemes : List Lexeme) : Option Value :=
  (Token.ofLexemes scope [] false lexemes).toOption.bind fun tokens =>
    (evalTokens tokens).toOption

/-- Whether an operand ends with the last token, or did before the first one. -/
def endsAfter (afterOperand : Bool) (tokens : List Token) : Bool :=
  tokens.foldl (fun _ token => token.endsOperand) afterOperand

variable (scope : Scope) (whole : List Char)

/-- The whole text is named in errors only. -/
theorem toOption_ofLexemes_whole (afterOperand : Bool) (lexemes : List Lexeme) :
    (Token.ofLexemes scope whole afterOperand lexemes).toOption
      = (Token.ofLexemes scope [] afterOperand lexemes).toOption := by
  induction lexemes generalizing afterOperand with
  | nil => rfl
  | cons lexeme rest ih =>
      have htoken : (Token.ofLexeme scope whole afterOperand lexeme).toOption
          = (Token.ofLexeme scope [] afterOperand lexeme).toOption := by
        cases lexeme <;> rfl
      rw [toOption_ofLexemes_cons, toOption_ofLexemes_cons, htoken]
      simp only [ih]

theorem toOption_ofLexemes_append (afterOperand : Bool) (front back : List Lexeme) :
    (Token.ofLexemes scope whole afterOperand (front ++ back)).toOption =
      (Token.ofLexemes scope whole afterOperand front).toOption.bind fun tokens =>
        (Token.ofLexemes scope whole (endsAfter afterOperand tokens) back).toOption.map
          (tokens ++ ·) := by
  induction front generalizing afterOperand with
  | nil =>
      show _ = (Token.ofLexemes scope whole afterOperand back).toOption.map ([] ++ ·)
      simp
  | cons lexeme front ih =>
      rw [List.cons_append, toOption_ofLexemes_cons, toOption_ofLexemes_cons]
      cases Token.ofLexeme scope whole afterOperand lexeme with
      | error e => rfl
      | ok token =>
          simp only [Except.toOption, Option.bind_some] at ih ⊢
          rw [ih]
          cases Token.ofLexemes scope whole token.endsOperand front with
          | error e => rfl
          | ok tokens => simp [endsAfter, Function.comp_def]

end Lexeme

theorem toOption_evaluateArithmetic (text : List Char) (scope : Scope) :
    (evaluateArithmetic text scope).toOption = Lexeme.valueOf scope (Lexeme.scan text) := by
  rw [Lexeme.valueOf, ← Lexeme.toOption_ofLexemes_whole scope text, evaluateArithmetic, Token.read]
  cases Token.ofLexemes scope text false (Lexeme.scan text) <;> rfl

namespace Lexeme

/-- **Lexemes in parentheses stand for their value**, and so does a word that has it. -/
theorem valueOf_group {scope scope' : Scope} {front inner back : List Lexeme} {word : List Char}
    {value : Value} (hinner : valueOf scope inner = some value)
    (hword : Value.boolOfWord? word = none) (hvalue : scope' (String.ofList word) = some value)
    (hsame : ∀ lexeme ∈ front ++ back, ∀ name, lexeme.name? = some name →
      scope (String.ofList name) = scope' (String.ofList name)) :
    valueOf scope (front ++ .leftParen :: (inner ++ .rightParen :: back))
      = valueOf scope' (front ++ .word word :: back) := by
  have hfront (afterOperand : Bool) : Token.ofLexemes scope [] afterOperand front
      = Token.ofLexemes scope' [] afterOperand front :=
    ofLexemes_congr (fun lexeme hmem => hsame lexeme (List.mem_append_left _ hmem)) _ _
  have hback (afterOperand : Bool) : Token.ofLexemes scope [] afterOperand back
      = Token.ofLexemes scope' [] afterOperand back :=
    ofLexemes_congr (fun lexeme hmem => hsame lexeme (List.mem_append_right _ hmem)) _ _
  obtain ⟨tokens, htokens, heval⟩ := Option.bind_eq_some_iff.mp hinner
  have heval : evalTokens tokens = .ok value := by
    cases hresult : evalTokens tokens with
    | error e => rw [hresult] at heval; cases heval
    | ok value' => rw [hresult] at heval; cases heval; rfl
  have hopen (afterOperand : Bool) :
      Token.ofLexeme scope [] afterOperand .leftParen = .ok .leftParen := rfl
  have hclose (afterOperand : Bool) :
      Token.ofLexeme scope [] afterOperand .rightParen = .ok .rightParen := rfl
  have hoperand (afterOperand : Bool) :
      Token.ofLexeme scope' [] afterOperand (.word word) = .ok (.operand value) := by
    simp [Token.ofLexeme, hword, hvalue, Token.operand?]
  rw [valueOf, valueOf, toOption_ofLexemes_append, toOption_ofLexemes_append, ← hfront]
  cases Token.ofLexemes scope [] false front with
  | error e => rfl
  | ok before =>
      -- after the parenthesis and after the word an operand has ended
      rw [show (Except.ok before : Except Error _).toOption = some before from rfl,
        Option.bind_some, Option.bind_some, toOption_ofLexemes_of_ok _ _ (hopen _),
        toOption_ofLexemes_append, Token.endsOperand, htokens, Option.bind_some,
        toOption_ofLexemes_of_ok _ _ (hclose _), toOption_ofLexemes_of_ok _ _ (hoperand _),
        Token.endsOperand, Token.endsOperand, ← hback]
      cases Token.ofLexemes scope [] true back with
      | error e => rfl
      | ok after => exact evalTokens_group heval before after

/-! ## Closed lexemes -/

/-- Whether the parentheses match, so many being open already. -/
def Closed : (depth : Nat) → List Lexeme → Prop
  | depth, [] => depth = 0
  | depth, lexeme :: rest =>
    match lexeme with
    | leftParen => Closed (depth + 1) rest
    | rightParen => 0 < depth ∧ Closed (depth - 1) rest
    | _ => Closed depth rest

end Lexeme

namespace Waiting

/-- How many parentheses wait. -/
def depth : List Waiting → Nat
  | [] => 0
  | paren :: rest => depth rest + 1
  | binary _ :: rest => depth rest
  | negation :: rest => depth rest

theorem exists_drain? {stack : List Waiting} (h : depth stack = 0) :
    ∃ items, drain? stack = some items := by
  induction stack with
  | nil => exact ⟨[], rfl⟩
  | cons w rest ih =>
      cases w with
      | paren => exact absurd h (Nat.succ_ne_zero _)
      | binary op | negation =>
          obtain ⟨items, hitems⟩ := ih h
          exact ⟨_, by rw [drain?_cons, hitems]; rfl⟩

theorem exists_toParen? {stack : List Waiting} (h : 0 < depth stack) :
    ∃ items under, toParen? stack = some (items, under) ∧ depth under = depth stack - 1 := by
  induction stack with
  | nil => exact absurd h (Nat.lt_irrefl 0)
  | cons w rest ih =>
      cases w with
      | paren => exact ⟨[], rest, rfl, rfl⟩
      | binary op | negation =>
          obtain ⟨items, under, hparen, hunder⟩ := ih h
          exact ⟨_, under, by rw [toParen?, hparen]; rfl, hunder⟩

theorem depth_kept (op : BinaryOp) (stack : List Waiting) :
    depth (kept op stack) = depth stack := by
  induction stack with
  | nil => rfl
  | cons w rest ih =>
      rw [kept, List.dropWhile_cons]
      split
      · cases w with
        | paren => next hyields => exact absurd hyields (by simp [yieldsTo])
        | binary other => exact ih
        | negation => exact ih
      · rfl

end Waiting

theorem exists_before_ok {items : List PostfixItem} {outcome : Except Error (List PostfixItem)}
    (h : ∃ rest, outcome = .ok rest) : ∃ all, before items outcome = .ok all := by
  obtain ⟨rest, rfl⟩ := h
  exact ⟨_, rfl⟩

/-- The tokens of closed lexemes have a postfix order. -/
theorem Lexeme.Closed.exists_toPostfixWith {lexemes : List Lexeme} {stack : List Waiting}
    (h : Closed (Waiting.depth stack) lexemes) {scope : Scope} {whole : List Char}
    {afterOperand : Bool} {tokens : List Token}
    (htokens : (Token.ofLexemes scope whole afterOperand lexemes).toOption = some tokens) :
    ∃ items, toPostfixWith stack tokens = .ok items := by
  induction lexemes generalizing stack afterOperand tokens with
  | nil =>
      obtain rfl := Option.some.inj htokens
      obtain ⟨items, hitems⟩ := Waiting.exists_drain? h
      exact ⟨items, by rw [toPostfixWith, hitems]⟩
  | cons lexeme rest ih =>
      rw [toOption_ofLexemes_cons] at htokens
      obtain ⟨token, htoken, htokens⟩ := Option.bind_eq_some_iff.mp htokens
      obtain ⟨more, hmore, rfl⟩ := Option.map_eq_some_iff.mp htokens
      have operand {name : List Char} {value : Option Value}
          (htoken : (Token.operand? name value).toOption = some token)
          (hrest : Closed (Waiting.depth stack) rest) :
          ∃ items, toPostfixWith stack (token :: more) = .ok items := by
        cases value with
        | none => cases htoken
        | some value => cases htoken; exact exists_before_ok (ih hrest hmore)
      cases lexeme with
      | number text | slot name | word text => exact operand htoken h
      | literal text => cases htoken; exact exists_before_ok (ih h hmore)
      | unterminated | unknown c => cases htoken
      | operator op =>
          cases htoken
          rw [Token.ofOperator] at hmore ⊢
          split
          · have hsigned : Closed (Waiting.depth (.negation :: stack)) rest := h
            exact ih hsigned hmore
          · have hkept : Closed (Waiting.depth (.binary op :: Waiting.kept op stack)) rest := by
              rwa [Waiting.depth, Waiting.depth_kept]
            exact exists_before_ok (ih hkept hmore)
      | leftParen =>
          cases htoken
          have hopened : Closed (Waiting.depth (.paren :: stack)) rest := h
          exact ih hopened hmore
      | rightParen =>
          cases htoken
          obtain ⟨hdepth, hrest⟩ := h
          obtain ⟨items, under, hparen, hunder⟩ := Waiting.exists_toParen? hdepth
          rw [toPostfixWith, hparen]
          rw [← hunder] at hrest
          exact exists_before_ok (ih hrest hmore)

/-- Parentheses around closed lexemes make no difference. -/
theorem Lexeme.Closed.valueOf_paren {inner : List Lexeme} (h : Closed 0 inner) (scope : Scope) :
    valueOf scope (.leftParen :: (inner ++ [.rightParen])) = valueOf scope inner := by
  have hopen : Token.ofLexeme scope [] false .leftParen = .ok .leftParen := rfl
  rw [valueOf, valueOf, toOption_ofLexemes_of_ok _ _ hopen, toOption_ofLexemes_append,
    Token.endsOperand]
  cases htokens : (Token.ofLexemes scope [] false inner).toOption with
  | none => rfl
  | some tokens =>
      have hstack : Closed (Waiting.depth []) inner := h
      obtain ⟨items, hitems⟩ := hstack.exists_toPostfixWith htokens
      have hparen := congrArg Except.toOption (evalTokens_paren hitems)
      exact hparen

end Flowchart.Expr
