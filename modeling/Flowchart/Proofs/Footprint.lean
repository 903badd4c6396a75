import Flowchart.Console
import Flowchart.Machine
import Flowchart.Proofs.Environment
import Flowchart.Proofs.Expr.Locality
import Flowchart.Proofs.Segments
import Mathlib.Data.List.Basic

/-!
# What a block reads and what it changes

A block has one text, and what it does depends on the variables that occur in this
text and on nothing else (`Block.action_congr`). It changes at most one variable, its
target, and of a script at most one end: printing adds a line, asking takes a reply
(`Diagram.frame_scripted`).

Both facts come from a list of all the actions that a block can have
(`Block.action_cases`), which is the only place where the kinds of blocks are told
apart.
-/

namespace Flowchart

/-! ## Templates -/

namespace Template

/-- The words of a template are parts of it. -/
theorem infix_of_word_mem_segments {inside : Bool} {template text : List Char}
    (h : Segment.word text ∈ segments inside template) : text <:+: template := by
  have skip {c : Char} {rest : List Char} (hrest : text <:+: rest) : text <:+: c :: rest :=
    hrest.trans (List.suffix_cons c rest).isInfix
  fun_induction segments inside template with
  | case1 => exact absurd h (by simp)
  | case2 inside rest ih => exact skip (ih (by simpa using h))
  | case3 c rest _ ih => exact skip (ih (by simpa using h))
  | case4 inside c rest _ _ _ ih =>
      rcases List.mem_cons.mp h with hword | h
      · obtain rfl := Segment.word.inj hword
        exact (List.prefix_cons_inj c |>.mpr (List.takeWhile_prefix _)).isInfix
      · exact skip ((ih h).trans (List.dropWhile_suffix _).isInfix)
  | case5 inside c rest _ _ _ ih => exact skip (ih (by simpa using h))

/-- Scopes that agree on every part of a template fill it in alike. -/
theorem render_congr {s s' : Scope} {template : List Char}
    (h : ∀ name, name <:+: template → s (String.ofList name) = s' (String.ofList name)) :
    render s template = render s' template := by
  rw [render_eq_flatMap, render_eq_flatMap]
  refine List.flatMap_congr ?_
  intro segment hmem
  cases segment with
  | word text => simp only [Segment.fill, h text (infix_of_word_mem_segments hmem)]
  | quote => rfl
  | quoted c => rfl
  | other c => rfl

end Template

/-! ## Blocks -/

/-- The variable that an assignment is to. -/
def assignmentTarget? (text : String) : Option String :=
  match cutAssignment? text.toList with
  | none => none
  | some (target, _) =>
    let name := String.ofList (Text.trim target)
    if name.isEmpty then none else some name

namespace Block

/-- The text of a block, in which every variable occurs that it has to do with. -/
def text? : Block → Option String
  | assign _ _ text | print _ _ text | input _ _ text | branch _ text _ _ | loop _ text _ _ =>
    some text
  | stop _ _ => none

/-- The variable that a block can give a value. -/
def target? : Block → Option String
  | assign _ _ text => assignmentTarget? text
  | input _ _ name => some name
  | _ => none

def asks : Block → Bool
  | input .. => true
  | _ => false

def prints : Block → Bool
  | print .. => true
  | _ => false

end Block

theorem cutAssignment?_eq_some {text target expression : List Char}
    (h : cutAssignment? text = some (target, expression)) :
    text = target ++ '=' :: expression := by
  unfold cutAssignment? at h
  have hhead := List.head?_dropWhile_not (fun c => decide (c ≠ '=')) text
  have hwhole := List.takeWhile_append_dropWhile (p := fun c => decide (c ≠ '=')) (l := text)
  cases hcut : text.dropWhile (fun c => decide (c ≠ '=')) with
  | nil => rw [hcut] at h; exact absurd h (by simp)
  | cons c rest =>
      rw [hcut] at h hhead hwhole
      obtain ⟨rfl, rfl⟩ := Prod.mk.inj (Option.some.inj h)
      have hc : c = '=' := by simpa using hhead
      rw [hc] at hwhole
      exact hwhole.symm

theorem infix_of_trim (text : List Char) : Text.trim text <:+: text := by
  obtain ⟨blanks, heq, -⟩ := Expr.exists_append_trimEnd (text.dropWhile Text.isBlank)
  have hend : Text.trim text <+: text.dropWhile Text.isBlank := ⟨blanks, heq.symm⟩
  exact hend.isInfix.trans (List.dropWhile_suffix _).isInfix

/-- The target of a block occurs in its text. -/
theorem Block.infix_of_target? {block : Block} {name : String} (h : block.target? = some name) :
    ∃ text, block.text? = some text ∧ name.toList <:+: text.toList := by
  cases block with
  | assign id next text =>
      refine ⟨text, rfl, ?_⟩
      have htarget : assignmentTarget? text = some name := h
      unfold assignmentTarget? at htarget
      cases hcut : cutAssignment? text.toList with
      | none => rw [hcut] at htarget; exact absurd htarget (by simp)
      | some parts =>
          obtain ⟨target, expression⟩ := parts
          simp only [hcut] at htarget
          split at htarget
          · exact absurd htarget (by simp)
          · obtain rfl := Option.some.inj htarget
            rw [String.toList_ofList, cutAssignment?_eq_some hcut]
            exact (infix_of_trim target).trans (List.prefix_append _ _).isInfix
  | input id next name' =>
      obtain rfl := Option.some.inj h
      exact ⟨name', rfl, List.infix_refl _⟩
  | print | branch | loop | stop => exact absurd h (by simp [target?])

/-- **A block reads its text only.** Where two scopes agree on every name in its text, it
has the same action, or the same error. -/
theorem Block.action_congr {s s' : Scope} {block : Block}
    (h : ∀ text, block.text? = some text → ∀ name : String, name.toList <:+: text.toList →
      s name = s' name) :
    block.action s = block.action s' := by
  have hpart {text part : List Char} (hall : ∀ name : String, name.toList <:+: text →
      s name = s' name) (hwithin : part <:+: text) (name : List Char) (hname : name <:+: part) :
      s (String.ofList name) = s' (String.ofList name) := by
    refine hall _ ?_
    rw [String.toList_ofList]
    exact hname.trans hwithin
  cases block with
  | assign id next text =>
      have hall := h text rfl
      show assignAction s text next = assignAction s' text next
      unfold assignAction
      cases hcut : cutAssignment? text.toList with
      | none => rfl
      | some parts =>
          obtain ⟨target, expression⟩ := parts
          -- the target stands before the equals sign and the expression after it
          have hwhole := cutAssignment?_eq_some hcut
          have htarget : s (String.ofList (Text.trim target))
              = s' (String.ofList (Text.trim target)) := by
            refine hpart hall ?_ _ (infix_of_trim target)
            rw [hwhole]
            exact (List.prefix_append _ _).isInfix
          have hexpression : Expr.evaluate expression s = Expr.evaluate expression s' := by
            refine Expr.evaluate_congr _ _ _ (Expr.agree_of_infix (hpart hall ?_))
            rw [hwhole]
            exact ((List.suffix_cons _ _).trans (List.suffix_append _ _)).isInfix
          simp only [htarget, hexpression]
  | print id next template =>
      have hall := h template rfl
      simp only [action, Template.render_congr (hpart hall (List.infix_refl _))]
  | input id next name => simp only [action, h name rfl name (List.infix_refl _)]
  | branch id condition whenTrue whenFalse =>
      have hall := h condition rfl
      simp only [action,
        Expr.evaluateCondition_congr (Expr.agree_of_infix (hpart hall (List.infix_refl _)))]
  | loop id condition body next =>
      have hall := h condition rfl
      simp only [action,
        Expr.evaluateCondition_congr (Expr.agree_of_infix (hpart hall (List.infix_refl _)))]
  | stop id next => rfl

/-- The action of an assignment, when it has one. -/
theorem assignAction_eq_ok {scope : Scope} {text : String} {next : BlockId} {action : Action}
    (h : assignAction scope text next = .ok action) :
    ∃ target expression value, cutAssignment? text.toList = some (target, expression) ∧
      (String.ofList (Text.trim target)).isEmpty = false ∧
      (scope (String.ofList (Text.trim target))).isSome = true ∧
      Expr.evaluate expression scope = .ok value ∧
      action = .assign (String.ofList (Text.trim target)) value next := by
  unfold assignAction at h
  cases hcut : cutAssignment? text.toList with
  | none => rw [hcut] at h; exact absurd h (by simp)
  | some parts =>
      obtain ⟨target, expression⟩ := parts
      simp only [hcut] at h
      split at h
      · exact absurd h (by simp)
      split at h
      · exact absurd h (by simp)
      · next hempty hnone =>
        cases hvalue : Expr.evaluate expression scope with
        | error e => rw [hvalue] at h; exact absurd h (by simp [Except.map])
        | ok value =>
            rw [hvalue] at h
            exact ⟨target, expression, value, rfl, by simpa using hempty,
              Option.isSome_iff_ne_none.mpr (by simpa using hnone), hvalue, (Except.ok.inj h).symm⟩

/-- The actions that a block can have. -/
theorem Block.action_cases {scope : Scope} {block : Block} {action : Action}
    (h : block.action scope = .ok action) :
    (∃ name value next, action = .assign name value next ∧ block.target? = some name ∧
        (scope name).isSome = true ∧ next ∈ block.successors) ∨
      (∃ line next, action = .print line next ∧ block.prints = true ∧ next ∈ block.successors) ∨
      (∃ name next, action = .ask name next ∧ block.target? = some name ∧ block.asks = true ∧
        (scope name).isSome = true ∧ next ∈ block.successors) ∨
      (∃ next, action = .go next ∧ ∀ id, next = some id → id ∈ block.successors) := by
  -- both kinds of decisions go on with one of two blocks
  have decided {condition : Except Error Bool} {a b : BlockId}
      (hmap : (condition.map fun b' => Action.go (some (if b' then a else b))) = .ok action) :
      ∃ next, action = .go next ∧ ∀ id, next = some id → id ∈ [a, b] := by
    cases condition with
    | error e => exact absurd hmap (by simp [Except.map])
    | ok b' =>
        refine ⟨_, (Except.ok.inj hmap).symm, ?_⟩
        intro id hid
        cases b' <;> simp_all
  cases block with
  | assign id next text =>
      obtain ⟨target, expression, value, hcut, hempty, hsome, -, rfl⟩ := assignAction_eq_ok h
      refine .inl ⟨_, value, next, rfl, ?_, hsome, by simp [successors]⟩
      simp [target?, assignmentTarget?, hcut, hempty]
  | print id next template =>
      obtain rfl := Except.ok.inj h
      exact .inr (.inl ⟨_, next, rfl, rfl, by simp [successors]⟩)
  | input id next name =>
      replace h : (if (scope name).isNone then Except.error (Error.undeclared name)
        else .ok (Action.ask name next)) = .ok action := h
      split at h
      · exact absurd h (by simp)
      · next hnone =>
        obtain rfl := Except.ok.inj h
        have hsome : (scope name).isSome = true :=
          Option.isSome_iff_ne_none.mpr (by simpa using hnone)
        exact .inr (.inr (.inl ⟨name, next, rfl, rfl, rfl, hsome, by simp [successors]⟩))
  | branch id condition whenTrue whenFalse => exact .inr (.inr (.inr (decided h)))
  | loop id condition body next => exact .inr (.inr (.inr (decided h)))
  | stop id next =>
      obtain rfl := Except.ok.inj h
      exact .inr (.inr (.inr ⟨next, rfl, fun id hid => by simp [successors, hid]⟩))

/-! ## Assignments -/

/-- The variable that an action gives a value. -/
def Action.target? : Action → Option String
  | assign name _ _ | ask name _ => some name
  | _ => none

/-- The action does not assign to a variable that is not declared. -/
def Action.Declared (action : Action) (scope : Scope) : Prop :=
  ∀ name, action.target? = some name → (scope name).isSome = true

/-- A block looks whether its variable is declared before it has an action. -/
theorem Block.declared_of_action {scope : Scope} {block : Block} {action : Action}
    (h : block.action scope = .ok action) : action.Declared scope := by
  intro name htarget
  rcases action_cases h with ⟨name', value, next, rfl, -, hsome, -⟩ | ⟨line, next, rfl, -, -⟩ |
    ⟨name', next, rfl, -, -, hsome, -⟩ | ⟨next, rfl, -⟩
  · obtain rfl := Option.some.inj htarget
    exact hsome
  · cases htarget
  · obtain rfl := Option.some.inj htarget
    exact hsome
  · cases htarget

/-- An assignment to a declared variable gets to the next block. -/
theorem Store.assignAndGo_of_isSome {env : Environment} {name : String}
    (h : (env.scope name).isSome = true) (value : Value) (next : BlockId) :
    assignAndGo env name value next = (.ok (some next), env.assign name value) := by
  have hassign : assign? env name value = .ok (env.assign name value) :=
    Environment.assign?_of_isSome h value
  rw [assignAndGo, hassign]

/-! ## Steps against a script -/

/-- The outcome of executing a block against a script, with what is left of the
environment and the script. -/
def Diagram.scripted (d : Diagram) (id : BlockId) (env : Environment) (script : Script) :
    (Except Failure (Option BlockId) × Environment) × Script :=
  Id.run ((d.step Script.console id env).run script)

/-- Performing an action against a script, if no assignment is refused. -/
def Action.scripted (env : Environment) (script : Script) :
    Action → (Except Error (Option BlockId) × Environment) × Script
  | go next => ((.ok next, env), script)
  | assign name value next => ((.ok (some next), env.assign name value), script)
  | print line next => ((.ok (some next), env), script.write line)
  | ask name next =>
    match script.replies with
    | [] => ((.error .inputExhausted, env), script)
    | reply :: rest =>
      ((.ok (some next), env.assign name (Value.ofInput reply)), { script with replies := rest })

/-- **No assignment is refused.** -/
theorem Action.run_perform {env : Environment} {action : Action} (h : action.Declared env.scope)
    (script : Script) :
    Id.run ((action.perform Script.console env).run script) = action.scripted env script := by
  cases action with
  | go next => rfl
  | assign name value next =>
      rw [perform, Store.assignAndGo_of_isSome (h name rfl)]
      rfl
  | print line next => rfl
  | ask name next =>
      obtain ⟨replies, output⟩ := script
      cases replies with
      | nil => rfl
      | cons reply rest =>
          show (Store.assignAndGo env name (Value.ofInput reply) next, Script.mk rest output) = _
          rw [Store.assignAndGo_of_isSome (h name rfl)]
          rfl

section Scripted

variable {d : Diagram} {id : BlockId} {block : Block} {env env' : Environment}
  {script script' : Script}

theorem Diagram.scripted_of_unknown (h : d.block? id = none) (env : Environment)
    (script : Script) :
    d.scripted id env script = ((.error (.unlocated (.unknownBlock id)), env), script) := by
  unfold Diagram.scripted Diagram.step Diagram.block
  rw [h]
  rfl

/-- Executing a block that is there is performing its action. -/
theorem Diagram.scripted_of_block (h : d.block? id = some block) (env : Environment)
    (script : Script) :
    d.scripted id env script =
      match block.action env.scope with
      | .error e => ((.error ((Failure.unlocated e).locate id), env), script)
      | .ok action =>
        (((action.scripted env script).1.1.mapError fun e => (Failure.unlocated e).locate id,
          (action.scripted env script).1.2), (action.scripted env script).2) := by
  unfold Diagram.scripted Diagram.step Diagram.block
  rw [h]
  dsimp only
  rw [Environment.store_scope]
  cases haction : block.action env.scope with
  | error e => rfl
  | ok action =>
      dsimp only
      rw [← Action.run_perform (Block.declared_of_action haction)]
      rfl

/-- What the step of a block leaves as it is, and where it goes on. -/
structure Block.Framed (block : Block) (env : Environment) (script : Script)
    (result : (Except Failure (Option BlockId) × Environment) × Script) : Prop where
  scope : ∀ name, block.target? ≠ some name → result.1.2.scope name = env.scope name
  declared : ∀ name, (result.1.2.scope name).isSome = (env.scope name).isSome
  replies : block.asks = false → result.2.replies = script.replies
  output : block.prints = false → result.2.output = script.output
  successor : ∀ next, result.1.1 = .ok (some next) → next ∈ block.successors

/-- A step that ends without a trace. -/
theorem Block.Framed.refl (block : Block) (env : Environment) (script : Script)
    {outcome : Except Failure (Option BlockId)}
    (h : ∀ next, outcome = .ok (some next) → next ∈ block.successors) :
    block.Framed env script ((outcome, env), script) :=
  ⟨fun _ _ => rfl, fun _ => rfl, fun _ => rfl, fun _ => rfl, h⟩

/-- **A step is framed.** It changes the target of its block and nothing else of the
environment, and what it can do to the script is told by the kind of the block. -/
theorem Diagram.frame_scripted (h : d.block? id = some block) (env : Environment)
    (script : Script) : block.Framed env script (d.scripted id env script) := by
  rw [scripted_of_block h]
  cases haction : block.action env.scope with
  | error e => exact .refl block env script (by simp)
  | ok action =>
      have hassign {name : String} (htarget : block.target? = some name) (value : Value)
          (other : String) (hne : block.target? ≠ some other) :
          (env.assign name value).scope other = env.scope other := by
        rw [Environment.scope_assign, if_neg]
        rintro rfl
        exact hne htarget
      rcases Block.action_cases haction with ⟨name, value, next, rfl, htarget, -, hnext⟩ |
        ⟨line, next, rfl, hprints, hnext⟩ | ⟨name, next, rfl, htarget, hasks, -, hnext⟩ |
        ⟨next, rfl, hnext⟩
      · refine ⟨hassign htarget value, fun other => env.isSome_scope_assign name other value,
          fun _ => rfl, fun _ => rfl, fun other heq => ?_⟩
        rwa [← Option.some.inj (Except.ok.inj heq)]
      · refine ⟨fun _ _ => rfl, fun _ => rfl, fun _ => rfl, fun hquiet => ?_, fun other heq => ?_⟩
        · rw [hprints] at hquiet
          exact Bool.noConfusion hquiet
        · rwa [← Option.some.inj (Except.ok.inj heq)]
      · cases hreplies : script.replies with
        | nil =>
            simp only [Action.scripted, hreplies]
            exact .refl block env script (by simp [Except.mapError])
        | cons reply rest =>
            simp only [Action.scripted, hreplies]
            refine ⟨hassign htarget _, fun other => env.isSome_scope_assign name other _,
              fun hquiet => ?_, fun _ => rfl, fun other heq => ?_⟩
            · rw [hasks] at hquiet
              exact Bool.noConfusion hquiet
            · rwa [← Option.some.inj (Except.ok.inj heq)]
      · exact .refl block env script fun other heq => hnext other (Except.ok.inj heq)

/-- What two results have in common when what they started from had it in common. -/
structure Alike (env env' : Environment) (script script' : Script)
    {ε : Type} (result result' : (Except ε (Option BlockId) × Environment) × Script) :
    Prop where
  outcome : result.1.1 = result'.1.1
  scope : ∀ name, env.scope name = env'.scope name →
    result.1.2.scope name = result'.1.2.scope name
  replies : script.replies = script'.replies → result.2.replies = result'.2.replies
  output : script.output = script'.output → result.2.output = result'.2.output

theorem Action.alike_scripted (action : Action)
    (h : ∀ name next, action = .ask name next → script.replies = script'.replies) :
    Alike env env' script script' (action.scripted env script) (action.scripted env' script') := by
  cases action with
  | go next => exact ⟨rfl, fun _ heq => heq, fun heq => heq, fun heq => heq⟩
  | assign name value next =>
      exact ⟨rfl, fun _ heq => Environment.scope_assign_congr heq name value, fun heq => heq,
        fun heq => heq⟩
  | print line next =>
      refine ⟨rfl, fun _ heq => heq, fun heq => heq, ?_⟩
      intro heq
      simp only [Action.scripted, Script.write, heq]
  | ask name next =>
      have hreplies := h name next rfl
      simp only [Action.scripted, ← hreplies]
      cases hcase : script.replies with
      | nil => exact ⟨rfl, fun _ heq => heq, fun heq => heq, fun heq => heq⟩
      | cons reply rest =>
          exact ⟨rfl, fun _ heq => Environment.scope_assign_congr heq name _, fun _ => rfl,
            fun heq => heq⟩

/-- **A step depends on its footprint only.** -/
theorem Diagram.alike_scripted
    (hscope : ∀ block, d.block? id = some block → ∀ text, block.text? = some text →
      ∀ name : String, name.toList <:+: text.toList → env.scope name = env'.scope name)
    (hreplies : ∀ block, d.block? id = some block → block.asks = true →
      script.replies = script'.replies) :
    Alike env env' script script' (d.scripted id env script) (d.scripted id env' script') := by
  cases hblock : d.block? id with
  | none =>
      rw [scripted_of_unknown hblock, scripted_of_unknown hblock]
      exact ⟨rfl, fun _ heq => heq, fun heq => heq, fun heq => heq⟩
  | some block =>
      have haction := Block.action_congr (hscope block hblock)
      rw [scripted_of_block hblock, scripted_of_block hblock, ← haction]
      cases hcase : block.action env.scope with
      | error e => exact ⟨rfl, fun _ heq => heq, fun heq => heq, fun heq => heq⟩
      | ok action =>
          have halike : Alike env env' script script' (action.scripted env script)
              (action.scripted env' script') := by
            refine action.alike_scripted fun name next heq => hreplies block hblock ?_
            rcases Block.action_cases hcase with ⟨_, _, _, rfl, _⟩ | ⟨_, _, rfl, _⟩ |
              ⟨_, _, _, _, hasks, _⟩ | ⟨_, rfl, _⟩
            · exact absurd heq (by simp)
            · exact absurd heq (by simp)
            · exact hasks
            · exact absurd heq (by simp)
          exact ⟨by dsimp only; rw [halike.outcome], halike.scope, halike.replies, halike.output⟩

end Scripted

end Flowchart
