import Flowchart.Proofs.Footprint

/-!
# What a step does

A step either fails and leaves no trace (`Diagram.scripted_of_error`), or it has the effect that
its block calls for. `Block.Effect` says which, with one rule for each kind of block, and the
steps that succeed are exactly the ones that follow these rules (`Diagram.scripted_eq_ok_iff`).

How little a step changes is read off the rules (`Diagram.step_atomic`). The one block that could
stop half-way is an input block, with a reply taken and nowhere to put it. It asks only once its
variable is found to be declared, and then the assignment is not refused
(`Environment.assign?_of_isSome`).
-/

namespace Flowchart

/-! ## The rules -/

/-- The line that a print block writes. -/
def Environment.line (env : Environment) (template : String) : String :=
  String.ofList (Template.render env.scope template.toList)

/-- Blocks that do nothing but say where to go on. -/
def Block.directs : Block → Bool
  | branch .. | loop .. | stop .. => true
  | _ => false

/-- What the step of a block does when it succeeds: the block to go on with, the environment
and the script. -/
inductive Block.Effect (env : Environment) (script : Script) :
    Block → Option BlockId → Environment → Script → Prop where
  | assign {id next : BlockId} {text name : String} {target expression : List Char}
      {value : Value} :
      cutAssignment? text.toList = some (target, expression) →
      assignmentTarget? text = some name →
      (env.scope name).isSome = true →
      Expr.evaluate expression env.scope = .ok value →
      Effect env script (.assign id next text) (some next) (env.assign name value) script
  | print {id next : BlockId} {template : String} :
      Effect env script (.print id next template) (some next) env
        (script.write (env.line template))
  | input {id next : BlockId} {name reply : String} {rest : List String} :
      (env.scope name).isSome = true →
      script.replies = reply :: rest →
      Effect env script (.input id next name) (some next)
        (env.assign name (Value.ofInput reply)) { script with replies := rest }
  | branch {id whenTrue whenFalse : BlockId} {condition : String} {holds : Bool} :
      Expr.evaluateCondition condition.toList env.scope = .ok holds →
      Effect env script (.branch id condition whenTrue whenFalse)
        (some (if holds then whenTrue else whenFalse)) env script
  | loop {id body next : BlockId} {condition : String} {holds : Bool} :
      Expr.evaluateCondition condition.toList env.scope = .ok holds →
      Effect env script (.loop id condition body next)
        (some (if holds then body else next)) env script
  | stop {id : BlockId} {next : Option BlockId} :
      Effect env script (.stop id next) next env script

/-! ## Steps and rules -/

section Rules

variable {d : Diagram} {id : BlockId} {block : Block} {env env' : Environment}
  {script script' : Script} {next : Option BlockId}

theorem assignAction_of_effect {text name : String} {after : BlockId} {scope : Scope}
    {target expression : List Char} {value : Value}
    (hcut : cutAssignment? text.toList = some (target, expression))
    (htarget : assignmentTarget? text = some name) (hdeclared : (scope name).isSome = true)
    (hvalue : Expr.evaluate expression scope = .ok value) :
    assignAction scope text after = .ok (.assign name value after) := by
  unfold assignmentTarget? at htarget
  rw [hcut] at htarget
  dsimp only at htarget
  split at htarget
  · exact absurd htarget (by simp)
  · next hname =>
    obtain rfl := Option.some.inj htarget
    unfold assignAction
    rw [hcut]
    dsimp only
    rw [if_neg hname, if_neg (by simpa [Option.isSome_iff_ne_none] using hdeclared), hvalue]
    rfl

/-- An input block asks when its variable is declared. -/
theorem Block.action_input {after : BlockId} {name : String} {scope : Scope}
    (h : (scope name).isSome = true) :
    (Block.input id after name).action scope = .ok (.ask name after) :=
  if_neg (by simpa [Option.isSome_iff_ne_none] using h)

/-- A block that has an effect has an action with that effect. -/
theorem Block.Effect.exists_action (h : block.Effect env script next env' script') :
    ∃ action, block.action env.scope = .ok action ∧
      action.scripted env script = ((.ok next, env'), script') := by
  cases h with
  | assign hcut htarget hdeclared hvalue =>
      exact ⟨_, assignAction_of_effect hcut htarget hdeclared hvalue, rfl⟩
  | print => exact ⟨_, rfl, rfl⟩
  | @input _ after name reply rest hdeclared hreplies =>
      exact ⟨.ask name after, action_input hdeclared, by simp only [Action.scripted, hreplies]⟩
  | branch hcondition => exact ⟨_, by rw [action, hcondition]; rfl, rfl⟩
  | loop hcondition => exact ⟨_, by rw [action, hcondition]; rfl, rfl⟩
  | stop => exact ⟨_, rfl, rfl⟩

/-- An action that succeeds has the effect of its block. -/
theorem Block.effect_of_action {action : Action} (haction : block.action env.scope = .ok action)
    (h : action.scripted env script = ((.ok next, env'), script')) :
    block.Effect env script next env' script' := by
  -- both kinds of decisions go on with one of two blocks, and that is all
  have decided {condition : Except Error Bool} {a b : BlockId}
      (hmap : (condition.map fun holds => Action.go (some (if holds then a else b))) = .ok action) :
      ∃ holds, condition = .ok holds ∧ next = some (if holds then a else b) ∧ env' = env ∧
        script' = script := by
    cases condition with
    | error e => exact absurd hmap (by simp [Except.map])
    | ok holds =>
        obtain rfl := Except.ok.inj hmap
        cases h
        exact ⟨holds, rfl, rfl, rfl, rfl⟩
  cases block with
  | assign id after text =>
      obtain ⟨target, expression, value, hcut, hname, hdeclared, hvalue, rfl⟩ :=
        assignAction_eq_ok haction
      cases h
      refine .assign hcut ?_ hdeclared hvalue
      simp [assignmentTarget?, hcut, hname]
  | print id after template =>
      obtain rfl := Except.ok.inj haction
      cases h
      exact .print
  | input id after name =>
      replace haction : (if (env.scope name).isNone then Except.error (Error.undeclared name)
        else .ok (Action.ask name after)) = .ok action := haction
      split at haction
      · exact absurd haction (by simp)
      · next hdeclared =>
        obtain rfl := Except.ok.inj haction
        unfold Action.scripted at h
        dsimp only at h
        split at h
        · exact absurd h (by simp)
        · next reply rest hreplies =>
          cases h
          exact .input (Option.isSome_iff_ne_none.mpr (by simpa using hdeclared)) hreplies
  | branch id condition whenTrue whenFalse =>
      obtain ⟨holds, hcondition, rfl, rfl, rfl⟩ := decided haction
      exact .branch hcondition
  | loop id condition body after =>
      obtain ⟨holds, hcondition, rfl, rfl, rfl⟩ := decided haction
      exact .loop hcondition
  | stop id after =>
      obtain rfl := Except.ok.inj haction
      cases h
      exact .stop

/-- **A step succeeds exactly by the rules.** -/
theorem Diagram.scripted_eq_ok_iff :
    d.scripted id env script = ((.ok next, env'), script') ↔
      ∃ block, d.block? id = some block ∧ block.Effect env script next env' script' := by
  constructor
  · intro h
    cases hblock : d.block? id with
    | none => rw [scripted_of_unknown hblock] at h; exact absurd h (by simp)
    | some block =>
        refine ⟨block, rfl, ?_⟩
        rw [scripted_of_block hblock] at h
        cases haction : block.action env.scope with
        | error e => rw [haction] at h; exact absurd h (by simp)
        | ok action =>
            rw [haction] at h
            dsimp only at h
            refine Block.effect_of_action haction ?_
            rcases hresult : action.scripted env script with ⟨⟨outcome, env''⟩, script''⟩
            rw [hresult] at h
            cases outcome with
            | error e => exact absurd h (by simp [Except.mapError])
            | ok next' => simpa [Except.mapError] using h
  · intro h
    obtain ⟨block, hblock, heffect⟩ := h
    obtain ⟨action, haction, hresult⟩ := heffect.exists_action
    rw [scripted_of_block hblock, haction]
    dsimp only
    rw [hresult]
    rfl

/-- An action that fails leaves no trace. -/
theorem Action.scripted_of_error {action : Action} {e : Error}
    (h : (action.scripted env script).1.1 = .error e) :
    action.scripted env script = ((.error e, env), script) := by
  cases action with
  | go next => exact absurd h (by simp [scripted])
  | assign name value next => exact absurd h (by simp [scripted])
  | print line next => exact absurd h (by simp [scripted])
  | ask name next =>
      unfold scripted at h ⊢
      dsimp only at h ⊢
      split at h
      · obtain rfl := Except.error.inj h
        rfl
      · exact absurd h (by simp)

/-- **A step that fails leaves no trace.** -/
theorem Diagram.scripted_of_error {failure : Failure}
    (h : (d.scripted id env script).1.1 = .error failure) :
    d.scripted id env script = ((.error failure, env), script) := by
  cases hblock : d.block? id with
  | none =>
      rw [scripted_of_unknown hblock] at h ⊢
      obtain rfl := Except.error.inj h
      rfl
  | some block =>
      rw [scripted_of_block hblock] at h ⊢
      cases haction : block.action env.scope with
      | error e =>
          rw [haction] at h
          obtain rfl := Except.error.inj h
          rfl
      | ok action =>
          rw [haction] at h
          dsimp only at h ⊢
          cases houtcome : (action.scripted env script).1.1 with
          | ok next => rw [houtcome] at h; exact absurd h (by simp [Except.mapError])
          | error e =>
              rw [houtcome] at h
              obtain rfl := Except.error.inj h
              rw [Action.scripted_of_error houtcome]
              rfl

end Rules

/-! ## The frame -/

/-- How little a step that succeeds changes, and where it can go on. -/
structure Block.Confined (block : Block) (env : Environment) (script : Script)
    (next : Option BlockId) (env' : Environment) (script' : Script) : Prop where
  /-- The thread goes on with a successor of the block. -/
  successor : ∀ id, next = some id → id ∈ block.successors
  /-- It ends only at a stop block that has no successor. -/
  ends : next = none → ∃ id, block = .stop id none
  /-- The same names are declared. -/
  names : env'.names = env.names
  /-- Only the target of the block can have another value. -/
  others : ∀ name, block.target? ≠ some name → env'.scope name = env.scope name
  /-- The new value of the target was not refused. -/
  assigned : ∀ name, block.target? = some name → ∃ value, env.assign? name value = .ok env'
  /-- An input block takes one reply from the front, and other blocks take none. -/
  taken : ∃ replies, script.replies = replies ++ script'.replies ∧
    replies.length = block.asks.toNat
  /-- A print block adds one line at the end, and other blocks add none. -/
  written : ∃ lines, script'.output = script.output ++ lines ∧
    lines.length = block.prints.toNat
  /-- Conditions, loops and stops change nothing at all. -/
  directs : block.directs = true → env' = env ∧ script' = script

namespace Block.Effect

variable {block : Block} {env env' : Environment} {script script' : Script}
  {next : Option BlockId}

/-- An input block that succeeds has found its variable declared and a reply to take. -/
theorem of_input {id after : BlockId} {name : String}
    (h : (Block.input id after name).Effect env script next env' script') :
    (env.scope name).isSome = true ∧
      ∃ reply rest, script.replies = reply :: rest ∧
        env' = env.assign name (Value.ofInput reply) := by
  cases h with
  | @input _ _ _ reply rest hdeclared hreplies => exact ⟨hdeclared, reply, rest, hreplies, rfl⟩

theorem ends (h : block.Effect env script next env' script') (hnext : next = none) :
    ∃ id, block = .stop id none := by
  cases h with
  | stop => exact ⟨_, by rw [hnext]⟩
  | _ => exact absurd hnext (by simp)

theorem names_eq (h : block.Effect env script next env' script') : env'.names = env.names := by
  cases h with
  | assign | input => exact env.names_assign _ _
  | _ => rfl

theorem assigned (h : block.Effect env script next env' script') {name : String}
    (hname : block.target? = some name) : ∃ value, env.assign? name value = .ok env' := by
  cases h with
  | assign hcut htarget hdeclared hvalue =>
      obtain rfl := Option.some.inj (htarget.symm.trans hname)
      exact ⟨_, Environment.assign?_of_isSome hdeclared _⟩
  | input hdeclared hreplies =>
      obtain rfl := Option.some.inj hname
      exact ⟨_, Environment.assign?_of_isSome hdeclared _⟩
  | _ => exact absurd hname (by simp [target?])

theorem taken (h : block.Effect env script next env' script') :
    ∃ replies, script.replies = replies ++ script'.replies ∧
      replies.length = block.asks.toNat := by
  cases h with
  | input hdeclared hreplies => exact ⟨[_], hreplies, rfl⟩
  | _ => exact ⟨[], rfl, rfl⟩

theorem written (h : block.Effect env script next env' script') :
    ∃ lines, script'.output = script.output ++ lines ∧
      lines.length = block.prints.toNat := by
  cases h with
  | print => exact ⟨[_], rfl, rfl⟩
  | _ => exact ⟨[], (List.append_nil _).symm, rfl⟩

theorem unchanged (h : block.Effect env script next env' script')
    (hdirects : block.directs = true) : env' = env ∧ script' = script := by
  cases h with
  | branch | loop | stop => exact ⟨rfl, rfl⟩
  | _ => exact Bool.noConfusion hdirects

end Block.Effect

/-- **A step is atomic and framed.** If it fails, environment and script are as before. If it
succeeds, it goes on where its block says and changes no more than its block may change. -/
theorem Diagram.step_atomic (d : Diagram) (id : BlockId) (env : Environment) (script : Script) :
    (∀ failure env' script', d.scripted id env script = ((.error failure, env'), script') →
        env' = env ∧ script' = script) ∧
      ∀ next env' script', d.scripted id env script = ((.ok next, env'), script') →
        ∃ block, d.block? id = some block ∧ block.Confined env script next env' script' := by
  constructor
  · intro failure env' script' h
    have htrace := scripted_of_error (congrArg (·.1.1) h)
    rw [h] at htrace
    cases htrace
    exact ⟨rfl, rfl⟩
  · intro next env' script' h
    obtain ⟨block, hblock, heffect⟩ := scripted_eq_ok_iff.mp h
    have hframe := d.frame_scripted hblock env script
    rw [h] at hframe
    refine ⟨block, hblock, ?_⟩
    constructor
    case successor =>
      intro id hid
      exact hframe.successor id (congrArg Except.ok hid)
    case ends => exact heffect.ends
    case names => exact heffect.names_eq
    case others => exact hframe.scope
    case assigned =>
      intro name hname
      exact heffect.assigned hname
    case taken => exact heffect.taken
    case written => exact heffect.written
    case directs => exact heffect.unchanged

/-- Asks for a number and divides by it. -/
def askAndDivide : Diagram where
  declared := [⟨"part", .int⟩]
  blocks := ⟨[(1, .input 1 2 "part"), (2, .assign 2 3 "part = 12 / part"), (3, .stop 3 none)],
    by decide⟩
  threads := [1]
  names_nodup := by decide
  id_of_mem := by decide

/-- Before anything is asked for, the division fails; one of two replies is taken by the
question. -/
theorem step_atomic_askAndDivide :
    let env := Environment.initial askAndDivide.declared
    let script : Script := ⟨["4", "5"], []⟩
    askAndDivide.scripted 2 env script =
        ((.error ⟨.arithmetic .divisionByZero, some 2⟩, env), script) ∧
      ∃ env', askAndDivide.scripted 1 env script = ((.ok (some 2), env'), ⟨["5"], []⟩) ∧
        Block.Confined (.input 1 2 "part") env script (some 2) env' ⟨["5"], []⟩ := by
  intro env script
  have hfails : (askAndDivide.scripted 2 env script).1.1 =
      .error ⟨.arithmetic .divisionByZero, some 2⟩ := by decide +kernel
  have hasks : askAndDivide.scripted 1 env script =
      ((.ok (some 2), env.assign "part" (.int 4)), ⟨["5"], []⟩) := by decide +kernel
  constructor
  · rcases hresult : askAndDivide.scripted 2 env script with ⟨⟨outcome, env'⟩, script'⟩
    rw [hresult] at hfails
    obtain rfl : outcome = _ := hfails
    obtain ⟨rfl, rfl⟩ := (askAndDivide.step_atomic 2 env script).1 _ _ _ hresult
    rfl
  · obtain ⟨block, hblock, hconfined⟩ := (askAndDivide.step_atomic 1 env script).2 _ _ _ hasks
    obtain rfl : Block.input 1 2 "part" = block := Option.some.inj hblock
    exact ⟨_, hasks, hconfined⟩

end Flowchart
