import Flowchart.Proofs.Footprint
import Flowchart.Proofs.Schedule

/-!
# Steps that commute

Two threads may take their next steps in either order when neither of their blocks can write a
variable that occurs in the text of the other one, and when they do not both print or both ask
(`Replay.step_comm`). This is about two steps and not about the diagram: the same two threads
may well race elsewhere.

The threads share the values of variables, the replies and the output. Each of these is left
alone by one of the two blocks, wherever that one is executed (`Diagram.Leaves`), and what the
other block makes of it does not depend on which of them is first (`Diagram.Apart.alike_inTurn`).
So it comes out the same either way (`Diagram.inTurn_eq_of_leaves`).
-/

namespace Flowchart

/-! ## Blocks that keep apart -/

/-- No declared variable that one block can write occurs in the text of the other one. -/
def Block.Spares (env : Environment) (a b : Block) : Prop :=
  ∀ name text, a.target? = some name → (env.scope name).isSome = true → b.text? = some text →
    ¬name.toList <:+: text.toList

/-- Blocks that do not get into each other's way. -/
structure Block.Apart (env : Environment) (a b : Block) : Prop where
  spares : a.Spares env b
  spared : b.Spares env a
  prints : ¬(a.prints = true ∧ b.prints = true)
  asks : ¬(a.asks = true ∧ b.asks = true)

theorem Block.Apart.symm {env : Environment} {a b : Block} (h : a.Apart env b) : b.Apart env a :=
  ⟨h.spared, h.spares, fun hboth => h.prints hboth.symm, fun hboth => h.asks hboth.symm⟩

/-- A target that occurs in the text of a block that is to be spared is not declared. -/
theorem Block.Spares.undeclared {env : Environment} {a b : Block} (h : a.Spares env b)
    {name text : String} (htarget : a.target? = some name) (htext : b.text? = some text)
    (hwithin : name.toList <:+: text.toList) : env.scope name = none := by
  by_contra hsome
  exact h name text htarget (Option.isSome_iff_ne_none.mpr hsome) htext hwithin

namespace Diagram

/-- The blocks under two identifiers keep apart, as far as there are such blocks. -/
def Apart (d : Diagram) (env : Environment) (i j : BlockId) : Prop :=
  ∀ a b, d.block? i = some a → d.block? j = some b → a.Apart env b

/-- A block leaves something alone, whatever the environment and the script. -/
def Leaves {β : Type} (d : Diagram) (id : BlockId) (f : Environment → Script → β) : Prop :=
  ∀ env script, f (d.scripted id env script).1.2 (d.scripted id env script).2 = f env script

/-- The second of two steps, after the first one. -/
def inTurn (d : Diagram) (i j : BlockId) (env : Environment) (script : Script) :
    (Except Failure (Option BlockId) × Environment) × Script :=
  d.scripted j (d.scripted i env script).1.2 (d.scripted i env script).2

variable {d : Diagram} {i j : BlockId} {env : Environment}

theorem Apart.symm (h : d.Apart env i j) : d.Apart env j i := by
  intro b a hb ha
  exact (h a b ha hb).symm

/-! ## What a block leaves alone -/

theorem leaves_of_framed {β : Type} {id : BlockId} {f : Environment → Script → β}
    (h : ∀ block, d.block? id = some block → ∀ env script result,
      block.Framed env script result → f result.1.2 result.2 = f env script) :
    d.Leaves id f := by
  intro env script
  cases hblock : d.block? id with
  | none => rw [scripted_of_unknown hblock]
  | some block => exact h block hblock env script _ (d.frame_scripted hblock env script)

theorem leaves_declared (d : Diagram) (id : BlockId) (name : String) :
    d.Leaves id fun env _ => (env.scope name).isSome := by
  refine leaves_of_framed ?_
  intro block _ env script result hframe
  exact hframe.declared name

theorem leaves_scope (name : String) (id : BlockId)
    (h : ∀ block, d.block? id = some block → ¬block.target? = some name) :
    d.Leaves id fun env _ => env.scope name := by
  refine leaves_of_framed ?_
  intro block hblock env script result hframe
  exact hframe.scope name (h block hblock)

theorem leaves_replies (id : BlockId)
    (h : ∀ block, d.block? id = some block → ¬block.asks = true) :
    d.Leaves id fun _ script => script.replies := by
  refine leaves_of_framed ?_
  intro block hblock env script result hframe
  exact hframe.replies (Bool.eq_false_iff.mpr (h block hblock))

theorem leaves_output (id : BlockId)
    (h : ∀ block, d.block? id = some block → ¬block.prints = true) :
    d.Leaves id fun _ script => script.output := by
  refine leaves_of_framed ?_
  intro block hblock env script result hframe
  exact hframe.output (Bool.eq_false_iff.mpr (h block hblock))

/-- A name that is not declared has no value after a step either. -/
theorem scope_scripted_of_undeclared {name : String} (h : env.scope name = none) (id : BlockId)
    (script : Script) : (d.scripted id env script).1.2.scope name = none := by
  have hdeclared : ((d.scripted id env script).1.2.scope name).isSome = (env.scope name).isSome :=
    d.leaves_declared id name env script
  rw [h] at hdeclared
  exact Option.not_isSome_iff_eq_none.mp (by rw [hdeclared]; simp)

/-- What only the blocks of one kind do not leave alone is left alone by one of two blocks,
unless both are of this kind. -/
theorem leaves_or_leaves {β : Type} {p : Block → Prop} {f : Environment → Script → β}
    (hleaves : ∀ id, (∀ block, d.block? id = some block → ¬p block) → d.Leaves id f)
    (i j : BlockId) :
    d.Leaves i f ∨ d.Leaves j f ∨
      ∃ a b, d.block? i = some a ∧ d.block? j = some b ∧ p a ∧ p b := by
  by_cases hi : ∃ a, d.block? i = some a ∧ p a
  · by_cases hj : ∃ b, d.block? j = some b ∧ p b
    · obtain ⟨a, ha, hpa⟩ := hi
      obtain ⟨b, hb, hpb⟩ := hj
      exact .inr (.inr ⟨a, b, ha, hb, hpa, hpb⟩)
    · right; left
      refine hleaves j ?_
      intro b hb hpb
      exact hj ⟨b, hb, hpb⟩
  · left
    refine hleaves i ?_
    intro a ha hpa
    exact hi ⟨a, ha, hpa⟩

/-! ## Two steps -/

/-- A block does the same after the step of a block that keeps apart from it. -/
theorem Apart.alike_inTurn (h : d.Apart env i j) (script : Script) :
    Alike (d.scripted i env script).1.2 env (d.scripted i env script).2 script
      (d.inTurn i j env script) (d.scripted j env script) := by
  refine d.alike_scripted ?_ ?_
  · intro b hb text htext name hwithin
    by_cases hi : ∃ a, d.block? i = some a ∧ a.target? = some name
    · obtain ⟨a, ha, htarget⟩ := hi
      have hnone := (h a b ha hb).spares.undeclared htarget htext hwithin
      rw [hnone]
      exact scope_scripted_of_undeclared hnone i script
    · refine leaves_scope name i ?_ env script
      intro a ha htarget
      exact hi ⟨a, ha, htarget⟩
  · intro b hb hasks
    refine leaves_replies i ?_ env script
    intro a ha hasks'
    exact (h a b ha hb).asks ⟨hasks', hasks⟩

/-- What one block leaves alone comes out the same whether it goes first or last. -/
theorem inTurn_eq_of_leaves {β : Type} {f : Environment → Script → β} {script : Script}
    (hi : d.Leaves i f)
    (hj : f (d.scripted i env script).1.2 (d.scripted i env script).2 = f env script →
      f (d.inTurn i j env script).1.2 (d.inTurn i j env script).2
        = f (d.scripted j env script).1.2 (d.scripted j env script).2) :
    f (d.inTurn i j env script).1.2 (d.inTurn i j env script).2
      = f (d.inTurn j i env script).1.2 (d.inTurn j i env script).2 :=
  calc f (d.inTurn i j env script).1.2 (d.inTurn i j env script).2
      = f (d.scripted j env script).1.2 (d.scripted j env script).2 := hj (hi env script)
    _ = f (d.inTurn j i env script).1.2 (d.inTurn j i env script).2 := (hi _ _).symm

theorem Apart.scope_inTurn (h : d.Apart env i j) (script : Script) (name : String) :
    (d.inTurn i j env script).1.2.scope name = (d.inTurn j i env script).1.2.scope name := by
  rcases leaves_or_leaves (leaves_scope name) i j with
    hi | hj | ⟨a, b, ha, hb, htarget, htarget'⟩
  · exact inTurn_eq_of_leaves hi ((h.alike_inTurn script).scope name)
  · exact (inTurn_eq_of_leaves hj ((h.symm.alike_inTurn script).scope name)).symm
  · -- a variable that both could write is not declared, since it occurs in both texts
    obtain ⟨text, htext, hwithin⟩ := Block.infix_of_target? htarget'
    have hnone := (h a b ha hb).spares.undeclared htarget htext hwithin
    have hafter (i j : BlockId) : (d.inTurn i j env script).1.2.scope name = none :=
      scope_scripted_of_undeclared (scope_scripted_of_undeclared hnone i script) j _
    rw [hafter i j, hafter j i]

theorem Apart.replies_inTurn (h : d.Apart env i j) (script : Script) :
    (d.inTurn i j env script).2.replies = (d.inTurn j i env script).2.replies := by
  rcases leaves_or_leaves leaves_replies i j with hi | hj | ⟨a, b, ha, hb, hboth⟩
  · exact inTurn_eq_of_leaves hi (h.alike_inTurn script).replies
  · exact (inTurn_eq_of_leaves hj (h.symm.alike_inTurn script).replies).symm
  · exact absurd hboth (h a b ha hb).asks

theorem Apart.output_inTurn (h : d.Apart env i j) (script : Script) :
    (d.inTurn i j env script).2.output = (d.inTurn j i env script).2.output := by
  rcases leaves_or_leaves leaves_output i j with hi | hj | ⟨a, b, ha, hb, hboth⟩
  · exact inTurn_eq_of_leaves hi (h.alike_inTurn script).output
  · exact (inTurn_eq_of_leaves hj (h.symm.alike_inTurn script).output).symm
  · exact absurd hboth (h a b ha hb).prints

/-- Blocks that keep apart leave the same behind in either order. -/
theorem Apart.inTurn_comm (h : d.Apart env i j) (script : Script) :
    (d.inTurn i j env script).1.2 = (d.inTurn j i env script).1.2 ∧
      (d.inTurn i j env script).2 = (d.inTurn j i env script).2 := by
  refine ⟨Environment.ext_scope (h.scope_inTurn script), ?_⟩
  have hreplies := h.replies_inTurn script
  have houtput := h.output_inTurn script
  rcases hij : (d.inTurn i j env script).2 with ⟨replies, output⟩
  rcases hji : (d.inTurn j i env script).2 with ⟨replies', output'⟩
  rw [hij, hji] at hreplies houtput
  obtain rfl : replies = replies' := hreplies
  obtain rfl : output = output' := houtput
  rfl

end Diagram

/-! ## Two threads -/

/-- The steps of two different threads, one after the other. -/
theorem Replay.step_step {d : Diagram} {r : Replay} {i j : Nat} {c c' : Cursor} {a b : BlockId}
    (hne : i ≠ j) (hc : r.cursors[i]? = some c) (hcur : c.current? = some a)
    (hc' : r.cursors[j]? = some c') (hcur' : c'.current? = some b) :
    (r.step d i).step d j =
      ⟨⟨(d.inTurn a b r.env r.script).1.2,
        (r.cursors.set i ⟨.after (d.scripted a r.env r.script).1.1, c.steps + 1⟩).set j
          ⟨.after (d.inTurn a b r.env r.script).1.1, c'.steps + 1⟩⟩,
        (d.inTurn a b r.env r.script).2⟩ := by
  have hthen : (r.step d i).machine.cursors[j]? = some c' := by
    rw [getElem?_cursors_step_of_ne (Ne.symm hne)]
    exact hc'
  rw [step_of_running hthen hcur', step_of_running hc hcur]
  rfl

/-- **Independent steps commute.** Two threads are about to execute blocks that keep apart.
Then it makes no difference which of them goes first: not to the environment, the output and
the replies that are left, and not to where each thread stands afterwards. -/
theorem Replay.step_comm {d : Diagram} {r : Replay} {i j : Nat} {c c' : Cursor} {a b : BlockId}
    (hne : i ≠ j) (hc : r.cursors[i]? = some c) (hrun : c.control = .running a)
    (hc' : r.cursors[j]? = some c') (hrun' : c'.control = .running b)
    (h : d.Apart r.env a b) :
    (r.step d i).step d j = (r.step d j).step d i := by
  have hcur : c.current? = some a := by rw [Cursor.current?, hrun]
  have hcur' : c'.current? = some b := by rw [Cursor.current?, hrun']
  rw [step_step hne hc hcur hc' hcur', step_step (Ne.symm hne) hc' hcur' hc hcur]
  obtain ⟨henv, hscript⟩ := h.inTurn_comm r.script
  have houtcome := (h.alike_inTurn r.script).outcome
  have houtcome' := (h.symm.alike_inTurn r.script).outcome
  rw [henv, hscript, houtcome, houtcome', List.set_comm _ _ hne]

/-- One thread divides by a share that the other one asks for later, after a question that has
nothing to do with it. -/
def divideAside : Diagram where
  declared := [⟨"limit", .int⟩, ⟨"share", .int⟩]
  blocks := ⟨[(1, .assign 1 2 "share = 12 / share"), (2, .stop 2 none), (3, .input 3 4 "limit"),
    (4, .input 4 2 "share")], by decide⟩
  threads := [1, 3]
  names_nodup := by decide
  id_of_mem := by decide

theorem apart_divideAside (env : Environment) : divideAside.Apart env 1 3 := by
  intro a b ha hb
  obtain rfl : Block.assign 1 2 "share = 12 / share" = a := Option.some.inj ha
  obtain rfl : Block.input 3 4 "limit" = b := Option.some.inj hb
  have htarget : assignmentTarget? "share = 12 / share" = some "share" := by decide +kernel
  constructor
  case spares =>
    intro name text hname _ htext
    obtain rfl : "share" = name := Option.some.inj (htarget.symm.trans hname)
    obtain rfl : "limit" = text := Option.some.inj htext
    decide +kernel
  case spared =>
    intro name text hname _ htext
    obtain rfl : "limit" = name := Option.some.inj hname
    obtain rfl : "share = 12 / share" = text := Option.some.inj htext
    decide +kernel
  case prints => decide
  case asks => decide

/-- The division fails and the question gets its reply, in either order. -/
theorem step_comm_divideAside :
    let r := Replay.start divideAside ["7"]
    (r.step divideAside 0).step divideAside 1 = (r.step divideAside 1).step divideAside 0 ∧
      ((r.step divideAside 0).step divideAside 1).cursors =
        [⟨.failed ⟨.arithmetic .divisionByZero, some 1⟩, 1⟩, ⟨.running 4, 1⟩] := by
  intro r
  refine ⟨?_, by decide +kernel⟩
  exact Replay.step_comm (by decide) rfl rfl rfl rfl (apart_divideAside r.env)

end Flowchart
