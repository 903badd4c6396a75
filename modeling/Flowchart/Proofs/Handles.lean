import Flowchart.Live

/-!
# Threads with handles

The threads of a live run have a handle each on one environment. What is asked and assigned
through such a handle is asked of this environment and assigned to it (`hom_among`), and a
step does nothing else with variables. So the threads with their handles go like a machine,
which has the environment itself: they start alike (`Crew.start_eq_crew`), step alike against
every console (`Machine.step_crew`), and the run sees the environment of the machine in the
end (`Machine.snapshot_crew`).
-/

namespace Flowchart

/-! ## Stores that go alike -/

/-- The second store shows what the first one shows, and refuses and takes what it does. -/
structure Store.Hom {σ τ : Type} [Store σ] [Store τ] (f : σ → τ) : Prop where
  scope : ∀ store, Store.scope (f store) = Store.scope store
  assign? : ∀ store name value,
    Store.assign? (f store) name value = (Store.assign? store name value).map f

section Steps

variable {m : Type → Type} [Monad m] [LawfulMonad m] {σ τ : Type} [Store σ] [Store τ] {f : σ → τ}
  {d : Diagram} {console : Console m}

theorem Store.Hom.assignAndGo (h : Store.Hom f) (store : σ) (name : String) (value : Value)
    (next : BlockId) :
    Store.assignAndGo (f store) name value next
      = Prod.map id f (Store.assignAndGo store name value next) := by
  unfold Store.assignAndGo
  rw [h.assign?]
  cases Store.assign? store name value <;> rfl

theorem Store.Hom.perform (h : Store.Hom f) (store : σ) (action : Action) :
    action.perform console (f store) = Prod.map id f <$> action.perform console store := by
  cases action with
  | go next => simp [Action.perform]
  | assign name value next => simp [Action.perform, h.assignAndGo]
  | print line next =>
      simp only [Action.perform, map_bind]
      congr 1
      funext outcome
      cases outcome <;> simp
  | ask name next =>
      simp only [Action.perform, map_bind]
      congr 1
      funext outcome
      cases outcome <;> simp [h.assignAndGo]

theorem Store.Hom.step (h : Store.Hom f) (store : σ) (block : BlockId) :
    d.step console block (f store) = Prod.map id f <$> d.step console block store := by
  unfold Diagram.step
  rw [h.scope]
  cases d.block block with
  | error e => simp
  | ok found =>
      cases haction : found.action (Store.scope store) with
      | error e => simp [haction]
      | ok action => simp [haction, h.perform]

theorem Store.Hom.advance (h : Store.Hom f) (store : σ) (c : Cursor) :
    c.advance d console (f store) = Prod.map id f <$> c.advance d console store := by
  unfold Cursor.advance
  cases c.current? with
  | none => simp
  | some block => simp [h.step]

end Steps

/-! ## Handles on one environment -/

namespace Sharing

/-- One environment, with so many handles on it. -/
def among (handles : Nat) (env : Environment) : Sharing :=
  ⟨[env], List.replicate handles 0⟩

variable {handles handle : Nat} {env : Environment}

theorem clone_among (h : handle < handles) :
    (among handles env).clone handle = among (handles + 1) env := by
  simp [among, clone, place?, h, List.replicate_succ']

theorem environment_among (h : handle < handles) :
    (among handles env).environment handle = env := by
  simp [among, environment, place?, h]

theorem assign?_among (h : handle < handles) (name : String) (value : Value) :
    (among handles env).assign? handle name value
      = (env.assign? name value).map (among handles) := by
  have hplace : (among handles env).place? handle = some 0 := by simp [among, place?, h]
  unfold assign?
  rw [hplace, environment_among h]
  cases env.assign? name value <;> rfl

end Sharing

/-- **A handle is as good as the environment.** -/
theorem hom_among {handles handle : Nat} (h : handle < handles) :
    Store.Hom fun env : Environment => (⟨handle, .among handles env⟩ : Handle) where
  scope env := congrArg Environment.scope (Sharing.environment_among h)
  assign? env name value := by
    show ((Sharing.among handles env).assign? handle name value).map _ = (env.assign? name value).map _
    rw [Sharing.assign?_among h]
    cases env.assign? name value <;> rfl

/-! ## The threads of a machine with handles -/

/-- The threads of a machine, each with a handle on its environment. -/
def Machine.crew (machine : Machine) : Crew :=
  ⟨.among (machine.cursors.length + 1) machine.env, machine.cursors⟩

theorem Sharing.foldl_clone {α : Type} (handles : Nat) (env : Environment) (threads : List α) :
    threads.foldl (fun sharing _ => sharing.clone 0) (among (handles + 1) env)
      = among (threads.length + handles + 1) env := by
  induction threads generalizing handles with
  | nil => simp
  | cons _ threads ih =>
      rw [List.foldl_cons, clone_among (Nat.succ_pos handles), ih, List.length_cons]
      congr 1
      omega

theorem Crew.start_eq_crew (d : Diagram) : Crew.start d = (Machine.start d).crew := by
  rw [Crew.start, Machine.crew, Machine.start, List.length_map]
  congr 1
  exact Sharing.foldl_clone 0 _ d.threads

theorem Machine.isOver_crew (machine : Machine) : machine.crew.isOver = machine.isOver := rfl

theorem Machine.snapshot_crew (machine : Machine) : machine.crew.snapshot = machine.env :=
  Sharing.environment_among (Nat.succ_pos _)

/-- **Threads with handles step like a machine.** -/
theorem Machine.step_crew {m : Type → Type} [Monad m] [LawfulMonad m] (d : Diagram)
    (console : Console m) (thread : Nat) (machine : Machine) :
    machine.crew.step d console thread = Machine.crew <$> machine.step d console thread := by
  unfold Crew.step Machine.step
  cases hc : machine.cursors[thread]? with
  | none =>
      have hcrew : machine.crew.cursors[thread]? = none := hc
      rw [hcrew, map_pure]
  | some c =>
      have hcrew : machine.crew.cursors[thread]? = some c := hc
      have hlt : thread + 1 < machine.cursors.length + 1 :=
        Nat.succ_lt_succ (List.getElem?_eq_some_iff.mp hc).1
      have hadvance : c.advance d console (machine.crew.handle thread)
          = Prod.map id _ <$> c.advance d console machine.env :=
        (hom_among hlt).advance machine.env c
      rw [hcrew]
      dsimp only
      rw [hadvance, bind_map_left, map_bind]
      congr 1
      funext result
      simp [Machine.crew]

end Flowchart
