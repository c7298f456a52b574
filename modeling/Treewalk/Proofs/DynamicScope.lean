import Treewalk.Proofs.Frames
import Treewalk.Proofs.Simulation

/-!
Copying the environment at a call is dynamic scoping. The evaluator that copies
environments and the one that keeps frames end alike and see the same slots at
every point, because a copied environment shows exactly what a search through
the frames finds.
-/
namespace Treewalk

variable {η : Type}

namespace Stack

theorem slot?_eq (s : Stack η) (name : Name) : s.slot? name =
    (s.top.slot? name).or (s.below.findSome? fun frame => frame.slot? name) := by
  unfold slot?
  rw [List.findSome?_cons]
  cases s.top.slot? name <;> rfl

theorem slot?_define (s : Stack η) (name other : Name) : (s.define name).slot? other =
    if other = name then some (.cell s.world.cells.size) else s.slot? other := by
  have htop : (s.define name).top.slot? other =
      if other = name then some (.cell s.world.cells.size) else s.top.slot? other :=
    Environment.slot?_bind ..
  have hbelow : (s.define name).below = s.below := rfl
  rw [slot?_eq, slot?_eq, htop, hbelow]
  split <;> rfl

/-- A new frame has the parameters and nothing else. -/
theorem slot?_top_push (s : Stack η) (params : List Name) (args : List Value) (name : Name) :
    (s.push params args).top.slot? name =
      ((params.zip args).reverse.lookup name).map .plain := by
  have hempty := Environment.slot?_bindAll .empty params args name
  rwa [Environment.slot?_empty, Option.or_none] at hempty

/-- A new frame hides what it binds and shows the rest. -/
theorem slot?_push (s : Stack η) (params : List Name) (args : List Value) (name : Name) :
    (s.push params args).slot? name =
      (((params.zip args).reverse.lookup name).map .plain).or (s.slot? name) := by
  have hbelow : (s.push params args).below = s.top :: s.below := rfl
  rw [slot?_eq, slot?_top_push, hbelow]
  rfl

/-- After a call the caller's frames are as they were. -/
theorem slot?_pop {s s' : Stack η} (h : s'.below = s.top :: s.below) (name : Name) :
    s'.pop.slot? name = s.slot? name := by
  unfold pop
  rw [h]
  rfl

end Stack

/-- An environment that shows what a search through the frames finds, in the same world;
with the globals alone on the stack, it is theirs. -/
structure Config.Matches (c : Config η) (s : Stack η) : Prop where
  world : c.world = s.world
  slots : ∀ name, c.env.slot? name = s.slot? name
  globals : s.below = [] → c.env = s.top

namespace Config.Matches

variable {c : Config η} {s : Stack η}

theorem ofConfig (c : Config η) : c.Matches (.ofConfig c) := by
  refine ⟨rfl, ?_, fun _ => rfl⟩
  intro name
  rw [Stack.slot?_eq]
  exact (Option.or_none).symm

theorem get (h : c.Matches s) (name : Name) : c.get name = s.get name := by
  unfold Config.get Environment.get Environment.lookup? Stack.get
  rw [h.slots name, h.world]
  cases s.slot? name <;> rfl

theorem define (h : c.Matches s) (name : Name) : (c.define name).Matches (s.define name) := by
  have hworld : (c.define name).world = (s.define name).world := by
    unfold Config.define Stack.define Environment.bindCell
    rw [h.world]
  refine ⟨hworld, ?_, ?_⟩
  · intro other
    have hslot : (c.define name).env.slot? other =
        if other = name then some (.cell c.world.cells.size) else c.env.slot? other :=
      Environment.slot?_bind ..
    rw [hslot, Stack.slot?_define, h.slots other, h.world]
  · intro hbelow
    unfold Config.define Stack.define Environment.bindCell
    rw [h.world, h.globals hbelow]

theorem store (h : c.Matches s) (cell : CellId) (v : Value) :
    (c.store cell v).Matches (s.store cell v) := by
  refine ⟨?_, h.slots, h.globals⟩
  unfold Config.store Stack.store
  rw [h.world]

theorem withWorld (h : c.Matches s) (w : World η) :
    Config.Matches ⟨c.env, w⟩ { s with world := w } :=
  ⟨rfl, h.slots, h.globals⟩

/-- The copy with the parameters bound on top shows what the new frame and those below
it show. -/
theorem push (h : c.Matches s) (params : List Name) (args : List Value) :
    Config.Matches ⟨c.env.bindAll params args, c.world⟩ (s.push params args) := by
  refine ⟨h.world, ?_, fun hbelow => by cases hbelow⟩
  intro name
  rw [Stack.slot?_push, ← h.slots name]
  exact Environment.slot?_bindAll c.env params args name

/-- Back from a call, the caller's environment shows what its frames show. -/
theorem pop (h : c.Matches s) {c' : Config η} {s' : Stack η} (h' : c'.Matches s')
    (hbelow : s'.below = s.top :: s.below) : Config.Matches ⟨c.env, c'.world⟩ s'.pop := by
  have hpop : s'.pop = ⟨s.top, s.below, s'.world⟩ := by
    unfold Stack.pop
    rw [hbelow]
  refine ⟨?_, ?_, ?_⟩
  · rw [hpop]
    exact h'.world
  · intro name
    rw [Stack.slot?_pop hbelow]
    exact h.slots name
  · rw [hpop]
    exact h.globals

end Config.Matches

section Simulation

variable {host : Host η} {runner : Runner (Config η)} {runner' : Runner (Stack η)}

theorem callValue_rel (host : Host η) (hr : Runner.Simulates Config.Matches runner runner')
    (hbelow : Stack.KeepsBelow runner') (f : Value) (args : List Value) {c : Config η}
    {s : Stack η} (hcs : c.Matches s) :
    (callValue host runner c.env f args c.world).Rel
      (fun w t => Config.Matches ⟨c.env, w⟩ t) (Stack.callValue host runner' f args s) := by
  have hsame : Config.Matches ⟨c.env, c.world⟩ s := hcs
  cases f with
  | native f =>
    simp only [callValue, Stack.callValue]
    rw [hcs.world]
    rcases host.apply f args s.world with ⟨e | v, w⟩
    · exact .failed e (hcs.withWorld w)
    · exact .done _ (hcs.withWorld w)
  | function id name params body =>
    simp only [callValue, Stack.callValue]
    split
    · have hbody := hr body _ _ (hcs.push params args)
      refine Outcome.Rel.mapError ?_ _
      refine hbody.mapState (hbelow body (s.push params args)) ?_
      intro c' s' hcs' hs'
      exact hcs.pop hcs' hs'
    · exact .failed _ hsame
  | _ => exact .failed _ hsame

theorem step_simulates (hr : Runner.Simulates Config.Matches runner runner')
    (hbelow : Stack.KeepsBelow runner') (fuel : Nat) :
    Runner.Simulates Config.Matches (step host runner fuel) (Stack.step host runner' fuel) := by
  intro n c s hcs
  cases n with
  | const v => exact .done _ hcs
  | var name =>
    simp only [step, Stack.step]
    rw [hcs.get name]
    exact .ofExcept hcs _
  | define name => exact .done _ (hcs.define name)
  | assign name expr =>
    simp only [step, Stack.step]
    rw [hcs.slots name]
    rcases s.slot? name with _ | _ | cell
    · exact .failed _ hcs
    · exact .failed _ hcs
    · refine (hr expr c s hcs).onValue ?_
      intro v c' s' hcs'
      exact .done _ (hcs'.store cell v)
  | label name => exact .done _ hcs
  | goto label => exact .done _ hcs
  | block children => exact runBlock_rel hr children fuel children .absent hcs
  | when test body =>
    refine (hr test c s hcs).onValue ?_
    intro v c' s' hcs'
    split
    · exact hr body c' s' hcs'
    · exact .done _ hcs'
  | choose test yes no =>
    refine (hr test c s hcs).onValue ?_
    intro v c' s' hcs'
    split
    · exact hr yes c' s' hcs'
    · exact hr no c' s' hcs'
  | call callee args =>
    refine (hr callee c s hcs).onValue ?_
    intro f c₁ s₁ h₁
    refine (runArgs_rel hr args [] h₁).onValue ?_
    intro vs c₂ s₂ h₂
    exact (callValue_rel host hr hbelow f vs h₂).mapLeft fun w t h => h
  | definition name params body => exact .done _ hcs

/-- Both evaluators end alike from states that match, and the states they leave match. -/
theorem run_simulates (host : Host η) (fuel : Nat) :
    Runner.Simulates Config.Matches (run host fuel) (Stack.run host fuel) := by
  induction fuel with
  | zero =>
    intro n c s hcs
    exact .outOfFuel
  | succ fuel ih => exact step_simulates ih (Stack.run_keepsBelow host fuel) fuel

theorem copying_simulates_framed (host : Host η) :
    (copying host).Simulates Config.Matches (framed host) where
  run := run_simulates host
  slot? name h := h.slots name
  enter params args h := h.push params args

end Simulation

namespace Stack

def runGlobal (host : Host η) (fuel : Nat) : Runner (Config η) :=
  fun n c => (run host fuel n (.ofConfig c)).mapState config

theorem runGlobal_eq (host : Host η) (fuel : Nat) :
    runGlobal host fuel = Treewalk.run host fuel := by
  funext n c
  have hrel := run_simulates host fuel n c (.ofConfig c) (.ofConfig c)
  have hbelow : (run host fuel n (.ofConfig c)).Leaves fun s => s.below = [] :=
    run_keepsBelow host fuel n (.ofConfig c)
  have hsame : ((Treewalk.run host fuel n c).mapState id).Rel Eq (runGlobal host fuel n c) := by
    refine hrel.mapState hbelow ?_
    intro c' s hcs hs
    unfold config
    rw [← hcs.globals hs, ← hcs.world]
    rfl
  rw [← hsame.eq, Outcome.mapState_id]

end Stack

namespace Interpreter

def framedTrace (host : Host η) (fuel : Nat) (root : Tree) (it : Interpreter η) :
    List (Event (Stack η)) :=
  formPoints (Stack.runGlobal host fuel)
    (fun n c => (framed host).trace fuel n (.ofConfig c)) root.children it

def framedCall (host : Host η) (fuel : Nat) (name : Name) (args : List Value)
    (it : Interpreter η) : Outcome (Interpreter η) Value :=
  match it.lookup? name with
  | none => .failed (.unboundVariable name) it
  | some f =>
    settle ((Stack.callValue host (Stack.run host fuel) f args (.ofConfig it.config)).mapState
      fun s => it.withConfig s.config)

def framedCallTrace (host : Host η) (fuel : Nat) (name : Name) (args : List Value)
    (it : Interpreter η) : List (Event (Stack η)) :=
  match it.lookup? name with
  | none => []
  | some f => (framed host).callTrace fuel f args (.ofConfig it.config)

theorem programTrace_match (host : Host η) (fuel : Nat) (root : Tree) (it : Interpreter η) :
    PointsMatch Config.Matches (it.programTrace host fuel root)
      (it.framedTrace host fuel root) := by
  unfold programTrace framedTrace
  rw [Stack.runGlobal_eq]
  refine formPoints_match _ ?_ root.children it
  intro n c
  exact (copying_simulates_framed host).trace fuel n c _ (.ofConfig c)

theorem callTrace_match (host : Host η) (fuel : Nat) (name : Name) (args : List Value)
    (it : Interpreter η) :
    PointsMatch Config.Matches (it.callTrace host fuel name args)
      (it.framedCallTrace host fuel name args) := by
  unfold callTrace framedCallTrace
  cases it.lookup? name with
  | none => exact .nil
  | some f => exact (copying_simulates_framed host).callTrace fuel f args (.ofConfig it.config)

theorem framedCall_eq (host : Host η) (fuel : Nat) (name : Name) (args : List Value)
    (it : Interpreter η) : it.framedCall host fuel name args = it.call host fuel name args := by
  unfold framedCall call
  cases it.lookup? name with
  | none => rfl
  | some f =>
    have hrun := run_simulates host fuel
    have hkeeps := Stack.run_keepsBelow host fuel
    have hrel := callValue_rel host hrun hkeeps f args (.ofConfig it.config)
    have hbelow : (Stack.callValue host (Stack.run host fuel) f args
        (.ofConfig it.config)).Leaves fun s => s.below = [] := hkeeps.callValue f args rfl
    have hsame : ((callValue host (run host fuel) it.globals f args it.world).mapState
        fun world => { it with world }).Rel Eq ((Stack.callValue host (Stack.run host fuel) f args
          (.ofConfig it.config)).mapState fun s => it.withConfig s.config) := by
      refine hrel.mapState hbelow ?_
      intro w s hcs hs
      have hglobals : it.globals = s.top := hcs.globals hs
      have hworld : w = s.world := hcs.world
      unfold withConfig Stack.config
      rw [hworld, ← hglobals]
    exact congrArg settle hsame.eq.symm

end Interpreter

/-- Copying at a call is dynamic scoping with a stack of frames. A call starts a frame
with its parameters, the last of a repeated one winning. At every point of every program
and of every call by name, the copied environment shows under each name the slot that a
search through the frames finds. So an evaluator that keeps frames ends in the same way,
with the same globals, cells, printed text and host. -/
theorem copying_is_dynamic_scoping (host : Host η) (fuel : Nat) :
    (∀ (s : Stack η) (params : List Name) (args : List Value) (name : Name),
      (s.push params args).top.slot? name =
        ((params.zip args).reverse.lookup name).map .plain) ∧
    (∀ (root : Tree) (it : Interpreter η), PointsMatch Config.Matches
      (it.programTrace host fuel root) (it.framedTrace host fuel root)) ∧
    (∀ (name : Name) (args : List Value) (it : Interpreter η), PointsMatch Config.Matches
      (it.callTrace host fuel name args) (it.framedCallTrace host fuel name args)) ∧
    (∀ (n : Code) (c : Config η),
      (Stack.run host fuel n (.ofConfig c)).mapState Stack.config = run host fuel n c) ∧
    (∀ (root : Tree) (it : Interpreter η),
      it.runProgram (Stack.runGlobal host fuel) root = it.runProgram (run host fuel) root) ∧
    ∀ (name : Name) (args : List Value) (it : Interpreter η),
      it.framedCall host fuel name args = it.call host fuel name args := by
  refine ⟨?_, Interpreter.programTrace_match host fuel, Interpreter.callTrace_match host fuel,
    ?_, ?_, Interpreter.framedCall_eq host fuel⟩
  · exact Stack.slot?_top_push
  · intro n c
    exact congrFun (congrFun (Stack.runGlobal_eq host fuel) n) c
  · intro root it
    rw [Stack.runGlobal_eq]

end Treewalk
