import Treewalk.Proofs.Trace

/-!
An evaluator with a stack of frames. A frame holds what one activation binds: its
parameters when it starts, and a cell for each definition that it runs itself. A
name is looked up from the innermost frame outward; the frame at the bottom is
that of the globals. No environment is copied, and a call ends by dropping its
frame, whichever way its body ended.
-/
namespace Treewalk

variable {η : Type}

/-- The frames of the active calls, innermost first, and the world. -/
structure Stack (η : Type) where
  top : Environment
  below : List Environment
  world : World η

namespace Stack

def slot? (s : Stack η) (name : Name) : Option Slot :=
  (s.top :: s.below).findSome? fun frame => frame.slot? name

def get (s : Stack η) (name : Name) : Except Error Value :=
  match s.slot? name with
  | some slot => .ok (slot.value s.world.cells)
  | none => .error (.unboundVariable name)

def define (s : Stack η) (name : Name) : Stack η :=
  let (top, cells) := s.top.bindCell s.world.cells name .absent
  { s with top, world := { s.world with cells } }

def store (s : Stack η) (cell : CellId) (v : Value) : Stack η :=
  { s with world := { s.world with cells := s.world.cells.set cell v } }

def push (s : Stack η) (params : List Name) (args : List Value) : Stack η :=
  ⟨Environment.empty.bindAll params args, s.top :: s.below, s.world⟩

/-- Drops the innermost frame, but not that of the globals. -/
def pop (s : Stack η) : Stack η :=
  match s.below with
  | [] => s
  | frame :: below => ⟨frame, below, s.world⟩

def ofConfig (c : Config η) : Stack η := ⟨c.env, [], c.world⟩

def config (s : Stack η) : Config η := ⟨s.top, s.world⟩

def callValue (host : Host η) (runner : Runner (Stack η)) (f : Value) (args : List Value)
    (s : Stack η) : Outcome (Stack η) (Flow Value) :=
  match f with
  | .native f =>
    match host.apply f args s.world with
    | (.ok v, world) => .done (.value v) { s with world }
    | (.error e, world) => .failed e { s with world }
  | .function _ name params body =>
    if args.length = params.length then
      ((runner body (s.push params args)).mapState pop).mapError (Error.withNote (callNote name))
    else .failed (.arityMismatch name params.length args.length) s
  | v => .failed (.notCallable v.typeName) s

def step (host : Host η) (runner : Runner (Stack η)) (fuel : Nat) : Runner (Stack η)
  | .const v, s => .done (.value v) s
  | .var name, s => Outcome.ofExcept s ((s.get name).map .value)
  | .define name, s => nothing (s.define name)
  | .assign name expr, s =>
    match s.slot? name with
    | none => .failed (.unboundVariable name) s
    | some (.plain _) => .failed (.invalidAssignment name) s
    | some (.cell cell) =>
      (runner expr s).onValue fun v s => .done (.value v) (s.store cell v)
  | .label _, s => nothing s
  | .goto name, s => .done (.jump name) s
  | .block children, s => runBlock runner children fuel children .absent s
  | .when test body, s =>
    (runner test s).onValue fun v s => if v.truthy then runner body s else nothing s
  | .choose test yes no, s =>
    (runner test s).onValue fun v s => if v.truthy then runner yes s else runner no s
  | .call callee args, s =>
    (runner callee s).onValue fun f s =>
      (runArgs runner args [] s).onValue fun vs s => callValue host runner f vs s
  | .definition .., s => nothing s

def run (host : Host η) : Nat → Runner (Stack η)
  | 0 => fun _ _ => .outOfFuel
  | fuel + 1 => step host (run host fuel) fuel

end Stack

def framed (host : Host η) : Machine (Stack η) where
  run := Stack.run host
  slot? := Stack.slot?
  enter := Stack.push

namespace Stack

/-- Code run by the runner leaves the frames below its own as they are. -/
def KeepsBelow (runner : Runner (Stack η)) : Prop :=
  ∀ (n : Code) (s : Stack η), (runner n s).Leaves fun s' => s'.below = s.below

namespace KeepsBelow

variable {host : Host η} {runner : Runner (Stack η)} {below : List Environment}

theorem at_below (hr : KeepsBelow runner) (n : Code) {s : Stack η} (hs : s.below = below) :
    (runner n s).Leaves fun s' => s'.below = below :=
  (hr n s).imp fun _ h => h.trans hs

theorem callValue (hr : KeepsBelow runner) (f : Value) (args : List Value) {s : Stack η}
    (hs : s.below = below) :
    (callValue host runner f args s).Leaves fun s' => s'.below = below := by
  cases f with
  | native f =>
    simp only [Stack.callValue]
    split
    · exact ⟨trivial, hs⟩
    · exact ⟨trivial, hs⟩
  | function id name params body =>
    simp only [Stack.callValue]
    split
    · have hbody := hr body (s.push params args)
      refine Outcome.Leaves.mapError (hbody.mapState ?_) _
      intro s' hs'
      have hpop : s'.pop.below = s.below := by
        rw [pop, hs']
        rfl
      exact hpop.trans hs
    · exact ⟨trivial, hs⟩
  | _ => exact ⟨trivial, hs⟩

theorem step (hr : KeepsBelow runner) (fuel : Nat) : KeepsBelow (step host runner fuel) := by
  intro n s
  have hs : s.below = s.below := rfl
  cases n with
  | const v => exact ⟨trivial, hs⟩
  | var name =>
    simp only [Stack.step]
    cases s.get name with
    | error e => exact ⟨trivial, hs⟩
    | ok v => exact ⟨trivial, hs⟩
  | define name => exact ⟨trivial, hs⟩
  | assign name expr =>
    simp only [Stack.step]
    split
    · exact ⟨trivial, hs⟩
    · exact ⟨trivial, hs⟩
    · refine (hr.at_below expr hs).onValue ?_
      intro v s' hs'
      exact ⟨trivial, hs'⟩
  | label name => exact ⟨trivial, hs⟩
  | goto label => exact ⟨trivial, hs⟩
  | block children =>
    exact runBlock_leaves (fun child _ s' hs' => hr.at_below child hs') fuel .absent hs
  | when test body =>
    refine (hr.at_below test hs).onValue ?_
    intro v s' hs'
    split
    · exact hr.at_below body hs'
    · exact ⟨trivial, hs'⟩
  | choose test yes no =>
    refine (hr.at_below test hs).onValue ?_
    intro v s' hs'
    split
    · exact hr.at_below yes hs'
    · exact hr.at_below no hs'
  | call callee args =>
    refine (hr.at_below callee hs).onValue ?_
    intro f s₁ hs₁
    have hargs : (runArgs runner args [] s₁).Leaves fun s' => s'.below = s.below :=
      runArgs_leaves (fun arg _ s' hs' => hr.at_below arg hs') hs₁
    refine hargs.onValue ?_
    intro vs s₂ hs₂
    exact hr.callValue f vs hs₂
  | definition name params body => exact ⟨trivial, hs⟩

end KeepsBelow

/-- A run changes no frame but the innermost, however it ends. -/
theorem run_keepsBelow (host : Host η) (fuel : Nat) : KeepsBelow (run host fuel) := by
  induction fuel with
  | zero =>
    intro n s
    trivial
  | succ fuel ih => exact ih.step fuel

end Stack

end Treewalk
