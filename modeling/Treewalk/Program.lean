import Treewalk.Code.Compile
import Treewalk.Run.Basic

/-!
Programs run form by form on one set of globals. Each form is compiled against
the globals that the forms before it left, and is then installed, if it defines
a function, or run. The value of the last form that ran is the result.
-/
namespace Treewalk

/-- Compiled code with the identity of the function it installs if it defines one. -/
structure Form where
  id : Nat
  code : Code

structure Interpreter (η : Type) where
  globals : Environment
  world : World η
  policy : Policy
  /-- Identities from here on have not been given away. -/
  nextId : Nat

structure Configuration where
  sink : Sink := .stdout
  policy : Policy := .reject
  prelude : Bool := true

namespace Interpreter

variable {η : Type}

def config (it : Interpreter η) : Config η := ⟨it.globals, it.world⟩

def withConfig (it : Interpreter η) (c : Config η) : Interpreter η :=
  { it with globals := c.env, world := c.world }

def define (it : Interpreter η) (name : Name) (v : Value) : Interpreter η :=
  { it with globals := it.globals.bindValue name v }

def defineCell (it : Interpreter η) (name : Name) (v : Value) : Interpreter η :=
  let (globals, cells) := it.globals.bindCell it.world.cells name v
  { it with globals, world := { it.world with cells } }

def register (it : Interpreter η) (f : Native) : Interpreter η := it.define f.name (.native f)

def new (conf : Configuration) (host : η) : Interpreter η :=
  let bare : Interpreter η :=
    { globals := .empty
      world := { cells := {}, printer := { sink := conf.sink }, host }
      policy := conf.policy
      nextId := Builtin.all.length }
  if conf.prelude then (Builtin.natives 0).foldl register bare else bare

def lookup? (it : Interpreter η) (name : Name) : Option Value :=
  it.globals.lookup? it.world.cells name

def get (it : Interpreter η) (name : Name) : Except Error Value :=
  it.globals.get it.world.cells name

def scope (it : Interpreter η) : Scope where
  policy := it.policy
  target := fun name => (it.lookup? name).getD .absent

def compile (it : Interpreter η) (tree : Tree) : Except Error (Form × Interpreter η) :=
  (Treewalk.compile it.scope tree).map fun code =>
    (⟨it.nextId, code⟩, { it with nextId := it.nextId + 1 })

/-- At the top there is no block left to resolve a jump. -/
def settle : Outcome (Interpreter η) (Flow Value) → Outcome (Interpreter η) Value
  | .done (.value v) it => .done v it
  | .done (.jump name) it => .failed (.malformed (.unresolvedGoto name)) it
  | .failed e it => .failed e it
  | .outOfFuel => .outOfFuel

/-- Installs a function definition, which has no value, or runs any other form. -/
def runForm (runner : Runner (Config η)) (form : Form) (it : Interpreter η) :
    Outcome (Interpreter η) (Option Value) :=
  match form.code with
  | .definition name params body =>
    .done none (it.define name (.function form.id name params body))
  | code =>
    match settle ((runner code it.config).mapState it.withConfig) with
    | .done v it => .done (some v) it
    | .failed e it => .failed e it
    | .outOfFuel => .outOfFuel

def runTree (runner : Runner (Config η)) (tree : Tree) (it : Interpreter η) :
    Outcome (Interpreter η) (Option Value) :=
  match it.compile tree with
  | .ok (form, it) => runForm runner form it
  | .error e => .failed e it

def formNote (index : Nat) (tag : String) : String :=
  "in top-level form " ++ toString index ++ " <" ++ tag ++ ">"

def runForms (runner : Runner (Config η)) :
    Nat → List Tree → Value → Interpreter η → Outcome (Interpreter η) Value
  | _, [], result, it => .done result it
  | index, tree :: trees, result, it =>
    match runTree runner tree it with
    | .done v it => runForms runner (index + 1) trees (v.getD result) it
    | .failed e it => .failed (e.withNote (formNote index tree.tag)) it
    | .outOfFuel => .outOfFuel

/-- The children of the root are the forms. -/
def runProgram (runner : Runner (Config η)) (root : Tree) (it : Interpreter η) :
    Outcome (Interpreter η) Value :=
  runForms runner 0 root.children .absent it

def call (host : Host η) (fuel : Nat) (name : Name) (args : List Value) (it : Interpreter η) :
    Outcome (Interpreter η) Value :=
  match it.lookup? name with
  | none => .failed (.unboundVariable name) it
  | some f =>
    settle ((callValue host (run host fuel) it.globals f args it.world).mapState
      fun world => { it with world })

def output (it : Interpreter η) : String := it.world.printer.output

def clearOutput (it : Interpreter η) : Interpreter η :=
  { it with world := { it.world with printer := it.world.printer.clear } }

end Interpreter

end Treewalk
