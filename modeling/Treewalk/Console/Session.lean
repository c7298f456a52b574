import Treewalk.Console.Reply
import Treewalk.Tree.Interchange

/-!
A session is one interpreter used step by step, with compiled forms kept under
names. A step that fails does not end the session and keeps the effects it had.
-/
namespace Treewalk

structure Session where
  interpreter : Interpreter Stock
  forms : Table Form := {}

namespace Session

inductive Step where
  | run (program : Document)
  | form (tree : Document)
  | compile (tree : Document) (id : String)
  | runNode (id : String)
  | call (name : Name) (args : List ValueSketch)
  | native (name : Name) (behaviour : BehaviourSketch)
  | defineValue (name : Name) (value : ValueSketch)
  | defineCell (name : Name) (value : ValueSketch)
  | get (name : Name)
  | slot (name : Name)
  | clear

def build {α : Type} (s : Session) (sketch : (Name → Except Error Value) → Build α) :
    Except Error (α × Session) :=
  let it := s.interpreter
  match (sketch it.get).run ⟨it.nextId, it.world.host⟩ with
  | .ok (a, shop) =>
    .ok (a, { s with interpreter :=
      { it with nextId := shop.nextId, world := { it.world with host := shop.stock } } })
  | .error e => .error e

def building {α : Type} (s : Session) (sketch : (Name → Except Error Value) → Build α)
    (k : α → Session → Reply × Session) : Reply × Session :=
  match s.build sketch with
  | .ok (a, s) => k a s
  | .error e => (.failed e, s)

def reading (s : Session) (d : Document) (k : Tree → Reply × Session) : Reply × Session :=
  match Tree.ofDocument? d with
  | some tree => k tree
  | none => (.unreadable, s)

def running {α : Type} (s : Session) (ok : α → Reply)
    (f : Interpreter Stock → Outcome (Interpreter Stock) α) : Reply × Session :=
  let (reply, interpreter) := Reply.ofOutcome ok s.interpreter (f s.interpreter)
  (reply, { s with interpreter })

def on (s : Session) (f : Interpreter Stock → Interpreter Stock) : Session :=
  { s with interpreter := f s.interpreter }

def view (s : Session) (name : Name) : SlotView :=
  s.interpreter.globals.view s.interpreter.world.cells name

def step (fuel : Nat) (s : Session) : Step → Reply × Session
  | .run program =>
    s.reading program fun root =>
      s.running .result (Interpreter.runProgram (Treewalk.run Stock.host fuel) root)
  | .form tree =>
    s.reading tree fun tree =>
      s.running .ofForm (Interpreter.runTree (Treewalk.run Stock.host fuel) tree)
  | .compile tree id =>
    s.reading tree fun tree =>
      match s.interpreter.compile tree with
      | .ok (form, interpreter) =>
        (.code form.code, { interpreter, forms := s.forms.put id form })
      | .error e => (.failed e, s)
  | .runNode id =>
    match s.forms.get? id with
    | some form => s.running .ofForm (Interpreter.runForm (Treewalk.run Stock.host fuel) form)
    | none => (.unknown, s)
  | .call name args =>
    s.building (fun lookup => args.mapM (ValueSketch.build lookup)) fun args s =>
      s.running .result (Interpreter.call Stock.host fuel name args)
  | .native name sketch =>
    s.building (fun lookup => do Build.native name (← sketch.build lookup)) fun f s =>
      (.done, s.on (·.register f))
  | .defineValue name value =>
    s.building value.build fun v s => (.done, s.on (·.define name v))
  | .defineCell name value =>
    s.building value.build fun v s => (.done, s.on (·.defineCell name v))
  | .get name => (.ofResult (s.interpreter.get name), s)
  | .slot name => (.slot (s.view name), s)
  | .clear => (.done, s.on Interpreter.clearOutput)

def start (conf : Configuration) (natives : List (Name × BehaviourSketch)) :
    Except Error Session :=
  natives.foldlM (fun s (name, sketch) => do
    let (f, s) ← s.build fun lookup => do Build.native name (← sketch.build lookup)
    return s.on (·.register f)) { interpreter := Interpreter.new conf [] }

/-- A step as it is seen afterwards: the reply, all captured output, what the step wrote
to standard output, and the number of globals. -/
structure Entry where
  reply : Reply
  output : String
  written : String
  size : Nat

def advance (fuel : Nat) (s : Session) (step : Step) : Entry × Session :=
  let (reply, s) := s.step fuel step
  let (written, printer) := s.interpreter.world.printer.flush
  let s := s.on fun it => { it with world := { it.world with printer } }
  (⟨reply, s.interpreter.output, written, s.interpreter.globals.size⟩, s)

def play (fuel : Nat) (s : Session) : List Step → List Entry × Session
  | [] => ([], s)
  | step :: steps =>
    let (entry, s) := s.advance fuel step
    let (entries, s) := s.play fuel steps
    (entry :: entries, s)

/-- The first reply that is an error, or else the last reply. -/
def untilFailure (fuel : Nat) (s : Session) : List Step → Reply
  | [] => .done
  | [step] => (s.step fuel step).1
  | step :: steps =>
    match s.step fuel step with
    | (.failed e, _) => .failed e
    | (_, s) => s.untilFailure fuel steps

def values (s : Session) (sketches : List ValueSketch) : Except Error (List Value) :=
  (s.build fun lookup => sketches.mapM (ValueSketch.build lookup)).map Prod.fst

end Session

end Treewalk
