import Treewalk.Console.Reply
import Treewalk.Tree.Interchange

/-!
A workbench holds any number of environments, cells and pieces of code under
names, over one store of cells and one buffer for output. Environments made on
it can be copied, share cells, and have code run in them.
-/
namespace Treewalk

structure Workbench where
  world : World Stock
  nextId : Nat := 0
  environments : Table Environment := {}
  cells : Table CellId := {}
  codes : Table Code := {}

namespace Workbench

def empty : Workbench :=
  { world := { cells := {}, printer := { sink := .buffer }, host := [] } }

inductive Step where
  | environment (id : String) (prelude : Bool)
  | copy (env id : String)
  | cell (id : String) (value : ValueSketch)
  | cellGet (cell : String)
  | cellSame (cell other : String)
  | cellInspect (cell : String)
  | cellSet (env cell : String) (value : ValueSketch)
  | defineValue (env : String) (name : Name) (value : ValueSketch)
  | defineCell (env : String) (name : Name) (id : String)
  | addCell (env : String) (name : Name) (cell : String)
  | grab (env : String) (name : Name) (id : String)
  | get (env : String) (name : Name)
  | lookup (env : String) (name : Name)
  | slot (env : String) (name : Name)
  | contains (env : String) (name : Name)
  | size (env : String)
  | compile (env id : String) (tree : Document) (policy : Policy)
  | node (env id : String) (code : CodeSketch)
  | run (env node : String)
  | labels (node : String) (names : List Name)
  | call (env : String) (func : ValueSketch) (args : List ValueSketch)

def having {α : Type} (b : Workbench) (table : Table α) (id : String)
    (k : α → Reply × Workbench) : Reply × Workbench :=
  match table.get? id with
  | some a => k a
  | none => (.unknown, b)

def putEnvironment (b : Workbench) (id : String) (env : Environment) : Workbench :=
  { b with environments := b.environments.put id env }

def putCell (b : Workbench) (id : String) (cell : CellId) : Workbench :=
  { b with cells := b.cells.put id cell }

def withCells (b : Workbench) (cells : Cells) : Workbench :=
  { b with world := { b.world with cells } }

def building {α : Type} (b : Workbench) (env : Environment)
    (sketch : (Name → Except Error Value) → Build α) (k : α → Workbench → Reply × Workbench) :
    Reply × Workbench :=
  match (sketch (env.get b.world.cells)).run ⟨b.nextId, b.world.host⟩ with
  | .ok (a, shop) =>
    k a { b with nextId := shop.nextId, world := { b.world with host := shop.stock } }
  | .error e => (.failed e, b)

def step (fuel : Nat) (b : Workbench) : Step → Reply × Workbench
  | .environment id prelude =>
    let natives := if prelude then Builtin.natives b.nextId else []
    let env := natives.foldl (fun env f => env.bindValue f.name (.native f)) Environment.empty
    (.flag env.isEmpty, { b.putEnvironment id env with nextId := b.nextId + natives.length })
  | .copy env id => b.having b.environments env fun env => (.done, b.putEnvironment id env)
  | .cell id value =>
    b.building .empty value.build fun v b =>
      let (c, cells) := b.world.cells.alloc v
      (.done, (b.withCells cells).putCell id c)
  | .cellGet cell => b.having b.cells cell fun c => (.contents (b.world.cells.get c), b)
  | .cellSame cell other =>
    b.having b.cells cell fun c => b.having b.cells other fun d => (.flag (c == d), b)
  | .cellInspect cell => b.having b.cells cell fun c => (.text (b.world.cells.inspect c), b)
  | .cellSet env cell value =>
    b.having b.environments env fun env => b.having b.cells cell fun c =>
      b.building env value.build fun v b => (.done, b.withCells (b.world.cells.set c v))
  | .defineValue id name value =>
    b.having b.environments id fun env =>
      b.building env value.build fun v b => (.done, b.putEnvironment id (env.bindValue name v))
  | .defineCell env name id =>
    b.having b.environments env fun e =>
      let (c, cells) := b.world.cells.alloc .absent
      (.done, ((b.withCells cells).putEnvironment env (e.bind name (.cell c))).putCell id c)
  | .addCell env name cell =>
    b.having b.environments env fun e => b.having b.cells cell fun c =>
      (.done, b.putEnvironment env (e.bind name (.cell c)))
  | .grab env name id =>
    b.having b.environments env fun e =>
      match (e.slot? name).bind Slot.cell? with
      | some c => (.flag true, b.putCell id c)
      | none => (.flag false, b)
  | .get env name =>
    b.having b.environments env fun e => (.ofResult (e.get b.world.cells name), b)
  | .lookup env name =>
    b.having b.environments env fun e => (.found (e.lookup? b.world.cells name), b)
  | .slot env name =>
    b.having b.environments env fun e => (.slot (e.view b.world.cells name), b)
  | .contains env name => b.having b.environments env fun e => (.flag (e.contains name), b)
  | .size env => b.having b.environments env fun e => (.extent e.size e.isEmpty, b)
  | .compile env id tree policy =>
    b.having b.environments env fun e =>
      match Tree.ofDocument? tree with
      | none => (.unreadable, b)
      | some tree =>
        let target (name : Name) := (e.lookup? b.world.cells name).getD .absent
        match Treewalk.compile ⟨policy, target⟩ tree with
        | .ok code => (.code code, { b with codes := b.codes.put id code })
        | .error e => (.failed e, b)
  | .node env id sketch =>
    b.having b.environments env fun e =>
      b.building e sketch.build fun code b =>
        (.code code, { b with codes := b.codes.put id code })
  | .run env node =>
    b.having b.environments env fun e => b.having b.codes node fun code =>
      Reply.ofOutcome .flow b <| (Treewalk.run Stock.host fuel code ⟨e, b.world⟩).mapState
        fun c => { b.putEnvironment env c.env with world := c.world }
  | .labels node names =>
    b.having b.codes node fun code =>
      match code with
      | .block children =>
        (.labels children.length (names.map (Block.position? children)), b)
      | _ => (.notBlock, b)
  | .call env func args =>
    b.having b.environments env fun e =>
      b.building e (fun lookup => do
        let f ← func.build lookup
        return (f, ← args.mapM (ValueSketch.build lookup))) fun (f, args) b =>
        Reply.ofOutcome .flow b <|
          (callValue Stock.host (Treewalk.run Stock.host fuel) e f args b.world).mapState
            fun world => { b with world }

def play (fuel : Nat) (b : Workbench) : List Step → List Reply × Workbench
  | [] => ([], b)
  | step :: steps =>
    let (reply, b) := b.step fuel step
    let (replies, b) := b.play fuel steps
    (reply :: replies, b)

end Workbench

end Treewalk
