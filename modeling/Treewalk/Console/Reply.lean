import Treewalk.Program
import Treewalk.Console.Sketch
import Treewalk.Text.Quoted

/-!
What a host learns from one step: a value, a piece of code, a view of a slot,
an error, or only that the step is done.
-/
namespace Treewalk

inductive SlotView where
  | unbound
  | plain (v : Value)
  | cell (contents : Value)

def Environment.view (env : Environment) (cells : Cells) (name : Name) : SlotView :=
  match env.slot? name with
  | none => .unbound
  | some (.plain v) => .plain v
  | some (.cell c) => .cell (cells.get c)

def Value.inspect : Value → String
  | absent => "None"
  | bool b => "Bool(" ++ (if b then "true" else "false") ++ ")"
  | number x => "Number(" ++ Layout.explicit.number x ++ ")"
  | text s => "Str(" ++ quotedText s ++ ")"
  | native f => "Native(<native " ++ f.name ++ ">)"
  | function _ name _ _ => "Function(<function " ++ name ++ ">)"

def Cells.inspect (cells : Cells) (cell : CellId) : String :=
  "ReferenceCell(" ++ (cells.get cell).inspect ++ ")"

inductive Reply where
  | done
  | flag (b : Bool)
  | text (s : String)
  | contents (v : Value)
  | result (v : Value)
  | found (v : Option Value)
  | flow (f : Flow Value)
  | installed
  | slot (view : SlotView)
  | code (c : Code)
  | extent (size : Nat) (empty : Bool)
  | labels (children : Nat) (positions : List (Option Nat))
  | notBlock
  | failed (e : Error)
  /-- A tree that could not be read. -/
  | unreadable
  /-- A name under which nothing is kept. -/
  | unknown
  | outOfFuel

namespace Reply

def ofResult : Except Error Value → Reply
  | .ok v => result v
  | .error e => failed e

def ofForm : Option Value → Reply
  | none => installed
  | some v => flow (.value v)

/-- The reply to a run and the state it leaves; without fuel the state stays. -/
def ofOutcome {σ α : Type} (ok : α → Reply) (before : σ) : Outcome σ α → Reply × σ
  | .done a s => (ok a, s)
  | .failed e s => (failed e, s)
  | .outOfFuel => (outOfFuel, before)

end Reply

end Treewalk
