import Treewalk.State.Environment
import Treewalk.State.Printer

/-!
The state that running code acts on: an environment of its own, and the world
around it, which it shares with whatever runs before and after.
-/
namespace Treewalk

/-- Cells, printed output, and whatever state the host keeps for its natives. -/
structure World (η : Type) where
  cells : Cells
  printer : Printer
  host : η

structure Config (η : Type) where
  env : Environment
  world : World η

namespace Config

variable {η : Type}

def get (c : Config η) (name : Name) : Except Error Value := c.env.get c.world.cells name

def define (c : Config η) (name : Name) : Config η :=
  let (env, cells) := c.env.bindCell c.world.cells name .absent
  { env, world := { c.world with cells } }

def store (c : Config η) (cell : CellId) (v : Value) : Config η :=
  { c with world := { c.world with cells := c.world.cells.set cell v } }

end Config

end Treewalk
