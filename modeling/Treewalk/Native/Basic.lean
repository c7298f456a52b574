import Treewalk.Code.Value
import Treewalk.Error
import Treewalk.State.World

/-!
Natives. The builtin ones are output, equality and arithmetic. Each checks the number
of its arguments before it looks at them, and arithmetic then wants numbers, the
first operand before the second. Hosts supply further ones and keep state for them,
in which they may hold cells; a call of a native goes to the builtin it names or to
the host.
-/
namespace Treewalk

namespace Builtin

def all : List Builtin := [print, eq, plus, minus, mul, less]

def name : Builtin → Name
  | print => "print"
  | eq => "eq"
  | plus => "plus"
  | minus => "minus"
  | mul => "mul"
  | less => "less"

def one (b : Builtin) : List Value → Except Error Value
  | [v] => .ok v
  | args => .error (.arityMismatch b.name 1 args.length)

def two (b : Builtin) : List Value → Except Error (Value × Value)
  | [v, w] => .ok (v, w)
  | args => .error (.arityMismatch b.name 2 args.length)

def operand (v : Value) : Except Error Float :=
  match v.number? with
  | some x => .ok x
  | none => .error (.typeMismatch "number" v.typeName)

def numbers (b : Builtin) (args : List Value) : Except Error (Float × Float) := do
  let (v, w) ← b.two args
  let x ← operand v
  let y ← operand w
  return (x, y)

def result (b : Builtin) (args : List Value) : Except Error (Option String × Value) :=
  match b with
  | print => (b.one args).map fun v => (some v.display, .absent)
  | eq => (b.two args).map fun (v, w) => (none, .bool (v.same w))
  | plus => (b.numbers args).map fun (x, y) => (none, .number (x + y))
  | minus => (b.numbers args).map fun (x, y) => (none, .number (x - y))
  | mul => (b.numbers args).map fun (x, y) => (none, .number (x * y))
  | less => (b.numbers args).map fun (x, y) => (none, .bool (x < y))

def apply (b : Builtin) (args : List Value) (printer : Printer) : Except Error Value × Printer :=
  match b.result args with
  | .ok (some line, v) => (.ok v, printer.println line)
  | .ok (none, v) => (.ok v, printer)
  | .error e => (.error e, printer)

def natives (firstId : Nat) : List Native :=
  all.zipIdx firstId |>.map fun (b, id) => ⟨id, b.name, some b⟩

end Builtin

/-- What comes of a call to a host: an answer, the state of the host from then on, and the
cells that are set, in order. -/
structure Response (η : Type) where
  answer : Except Error Value
  state : η
  writes : List (CellId × Value) := []

/-- The natives that are not builtin. A host sees the arguments, its own state and what is
in the cells; it has no access to the printer. -/
structure Host (η : Type) where
  call : Native → List Value → η → (CellId → Value) → Response η

def World.follow {η : Type} (w : World η) (response : Response η) : World η :=
  { w with cells := w.cells.setAll response.writes, host := response.state }

def Host.apply {η : Type} (host : Host η) (f : Native) (args : List Value) (w : World η) :
    Except Error Value × World η :=
  match f.builtin? with
  | some b =>
    let (r, printer) := b.apply args w.printer
    (r, { w with printer })
  | none =>
    let response := host.call f args w.host w.cells.get
    (response.answer, w.follow response)

end Treewalk
