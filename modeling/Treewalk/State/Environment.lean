import Treewalk.Error
import Treewalk.State.Cells
import Treewalk.State.Table

/-!
Environments bind names to slots. A slot holds a plain value or refers to a
cell, and environments that share a cell see the same contents. Binding a name
anew replaces its slot and nothing else.
-/
namespace Treewalk

inductive Slot where
  | plain (v : Value)
  | cell (c : CellId)

namespace Slot

def value (cells : Cells) : Slot → Value
  | plain v => v
  | cell c => cells.get c

def cell? : Slot → Option CellId
  | plain _ => none
  | cell c => some c

end Slot

structure Environment where
  bindings : Table Slot := {}

namespace Environment

def empty : Environment := {}

instance : Inhabited Environment := ⟨empty⟩

def slot? (env : Environment) (name : Name) : Option Slot := env.bindings.get? name

def bind (env : Environment) (name : Name) (slot : Slot) : Environment :=
  ⟨env.bindings.put name slot⟩

def bindValue (env : Environment) (name : Name) (v : Value) : Environment :=
  env.bind name (.plain v)

/-- Binds names to values in order, as far as both lists go; the last of a repeated
name wins. -/
def bindAll (env : Environment) : List Name → List Value → Environment
  | name :: names, v :: vs => (env.bindValue name v).bindAll names vs
  | _, _ => env

def contains (env : Environment) (name : Name) : Bool := (env.slot? name).isSome

def size (env : Environment) : Nat := env.bindings.size

def isEmpty (env : Environment) : Bool := env.size == 0

def lookup? (env : Environment) (cells : Cells) (name : Name) : Option Value :=
  (env.slot? name).map (Slot.value cells)

def get (env : Environment) (cells : Cells) (name : Name) : Except Error Value :=
  match env.lookup? cells name with
  | some v => .ok v
  | none => .error (.unboundVariable name)

def bindCell (env : Environment) (cells : Cells) (name : Name) (v : Value) :
    Environment × Cells :=
  let (c, cells) := cells.alloc v
  (env.bind name (.cell c), cells)

@[simp] theorem slot?_empty (name : Name) : empty.slot? name = none := rfl

theorem slot?_bind (env : Environment) (name other : Name) (slot : Slot) :
    (env.bind name slot).slot? other = if other = name then some slot else env.slot? other :=
  Table.get?_put ..

@[simp] theorem slot?_bind_self (env : Environment) (name : Name) (slot : Slot) :
    (env.bind name slot).slot? name = some slot := by
  simp [slot?_bind]

theorem slot?_bind_of_ne {name other : Name} (h : other ≠ name) (env : Environment)
    (slot : Slot) : (env.bind name slot).slot? other = env.slot? other := by
  simp [slot?_bind, h]

/-- After several names are bound, a name has the last value it is given, or else the
slot it had. -/
theorem slot?_bindAll (env : Environment) (names : List Name) (vs : List Value)
    (other : Name) :
    (env.bindAll names vs).slot? other =
      (((names.zip vs).reverse.lookup other).map .plain).or (env.slot? other) := by
  induction names generalizing env vs with
  | nil => simp [bindAll]
  | cons name names ih =>
    cases vs with
    | nil => simp [bindAll]
    | cons v vs =>
      have hbind : (env.bindValue name v).slot? other =
          (([(name, v)].lookup other).map .plain).or (env.slot? other) := by
        rw [bindValue, slot?_bind]
        by_cases h : other = name
        · simp [h]
        · have hbeq : (other == name) = false := by simpa using h
          simp [h, hbeq, List.lookup_cons]
      rw [bindAll, ih, hbind, List.zip_cons_cons, List.reverse_cons, List.lookup_append]
      cases (names.zip vs).reverse.lookup other <;> rfl

end Environment

end Treewalk
