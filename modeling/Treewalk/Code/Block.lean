import Treewalk.Code.Basic
import Treewalk.Error

/-!
Blocks and their labels. Only a direct child can declare a label of a block,
and no label is declared twice in one block.
-/
namespace Treewalk

def Code.label? : Code → Option Name
  | .label name => some name
  | _ => none

namespace Block

def labelTable (children : List Code) : List (Name × Nat) :=
  children.zipIdx.filterMap fun (child, i) => child.label?.map fun name => (name, i)

def labels (children : List Code) : List Name := children.filterMap Code.label?

def position? (children : List Code) (name : Name) : Option Nat :=
  (labelTable children).lookup name

/-- The first label, reading from the left, that was declared before. -/
def repeatedLabel? (children : List Code) : Option Name :=
  go [] (labels children)
where
  go (seen : List Name) : List Name → Option Name
    | [] => none
    | name :: rest => if name ∈ seen then some name else go (name :: seen) rest

def make (children : List Code) : Except Error Code :=
  match repeatedLabel? children with
  | some name => .error (.malformed (.duplicateLabel name))
  | none => .ok (.block children)

theorem map_fst_labelTable (children : List Code) :
    (labelTable children).map Prod.fst = labels children := by
  have hzip : ∀ start, ((children.zipIdx start).filterMap fun (child, i) =>
      child.label?.map fun name => (name, i)).map Prod.fst = labels children := by
    induction children with
    | nil => intro start; rfl
    | cons child rest ih =>
      intro start
      cases hlabel : child.label? with
      | none => simpa [labels, hlabel] using ih (start + 1)
      | some name => simpa [labels, hlabel] using ih (start + 1)
  exact hzip 0

theorem position?_eq_none_iff {children : List Code} {name : Name} :
    position? children name = none ↔ name ∉ labels children := by
  rw [position?, List.lookup_eq_none_iff, ← map_fst_labelTable, List.mem_map]
  constructor
  · rintro h ⟨entry, hentry, rfl⟩
    simpa using h entry hentry
  · intro h entry hentry
    have hne : name ≠ entry.1 := fun heq => h ⟨entry, hentry, heq.symm⟩
    simpa using hne

end Block

end Treewalk
