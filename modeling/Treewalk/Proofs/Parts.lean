import Treewalk.Code.Block

/-!
What stands in a piece of code, and which values are found in a value. The parts
of a node are what running it runs in its own environment. The body of a
function is no part of the code around it, whether the function is defined there
or held as a constant; it is inside that code.
-/
namespace Treewalk

namespace Code

inductive Part : Code → Code → Prop
  | expr (name : Name) (expr : Code) : Part expr (.assign name expr)
  | child {children : List Code} {child : Code} (h : child ∈ children) :
      Part child (.block children)
  | whenTest (test body : Code) : Part test (.when test body)
  | whenBody (test body : Code) : Part body (.when test body)
  | test (test yes no : Code) : Part test (.choose test yes no)
  | yes (test yes no : Code) : Part yes (.choose test yes no)
  | no (test yes no : Code) : Part no (.choose test yes no)
  | callee (callee : Code) (args : List Code) : Part callee (.call callee args)
  | arg (callee : Code) {args : List Code} {arg : Code} (h : arg ∈ args) :
      Part arg (.call callee args)

inductive Within : Code → Code → Prop
  | self (n : Code) : Within n n
  | part {m p n : Code} : Within m p → Part p n → Within m n

theorem Part.sizeOf_lt {p n : Code} (h : Part p n) : sizeOf p < sizeOf n := by
  cases h with
  | child h | arg _ h =>
    have hlt := List.sizeOf_lt_of_mem h
    simp only [block.sizeOf_spec, call.sizeOf_spec]
    omega
  | _ =>
    simp only [assign.sizeOf_spec, when.sizeOf_spec, choose.sizeOf_spec, call.sizeOf_spec]
    omega

/-- The first code stands directly in the second, or is the body of a function that is
defined or held there. -/
inductive Inside : Code → Code → Prop
  | part {p n : Code} (h : Part p n) : Inside p n
  | defined (name : Name) (params : List Name) (body : Code) :
      Inside body (.definition name params body)
  | held (id : Nat) (name : Name) (params : List Name) (body : Code) :
      Inside body (.const (.function id name params body))

theorem Inside.sizeOf_lt {m n : Code} (h : Inside m n) : sizeOf m < sizeOf n := by
  cases h with
  | part h => exact h.sizeOf_lt
  | defined name params body =>
    simp only [definition.sizeOf_spec]
    omega
  | held id name params body =>
    simp only [const.sizeOf_spec, Value.function.sizeOf_spec]
    omega

inductive Throughout (fit : Code → Prop) : Code → Prop
  | all {n : Code} (h : fit n) (hinside : ∀ m, Inside m n → Throughout fit m) :
      Throughout fit n

theorem Throughout.self {fit : Code → Prop} {n : Code} (h : n.Throughout fit) : fit n := by
  cases h with
  | all h hinside => exact h

theorem Throughout.inside {fit : Code → Prop} {m n : Code} (h : n.Throughout fit)
    (hm : Inside m n) : m.Throughout fit := by
  cases h with
  | all h hinside => exact hinside m hm

theorem Throughout.part {fit : Code → Prop} {p n : Code} (h : n.Throughout fit)
    (hpart : Part p n) : p.Throughout fit :=
  h.inside (.part hpart)

theorem Throughout.within {fit : Code → Prop} {m n : Code} (h : n.Throughout fit)
    (hm : Within m n) : m.Throughout fit := by
  induction hm with
  | self => exact h
  | part hm hpart ih => exact ih (h.part hpart)

theorem Throughout.imp {fit fit' : Code → Prop} (himp : ∀ n, fit n → fit' n) {n : Code}
    (h : n.Throughout fit) : n.Throughout fit' := by
  induction h with
  | all hfit hinside ih => exact .all (himp _ hfit) ih

theorem throughout_function {fit : Code → Prop} {id : Nat} {name : Name} {params : List Name}
    {body : Code} (h : fit (.const (.function id name params body)))
    (hbody : body.Throughout fit) :
    (Code.const (.function id name params body)).Throughout fit := by
  refine .all h ?_
  intro m hm
  cases hm with
  | part hpart => cases hpart
  | held => exact hbody

theorem throughout_of_forall {fit : Code → Prop} (h : ∀ n, fit n) (n : Code) :
    n.Throughout fit :=
  .all (h n) fun m _hm => throughout_of_forall h m
termination_by sizeOf n
decreasing_by exact _hm.sizeOf_lt

/-- The labels a jump can go to from the parts of a node, if it can go to `labels`
from the node itself. -/
def scope (labels : List Name) : Code → List Name
  | .block children => labels ++ Block.labels children
  | _ => labels

end Code

namespace Value

def IsFunction : Value → Prop
  | function .. => True
  | _ => False

/-- The second value is the first, or is found among the constants of a function
found in the first. -/
inductive Reaches : Value → Value → Prop
  | self (v : Value) : Reaches v v
  | const {id : Nat} {name : Name} {params : List Name} {body : Code} {u v : Value} :
      Code.Within (.const u) body → Reaches u v → Reaches (.function id name params body) v

/-- There is nothing inside a constant that is no function. -/
theorem throughout_const {fit : Code → Prop} {v : Value} (h : fit (.const v))
    (hv : ¬ v.IsFunction) : (Code.const v).Throughout fit := by
  refine .all h ?_
  intro m hm
  cases hm with
  | part hpart => cases hpart
  | held => exact absurd trivial hv

/-- What a function passes throughout, the functions found in it pass too. -/
theorem throughout_of_reaches {fit : Code → Prop} {v u : Value}
    (h : (Code.const v).Throughout fit) (hu : v.Reaches u) : (Code.const u).Throughout fit := by
  induction hu with
  | self v => exact h
  | const hconst hreach ih => exact ih ((h.inside (.held _ _ _ _)).within hconst)

theorem Reaches.not_isFunction {u v : Value} (h : u.Reaches v) (hu : ¬ u.IsFunction) :
    ¬ v.IsFunction := by
  cases h with
  | self => exact hu
  | const => exact absurd trivial hu

theorem Reaches.trans {u v w : Value} (h : u.Reaches v) (h' : v.Reaches w) : u.Reaches w := by
  induction h with
  | self v => exact h'
  | const hconst hreach ih => exact .const hconst (ih h')

end Value

end Treewalk
