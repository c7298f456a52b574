import Treewalk.Text.Name

/-!
Values and executable code. The two are one recursive family: a function value
owns its body, and code may hold any value as a constant.
-/
namespace Treewalk

inductive Builtin where
  | print
  | eq
  | plus
  | minus
  | mul
  | less
deriving DecidableEq

/-- A function supplied from outside the language. Two natives are the same when their
identities are; one that is not a builtin is answered by the host. -/
structure Native where
  id : Nat
  name : Name
  builtin? : Option Builtin := none
deriving DecidableEq

mutual

inductive Value where
  | absent
  | bool (b : Bool)
  | number (x : Float)
  | text (s : String)
  | native (f : Native)
  | function (id : Nat) (name : Name) (params : List Name) (body : Code)

/-- One executable node. A function definition takes effect only as a whole top-level
form; anywhere else running it does nothing. -/
inductive Code where
  | const (v : Value)
  | var (name : Name)
  | define (name : Name)
  | assign (name : Name) (expr : Code)
  | label (name : Name)
  | goto (name : Name)
  | block (children : List Code)
  | when (test body : Code)
  | choose (test yes no : Code)
  | call (callee : Code) (args : List Code)
  | definition (name : Name) (params : List Name) (body : Code)

end

instance : Inhabited Value := ⟨.absent⟩

instance : Inhabited Code := ⟨.const .absent⟩

end Treewalk
