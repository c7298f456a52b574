import Treewalk.Code.Block
import Treewalk.Native.Stock

/-!
Sketches describe values and code before they exist. Building a sketch looks up
the names it refers to and gives every native and function in it an identity of
its own.
-/
namespace Treewalk

mutual

inductive ValueSketch where
  | absent
  | bool (b : Bool)
  | number (x : Float)
  | text (s : String)
  | ref (name : Name)
  | native (name : Name) (behaviour : BehaviourSketch)
  | function (name : Name) (params : List Name) (body : CodeSketch)

inductive BehaviourSketch where
  | const (v : ValueSketch)
  | other (behaviour : Behaviour)

inductive CodeSketch where
  | const (v : ValueSketch)
  | var (name : Name)
  | define (name : Name)
  | assign (name : Name) (expr : CodeSketch)
  | label (name : Name)
  | goto (name : Name)
  | block (children : List CodeSketch)
  | when (test body : CodeSketch)
  | choose (test yes no : CodeSketch)
  | call (callee : CodeSketch) (args : List CodeSketch)
  | definition (name : Name) (params : List Name) (body : CodeSketch)

end

/-- Where identities come from, and where natives leave their behaviour. -/
structure Workshop where
  nextId : Nat
  stock : Stock

abbrev Build := StateT Workshop (Except Error)

namespace Build

def freshId : Build Nat := do
  let shop ← get
  set { shop with nextId := shop.nextId + 1 }
  return shop.nextId

def native (name : Name) (behaviour : Behaviour) : Build Native := do
  let id ← freshId
  modify fun shop => { shop with stock := (id, behaviour) :: shop.stock }
  return { id, name }

end Build

mutual

def ValueSketch.build (lookup : Name → Except Error Value) : ValueSketch → Build Value
  | .absent => return .absent
  | .bool b => return .bool b
  | .number x => return .number x
  | .text s => return .text s
  | .ref name => lookup name
  | .native name sketch => do
    let behaviour ← sketch.build lookup
    return .native (← Build.native name behaviour)
  | .function name params body => do
    let body ← body.build lookup
    return .function (← Build.freshId) name params body

def BehaviourSketch.build (lookup : Name → Except Error Value) :
    BehaviourSketch → Build Behaviour
  | .const v => return .const (← v.build lookup)
  | .other behaviour => return behaviour

def CodeSketch.build (lookup : Name → Except Error Value) : CodeSketch → Build Code
  | .const v => return .const (← v.build lookup)
  | .var name => return .var name
  | .define name => return .define name
  | .assign name expr => return .assign name (← expr.build lookup)
  | .label name => return .label name
  | .goto name => return .goto name
  | .block children => do
    let codes ← CodeSketch.buildAll lookup children
    Block.make codes
  | .when test body => do
    let test ← test.build lookup
    return .when test (← body.build lookup)
  | .choose test yes no => do
    let test ← test.build lookup
    let yes ← yes.build lookup
    return .choose test yes (← no.build lookup)
  | .call callee args => do
    let callee ← callee.build lookup
    return .call callee (← CodeSketch.buildAll lookup args)
  | .definition name params body => return .definition name params (← body.build lookup)

def CodeSketch.buildAll (lookup : Name → Except Error Value) :
    List CodeSketch → Build (List Code)
  | [] => return []
  | sketch :: sketches => do
    let code ← sketch.build lookup
    return code :: (← CodeSketch.buildAll lookup sketches)

end

end Treewalk
