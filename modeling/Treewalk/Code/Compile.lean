import Treewalk.Code.Block
import Treewalk.Decimal.Numeral
import Treewalk.Text.Name
import Treewalk.Tree.Basic

/-!
From trees to code, in one pass. A tree fails with its first violation: its own
attribute comes first, then the number of its children, then its children from
left to right, and a label declared twice comes last. Calls by name get their
target while compiling.
-/
namespace Treewalk

/-- What becomes of a tag outside the grammar: an error, or an absent constant. -/
inductive Policy where
  | reject
  | ignore
deriving DecidableEq

/-- What a compilation depends on beside the tree: the policy, and the value each name
has for calls by name, which is absent for a name that is not bound. -/
structure Scope where
  policy : Policy
  target : Name → Value

def Attributes.require (attributes : Attributes) (form : Tag) (key : String) :
    Except Error String :=
  match attributes.get? key with
  | some value => .ok value
  | none => .error (.malformed (.missingAttribute form key))

/-- The number a literal stands for. Blanks around it do not count. -/
def literal (raw : String) : Except Error Float :=
  match Numeral.read? (String.ofList (trimmed raw.toList)) with
  | some x => .ok x
  | none => .error (.malformed (.badNumber raw))

def sequence : List (Except Error Code) → Except Error (List Code)
  | [] => .ok []
  | part :: parts => do
    let code ← part
    let codes ← sequence parts
    return code :: codes

/-- The code of a tree, given what becomes of its children. -/
def assemble (scope : Scope) (tag : String) (attributes : Attributes)
    (parts : List (Except Error Code)) : Except Error Code :=
  let wrongCount (form : Tag) (expected : String) : Except Error Code :=
    .error (.malformed (.wrongChildCount form expected parts.length))
  match Tag.ofSpelling? tag with
  | none =>
    match scope.policy with
    | .reject => .error (.malformed (.unknownTag tag))
    | .ignore => .ok (.const .absent)
  | some .block => do
    let children ← sequence parts
    Block.make children
  | some .read => do
    let name ← attributes.require .read "name"
    return .var name
  | some .declare => do
    let name ← attributes.require .declare "name"
    return .define name
  | some .label => do
    let name ← attributes.require .label "name"
    return .label name
  | some .goto => do
    let name ← attributes.require .goto "label"
    return .goto name
  | some .store => do
    let name ← attributes.require .store "name"
    match parts with
    | [expr] =>
      let expr ← expr
      return .assign name expr
    | _ => wrongCount .store "exactly 1"
  | some .number => do
    let raw ← attributes.require .number "value"
    let x ← literal raw
    return .const (.number x)
  | some .text => do
    let s ← attributes.require .text "value"
    return .const (.text s)
  | some .branch =>
    match parts with
    | [test, yes] => do
      let test ← test
      let yes ← yes
      return .when test yes
    | [test, yes, no] => do
      let test ← test
      let yes ← yes
      let no ← no
      return .choose test yes no
    | _ => wrongCount .branch "2 or 3"
  | some .function => do
    let name ← attributes.require .function "name"
    match parts with
    | [body] =>
      let body ← body
      return .definition name (parameters ((attributes.get? "args").getD "")) body
    | _ => wrongCount .function "exactly 1"
  | some .call =>
    match attributes.get? "fun" with
    | some name => do
      let args ← sequence parts
      return .call (.const (scope.target name)) args
    | none =>
      match parts with
      | callee :: args => do
        let callee ← callee
        let args ← sequence args
        return .call callee args
      | [] => wrongCount .call "at least 1"

mutual

def compile (scope : Scope) : Tree → Except Error Code
  | ⟨tag, attributes, children⟩ => assemble scope tag attributes (compileEach scope children)

def compileEach (scope : Scope) : List Tree → List (Except Error Code)
  | [] => []
  | tree :: trees => compile scope tree :: compileEach scope trees

end

@[simp] theorem compileEach_eq_map (scope : Scope) (trees : List Tree) :
    compileEach scope trees = trees.map (compile scope) := by
  induction trees with
  | nil => simp [compileEach]
  | cons tree trees ih => simp [compileEach, ih]

theorem compile_eq (scope : Scope) (tree : Tree) :
    compile scope tree =
      assemble scope tree.tag tree.attributes (tree.children.map (compile scope)) := by
  cases tree
  simp [compile]

end Treewalk
