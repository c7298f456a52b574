import Treewalk.Code.Basic
import Treewalk.Decimal.Notation

/-!
What can be asked of a value: whether a condition takes it for true, the name
of its type, its text, and whether two values are the same.
-/
namespace Treewalk.Value

def truthy : Value → Bool
  | absent | bool false => false
  | _ => true

def isAbsent : Value → Bool
  | absent => true
  | _ => false

def number? : Value → Option Float
  | number x => some x
  | _ => none

def typeName : Value → String
  | absent => "none"
  | bool _ => "bool"
  | number _ => "number"
  | text _ => "string"
  | native _ => "native function"
  | function .. => "function"

def display : Value → String
  | absent => ""
  | bool b => if b then "true" else "false"
  | number x => Layout.plain.number x
  | text s => s
  | native f => "<native " ++ f.name ++ ">"
  | function _ name _ _ => "<function " ++ name ++ ">"

/-- Plain data is the same by content, functions and natives by identity. Numbers
compare as numbers, so NaN differs from itself and the two zeros are the same. -/
def same : Value → Value → Bool
  | absent, absent => true
  | bool a, bool b => a == b
  | number x, number y => x == y
  | text s, text t => s == t
  | native f, native g => f.id == g.id
  | function i _ _ _, function j _ _ _ => i == j
  | _, _ => false

end Treewalk.Value
