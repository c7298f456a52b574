import Treewalk.Text.Name
import Treewalk.Tree.Tag

/-!
Failures of compilation and evaluation. An error is a kind, which says what
went wrong, together with the notes it gathered while it travelled outward.
The wording of every kind is fixed here and nowhere else.
-/
namespace Treewalk

inductive Malformed where
  | missingAttribute (tag : Tag) (key : String)
  | wrongChildCount (tag : Tag) (expected : String) (got : Nat)
  | unknownTag (tag : String)
  | badNumber (raw : String)
  | duplicateLabel (label : Name)
  | unresolvedGoto (label : Name)
  | other (reason : String)
deriving DecidableEq

def Malformed.reason : Malformed → String
  | missingAttribute tag key =>
    "<" ++ tag.spelling ++ "> requires attribute " ++ Name.quoted key
  | wrongChildCount tag expected got =>
    "<" ++ tag.spelling ++ "> expects " ++ expected ++ " children, got " ++ toString got
  | unknownTag tag => "unknown tag <" ++ tag ++ ">"
  | badNumber raw => "<number> value " ++ Name.quoted raw ++ " is not a decimal number"
  | duplicateLabel label => "label " ++ label.quoted ++ " declared twice in one block"
  | unresolvedGoto label =>
    "goto " ++ label.quoted ++ " has no matching label in any enclosing block"
  | other reason => reason

inductive ErrorKind where
  | unboundVariable (name : Name)
  | invalidAssignment (name : Name)
  | arityMismatch (name : Name) (expected got : Nat)
  | notCallable (typeName : String)
  | malformedTree (cause : Malformed)
  | typeMismatch (expected got : String)
deriving DecidableEq

def ErrorKind.message : ErrorKind → String
  | unboundVariable name => "unbound variable: " ++ name
  | invalidAssignment name => "cannot assign to " ++ name.quoted ++ ": not a reference variable"
  | arityMismatch name expected got =>
    name ++ " expects " ++ toString expected ++
      (if expected = 1 then " argument" else " arguments") ++ ", got " ++ toString got
  | notCallable typeName => "value of type " ++ typeName ++ " is not callable"
  | malformedTree cause => "malformed tree: " ++ cause.reason
  | typeMismatch expected got => "type mismatch: expected " ++ expected ++ ", got " ++ got

/-- An error with its notes, the outermost last. -/
structure Error where
  kind : ErrorKind
  notes : Array String := #[]
deriving DecidableEq

namespace Error

def unboundVariable (name : Name) : Error := { kind := .unboundVariable name }

def invalidAssignment (name : Name) : Error := { kind := .invalidAssignment name }

def arityMismatch (name : Name) (expected got : Nat) : Error :=
  { kind := .arityMismatch name expected got }

def notCallable (typeName : String) : Error := { kind := .notCallable typeName }

def malformed (cause : Malformed) : Error := { kind := .malformedTree cause }

def typeMismatch (expected got : String) : Error := { kind := .typeMismatch expected got }

def withNote (note : String) (e : Error) : Error := { e with notes := e.notes.push note }

def message (e : Error) : String :=
  e.notes.foldl (fun text note => text ++ "\n  note: " ++ note) e.kind.message

@[simp] theorem kind_withNote (note : String) (e : Error) : (e.withNote note).kind = e.kind := rfl

@[simp] theorem notes_withNote (note : String) (e : Error) :
    (e.withNote note).notes = e.notes.push note := rfl

end Error

end Treewalk
