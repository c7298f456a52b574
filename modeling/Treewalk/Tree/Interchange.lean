import Treewalk.Tree.Basic

/-!
Trees as documents, the structured data in which they are exchanged. A number is kept as
it was written. A tree is an object with the members `tag`, `attributes` and
`children`, of which the last two may be missing and others are ignored, or a
list of the same three in that order, of which the last ones may be missing. A
tree is written as an object without its empty members. What may be missing and what is
left out are rules of the fields, which the reader and the writer go by.
-/
namespace Treewalk

inductive Document where
  | null
  | bool (b : Bool)
  | number (literal : String)
  | text (s : String)
  | list (items : List Document)
  | object (members : List (String × Document))
deriving Inhabited

namespace Document

def textMembers (entries : List (String × String)) : List (String × Document) :=
  entries.map fun entry => (entry.1, .text entry.2)

def text? : Document → Option String
  | text s => some s
  | _ => none

def attributes? : Document → Option Attributes
  | object members =>
    (members.mapM fun m : String × Document => m.2.text?.map (m.1, ·)).map Attributes.ofList
  | _ => none

end Document

/-- Whether a field may be missing from what is read, and is then empty, and whether it is
left out of what is written if it is empty. -/
structure FieldRule where
  optional : Bool
  omitted : Bool

namespace FieldRule

variable {α : Type}

def take? (rule : FieldRule) (empty : α) : Option α → Option α
  | some part => some part
  | none => if rule.optional then some empty else none

def members (rule : FieldRule) (key : String) (isEmpty : Bool) (d : Document) :
    List (String × Document) :=
  if rule.omitted && isEmpty then [] else [(key, d)]

end FieldRule

namespace Tree

open Document

def attributesRule : FieldRule := { optional := true, omitted := true }

def childrenRule : FieldRule := { optional := true, omitted := true }

/-- What the members of an object have given so far. No part is given twice. -/
structure Parts where
  tag : Option String := none
  attributes : Option Attributes := none
  children : Option (List Tree) := none

def Parts.tree? (parts : Parts) : Option Tree := do
  let tag ← parts.tag
  let attributes ← attributesRule.take? .empty parts.attributes
  let children ← childrenRule.take? [] parts.children
  return { tag, attributes, children }

mutual

def ofDocument? : Document → Option Tree
  | .object members => (ofMembers? {} members).bind Parts.tree?
  | .list [tag] => do
    let tag ← tag.text?
    Parts.tree? { tag }
  | .list [tag, attributes] => do
    let tag ← tag.text?
    let attributes ← attributes.attributes?
    Parts.tree? { tag, attributes }
  | .list [tag, attributes, children] => do
    let tag ← tag.text?
    let attributes ← attributes.attributes?
    let children ← ofItems? children
    Parts.tree? { tag, attributes, children }
  | _ => none

def ofItems? : Document → Option (List Tree)
  | .list items => ofDocuments? items
  | _ => none

def ofDocuments? : List Document → Option (List Tree)
  | [] => some []
  | item :: items => do
    let tree ← ofDocument? item
    let trees ← ofDocuments? items
    return tree :: trees

def ofMembers? (parts : Parts) : List (String × Document) → Option Parts
  | [] => some parts
  | (key, d) :: members =>
    if key = "tag" then
      match parts.tag, d.text? with
      | none, some tag => ofMembers? { parts with tag } members
      | _, _ => none
    else if key = "attributes" then
      match parts.attributes, d.attributes? with
      | none, some attributes => ofMembers? { parts with attributes } members
      | _, _ => none
    else if key = "children" then
      match parts.children, ofItems? d with
      | none, some children => ofMembers? { parts with children } members
      | _, _ => none
    else ofMembers? parts members

end

mutual

def toDocument : Tree → Document
  | ⟨tag, attributes, children⟩ =>
    .object <| ("tag", .text tag) ::
      (attributesRule.members "attributes" attributes.isEmpty
        (.object (textMembers attributes.entries)) ++
      childrenRule.members "children" children.isEmpty (.list (toDocuments children)))

def toDocuments : List Tree → List Document
  | [] => []
  | tree :: trees => toDocument tree :: toDocuments trees

end

end Tree

end Treewalk
