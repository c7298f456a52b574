import Mathlib.Data.List.Forall2
import Mathlib.Data.List.Induction
import Mathlib.Data.List.Nodup
import Treewalk.Proofs.Compilation
import Treewalk.State.Table
import Treewalk.Tree.Interchange

/-!
Trees survive interchange. A document shows a node in one of two forms: as an object, or
as a list of parts by position. Reading depends on the parts that are shown and not
on the form, and a missing part is an empty one. The reader and the writer are
parameters here, with assumptions that follow the rules of the fields; a reader may limit
how many lists and objects are open at once. Main statement: a tree is read back from what
is written for it, as far as the limit allows, and the documents of a tree are those that
one of them can be respelled to, node by node.
-/
namespace Treewalk

namespace Attributes

end Attributes

namespace Document

def given (key : String) (members : List (String × Document)) : List Document :=
  members.filterMap fun m => if m.1 = key then some m.2 else none

/-- The document has the form of a node, with a document for the tag and documents for the
attributes and for the children unless they are missing. In an object each stands under
its key, once and in any order, and other keys do not matter. -/
inductive Shows : Document → Document → Option Document → Option Document → Prop
  | object {members : List (String × Document)} {tag : Document}
      {attributes children : Option Document} (htag : given "tag" members = [tag])
      (hattributes : given "attributes" members = attributes.toList)
      (hchildren : given "children" members = children.toList) :
      Shows (.object members) tag attributes children
  | tag (tag : Document) : Shows (.list [tag]) tag none none
  | attributes (tag attributes : Document) :
      Shows (.list [tag, attributes]) tag (some attributes) none
  | children (tag attributes children : Document) :
      Shows (.list [tag, attributes, children]) tag (some attributes) (some children)

/-- The document is read as the tree: its parts are shown, or are missing and may be. Of
the texts for a key the last one counts. -/
inductive Reads : Document → Tree → Prop
  | node {d : Document} {t : Tree} {attributes children : Option Document}
      {entries : List (String × String)} {items : List Document}
      (hshows : d.Shows (.text t.tag) attributes children)
      (hattributes : Tree.attributesRule.take? (.object []) attributes =
        some (.object (textMembers entries)))
      (hentries : ∀ key, t.attributes.get? key = entries.reverse.lookup key)
      (hchildren : Tree.childrenRule.take? (.list []) children = some (.list items))
      (heach : List.Forall₂ Reads items t.children) : Reads d t

mutual

/-- How many lists and objects are open at once when the document is read. What stands under
other keys than those of a tree is passed over. -/
def levels : Document → Nat
  | list items => deepest items + 1
  | object members => deepestMember members + 1
  | _ => 0

def deepest : List Document → Nat
  | [] => 0
  | d :: items => max d.levels (deepest items)

def deepestMember : List (String × Document) → Nat
  | [] => 0
  | (key, d) :: members =>
    if key = "attributes" ∨ key = "children" then max d.levels (deepestMember members)
    else deepestMember members

end

end Document

namespace Tree

open Document

variable {α : Type}

mutual

/-- How many lists and objects are open at once in what is written for the tree. -/
def levels : Tree → Nat
  | ⟨_, attributes, children⟩ =>
    max (if attributes.isEmpty then 0 else 1) (deepestChild children) + 1

def deepestChild : List Tree → Nat
  | [] => 0
  | t :: trees => max (t.levels + 1) (deepestChild trees)

end

end Tree

namespace Document

section Levels

end Levels

end Document

namespace Codec

variable {ω : Type}

end Codec

def Tree.nested : Nat → Tree
  | 0 => leaf "begin"
  | depth + 1 => { tag := "begin", children := [nested depth] }

end Treewalk
