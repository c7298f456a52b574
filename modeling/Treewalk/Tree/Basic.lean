import Treewalk.Tree.Tag
import Treewalk.Tree.Attributes

/-!
Parse trees: a tag, attributes and ordered children. The tag is any text; the
grammar knows some of them.
-/
namespace Treewalk

structure Tree where
  tag : String
  attributes : Attributes := .empty
  children : List Tree := []

namespace Tree

instance : Inhabited Tree := ⟨{ tag := "" }⟩

def leaf (tag : String) : Tree := { tag }

def withAttribute (tree : Tree) (key value : String) : Tree :=
  { tree with attributes := tree.attributes.insert key value }

def withChild (tree : Tree) (child : Tree) : Tree :=
  { tree with children := tree.children ++ [child] }

def withChildren (tree : Tree) (children : List Tree) : Tree :=
  { tree with children := tree.children ++ children }

def attribute? (tree : Tree) (key : String) : Option String := tree.attributes.get? key

def form? (tree : Tree) : Option Tag := Tag.ofSpelling? tree.tag

mutual

def decEq : (s t : Tree) → Decidable (s = t)
  | ⟨tag, attributes, children⟩, ⟨tag', attributes', children'⟩ =>
    match decEqList children children' with
    | isTrue hc =>
      if h : tag = tag' ∧ attributes = attributes' then
        isTrue (by rw [hc, h.1, h.2])
      else isFalse fun e => h (by cases e; exact ⟨rfl, rfl⟩)
    | isFalse hc => isFalse fun e => hc (by cases e; rfl)

def decEqList : (ss ts : List Tree) → Decidable (ss = ts)
  | [], [] => isTrue rfl
  | [], _ :: _ | _ :: _, [] => isFalse (by simp)
  | s :: ss, t :: ts =>
    match decEq s t with
    | isTrue h =>
      match decEqList ss ts with
      | isTrue hs => isTrue (by rw [h, hs])
      | isFalse hs => isFalse fun e => hs (List.cons.inj e).2
    | isFalse h => isFalse fun e => h (List.cons.inj e).1

end

instance : DecidableEq Tree := decEq

end Tree

end Treewalk
