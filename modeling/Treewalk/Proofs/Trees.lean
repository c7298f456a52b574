import Treewalk.Tree.Basic

/-!
Trees node by node: tests that every node of a tree passes, and changes made at
every node from the leaves up.
-/
namespace Treewalk.Tree

mutual

def everywhere (p : Tree → Bool) : Tree → Bool
  | ⟨tag, attributes, children⟩ => p ⟨tag, attributes, children⟩ && everywhereEach p children

def everywhereEach (p : Tree → Bool) : List Tree → Bool
  | [] => true
  | tree :: trees => tree.everywhere p && everywhereEach p trees

end

theorem everywhereEach_iff {p : Tree → Bool} {trees : List Tree} :
    everywhereEach p trees ↔ ∀ tree ∈ trees, tree.everywhere p := by
  induction trees with
  | nil => simp [everywhereEach]
  | cons tree trees ih => simp [everywhereEach, ih]

theorem everywhere_iff {p : Tree → Bool} {tree : Tree} :
    tree.everywhere p ↔ p tree ∧ ∀ child ∈ tree.children, child.everywhere p := by
  obtain ⟨tag, attributes, children⟩ := tree
  rw [everywhere, Bool.and_eq_true, everywhereEach_iff]

mutual

/-- The tree with `g` done to every node, to the children before their parent. -/
def rebuild (g : Tree → Tree) : Tree → Tree
  | ⟨tag, attributes, children⟩ => g ⟨tag, attributes, rebuildEach g children⟩

def rebuildEach (g : Tree → Tree) : List Tree → List Tree
  | [] => []
  | tree :: trees => tree.rebuild g :: rebuildEach g trees

end

theorem rebuildEach_eq_map (g : Tree → Tree) (trees : List Tree) :
    rebuildEach g trees = trees.map (rebuild g) := by
  induction trees with
  | nil => simp [rebuildEach]
  | cons tree trees ih => simp [rebuildEach, ih]

theorem rebuild_eq (g : Tree → Tree) (tree : Tree) :
    tree.rebuild g = g { tree with children := tree.children.map (rebuild g) } := by
  obtain ⟨tag, attributes, children⟩ := tree
  rw [rebuild, rebuildEach_eq_map]

end Treewalk.Tree
