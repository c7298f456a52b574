import Treewalk.Code.Basic

/-!
The store of reference cells. A cell is created once, with contents, and is
known from then on by its place in the store; cells are never taken away.
-/
namespace Treewalk

abbrev CellId := Nat

structure Cells where
  contents : Array Value := #[]
deriving Inhabited

namespace Cells

def size (cells : Cells) : Nat := cells.contents.size

def get (cells : Cells) (cell : CellId) : Value := cells.contents.getD cell .absent

def set (cells : Cells) (cell : CellId) (v : Value) : Cells :=
  ⟨cells.contents.setIfInBounds cell v⟩

def setAll (cells : Cells) (writes : List (CellId × Value)) : Cells :=
  writes.foldl (fun cells write => cells.set write.1 write.2) cells

def alloc (cells : Cells) (v : Value) : CellId × Cells :=
  (cells.contents.size, ⟨cells.contents.push v⟩)

@[simp] theorem size_set (cells : Cells) (cell : CellId) (v : Value) :
    (cells.set cell v).size = cells.size := by
  simp [size, set]

@[simp] theorem size_alloc (cells : Cells) (v : Value) :
    (cells.alloc v).2.size = cells.size + 1 := by
  simp [size, alloc]

/-- What is not in the store yet reads as absent. -/
theorem get_of_size_le {cells : Cells} {cell : CellId} (h : cells.size ≤ cell) :
    cells.get cell = .absent := by
  simp only [size] at h
  simp [get, Array.getD, Nat.not_lt.2 h]

theorem get_set (cells : Cells) {cell : CellId} (h : cell < cells.size) (other : CellId)
    (v : Value) : (cells.set cell v).get other = if other = cell then v else cells.get other := by
  by_cases ho : other = cell
  · subst ho
    simp only [size] at h
    simp [get, set, Array.getD, h]
  · simp [get, set, Array.getD_eq_getD_getElem?, ho, Ne.symm ho]

/-- What is not in the store yet cannot be stored into. -/
theorem set_of_size_le {cells : Cells} {cell : CellId} (h : cells.size ≤ cell) (v : Value) :
    cells.set cell v = cells := by
  simp only [size] at h
  simp [set, Array.setIfInBounds, Nat.not_lt.2 h]

/-- A store shows in no cell but its own, and there as the stored value. -/
theorem get_set_cases (cells : Cells) (cell other : CellId) (v : Value) :
    (cells.set cell v).get other = cells.get other ∨
      other = cell ∧ (cells.set cell v).get other = v := by
  by_cases h : cell < cells.size
  · rw [get_set cells h]
    split
    · next ho => exact .inr ⟨ho, rfl⟩
    · exact .inl rfl
  · left
    simp only [size, Nat.not_lt] at h
    simp [get, set, Array.setIfInBounds, Nat.not_lt.2 h]

theorem get_alloc (cells : Cells) (other : CellId) (v : Value) :
    (cells.alloc v).2.get other = if other = cells.size then v else cells.get other := by
  by_cases ho : other = cells.size
  · subst ho
    simp [get, alloc, size, Array.getD]
  · simp only [size] at ho
    simp [get, alloc, size, Array.getD_eq_getD_getElem?, Array.getElem?_push, ho]

theorem setAll_cons (cells : Cells) (write : CellId × Value) (writes : List (CellId × Value)) :
    cells.setAll (write :: writes) = (cells.set write.1 write.2).setAll writes := rfl

@[simp] theorem size_setAll (cells : Cells) (writes : List (CellId × Value)) :
    (cells.setAll writes).size = cells.size := by
  induction writes generalizing cells with
  | nil => rfl
  | cons write writes ih => rw [setAll_cons, ih, size_set]

end Cells

end Treewalk
