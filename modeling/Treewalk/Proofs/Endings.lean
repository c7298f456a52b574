import Treewalk.Program
import Treewalk.Run.Fuel

/-!
How programs end. A program that has ended keeps its outcome under more fuel, so
what it ends with does not depend on the fuel; a program that ends with nothing
runs forever.
-/
namespace Treewalk.Interpreter

variable {η : Type}

theorem settle_below {o o' : Outcome (Interpreter η) (Flow Value)} (h : o.Below o') :
    (settle o).Below (settle o') := by
  rcases h with rfl | rfl
  · exact .of_outOfFuel _
  · exact .refl _

theorem runForm_below {runner runner' : Runner (Config η)} (h : runner.Below runner')
    (form : Form) (it : Interpreter η) :
    (runForm runner form it).Below (runForm runner' form it) := by
  unfold runForm
  split
  · exact .refl _
  · rcases settle_below ((h form.code it.config).mapState it.withConfig) with ho | ho
    · rw [ho]
      exact .of_outOfFuel _
    · rw [ho]
      exact .refl _

theorem runTree_below {runner runner' : Runner (Config η)} (h : runner.Below runner')
    (tree : Tree) (it : Interpreter η) :
    (runTree runner tree it).Below (runTree runner' tree it) := by
  unfold runTree
  split
  · exact runForm_below h ..
  · exact .refl _

theorem runForms_below {runner runner' : Runner (Config η)} (h : runner.Below runner')
    (index : Nat) (trees : List Tree) (result : Value) (it : Interpreter η) :
    (runForms runner index trees result it).Below (runForms runner' index trees result it) := by
  induction trees generalizing index result it with
  | nil => exact .refl _
  | cons tree trees ih =>
    simp only [runForms]
    rcases runTree_below h tree it with ho | ho
    · rw [ho]
      exact .of_outOfFuel _
    · rw [← ho]
      split
      · exact ih ..
      · exact .refl _
      · exact .refl _

def EndsWith (host : Host η) (root : Tree) (it : Interpreter η)
    (o : Outcome (Interpreter η) Value) : Prop :=
  o ≠ .outOfFuel ∧ ∃ fuel, it.runProgram (run host fuel) root = o

/-- What a program ends with it ends with under any larger bound. -/
theorem EndsWith.eq_of_le {host : Host η} {root : Tree} {it : Interpreter η}
    {o : Outcome (Interpreter η) Value} (h : it.EndsWith host root o) :
    ∃ fuel, ∀ fuel', fuel ≤ fuel' → it.runProgram (run host fuel') root = o := by
  obtain ⟨hne, fuel, rfl⟩ := h
  refine ⟨fuel, ?_⟩
  intro fuel' hle
  exact (runForms_below (run_below host hle) 0 root.children .absent it).eq hne

theorem EndsWith.unique {host : Host η} {root : Tree} {it : Interpreter η}
    {o o' : Outcome (Interpreter η) Value} (h : it.EndsWith host root o)
    (h' : it.EndsWith host root o') : o = o' := by
  obtain ⟨fuel, hfuel⟩ := h.eq_of_le
  obtain ⟨fuel', hfuel'⟩ := h'.eq_of_le
  rw [← hfuel (max fuel fuel') (by omega), hfuel' (max fuel fuel') (by omega)]

end Treewalk.Interpreter
