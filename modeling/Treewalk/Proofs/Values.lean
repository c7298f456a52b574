import Treewalk.State.World

/-!
Where values are found. An environment carries a predicate on values if its plain
values satisfy it, and a store carries it if the contents of all cells in play
do; cells still to be made are in play. Reading, binding and storing keep this.
-/
namespace Treewalk

variable {η : Type} {value : Value → Prop} {inPlay : CellId → Prop}

structure Environment.Carries (value : Value → Prop) (inPlay : CellId → Prop)
    (e : Environment) : Prop where
  plain : ∀ name v, e.slot? name = some (.plain v) → value v
  cell : ∀ name c, e.slot? name = some (.cell c) → inPlay c

structure Cells.Carry (value : Value → Prop) (inPlay : CellId → Prop) (cells : Cells) : Prop where
  contents : ∀ c, inPlay c → value (cells.get c)
  unmade : ∀ c, cells.size ≤ c → inPlay c

theorem Environment.Carries.lookup? {e : Environment} {cells : Cells}
    (he : e.Carries value inPlay) (hcells : cells.Carry value inPlay) {name : Name} {v : Value}
    (h : e.lookup? cells name = some v) : value v := by
  unfold Environment.lookup? at h
  cases hslot : e.slot? name with
  | none =>
    rw [hslot] at h
    cases h
  | some slot =>
    rw [hslot] at h
    cases slot with
    | plain u =>
      cases h
      exact he.plain name u hslot
    | cell c =>
      cases h
      exact hcells.contents c (he.cell name c hslot)

theorem Environment.Carries.bind {e : Environment} (he : e.Carries value inPlay) (name : Name)
    {slot : Slot} (hplain : ∀ v, slot = .plain v → value v)
    (hcell : ∀ c, slot = .cell c → inPlay c) : (e.bind name slot).Carries value inPlay := by
  constructor
  · intro other v h
    rw [Environment.slot?_bind] at h
    split at h
    · exact hplain v (Option.some.inj h)
    · exact he.plain other v h
  · intro other c h
    rw [Environment.slot?_bind] at h
    split at h
    · exact hcell c (Option.some.inj h)
    · exact he.cell other c h

theorem Environment.Carries.bindValue {e : Environment} (he : e.Carries value inPlay)
    (name : Name) {v : Value} (hv : value v) : (e.bindValue name v).Carries value inPlay := by
  refine he.bind name ?_ ?_
  · intro u hu
    cases hu
    exact hv
  · intro c hc
    cases hc

theorem Environment.Carries.bindAll {e : Environment} (he : e.Carries value inPlay)
    (params : List Name) {args : List Value} (hargs : ∀ a ∈ args, value a) :
    (e.bindAll params args).Carries value inPlay := by
  induction params generalizing e args with
  | nil => exact he
  | cons name params ih =>
    cases args with
    | nil => exact he
    | cons v args =>
      have hrest : ∀ a ∈ args, value a := fun a ha => hargs a (by simp [ha])
      exact ih (he.bindValue name (hargs v (by simp))) hrest

theorem Cells.Carry.alloc {cells : Cells} (h : cells.Carry value inPlay) {v : Value}
    (hv : value v) : (cells.alloc v).2.Carry value inPlay := by
  constructor
  · intro c hc
    rw [Cells.get_alloc]
    split
    · exact hv
    · exact h.contents c hc
  · intro c hc
    rw [Cells.size_alloc] at hc
    exact h.unmade c (by omega)

theorem Cells.Carry.set {cells : Cells} (h : cells.Carry value inPlay) (cell : CellId) {v : Value}
    (hv : value v) : (cells.set cell v).Carry value inPlay := by
  constructor
  · intro c hc
    rcases cells.get_set_cases cell c v with hget | ⟨-, hget⟩
    · rw [hget]
      exact h.contents c hc
    · rw [hget]
      exact hv
  · intro c hc
    rw [Cells.size_set] at hc
    exact h.unmade c hc

theorem Cells.Carry.setAll {cells : Cells} (h : cells.Carry value inPlay)
    {writes : List (CellId × Value)} (hwrites : ∀ write ∈ writes, value write.2) :
    (cells.setAll writes).Carry value inPlay := by
  induction writes generalizing cells with
  | nil => exact h
  | cons write writes ih =>
    have hwrite : value write.2 := hwrites write (by simp)
    exact ih (h.set write.1 hwrite) fun w hw => hwrites w (by simp [hw])

/-- A definition puts absent contents into a cell in play. -/
theorem Config.define_carries {c : Config η} (habsent : value .absent)
    (henv : c.env.Carries value inPlay) (hcells : c.world.cells.Carry value inPlay)
    (name : Name) : (c.define name).env.Carries value inPlay ∧
      (c.define name).world.cells.Carry value inPlay := by
  refine ⟨henv.bind name ?_ ?_, hcells.alloc habsent⟩
  · intro v hv
    cases hv
  · intro d hd
    cases hd
    exact hcells.unmade _ (Nat.le_refl _)

end Treewalk
