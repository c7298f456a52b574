import Treewalk.Proofs.Correspondence
import Treewalk.Proofs.Natives

/-!
Related states of two runs. Environments are related if they bind the same names
to related slots, and stores if they have the same cells with related contents;
reading, binding, defining and storing keep this. The builtins cannot tell related
arguments apart, and a host respects a relation if it cannot either, whether it finds
the values among its arguments or in cells.
-/
namespace Treewalk

variable {η : Type}

inductive Slot.Rel (value : Value → Value → Prop) : Slot → Slot → Prop
  | plain {v w : Value} (h : value v w) : Rel value (.plain v) (.plain w)
  | cell (c : CellId) : Rel value (.cell c) (.cell c)

def Environment.Rel (value : Value → Value → Prop) (e e' : Environment) : Prop :=
  ∀ name, Option.Rel (Slot.Rel value) (e.slot? name) (e'.slot? name)

structure Cells.Rel (value : Value → Value → Prop) (cells cells' : Cells) : Prop where
  size : cells.size = cells'.size
  contents : ∀ c, value (cells.get c) (cells'.get c)

/-- Related cells, the same printed text, and hosts in related states. -/
structure World.Rel (value : Value → Value → Prop) (state : η → η → Prop) (w w' : World η) :
    Prop where
  cells : w.cells.Rel value w'.cells
  printer : w.printer = w'.printer
  host : state w.host w'.host

variable {value value' : Value → Value → Prop} {state : η → η → Prop}

namespace Environment.Rel

variable {e e' : Environment}

theorem refl (h : ∀ v, value v v) (e : Environment) : e.Rel value e := by
  intro name
  rcases e.slot? name with _ | v | c
  · exact .none
  · exact .some (.plain (h v))
  · exact .some (.cell c)

theorem bind (h : e.Rel value e') (name : Name) {slot slot' : Slot}
    (hslot : slot.Rel value slot') : (e.bind name slot).Rel value (e'.bind name slot') := by
  intro other
  rw [slot?_bind, slot?_bind]
  split
  · exact .some hslot
  · exact h other

theorem bindAll (h : e.Rel value e') (params : List Name) {args args' : List Value}
    (hargs : List.Forall₂ value args args') :
    (e.bindAll params args).Rel value (e'.bindAll params args') := by
  induction params generalizing e e' args args' with
  | nil => exact h
  | cons name params ih =>
    cases hargs with
    | nil => exact h
    | cons hv hargs => exact ih (h.bind name (.plain hv)) hargs

theorem lookup? (h : e.Rel value e') {cells cells' : Cells} (hcells : cells.Rel value cells')
    (name : Name) : Option.Rel value (e.lookup? cells name) (e'.lookup? cells' name) := by
  have hslots := h name
  unfold Environment.lookup?
  generalize e.slot? name = slot at hslots
  generalize e'.slot? name = slot' at hslots
  cases hslots with
  | none => exact .none
  | some hslot =>
    cases hslot with
    | plain hv => exact .some hv
    | cell c => exact .some (hcells.contents c)

theorem sameKind (h : e.Rel value e') (name : Name) :
    Option.Rel Slot.SameKind (e.slot? name) (e'.slot? name) := by
  have hslots := h name
  generalize e.slot? name = slot at hslots
  generalize e'.slot? name = slot' at hslots
  cases hslots with
  | none => exact .none
  | some hslot =>
    cases hslot with
    | plain hv => exact .some (.plain _ _)
    | cell c => exact .some (.cell c)

end Environment.Rel

namespace Cells.Rel

variable {cells cells' : Cells}

theorem refl (h : ∀ v, value v v) (cells : Cells) : cells.Rel value cells :=
  ⟨rfl, fun c => h (cells.get c)⟩

theorem set (h : cells.Rel value cells') (cell : CellId) {v v' : Value} (hv : value v v') :
    (cells.set cell v).Rel value (cells'.set cell v') := by
  refine ⟨by rw [size_set, size_set, h.size], ?_⟩
  intro c
  by_cases hcell : cell < cells.size
  · rw [get_set cells hcell, get_set cells' (h.size ▸ hcell)]
    split
    · exact hv
    · exact h.contents c
  · have hout : cells.size ≤ cell := Nat.not_lt.1 hcell
    rw [set_of_size_le hout, set_of_size_le (h.size ▸ hout)]
    exact h.contents c

theorem setAll (h : cells.Rel value cells') {writes writes' : List (CellId × Value)}
    (hwrites : List.Forall₂ (fun a b => a.1 = b.1 ∧ value a.2 b.2) writes writes') :
    (cells.setAll writes).Rel value (cells'.setAll writes') := by
  induction hwrites generalizing cells cells' with
  | nil => exact h
  | @cons write write' writes writes' hwrite hrest ih =>
    have hset := h.set write.1 hwrite.2
    rw [setAll_cons, setAll_cons, ← hwrite.1]
    exact ih hset

theorem alloc (h : cells.Rel value cells') {v v' : Value} (hv : value v v') :
    (cells.alloc v).2.Rel value (cells'.alloc v').2 := by
  refine ⟨by rw [size_alloc, size_alloc, h.size], ?_⟩
  intro c
  rw [get_alloc, get_alloc, h.size]
  split
  · exact hv
  · exact h.contents c

end Cells.Rel

theorem Config.define_rel {c c' : Config η} (habsent : value .absent .absent)
    (henv : c.env.Rel value c'.env) (hworld : c.world.Rel value state c'.world) (name : Name) :
    (c.define name).env.Rel value (c'.define name).env ∧
      (c.define name).world.Rel value state (c'.define name).world := by
  have hslot : Slot.Rel value (.cell c.world.cells.size) (.cell c'.world.cells.size) := by
    rw [hworld.cells.size]
    exact .cell _
  exact ⟨henv.bind name hslot, hworld.cells.alloc habsent, hworld.printer, hworld.host⟩

theorem Config.store_rel {c c' : Config η} (hworld : c.world.Rel value state c'.world)
    (cell : CellId) {v v' : Value} (hv : value v v') :
    (c.store cell v).world.Rel value state (c'.store cell v').world :=
  ⟨hworld.cells.set cell hv, hworld.printer, hworld.host⟩

/-- Answers alike, hosts left in related states, and the same cells set to related values. -/
structure Response.Rel (value : Value → Value → Prop) (state : η → η → Prop)
    (r r' : Response η) : Prop where
  answer : SameAnswer value r.answer r'.answer
  state : state r.state r'.state
  writes : List.Forall₂ (fun a b => a.1 = b.1 ∧ value a.2 b.2) r.writes r'.writes

/-- The host cannot tell related arguments apart, in related states and with cells the
`contents` of which are related. -/
def Host.RespectsOver (host : Host η) (value contents : Value → Value → Prop)
    (state : η → η → Prop) : Prop :=
  ∀ (f : Native) (args args' : List Value) (s s' : η) (get get' : CellId → Value),
    List.Forall₂ value args args' → state s s' → (∀ cell, contents (get cell) (get' cell)) →
    (host.call f args s get).Rel value state (host.call f args' s' get')

/-- The host cannot tell related values apart, be they arguments or in cells. -/
abbrev Host.Respects (host : Host η) (value : Value → Value → Prop) (state : η → η → Prop) :
    Prop :=
  host.RespectsOver value value state

namespace Builtin

variable {code : Code → Code → Prop}

theorem operand_eq {v w : Value} (h : v.Paired code w) : operand v = operand w := by
  cases h with
  | data h => rfl
  | function id name params h => rfl

theorem display_eq {v w : Value} (h : v.Paired code w) : v.display = w.display := by
  cases h with
  | data h => rfl
  | function id name params h => rfl

theorem same_eq {v v' w w' : Value} (hv : v.Paired code v') (hw : w.Paired code w') :
    v.same w = v'.same w' := by
  cases hv with
  | data hv =>
    cases hw with
    | data hw => rfl
    | function id name params hw =>
      cases v with
      | function => exact absurd trivial hv
      | _ => rfl
  | function id name params hv =>
    cases hw with
    | data hw =>
      cases w with
      | function => exact absurd trivial hw
      | _ => rfl
    | function id' name' params' hw => rfl

/-- A builtin gives the same for arguments that differ in the bodies of functions only. -/
theorem result_eq {args args' : List Value} (h : List.Forall₂ (Value.Paired code) args args')
    (b : Builtin) : b.result args = b.result args' := by
  rcases h with _ | ⟨hv, _ | ⟨hw, _ | ⟨hx, hrest⟩⟩⟩
  · rfl
  · cases b with
    | print => simp [result, one, Except.map, display_eq hv]
    | _ => rfl
  · cases b with
    | print => rfl
    | eq => simp [result, two, Except.map, same_eq hv hw]
    | _ => simp [result, two, numbers, bind, Except.bind, operand_eq hv, operand_eq hw]
  · have hcount := hrest.length_eq
    cases b <;> simp [result, one, two, numbers, bind, Except.bind, Except.map, hcount]

end Builtin

/-- A native answers related arguments alike, if the host does. -/
theorem Host.apply_rel {host : Host η} {code : Code → Code → Prop}
    (hpaired : ∀ v w, value v w → v.Paired code w) (hdata : ∀ v, ¬ v.IsFunction → value v v)
    (hvalue : ∀ v w, value v w → value' v w) (hhost : host.RespectsOver value value' state)
    {f : Native} {args args' : List Value} (hargs : List.Forall₂ value args args')
    {w w' : World η} (hw : w.Rel value' state w') :
    SameAnswer value (host.apply f args w).1 (host.apply f args' w').1 ∧
      (host.apply f args w).2.Rel value' state (host.apply f args' w').2 := by
  unfold Host.apply
  cases f.builtin? with
  | none =>
    have hcall := hhost f args args' w.host w'.host w.cells.get w'.cells.get hargs hw.host
      hw.cells.contents
    have hcells := hw.cells.setAll (hcall.writes.imp fun a b h => And.imp_right (hvalue _ _) h)
    exact ⟨hcall.answer, hcells, hw.printer, hcall.state⟩
  | some b =>
    have hresult := Builtin.result_eq (hargs.imp hpaired) b
    simp only [Builtin.apply, ← hresult, ← hw.printer]
    cases hr : b.result args with
    | error e => exact ⟨.error e, hw.cells, rfl, hw.host⟩
    | ok answer =>
      obtain ⟨line, v⟩ := answer
      have hv : value v v := hdata v (Builtin.not_isFunction_of_result hr)
      cases line with
      | none => exact ⟨.ok hv, hw.cells, rfl, hw.host⟩
      | some line => exact ⟨.ok hv, hw.cells, rfl, hw.host⟩

end Treewalk
