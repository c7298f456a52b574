import Treewalk.Proofs.Natives
import Treewalk.Proofs.Programs
import Treewalk.Proofs.Values

/-!
Which cells a run can write. Unless natives set it, a cell from before the run is written
only under a name that the environment bound to it at the start, and only if an assignment
to that name stands in the code or in the body of a function found at the start.
The invariant behind this: whatever environment running code has, an old cell is
bound in it under the names it had at the start and under no other.
-/
namespace Treewalk

variable {η : Type}

def Code.Assigns (n : Code) (name : Name) : Prop := ∃ expr, Within (.assign name expr) n

def Code.Holds (n : Code) (v : Value) : Prop := Within (.const v) n

namespace Config

/-- The values that a run has at hand when it starts: those found in the values it is
`given`, in the environment, or in the store. -/
inductive Finds (given : Value → Prop) (c : Config η) (f : Value) : Prop
  | given {v : Value} (h : given v) (hf : v.Reaches f) : Finds given c f
  | plain {name : Name} {v : Value} (h : c.env.slot? name = some (.plain v))
      (hf : v.Reaches f) : Finds given c f
  | contents (cell : CellId) (hf : (c.world.cells.get cell).Reaches f) : Finds given c f

/-- A function found at the start has an assignment to the name in its body. -/
def MayAssign (given : Value → Prop) (c : Config η) (name : Name) : Prop :=
  ∃ id fname params body,
    c.Finds given (.function id fname params body) ∧ body.Assigns name

variable {given : Value → Prop} {c : Config η}

theorem Finds.reaches {u v : Value} (h : c.Finds given u) (huv : u.Reaches v) :
    c.Finds given v := by
  cases h with
  | given h hu => exact .given h (hu.trans huv)
  | plain h hu => exact .plain h (hu.trans huv)
  | contents cell hu => exact .contents cell (hu.trans huv)

end Config

namespace Host

/-- The states a host comes to from `s` by calls with no functions but those of `found`
among the arguments and in the cells. -/
inductive Comes (host : Host η) (found : Value → Prop) (s : η) : η → Prop
  | start : Comes host found s s
  | call {args : List Value} {s₁ : η} {get : CellId → Value} (f : Native) :
      Comes host found s s₁ → (∀ a ∈ args, a.IsFunction → found a) →
      (∀ cell, (get cell).IsFunction → found (get cell)) →
      Comes host found s (host.call f args s₁ get).state

/-- From `s` on, and called with no functions but those of `found` among the arguments and
in the cells, the host returns no other functions, and sets no cell to one. -/
def ReturnsOnly (host : Host η) (found : Value → Prop) (s : η) : Prop :=
  ∀ (f : Native) (args : List Value) (s₁ : η) (get : CellId → Value) (v : Value),
    host.Comes found s s₁ → (∀ a ∈ args, a.IsFunction → found a) →
    (∀ cell, (get cell).IsFunction → found (get cell)) →
    (host.call f args s₁ get).answer = .ok v ∨
      (∃ cell, (cell, v) ∈ (host.call f args s₁ get).writes) →
    v.IsFunction → found v

/-- A host that hands back what it was given returns only functions that were found, if
it has no others at the start. -/
theorem HandsBack.returnsOnly {host : Host η} {held : η → Value → Prop}
    (hback : host.HandsBack held) {found : Value → Prop} {s : η}
    (hs : ∀ v, held s v → v.IsFunction → found v) : host.ReturnsOnly found s := by
  have hheld : ∀ s₁, host.Comes found s s₁ → ∀ v, held s₁ v → v.IsFunction → found v := by
    intro s₁ hcomes
    induction hcomes with
    | start => exact hs
    | call f hcomes hargs hget ih =>
      intro v hv hfunction
      rcases hback.kept hv with hmem | hearlier
      · exact hargs v hmem hfunction
      · exact ih v hearlier hfunction
  intro f args s₁ get v hcomes hargs hget hgives hfunction
  have hfrom : v ∈ args ∨ held s₁ v := by
    rcases hgives with hanswer | ⟨cell, hwrite⟩
    · exact hback.returned hanswer hfunction
    · exact hback.written hwrite hfunction
  rcases hfrom with hmem | hearlier
  · exact hargs v hmem hfunction
  · exact hheld s₁ hcomes v hearlier hfunction

end Host

structure Cells.Changes (allowed : CellId → Prop) (before after : Cells) : Prop where
  size_le : before.size ≤ after.size
  changed : ∀ cell < before.size, after.get cell ≠ before.get cell → allowed cell

namespace Cells.Changes

variable {allowed : CellId → Prop} {before after : Cells}

theorem refl (allowed : CellId → Prop) (cells : Cells) : cells.Changes allowed cells :=
  ⟨Nat.le_refl _, fun _ _ hne => absurd rfl hne⟩

/-- A new cell is none of the old ones. -/
theorem alloc (h : before.Changes allowed after) (v : Value) :
    before.Changes allowed (after.alloc v).2 := by
  have hsize := h.size_le
  refine ⟨?_, ?_⟩
  · rw [size_alloc]
    omega
  · intro cell hcell hne
    have hold : cell ≠ after.size := by omega
    rw [get_alloc, if_neg hold] at hne
    exact h.changed cell hcell hne

/-- A store into a cell that is new, or that is allowed. -/
theorem set (h : before.Changes allowed after) {target : CellId}
    (htarget : target < before.size → allowed target) (v : Value) :
    before.Changes allowed (after.set target v) := by
  refine ⟨?_, ?_⟩
  · rw [size_set]
    exact h.size_le
  · intro cell hcell hne
    rcases after.get_set_cases target cell v with hsame | ⟨rfl, -⟩
    · rw [hsame] at hne
      exact h.changed cell hcell hne
    · exact htarget hcell

theorem setAll (h : before.Changes allowed after) {writes : List (CellId × Value)}
    (hwrites : ∀ write ∈ writes, allowed write.1) :
    before.Changes allowed (after.setAll writes) := by
  induction writes generalizing after with
  | nil => exact h
  | cons write writes ih =>
    have hwrite : allowed write.1 := hwrites write (by simp)
    exact ih (h.set (fun _ => hwrite) write.2) fun w hw => hwrites w (by simp [hw])

end Cells.Changes

/-- From one store to the next no cell is lost, and a cell changes only if `env` binds it
to a name that `may` allows; what `env` does not bind keeps its contents. -/
structure Cells.WritesOnly (env : Environment) (may : Name → Prop) (before after : Cells) :
    Prop where
  size_le : before.size ≤ after.size
  changed : ∀ cell < before.size, after.get cell ≠ before.get cell →
    ∃ name, env.slot? name = some (.cell cell) ∧ may name
  unbound : ∀ cell < before.size, (∀ name, env.slot? name ≠ some (.cell cell)) →
    after.get cell = before.get cell

/-- The natives may set the cell, or `env` binds it to a name that `may` allows. -/
def Environment.Exposes (env : Environment) (may : Name → Prop) (sets : CellId → Prop)
    (cell : CellId) : Prop :=
  sets cell ∨ ∃ name, env.slot? name = some (.cell cell) ∧ may name

theorem Cells.Changes.writesOnly {env : Environment} {may : Name → Prop} {before after : Cells}
    (h : before.Changes (env.Exposes may fun _ => False) after) :
    before.WritesOnly env may after := by
  have hchanged : ∀ cell < before.size, after.get cell ≠ before.get cell →
      ∃ name, env.slot? name = some (.cell cell) ∧ may name :=
    fun cell hcell hne => (h.changed cell hcell hne).resolve_left fun h => h
  refine ⟨h.size_le, hchanged, ?_⟩
  intro cell hcell hunbound
  by_cases hsame : after.get cell = before.get cell
  · exact hsame
  · obtain ⟨name, hslot, -⟩ := hchanged cell hcell hsame
    exact absurd hslot (hunbound name)

/-- The cells from before the start that the environment binds, it binds to the names
they had at the start. -/
def Environment.Inherits (start : Config η) (e : Environment) : Prop :=
  ∀ name cell, cell < start.world.cells.size → e.slot? name = some (.cell cell) →
    start.env.slot? name = some (.cell cell)

theorem Environment.Inherits.bind {start : Config η} {e : Environment} (h : e.Inherits start)
    (name : Name) {slot : Slot}
    (hslot : ∀ cell, slot = .cell cell → start.world.cells.size ≤ cell) :
    (e.bind name slot).Inherits start := by
  intro other cell hcell hbound
  rw [Environment.slot?_bind] at hbound
  split at hbound
  · have hfresh := hslot cell (Option.some.inj hbound)
    omega
  · exact h other cell hcell hbound

/-- Old cells keep their names, functions are those found at the start, and writes go
through names that `may` allows or to cells that natives set: an invariant of running
from `start`. -/
def tracking {host : Host η} {start : Config η} {given : Value → Prop} {may : Name → Prop}
    {sets : CellId → Prop} (hhost : host.ReturnsOnly (start.Finds given) start.world.host)
    (hsets : host.SetsOnly sets) (hmay : ∀ name, start.MayAssign given name → may name) :
    Invariant host where
  env e := e.Carries (fun v => v.IsFunction → start.Finds given v) (fun _ => True) ∧
    e.Inherits start
  world w := w.cells.Carry (fun v => v.IsFunction → start.Finds given v) (fun _ => True) ∧
    host.Comes (start.Finds given) start.world.host w.host ∧
    start.world.cells.Changes (start.env.Exposes may sets) w.cells
  value v := v.IsFunction → start.Finds given v
  cell cell := cell < start.world.cells.size → start.env.Exposes may sets cell
  code _ n := (∀ v, n.Holds v → v.IsFunction → start.Finds given v) ∧
    ∀ name, n.Assigns name → may name
  absent h := absurd h fun h => h
  part h hpart := by
    refine ⟨fun v hv => h.1 v (.part hv hpart), ?_⟩
    rintro name ⟨expr, hassign⟩
    exact h.2 name ⟨expr, .part hassign hpart⟩
  const h := h.1 _ (.self _)
  body := by
    intro id name params b h
    have hfound := h trivial
    refine ⟨fun v hv _ => hfound.reaches (.const hv (.self v)), ?_⟩
    intro x hx
    exact hmay x ⟨id, name, params, b, hfound, hx⟩
  read he hw h := he.1.lookup? hw.1 h
  bind name he hv := by
    refine ⟨he.1.bindValue name hv, he.2.bind name ?_⟩
    intro cell hcell
    cases hcell
  define := by
    intro labels name c _ he hw
    obtain ⟨hcells, hcomes, hchanges⟩ := hw
    have hdefine := Config.define_carries (fun h => absurd h fun h => h) he.1 hcells name
    refine ⟨⟨hdefine.1, he.2.bind name ?_⟩, hdefine.2, hcomes, hchanges.alloc .absent⟩
    intro cell hcell
    cases hcell
    exact hchanges.size_le
  target := by
    intro labels name n e cell hcode he hslot hcell
    exact .inr ⟨name, he.2 name cell hcell hslot, hcode.2 name ⟨n, .self _⟩⟩
  store hw hcell hv := ⟨hw.1.set _ hv, hw.2.1, hw.2.2.set hcell _⟩
  native := by
    intro f args w w' r _ hargs hw happly
    obtain ⟨hcarry, hcomes, hchanges⟩ := hw
    rcases Host.apply_cases happly with ⟨b, -, hcells, hstate, hvalue, -⟩ | ⟨-, rfl, rfl⟩
    · refine ⟨⟨hcells ▸ hcarry, hstate ▸ hcomes, hcells ▸ hchanges⟩, ?_, fun _ _ => trivial⟩
      intro v hv hfunction
      exact absurd hfunction (hvalue v hv)
    · have hget : ∀ cell, (w.cells.get cell).IsFunction → start.Finds given (w.cells.get cell) :=
        fun cell => hcarry.contents cell trivial
      refine ⟨⟨hcarry.setAll ?_, hcomes.call f hargs hget, hchanges.setAll ?_⟩, ?_,
        fun _ _ => trivial⟩
      · intro write hwrite
        exact hhost f args w.host _ write.2 hcomes hargs hget (.inr ⟨write.1, hwrite⟩)
      · exact fun write hwrite => .inl (hsets f args _ _ write hwrite)
      · exact fun v hv => hhost f args w.host _ v hcomes hargs hget (.inl hv)

section Tracking

variable {host : Host η} {start : Config η} {given : Value → Prop} {may : Name → Prop}
  {sets : CellId → Prop} {hhost : host.ReturnsOnly (start.Finds given) start.world.host}
  {hsets : host.SetsOnly sets} {hmay : ∀ name, start.MayAssign given name → may name}

/-- The invariant holds at the start. -/
theorem tracking_start : (tracking hhost hsets hmay).Holds start := by
  refine ⟨⟨⟨?_, fun name cell hslot => trivial⟩, fun name cell hcell hslot => hslot⟩,
    ⟨?_, fun cell hcell => trivial⟩, .start, .refl _ _⟩
  · exact fun name v hslot hfunction => .plain hslot (.self v)
  · exact fun cell _ hfunction => .contents cell (.self _)

end Tracking

/-- Writes are local. If natives hold no cells, then however a run, a call of a value or a
call by name ends, a cell from before has changed only if the environment at the start
binds it to a name that is assigned to in the code, or in a function found in the
constants of the code, in the called value or the arguments, in the environment, or in
the store. -/
theorem writes_stay_local {host : Host η} (hcells : host.SetsNoCells) (fuel : Nat) :
    (∀ (n : Code) (c c' : Config η),
      host.ReturnsOnly (c.Finds n.Holds) c.world.host → (run host fuel n c).state? = some c' →
        c.world.cells.WritesOnly c.env (fun name => n.Assigns name ∨ c.MayAssign n.Holds name)
          c'.world.cells) ∧
    (∀ (f : Value) (args : List Value) (c : Config η) (w' : World η),
      host.ReturnsOnly (c.Finds fun v => v = f ∨ v ∈ args) c.world.host →
        (callValue host (run host fuel) c.env f args c.world).state? = some w' →
        c.world.cells.WritesOnly c.env (c.MayAssign fun v => v = f ∨ v ∈ args) w'.cells) ∧
    ∀ (name : Name) (args : List Value) (it it' : Interpreter η),
      host.ReturnsOnly (it.config.Finds fun v => v ∈ args) it.world.host →
        (it.call host fuel name args).state? = some it' →
        it.world.cells.WritesOnly it.globals (it.config.MayAssign fun v => v ∈ args)
          it'.world.cells := by
  refine ⟨?_, ?_, ?_⟩
  · intro n c c' hhost hstate
    have hmay : ∀ name, c.MayAssign n.Holds name →
        n.Assigns name ∨ c.MayAssign n.Holds name := fun _ h => .inr h
    let I := tracking hhost hcells hmay
    have hcode : I.code [] n := ⟨fun v hv _ => .given hv (.self v), fun _ h => .inl h⟩
    have hends := I.run_keeps fuel hcode tracking_start
    exact (hends.of_state? hstate).2.2.2.writesOnly
  · intro f args c w' hhost hstate
    let I := tracking hhost hcells fun _ h => h
    have hstart : I.Holds c := tracking_start
    have hf : I.value f := fun _ => .given (.inl rfl) (.self f)
    have hargs : ∀ a ∈ args, I.value a := fun a ha _ => .given (.inr ha) (.self a)
    have hends := Invariant.callValue_ends (I.run_keeps fuel) hstart.1 hf hargs hstart.2
    exact (hends.of_state? hstate).2.2.writesOnly
  · intro name args it it' hhost hstate
    have hstart : host.ReturnsOnly (it.config.Finds fun v => v ∈ args)
        it.config.world.host := hhost
    let I := tracking hstart hcells fun _ h => h
    have hit : I.Governs it := tracking_start
    have hargs : ∀ a ∈ args, I.value a := fun a ha _ => .given ha (.self a)
    have hmeets := Invariant.call_meets I.covers_all fuel name trivial hargs hit
    exact (hmeets.of_state? hstate).2.2.2.writesOnly

def relay : Value :=
  .function 6 "relay" ["z"] (.block
    [.define "y", .assign "y" (.var "z"), .assign "x" (.var "y")])

def relaying : Interpreter Unit :=
  (((Interpreter.new {} ()).defineCell "x" (.text "old")).defineCell "y" (.text "kept")).define
    "relay" relay

/-- A call of `relay` by name writes the cell of `x`, and so does code that calls it. -/
theorem relay_writes_stay_local :
    (∃ it', (relaying.call echoing 8 "relay" [.text "new"]).state? = some it' ∧
      it'.world.cells.get 0 ≠ relaying.world.cells.get 0 ∧
      relaying.world.cells.WritesOnly relaying.globals
        (relaying.config.MayAssign fun v => v ∈ [.text "new"]) it'.world.cells) ∧
    ∃ c', (run echoing 8 (.call (.const relay) [.const (.text "new")]) relaying.config).state? =
        some c' ∧
      c'.world.cells.get 0 ≠ relaying.world.cells.get 0 ∧
      relaying.world.cells.WritesOnly relaying.globals
        (fun name => (Code.call (.const relay) [.const (.text "new")]).Assigns name ∨
          relaying.config.MayAssign (Code.call (.const relay) [.const (.text "new")]).Holds name)
        c'.world.cells := by
  have hhost : ∀ given, echoing.ReturnsOnly (relaying.config.Finds given) () :=
    fun given => echoing_handsBack.returnsOnly fun v hheld => absurd hheld fun h => h
  have hne : Value.text "new" ≠ .text "old" := by simp
  refine ⟨⟨_, rfl, hne, ?_⟩, ⟨_, rfl, hne, ?_⟩⟩
  · exact (writes_stay_local echoing_setsNoCells 8).2.2 "relay" [.text "new"] relaying _ (hhost _) rfl
  · exact (writes_stay_local echoing_setsNoCells 8).1 _ relaying.config _ (hhost _) rfl

end Treewalk
