import Treewalk.Proofs.Natives
import Treewalk.Proofs.Programs

/-!
Which bindings a run can change. Code changes the slot of a name only by a
definition of that name that stands in the code itself, and the new slot is then
a cell made during the run. The bodies of functions do not count, since a call
gives the caller's environment back as it was.
-/
namespace Treewalk

variable {η : Type}

def Code.Defines (n : Code) (name : Name) : Prop := Within (.define name) n

theorem Code.Defines.of_part {p n : Code} (hpart : Code.Part p n) {name : Name}
    (h : p.Defines name) : n.Defines name :=
  .part h hpart

namespace Config

/-- From the first state to the second no cell is lost, and each name keeps its slot,
unless `may` allows the name a new one, which is then a cell made in between. -/
structure Evolves (may : Name → Prop) (c c' : Config η) : Prop where
  size_le : c.world.cells.size ≤ c'.world.cells.size
  slots : ∀ name, c'.env.slot? name = c.env.slot? name ∨
    may name ∧ ∃ cell : Nat, c'.env.slot? name = some (.cell cell) ∧
      c.world.cells.size ≤ cell ∧ cell < c'.world.cells.size

variable {may may' : Name → Prop} {c c' c'' : Config η}

namespace Evolves

theorem refl (may : Name → Prop) (c : Config η) : c.Evolves may c :=
  ⟨Nat.le_refl _, fun _ => .inl rfl⟩

theorem mono (h : c.Evolves may c') (hmay : ∀ name, may name → may' name) :
    c.Evolves may' c' := by
  refine ⟨h.size_le, ?_⟩
  intro name
  rcases h.slots name with hsame | ⟨hname, hcell⟩
  · exact .inl hsame
  · exact .inr ⟨hmay name hname, hcell⟩

theorem trans (h : c.Evolves may c') (h' : c'.Evolves may c'') : c.Evolves may c'' := by
  have hsize := h.size_le
  have hsize' := h'.size_le
  refine ⟨by omega, ?_⟩
  intro name
  rcases h'.slots name with hsame' | ⟨hname, cell, hcell, hold, hnew⟩
  · rcases h.slots name with hsame | ⟨hname, cell, hcell, hold, hnew⟩
    · exact .inl (hsame'.trans hsame)
    · exact .inr ⟨hname, cell, hsame'.trans hcell, hold, by omega⟩
  · exact .inr ⟨hname, cell, hcell, by omega, hnew⟩

/-- A bound name stays bound. -/
theorem bound (h : c.Evolves may c') {name : Name} (hname : c.env.slot? name ≠ none) :
    c'.env.slot? name ≠ none := by
  rcases h.slots name with hsame | ⟨-, cell, hcell, -⟩
  · rw [hsame]
    exact hname
  · rw [hcell]
    simp

/-- A plain value is bound only where it was before. -/
theorem plain (h : c.Evolves may c') {name : Name} {v : Value}
    (hname : c'.env.slot? name = some (.plain v)) : c.env.slot? name = some (.plain v) := by
  rcases h.slots name with hsame | ⟨-, cell, hcell, -⟩
  · exact hsame ▸ hname
  · rw [hcell] at hname
    cases hname

end Evolves

/-- A definition binds its name to the cell it makes, and nothing else. -/
theorem define_evolves (c : Config η) (name : Name) :
    c.Evolves (Code.define name).Defines (c.define name) := by
  have hsize : (c.define name).world.cells.size = c.world.cells.size + 1 :=
    Cells.size_alloc c.world.cells .absent
  refine ⟨by omega, ?_⟩
  intro other
  have hslot : (c.define name).env.slot? other =
      if other = name then some (.cell c.world.cells.size) else c.env.slot? other :=
    Environment.slot?_bind ..
  rw [hslot]
  by_cases h : other = name
  · subst h
    refine .inr ⟨.self _, c.world.cells.size, by simp, Nat.le_refl _, by omega⟩
  · exact .inl (if_neg h)

/-- What changes the world only, and loses no cell, changes no binding. -/
theorem evolves_of_world (may : Name → Prop) {env : Environment} {w w' : World η}
    (h : w.cells.size ≤ w'.cells.size) : Evolves may ⟨env, w⟩ ⟨env, w'⟩ :=
  ⟨h, fun _ => .inl rfl⟩

end Config

/-- Running code by the runner rebinds no name but those the code defines. -/
def Runner.Frames (runner : Runner (Config η)) : Prop :=
  ∀ (n : Code) (c : Config η), (runner n c).Leaves (c.Evolves n.Defines)

namespace Runner.Frames

variable {host : Host η} {runner : Runner (Config η)} {may : Name → Prop}

/-- A part of a node run after what led from `c` to `c'`. -/
theorem after (hr : Frames runner) {n : Code} (hmay : ∀ name, n.Defines name → may name)
    {c c' : Config η} (hc : c.Evolves may c') : (runner n c').Leaves (c.Evolves may) :=
  (hr n c').imp fun _ h => hc.trans (h.mono hmay)

/-- No call loses a cell. -/
theorem callValue (hr : Frames runner) (env : Environment) (f : Value) (args : List Value)
    (w : World η) :
    (callValue host runner env f args w).Leaves fun w' => w.cells.size ≤ w'.cells.size := by
  cases f with
  | native f =>
    simp only [Treewalk.callValue]
    split <;>
    · next happly =>
      exact ⟨trivial, Nat.le_of_eq (Host.size_of_apply happly).symm⟩
  | function id name params body =>
    simp only [Treewalk.callValue]
    split
    · have hbody := hr body ⟨env.bindAll params args, w⟩
      refine Outcome.Leaves.mapError (hbody.mapState ?_) _
      intro d hd
      exact hd.size_le
    · exact ⟨trivial, Nat.le_refl _⟩
  | _ => exact ⟨trivial, Nat.le_refl _⟩

theorem step (hr : Frames runner) (fuel : Nat) : Frames (step host runner fuel) := by
  intro n c
  have hstart : c.Evolves n.Defines c := .refl _ c
  have hparts : ∀ {p : Code}, Code.Part p n → ∀ name, p.Defines name → n.Defines name :=
    fun hpart _ h => h.of_part hpart
  cases n with
  | const v => exact ⟨trivial, hstart⟩
  | var name =>
    simp only [Treewalk.step]
    cases c.get name with
    | error e => exact ⟨trivial, hstart⟩
    | ok v => exact ⟨trivial, hstart⟩
  | define name => exact ⟨trivial, c.define_evolves name⟩
  | assign name expr =>
    simp only [Treewalk.step]
    split
    · exact ⟨trivial, hstart⟩
    · exact ⟨trivial, hstart⟩
    · next cell hslot =>
      refine (hr.after (hparts (.expr name expr)) hstart).onValue ?_
      intro v d hd
      have hstore : d.Evolves (Code.assign name expr).Defines (d.store cell v) :=
        Config.evolves_of_world _ (by simp)
      exact ⟨trivial, hd.trans hstore⟩
  | label name => exact ⟨trivial, hstart⟩
  | goto label => exact ⟨trivial, hstart⟩
  | block children =>
    refine runBlock_leaves ?_ fuel .absent hstart
    intro child hchild d hd
    exact hr.after (hparts (.child hchild)) hd
  | when test body =>
    refine (hr.after (hparts (.whenTest test body)) hstart).onValue ?_
    intro v d hd
    split
    · exact hr.after (hparts (.whenBody test body)) hd
    · exact ⟨trivial, hd⟩
  | choose test yes no =>
    refine (hr.after (hparts (.test test yes no)) hstart).onValue ?_
    intro v d hd
    split
    · exact hr.after (hparts (.yes test yes no)) hd
    · exact hr.after (hparts (.no test yes no)) hd
  | call callee args =>
    refine (hr.after (hparts (.callee callee args)) hstart).onValue ?_
    intro f d hd
    have hargs : (runArgs runner args [] d).Leaves (c.Evolves (Code.call callee args).Defines) :=
      runArgs_leaves (fun arg harg _ h => hr.after (hparts (.arg callee harg)) h) hd
    refine hargs.onValue ?_
    intro vs d' hd'
    -- The call itself gives back the environment that the arguments left.
    refine (hr.callValue d'.env f vs d'.world).mapState ?_
    intro w hw
    exact hd'.trans (Config.evolves_of_world _ hw)
  | definition name params body => exact ⟨trivial, hstart⟩

end Runner.Frames

/-- Every run rebinds only what its code defines, however it ends. -/
theorem run_frames (host : Host η) (fuel : Nat) : Runner.Frames (run host fuel) := by
  induction fuel with
  | zero =>
    intro n c
    trivial
  | succ fuel ih => exact ih.step fuel

theorem evolves_of_run {host : Host η} {fuel : Nat} {n : Code} {c c' : Config η}
    (h : (run host fuel n c).state? = some c') : c.Evolves n.Defines c' :=
  Outcome.Obeys.of_state? (run_frames host fuel n c) h

/-- A call of a known function with known arguments leaves the caller's environment as it
is. -/
theorem env_of_run_call {host : Host η} {fuel : Nat} {callee : Code} {args : List Code}
    {c c₁ c₂ c' : Config η} {f : Value} {vs : List Value}
    (hcallee : run host fuel callee c = .done (.value f) c₁)
    (hargs : runArgs (run host fuel) args [] c₁ = .done (.value vs) c₂)
    (h : (run host (fuel + 1) (.call callee args) c).state? = some c') : c'.env = c₂.env := by
  rw [run_succ] at h
  simp only [step, hcallee, hargs, Outcome.onValue, Outcome.state?_mapState] at h
  obtain ⟨w, -, rfl⟩ := Option.map_eq_some_iff.1 h
  rfl

namespace Interpreter

/-- A call by name keeps the globals. -/
theorem globals_of_call {host : Host η} {fuel : Nat} {name : Name} {args : List Value}
    {it it' : Interpreter η} (h : (it.call host fuel name args).state? = some it') :
    it'.globals = it.globals := by
  unfold call at h
  split at h
  · cases h
    rfl
  · rw [state?_settle, Outcome.state?_mapState] at h
    obtain ⟨w, -, rfl⟩ := Option.map_eq_some_iff.1 h
    rfl

/-- A form that does not define a function rebinds only what its code defines. -/
theorem evolves_of_runForm {host : Host η} {fuel : Nat} {form : Form}
    (hform : ∀ name params body, form.code ≠ .definition name params body)
    {it it' : Interpreter η} (h : (runForm (run host fuel) form it).state? = some it') :
    it.config.Evolves form.code.Defines it'.config := by
  rw [state?_runForm hform] at h
  obtain ⟨c, hc, rfl⟩ := Option.map_eq_some_iff.1 h
  exact evolves_of_run hc

end Interpreter

/-- Bindings are framed. However a run ends, a name has the slot it had, unless its code
defines the name outside function bodies, and then it may have a cell made in the run.
So no name is unbound and no plain value is bound where it was not; a call changes
nothing in the caller's environment or in the globals, and a definition of a function
inside other code installs nothing. -/
theorem bindings_framed (host : Host η) (fuel : Nat) :
    (∀ (n : Code) (c c' : Config η), (run host fuel n c).state? = some c' → ∀ name,
      (c'.env.slot? name = c.env.slot? name ∨
        n.Defines name ∧ ∃ cell, c'.env.slot? name = some (.cell cell) ∧
          c.world.cells.size ≤ cell ∧ cell < c'.world.cells.size) ∧
      (c.env.slot? name ≠ none → c'.env.slot? name ≠ none) ∧
      ∀ v, c'.env.slot? name = some (.plain v) → c.env.slot? name = some (.plain v)) ∧
    (∀ (callee : Code) (args : List Code) (c c₁ c₂ c' : Config η) (f : Value) (vs : List Value),
      run host fuel callee c = .done (.value f) c₁ →
      runArgs (run host fuel) args [] c₁ = .done (.value vs) c₂ →
      (run host (fuel + 1) (.call callee args) c).state? = some c' → c'.env = c₂.env) ∧
    (∀ (name : Name) (args : List Value) (it it' : Interpreter η),
      (it.call host fuel name args).state? = some it' → it'.globals = it.globals) ∧
    (∀ (name : Name) (params : List Name) (body : Code) (c c' : Config η),
      (run host fuel (.definition name params body) c).state? = some c' → c' = c) ∧
    ∀ (form : Form) (it it' : Interpreter η),
      (∀ name params body, form.code ≠ .definition name params body) →
      (it.runForm (run host fuel) form).state? = some it' → ∀ name v,
        it'.globals.slot? name = some (.plain v) → it.globals.slot? name = some (.plain v) := by
  refine ⟨?_, ?_, ?_, ?_, ?_⟩
  · intro n c c' hstate name
    have hevolves := evolves_of_run hstate
    exact ⟨hevolves.slots name, hevolves.bound, fun v => hevolves.plain⟩
  · intro callee args c c₁ c₂ c' f vs hcallee hargs hstate
    exact env_of_run_call hcallee hargs hstate
  · intro name args it it' hstate
    exact Interpreter.globals_of_call hstate
  · intro name params body c c' hstate
    cases fuel with
    | zero => cases hstate
    | succ fuel =>
      cases hstate
      rfl
  · intro form it it' hform hstate name v hslot
    exact (Interpreter.evolves_of_runForm hform hstate).plain hslot

def hoarding : Value :=
  .function 6 "hoard" ["x"] (.block [.define "z", .define "x", .assign "x" (.const .absent)])

/-- Code that defines `y`, holds a function definition, calls `hoarding`, and is left by
a jump. -/
def leaving : Code :=
  .block [.define "y", .definition "z" [] (.define "w"), .call (.const hoarding) [.var "x"],
    .goto "out"]

def keeping : Interpreter Unit := (Interpreter.new {} ()).define "x" (.text "kept")

/-- The run of `leaving` ends with a jump, and binds `y` alone. -/
theorem leaving_bindings_framed :
    ∃ c', run echoing 8 leaving keeping.config = .done (.jump "out") c' ∧
      c'.env.slot? "y" = some (.cell 0) ∧ c'.env.slot? "z" = none ∧
      ∀ name,
        (c'.env.slot? name = keeping.globals.slot? name ∨
          leaving.Defines name ∧ ∃ cell, c'.env.slot? name = some (.cell cell) ∧
            keeping.world.cells.size ≤ cell ∧ cell < c'.world.cells.size) ∧
        (keeping.globals.slot? name ≠ none → c'.env.slot? name ≠ none) ∧
        ∀ v, c'.env.slot? name = some (.plain v) → keeping.globals.slot? name = some (.plain v) :=
  ⟨_, rfl, rfl, rfl, (bindings_framed echoing 8).1 leaving keeping.config _ rfl⟩

end Treewalk
