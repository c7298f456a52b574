import Treewalk.Proofs.BindingFrame
import Treewalk.Proofs.Operations
import Treewalk.Proofs.Simulation

/-!
No two variables share a cell. A cell is made under one name, and environments that are
copied for a call take it over under that name. So a cell has one name in all the
environments that are alive at a time, those of suspended callers included, and storing
into it shows under that name only. Main statement: this holds at every point of
every operation after any operations before it.
-/
namespace Treewalk

variable {η σ : Type}

def Environment.Binds (e : Environment) (name : Name) (cell : CellId) : Prop :=
  e.slot? name = some (.cell cell)

/-- What the environments bind is in the store, and a cell has one name in all of them. -/
structure Cells.Unaliased (cells : Cells) (envs : List Environment) : Prop where
  made : ∀ e ∈ envs, ∀ (name : Name) (cell : Nat), e.Binds name cell → cell < cells.size
  name_eq : ∀ e ∈ envs, ∀ e' ∈ envs, ∀ name name' cell,
    e.Binds name cell → e'.Binds name' cell → name = name'

namespace Cells.Unaliased

variable {cells cells' : Cells} {env : Environment} {envs envs' : List Environment}

/-- Environments without bindings of their own to cells. -/
theorem of_binds (h : cells.Unaliased envs) (hsize : cells.size ≤ cells'.size)
    (hbinds : ∀ e ∈ envs', ∀ name cell, e.Binds name cell → ∃ e' ∈ envs, e'.Binds name cell) :
    cells'.Unaliased envs' := by
  constructor
  · intro e he name cell hcell
    obtain ⟨e₁, he₁, hcell₁⟩ := hbinds e he name cell hcell
    exact Nat.lt_of_lt_of_le (h.made e₁ he₁ name cell hcell₁) hsize
  · intro e he e' he' name name' cell hcell hcell'
    obtain ⟨e₁, he₁, hcell₁⟩ := hbinds e he name cell hcell
    obtain ⟨e₂, he₂, hcell₂⟩ := hbinds e' he' name' cell hcell'
    exact h.name_eq e₁ he₁ e₂ he₂ name name' cell hcell₁ hcell₂

theorem mono (h : cells.Unaliased envs) (hsize : cells.size ≤ cells'.size) :
    cells'.Unaliased envs :=
  h.of_binds hsize fun e he _ _ hcell => ⟨e, he, hcell⟩

/-- A call that is over takes its environment with it. -/
theorem tail (h : cells.Unaliased (env :: envs)) : cells.Unaliased envs :=
  h.of_binds (Nat.le_refl _) fun e he _ _ hcell => ⟨e, List.mem_cons_of_mem _ he, hcell⟩

theorem bindValue (h : cells.Unaliased (env :: envs)) (name : Name) (v : Value) :
    cells.Unaliased (env.bindValue name v :: envs) := by
  refine h.of_binds (Nat.le_refl _) (List.forall_mem_cons.2 ⟨?_, ?_⟩)
  · intro other cell hcell
    simp only [Environment.Binds, Environment.bindValue, Environment.slot?_bind] at hcell
    split at hcell
    · cases hcell
    · exact ⟨env, List.mem_cons_self, hcell⟩
  · exact fun e he _ _ hcell => ⟨e, List.mem_cons_of_mem _ he, hcell⟩

/-- A call goes on in a copy of the caller's environment, with parameters on top. -/
theorem enter (h : cells.Unaliased (env :: envs)) (params : List Name) (args : List Value) :
    cells.Unaliased (env.bindAll params args :: env :: envs) := by
  refine h.of_binds (Nat.le_refl _) (List.forall_mem_cons.2 ⟨?_, ?_⟩)
  · intro name cell hcell
    rw [Environment.Binds, Environment.slot?_bindAll] at hcell
    cases hvalue : (params.zip args).reverse.lookup name with
    | none =>
      rw [hvalue] at hcell
      exact ⟨env, List.mem_cons_self, hcell⟩
    | some v =>
      rw [hvalue] at hcell
      cases hcell
  · exact fun e he _ _ hcell => ⟨e, he, hcell⟩

/-- A new cell has no other name. -/
theorem bindCell (h : cells.Unaliased (env :: envs)) (name : Name) (v : Value) :
    (env.bindCell cells name v).2.Unaliased ((env.bindCell cells name v).1 :: envs) := by
  have hsize : (env.bindCell cells name v).2.size = cells.size + 1 := Cells.size_alloc cells v
  -- A binding is that of the new cell, or one from before.
  have hbinds : ∀ e ∈ (env.bindCell cells name v).1 :: envs, ∀ other cell, e.Binds other cell →
      other = name ∧ cell = cells.size ∨ ∃ e' ∈ env :: envs, e'.Binds other cell := by
    refine List.forall_mem_cons.2 ⟨?_, ?_⟩
    · intro other cell hcell
      have hslot : (env.bindCell cells name v).1.slot? other =
          if other = name then some (.cell cells.size) else env.slot? other :=
        Environment.slot?_bind ..
      rw [Environment.Binds, hslot] at hcell
      split at hcell
      · next hname =>
        cases hcell
        exact .inl ⟨hname, rfl⟩
      · exact .inr ⟨env, List.mem_cons_self, hcell⟩
    · exact fun e he _ _ hcell => .inr ⟨e, List.mem_cons_of_mem _ he, hcell⟩
  constructor
  · intro e he other cell hcell
    rcases hbinds e he other cell hcell with ⟨-, rfl⟩ | ⟨e', he', hcell'⟩
    · omega
    · have := h.made e' he' other cell hcell'
      omega
  · intro e he e' he' other other' cell hcell hcell'
    rcases hbinds e he other cell hcell with ⟨rfl, rfl⟩ | ⟨e₁, he₁, hcell₁⟩
    · rcases hbinds e' he' other' _ hcell' with ⟨rfl, -⟩ | ⟨e₂, he₂, hcell₂⟩
      · rfl
      · exact absurd (h.made e₂ he₂ other' _ hcell₂) (Nat.lt_irrefl _)
    · rcases hbinds e' he' other' cell hcell' with ⟨-, rfl⟩ | ⟨e₂, he₂, hcell₂⟩
      · exact absurd (h.made e₁ he₁ other _ hcell₁) (Nat.lt_irrefl _)
      · exact h.name_eq e₁ he₁ e₂ he₂ other other' cell hcell₁ hcell₂

end Cells.Unaliased

/-- The environment that code runs in and those of the callers share no cell under
different names. -/
def Config.Unaliased (callers : List Environment) (c : Config η) : Prop :=
  c.world.cells.Unaliased (c.env :: callers)

def Runner.KeepsUnaliased (runner : Runner (Config η)) : Prop :=
  ∀ (callers : List Environment) (n : Code) (c : Config η), c.Unaliased callers →
    (runner n c).Leaves (Config.Unaliased callers)

namespace Runner.KeepsUnaliased

variable {host : Host η} {runner : Runner (Config η)}

theorem callValue (hr : KeepsUnaliased runner) (host : Host η) {callers : List Environment}
    {env : Environment} {w : World η} (h : w.cells.Unaliased (env :: callers)) (f : Value)
    (args : List Value) :
    (callValue host runner env f args w).Leaves fun w' =>
      w'.cells.Unaliased (env :: callers) := by
  cases f with
  | native f =>
    simp only [Treewalk.callValue]
    split <;>
    · next happly =>
      exact ⟨trivial, h.mono (Nat.le_of_eq (Host.size_of_apply happly).symm)⟩
  | function id name params body =>
    simp only [Treewalk.callValue]
    split
    · have hbody := hr (env :: callers) body ⟨env.bindAll params args, w⟩ (h.enter params args)
      refine Outcome.Leaves.mapError (hbody.mapState ?_) _
      intro c hc
      exact Cells.Unaliased.tail hc
    · exact ⟨trivial, h⟩
  | _ => exact ⟨trivial, h⟩

theorem step (hr : KeepsUnaliased runner) (fuel : Nat) :
    KeepsUnaliased (step host runner fuel) := by
  intro callers n c hc
  cases n with
  | var name =>
    simp only [Treewalk.step]
    cases c.get name with
    | error e => exact ⟨trivial, hc⟩
    | ok v => exact ⟨trivial, hc⟩
  | define name => exact ⟨trivial, Cells.Unaliased.bindCell hc name .absent⟩
  | assign name expr =>
    simp only [Treewalk.step]
    split
    · exact ⟨trivial, hc⟩
    · exact ⟨trivial, hc⟩
    · next cell hslot =>
      refine (hr callers expr c hc).onValue ?_
      intro v d hd
      exact ⟨trivial, Cells.Unaliased.mono hd (by simp [Config.store])⟩
  | block children =>
    exact runBlock_leaves (fun child _ d hd => hr callers child d hd) fuel .absent hc
  | when test body =>
    refine (hr callers test c hc).onValue ?_
    intro v d hd
    split
    · exact hr callers body d hd
    · exact ⟨trivial, hd⟩
  | choose test yes no =>
    refine (hr callers test c hc).onValue ?_
    intro v d hd
    split
    · exact hr callers yes d hd
    · exact hr callers no d hd
  | call callee args =>
    refine (hr callers callee c hc).onValue ?_
    intro f d hd
    have hargs : (runArgs runner args [] d).Leaves (Config.Unaliased callers) :=
      runArgs_leaves (fun arg _ d hd => hr callers arg d hd) hd
    refine hargs.onValue ?_
    intro vs d' hd'
    exact (hr.callValue host hd' f vs).mapState fun w hw => hw
  | _ => exact ⟨trivial, hc⟩

end Runner.KeepsUnaliased

/-- No run gives a cell a second name. -/
theorem run_keepsUnaliased (host : Host η) (fuel : Nat) :
    Runner.KeepsUnaliased (run host fuel) := by
  induction fuel with
  | zero =>
    intro callers n c hc
    trivial
  | succ fuel ih => exact ih.step fuel

/-- A state of running with the environments of the callers, the innermost first. -/
structure Live (η : Type) where
  config : Config η
  callers : List Environment

namespace Live

def cells (s : Live η) : Cells := s.config.world.cells

def environments (s : Live η) : List Environment := s.config.env :: s.callers

def Unaliased (s : Live η) : Prop := s.cells.Unaliased s.environments

end Live

/-- The evaluator that copies the caller's environment, with the environments it copied
from. -/
def stacking (host : Host η) : Machine (Live η) where
  run fuel n s := (run host fuel n s.config).mapState fun c => ⟨c, s.callers⟩
  slot? s name := s.config.env.slot? name
  enter s params args := ⟨(copying host).enter s.config params args, s.environments⟩

/-- Callers come and go unseen. -/
theorem stacking_simulates (host : Host η) :
    (stacking host).Simulates (fun s c => s.config = c) (copying host) where
  run := by
    rintro fuel n s _ rfl
    simp only [stacking, copying]
    cases run host fuel n s.config with
    | done flow c => exact .done flow rfl
    | failed e c => exact .failed e rfl
    | outOfFuel => exact .outOfFuel
  slot? := by
    rintro s _ name rfl
    rfl
  enter := by
    rintro s _ params args rfl
    rfl

theorem stacking_keeps (host : Host η) : (stacking host).Keeps Live.Unaliased where
  run fuel n s hs := (run_keepsUnaliased host fuel s.callers n s.config hs).mapState fun _ hc => hc
  enter params args _ hs := Cells.Unaliased.enter hs params args

/-- An assignment that ends with a value has stored it into the cell bound at its start,
after its expression ran. -/
theorem exists_of_run_assign {host : Host η} {fuel : Nat} {name : Name} {expr : Code}
    {c d : Config η} {v : Value}
    (h : run host (fuel + 1) (.assign name expr) c = .done (.value v) d) :
    ∃ cell c', c.env.Binds name cell ∧ run host fuel expr c = .done (.value v) c' ∧
      d = c'.store cell v := by
  simp only [run_succ, step] at h
  split at h
  · cases h
  · cases h
  · next cell hslot =>
    rcases ho : run host fuel expr c with ⟨u | label, c'⟩ | ⟨e, c'⟩ | _ <;> rw [ho] at h <;> cases h
    exact ⟨cell, c', hslot, rfl, rfl⟩

theorem Environment.lookup?_set_of_not_binds {e : Environment} {cell : CellId} {name : Name}
    (h : ¬ e.Binds name cell) (cells : Cells) (v : Value) :
    e.lookup? (cells.set cell v) name = e.lookup? cells name := by
  unfold Environment.lookup?
  rcases hslot : e.slot? name with _ | u | other
  · rfl
  · rfl
  · have hother : other ≠ cell := by
      rintro rfl
      exact h hslot
    have hget := (cells.get_set_cases cell other v).resolve_right fun h => hother h.1
    exact congrArg some hget

/-- Code may bind names anew, but to cells of its own: a cell from before keeps its one name. -/
theorem Config.Unaliased.name_of_evolves {callers : List Environment} {may : Name → Prop}
    {c c' : Config η} (h : c.Unaliased callers) (hevolves : c.Evolves may c') {name : Name}
    {cell : CellId} (hcell : c.env.Binds name cell) :
    ∀ e ∈ c'.env :: callers, ∀ other, e.Binds other cell → other = name := by
  have hself : c.env ∈ c.env :: callers := List.mem_cons_self
  refine List.forall_mem_cons.2 ⟨?_, ?_⟩
  · intro other hother
    rcases hevolves.slots other with hsame | ⟨-, made, hslot, hold, -⟩
    · exact h.name_eq _ hself _ hself other name cell (hsame.symm.trans hother) hcell
    · rw [Environment.Binds, hslot] at hother
      cases hother
      exact absurd (h.made _ hself name _ hcell) (Nat.not_lt.2 hold)
  · intro e he other hother
    exact h.name_eq e (List.mem_cons_of_mem _ he) _ hself other name cell hother hcell

/-- An assignment shows under its own name and under no other, in all environments. -/
theorem Live.Unaliased.assign {host : Host η} {fuel : Nat} {name : Name} {expr : Code}
    {s t : Live η} {v : Value} (hs : s.Unaliased)
    (h : (stacking host).run (fuel + 1) (.assign name expr) s = .done (.value v) t) :
    ∃ s', (stacking host).run fuel expr s = .done (.value v) s' ∧
      t.environments = s'.environments ∧
      ∀ e ∈ t.environments,
        (e.slot? name = s.config.env.slot? name → e.lookup? t.cells name = some v) ∧
        ∀ other, other ≠ name → e.lookup? t.cells other = e.lookup? s'.cells other := by
  simp only [stacking] at h ⊢
  rcases ho : run host (fuel + 1) (.assign name expr) s.config with ⟨flow, d⟩ | ⟨e, d⟩ | _ <;>
    rw [ho] at h <;> cases h
  obtain ⟨cell, c, hcell, hexpr, rfl⟩ := exists_of_run_assign ho
  have hevolves := evolves_of_run (congrArg Outcome.state? hexpr)
  have hsize := hevolves.size_le
  have hmade : cell < s.cells.size := hs.made _ List.mem_cons_self name cell hcell
  refine ⟨⟨c, s.callers⟩, by rw [hexpr]; rfl, rfl, ?_⟩
  have hname := Config.Unaliased.name_of_evolves hs hevolves hcell
  intro e he
  refine ⟨?_, ?_⟩
  · intro hslot
    have hget : (c.world.cells.set cell v).get cell = v := by
      rw [Cells.get_set c.world.cells (Nat.lt_of_lt_of_le hmade hsize), if_pos rfl]
    rw [Environment.lookup?, hslot, hcell]
    exact congrArg some hget
  · intro other hother
    exact Environment.lookup?_set_of_not_binds (fun h => hother (hname e he other h)) _ v

namespace Interpreter

variable {host : Host η} {fuel : Nat} {it it' : Interpreter η}

def Unaliased (it : Interpreter η) : Prop := it.world.cells.Unaliased [it.globals]

theorem Unaliased.define (h : it.Unaliased) (name : Name) (v : Value) :
    (it.define name v).Unaliased :=
  Cells.Unaliased.bindValue h name v

theorem Unaliased.defineCell (h : it.Unaliased) (name : Name) (v : Value) :
    (it.defineCell name v).Unaliased :=
  Cells.Unaliased.bindCell h name v

theorem Unaliased.registerAll (h : it.Unaliased) (natives : List Native) :
    (natives.foldl register it).Unaliased := by
  induction natives generalizing it with
  | nil => exact h
  | cons f natives ih => exact ih (h.define f.name (.native f))

theorem build_unaliased (conf : Configuration) (natives : List Native) (state : η) :
    (build conf natives state).Unaliased := by
  have hbare : ∀ it : Interpreter η, it.globals = .empty → it.Unaliased := by
    intro it hglobals
    constructor <;> simp [hglobals, Environment.Binds]
  refine Unaliased.registerAll ?_ natives
  unfold new
  split
  · exact (hbare _ rfl).registerAll _
  · exact hbare _ rfl

theorem compile_unaliased {tree : Tree} {form : Form} (hit : it.Unaliased)
    (h : it.compile tree = .ok (form, it')) : it'.Unaliased := by
  rw [eq_of_compile h]
  exact hit

theorem runForm_unaliased {form : Form} (hit : it.Unaliased)
    (h : (runForm (run host fuel) form it).state? = some it') : it'.Unaliased := by
  by_cases hform : ∃ name params body, form.code = .definition name params body
  · obtain ⟨name, params, body, hcode⟩ := hform
    simp only [runForm, hcode] at h
    cases h
    exact hit.define name _
  · rw [state?_runForm fun name params body hcode => hform ⟨name, params, body, hcode⟩] at h
    obtain ⟨c, hc, rfl⟩ := Option.map_eq_some_iff.1 h
    have hrun := run_keepsUnaliased host fuel [] form.code it.config hit
    have hleft := Outcome.Obeys.of_state? hrun hc
    exact hleft

theorem runTree_unaliased {tree : Tree} (hit : it.Unaliased)
    (h : (runTree (run host fuel) tree it).state? = some it') : it'.Unaliased := by
  unfold runTree at h
  split at h
  · next form it₁ hcompile =>
    exact runForm_unaliased (compile_unaliased hit hcompile) h
  · cases h
    exact hit

theorem call_unaliased {name : Name} {args : List Value} (hit : it.Unaliased)
    (h : (it.call host fuel name args).state? = some it') : it'.Unaliased := by
  unfold call at h
  split at h
  · cases h
    exact hit
  · next f hlookup =>
    rw [state?_settle, Outcome.state?_mapState] at h
    obtain ⟨w, hw, rfl⟩ := Option.map_eq_some_iff.1 h
    have hcall := (run_keepsUnaliased host fuel).callValue host hit f args
    have hleft := Outcome.Obeys.of_state? hcall hw
    exact hleft

theorem perform_unaliased (operation : Operation) (it it' : Interpreter η) (hit : it.Unaliased)
    (h : (it.perform host fuel operation).state? = some it') : it'.Unaliased := by
  cases operation with
  | program root =>
    simp only [perform, Outcome.state?_map] at h
    exact runForms_keeps (fun tree it it' => runTree_unaliased) 0 hit h
  | compile tree =>
    simp only [perform] at h
    split at h
    · next form it₁ hcompile =>
      cases h
      exact compile_unaliased hit hcompile
    · cases h
      exact hit
  | form form =>
    simp only [perform, Outcome.state?_map] at h
    exact runForm_unaliased hit h
  | call name args =>
    simp only [perform, Outcome.state?_map] at h
    exact call_unaliased hit h
  | register f =>
    cases h
    exact hit.define f.name _
  | define name v =>
    cases h
    exact hit.define name v
  | defineCell name v =>
    cases h
    exact hit.defineCell name v
  | clearOutput =>
    cases h
    exact hit

def livePoints (host : Host η) (fuel : Nat) (it : Interpreter η) (operation : Operation) :
    List (Event (Live η)) :=
  it.points host (stacking host) (fun c => ⟨c, []⟩) fuel operation

theorem livePoints_match (it : Interpreter η) (operation : Operation) :
    PointsMatch (fun s c => s.config = c) (it.livePoints host fuel operation)
      (it.points host (copying host) id fuel operation) := by
  have htrace : ∀ n c, PointsMatch (fun s c => s.config = c)
      ((stacking host).trace fuel n ⟨c, []⟩) ((copying host).trace fuel n c) :=
    fun n c => (stacking_simulates host).trace fuel n _ c rfl
  cases operation with
  | program root => exact formPoints_match _ htrace root.children it
  | form form =>
    simp only [livePoints, points]
    split
    · exact .nil
    · exact htrace _ _
  | call name args =>
    simp only [livePoints, points]
    split
    · exact .nil
    · exact (stacking_simulates host).callTrace fuel _ args rfl
  | _ => exact .nil

theorem formPoints_unaliased {trees : List Tree} {it : Interpreter η} (hit : it.Unaliased) :
    ∀ event ∈ formPoints (run host fuel) (fun n c => (stacking host).trace fuel n ⟨c, []⟩) trees it,
      event.state.Unaliased := by
  induction trees generalizing it with
  | nil => simp [formPoints]
  | cons tree trees ih =>
    unfold formPoints
    split
    · simp
    · next form it₁ hcompile =>
      have hit₁ : it₁.Unaliased := compile_unaliased hit hcompile
      intro event hevent
      rcases List.mem_append.1 hevent with hfirst | hrest
      · split at hfirst
        · simp at hfirst
        · exact (stacking_keeps host).trace fuel _ (s := ⟨it₁.config, []⟩) hit₁ event hfirst
      · split at hrest
        · next r it₂ hrun =>
          exact ih (runForm_unaliased hit₁ (congrArg Outcome.state? hrun)) event hrest
        · simp at hrest

theorem livePoints_unaliased (host : Host η) (fuel : Nat) (hit : it.Unaliased)
    (operation : Operation) :
    ∀ event ∈ it.livePoints host fuel operation, event.state.Unaliased := by
  cases operation with
  | program root => exact formPoints_unaliased hit
  | form form =>
    simp only [livePoints, points]
    split
    · simp
    · exact (stacking_keeps host).trace fuel _ (s := ⟨it.config, []⟩) hit
  | call name args =>
    simp only [livePoints, points]
    split
    · simp
    · exact (stacking_keeps host).callTrace fuel _ args (s := ⟨it.config, []⟩) hit
  | _ => simp [livePoints, points]

end Interpreter

open Interpreter in
/-- Variables never alias. Let no cell go by two global names, as in every newly built
interpreter. After any operations this is so again; and at every point of the next
operation, and wherever a node leaves off, a cell has one name in all the environments
alive, that of the code and those of its callers. So an assignment shows under its own name,
where that still has the cell, and changes what is read under no other name in any of them.
The points are all those of the operation, with the callers beside them. Natives may set
the cells that they hold: they bind no names. -/
theorem variables_never_alias (host : Host η) (fuel : Nat) :
    (∀ (conf : Configuration) (natives : List Native) (state : η),
      (build conf natives state).Unaliased) ∧
    ∀ (operations : List Operation) (it it' : Interpreter η), it.Unaliased →
      it.after host fuel operations = some it' → it'.Unaliased ∧
      ∀ operation : Operation,
        PointsMatch (fun s c => s.config = c) (it'.livePoints host fuel operation)
          (it'.points host (copying host) id fuel operation) ∧
        (∀ event ∈ it'.livePoints host fuel operation, event.state.Unaliased ∧
          ∀ (k : Nat) (n : Code) (s s' : Live η), event = .node k n s →
            ((stacking host).run (k + 1) n s).state? = some s' → s'.Unaliased) ∧
        ∀ (k : Nat) (name : Name) (expr : Code) (s t : Live η) (v : Value),
          .node k (.assign name expr) s ∈ it'.livePoints host fuel operation →
          (stacking host).run (k + 1) (.assign name expr) s = .done (.value v) t →
          ∃ s', (stacking host).run k expr s = .done (.value v) s' ∧
            t.environments = s'.environments ∧
            ∀ e ∈ t.environments,
              (e.slot? name = s.config.env.slot? name → e.lookup? t.cells name = some v) ∧
              ∀ other, other ≠ name → e.lookup? t.cells other = e.lookup? s'.cells other := by
  refine ⟨build_unaliased, ?_⟩
  intro operations it it' hit hafter
  have hit' : it'.Unaliased := after_keeps perform_unaliased hit hafter
  refine ⟨hit', ?_⟩
  intro operation
  have hpoints := livePoints_unaliased host fuel hit' operation
  refine ⟨livePoints_match it' operation, ?_, ?_⟩
  · intro event hevent
    refine ⟨hpoints event hevent, ?_⟩
    rintro k n s s' rfl hleft
    exact Outcome.Obeys.of_state? ((stacking_keeps host).run (k + 1) n (hpoints _ hevent)) hleft
  · intro k name expr s t v hevent hrun
    exact Live.Unaliased.assign (hpoints _ hevent) hrun

def renewing : Value :=
  .function 6 "renew" ["z"] (.block
    [.define "y", .assign "x" (.block [.define "x", .var "z"])])

def renewable : Interpreter Unit :=
  (((Interpreter.build {} [] ()).defineCell "x" (.text "old")).defineCell "y"
    (.text "kept")).define "renew" renewing

/-- In a call of `renew` by name, the assignment shows to the caller under `x` alone. -/
theorem renewing_never_aliases :
    (Interpreter.build {} [] ()).after echoing 8
      [.defineCell "x" (.text "old"), .defineCell "y" (.text "kept"), .define "renew" renewing] =
        some renewable ∧ renewable.Unaliased ∧
    ∃ s t : Live Unit,
      .node 6 (.assign "x" (.block [.define "x", .var "z"])) s ∈
        renewable.livePoints echoing 8 (.call "renew" [.text "new"]) ∧
      s.callers = [renewable.globals] ∧ s.Unaliased ∧
      (stacking echoing).run 7 (.assign "x" (.block [.define "x", .var "z"])) s =
        .done (.value (.text "new")) t ∧ t.Unaliased ∧
      ∃ s', (stacking echoing).run 6 (.block [.define "x", .var "z"]) s =
          .done (.value (.text "new")) s' ∧
        renewable.globals.lookup? s'.cells "x" = some (.text "old") ∧
        renewable.globals.lookup? t.cells "x" = some (.text "new") ∧
        renewable.globals.lookup? t.cells "y" = renewable.globals.lookup? s'.cells "y" := by
  obtain ⟨hbuilt, hall⟩ := variables_never_alias echoing 8
  obtain ⟨hit, hpoints⟩ := hall [.defineCell "x" (.text "old"), .defineCell "y" (.text "kept"),
    .define "renew" renewing] _ renewable (hbuilt {} [] ()) rfl
  obtain ⟨-, hevents, hassign⟩ := hpoints (.call "renew" [.text "new"])
  have hmem : .node 6 (.assign "x" (.block [.define "x", .var "z"])) _ ∈
      renewable.livePoints echoing 8 (.call "renew" [.text "new"]) :=
    List.mem_of_getElem? (i := 3) rfl
  obtain ⟨hstate, hleft⟩ := hevents _ hmem
  obtain ⟨s', hexpr, henvs, hreads⟩ := hassign _ _ _ _ _ _ hmem rfl
  obtain ⟨hown, hothers⟩ := hreads renewable.globals (List.mem_cons_of_mem _ List.mem_cons_self)
  refine ⟨rfl, hit, _, _, hmem, rfl, hstate, rfl, hleft _ _ _ _ rfl rfl, s', hexpr, ?_, ?_, ?_⟩
  · cases hexpr
    rfl
  · exact hown rfl
  · exact hothers "y" (by decide)

end Treewalk
