import Treewalk.Proofs.AlikePrograms
import Treewalk.Proofs.BindingFrame
import Treewalk.Proofs.Lockstep
import Treewalk.Proofs.StableNames
import Treewalk.Proofs.WriteLocality

/-!
Names that nothing mentions. A function sees all the names of its caller, so that a
binding could matter wherever control goes; still, a name that no code in reach reads,
defines, assigns to or has for a parameter does not matter at all. Two runs from
environments that differ in such a name alone stay in step to the end, and leave its
slot and its cell as they were. So what is called by name may be bound anew after the
call is compiled, and natives that a program does not mention may be registered.
-/
namespace Treewalk

variable {η : Type} {x : Name}

namespace Code

/-- The node itself reads, defines or assigns to `x`, or has it for a parameter. -/
def Mentions (x : Name) : Code → Prop
  | .var name | .define name | .assign name _ => name = x
  | .definition _ params _ | .const (.function _ _ params _) => x ∈ params
  | _ => False

def Avoids (x : Name) (n : Code) : Prop := n.Throughout fun m => ¬ m.Mentions x

end Code

def Value.Avoids (x : Name) (v : Value) : Prop := (Code.const v).Avoids x

theorem Code.not_mentions_of_not_isFunction {v : Value} (h : ¬ v.IsFunction) :
    ¬ (Code.const v).Mentions x := by
  cases v with
  | function => exact absurd trivial h
  | _ => exact fun h => h

theorem Value.avoids_of_not_isFunction {v : Value} (h : ¬ v.IsFunction) : v.Avoids x :=
  Value.throughout_const (Code.not_mentions_of_not_isFunction h) h

theorem Value.Avoids.reaches {v u : Value} (h : v.Avoids x) (hu : v.Reaches u) : u.Avoids x :=
  Value.throughout_of_reaches h hu

namespace Environment

def AgreeBut (x : Name) (e e' : Environment) : Prop :=
  ∀ name, name ≠ x → e.slot? name = e'.slot? name

/-- Under names other than `x` there are no plain values that mention it. -/
def AvoidsBut (x : Name) (e : Environment) : Prop :=
  ∀ name v, name ≠ x → e.slot? name = some (.plain v) → v.Avoids x

theorem AgreeBut.bind {e e' : Environment} (h : e.AgreeBut x e') (name : Name) (slot : Slot) :
    (e.bind name slot).AgreeBut x (e'.bind name slot) := by
  intro other hother
  rw [slot?_bind, slot?_bind, h other hother]

theorem AgreeBut.bindAll {e e' : Environment} (h : e.AgreeBut x e') (params : List Name)
    (args : List Value) : (e.bindAll params args).AgreeBut x (e'.bindAll params args) := by
  intro name hname
  rw [slot?_bindAll, slot?_bindAll, h name hname]

theorem AvoidsBut.bind {e : Environment} (h : e.AvoidsBut x) (name : Name) {slot : Slot}
    (hslot : ∀ v, slot = .plain v → v.Avoids x) : (e.bind name slot).AvoidsBut x := by
  intro other v hother hbound
  rw [slot?_bind] at hbound
  split at hbound
  · exact hslot v (Option.some.inj hbound)
  · exact h other v hother hbound

theorem AvoidsBut.bindAll {e : Environment} (h : e.AvoidsBut x) (params : List Name)
    {args : List Value} (hargs : ∀ a ∈ args, a.Avoids x) : (e.bindAll params args).AvoidsBut x := by
  induction params generalizing e args with
  | nil => exact h
  | cons name params ih =>
    cases args with
    | nil => exact h
    | cons v args =>
      have hv : ∀ u, Slot.plain v = .plain u → u.Avoids x := by
        rintro u heq
        cases heq
        exact hargs v (by simp)
      exact ih (h.bind name hv) fun a ha => hargs a (by simp [ha])

end Environment

/-- No function in a cell, or in the hands of the host, mentions `x`. -/
structure World.AvoidsIn (held : η → Value → Prop) (x : Name) (w : World η) : Prop where
  cells : w.cells.Carry (Value.Avoids x) fun _ => True
  held : ∀ v, held w.host v → v.Avoids x

section Overlooking

variable {host : Host η} {held : η → Value → Prop}

theorem Environment.lookup?_avoids {e : Environment} {w : World η} (he : e.AvoidsBut x)
    (hw : w.AvoidsIn held x) {name : Name} (hname : name ≠ x) {v : Value}
    (h : e.lookup? w.cells name = some v) : v.Avoids x := by
  obtain ⟨slot, hslot, rfl⟩ := Option.map_eq_some_iff.1 h
  cases slot with
  | plain v => exact he name v hname hslot
  | cell cell => exact hw.cells.contents cell trivial

def overlooking (hback : host.HandsBack held) (x : Name) : Lockstep host where
  fit n := ¬ n.Mentions x
  env e e' := e.AgreeBut x e' ∧ e.AvoidsBut x
  world w w' := w.AvoidsIn held x ∧ w = w'
  data h := Code.not_mentions_of_not_isFunction h
  read := by
    rintro name e e' w _ hname ⟨hagree, havoids⟩ ⟨hw, rfl⟩
    have hlookup : e.lookup? w.cells name = e'.lookup? w.cells name := by
      rw [Environment.lookup?, Environment.lookup?, hagree name hname]
    exact ⟨hlookup, fun v hv => Environment.lookup?_avoids havoids hw hname hv⟩
  define := by
    rintro name ⟨e, w⟩ ⟨e', _⟩ - ⟨hagree, havoids⟩ ⟨hw, rfl⟩
    have habsent : Value.absent.Avoids x := Value.avoids_of_not_isFunction fun h => h
    refine ⟨⟨hagree.bind name _, havoids.bind name ?_⟩, ⟨hw.cells.alloc habsent, hw.held⟩, rfl⟩
    intro v heq
    cases heq
  target := by
    rintro name n e e' hname ⟨hagree, -⟩
    rw [hagree name hname]
    exact Slot.sameKind_refl _
  store := by
    rintro ⟨e, w⟩ ⟨e', _⟩ v cell ⟨hw, rfl⟩ hv
    exact ⟨⟨hw.cells.set cell hv, hw.held⟩, rfl⟩
  enter := by
    rintro id name params b e e' args - ⟨hagree, havoids⟩ hargs
    exact ⟨hagree.bindAll params args, havoids.bindAll params hargs⟩
  native := by
    rintro f args w _ hargs ⟨hw, rfl⟩
    have hdata : ∀ v : Value, ¬ v.IsFunction → v.Avoids x :=
      fun v hv => Value.avoids_of_not_isFunction hv
    obtain ⟨⟨hcells, hheld⟩, hvalue⟩ := hback.apply_carries hdata hargs ⟨hw.cells, hw.held⟩
      (show host.apply f args w = ((host.apply f args w).1, (host.apply f args w).2) from rfl)
    exact ⟨rfl, hvalue, ⟨hcells, hheld⟩, rfl⟩

/-- A function at hand at the start does not mention `x`, if `x` is bound to a cell. -/
theorem Config.Finds.avoids {given : Value → Prop} {c : Config η}
    (hgiven : ∀ v, given v → v.Avoids x) (henv : c.env.AvoidsBut x)
    (hworld : c.world.AvoidsIn held x) {cell : CellId} (hslot : c.env.slot? x = some (.cell cell))
    {f : Value} (h : c.Finds given f) : f.Avoids x := by
  cases h with
  | given h hf => exact (hgiven _ h).reaches hf
  | @plain name v h hf =>
    have hname : name ≠ x := by
      rintro rfl
      rw [hslot] at h
      cases h
    exact (henv name v hname h).reaches hf
  | contents cell hf => exact Value.Avoids.reaches (hworld.cells.contents cell trivial) hf

/-- The cell of a name that nothing mentions keeps its contents, unless natives set it. -/
theorem get_of_unmentioned (hback : host.HandsBack held) {sets : CellId → Prop}
    (hsets : host.SetsOnly sets) {fuel : Nat} {n : Code} (hn : n.Avoids x) {c c' : Config η}
    (henv : c.env.AvoidsBut x) (hworld : c.world.AvoidsIn held x) {cell : CellId}
    (hslot : c.env.slot? x = some (.cell cell))
    (hother : ∀ name, name ≠ x → c.env.slot? name ≠ some (.cell cell))
    (hcell : cell < c.world.cells.size) (hunset : ¬ sets cell)
    (h : (run host fuel n c).state? = some c') :
    c'.world.cells.get cell = c.world.cells.get cell := by
  let given : Value → Prop := fun v => n.Holds v ∨ held c.world.host v
  have hgiven : ∀ v, given v → v.Avoids x := by
    rintro v (hholds | hheld)
    · exact hn.within hholds
    · exact hworld.held v hheld
  have hhost : host.ReturnsOnly (c.Finds given) c.world.host :=
    hback.returnsOnly fun v hv _ => .given (.inr hv) (.self v)
  have hassigns : ∀ m : Code, m.Avoids x → ¬ m.Assigns x := by
    rintro m hm ⟨expr, hassign⟩
    exact (hm.within hassign).self rfl
  have hmay : ¬ c.MayAssign given x := by
    rintro ⟨id, name, params, body, hfound, hbody⟩
    have hfunction : (Value.function id name params body).Avoids x :=
      hfound.avoids hgiven henv hworld hslot
    exact hassigns body (hfunction.inside (.held id name params body)) hbody
  have hallows : ∀ name, c.MayAssign given name → n.Assigns name ∨ c.MayAssign given name :=
    fun _ h => .inr h
  let I := tracking hhost hsets hallows
  have hcode : I.code [] n := ⟨fun v hv _ => .given (.inl hv) (.self v), fun _ h => .inl h⟩
  have hchanges := ((I.run_keeps fuel hcode tracking_start).of_state? h).2.2.2
  by_contra hchanged
  obtain ⟨name, hname, hallowed⟩ := (hchanges.changed cell hcell hchanged).resolve_left hunset
  have heq : name = x := by
    by_contra hne
    exact hother name hne hname
  subst heq
  exact hallowed.elim (hassigns n hn) hmay

/-- Code that avoids `x` can stand as a form over environments that differ there. -/
theorem overlooking_formPair (hback : host.HandsBack held) {n : Code} (hn : n.Avoids x) :
    (overlooking hback x).correspondence.FormPair n n := by
  refine Lockstep.formPair hn ?_
  rintro id name params b e e' rfl ⟨hagree, havoids⟩
  have hparams : x ∉ params := hn.self
  have hfunction : (Value.function id name params b).Avoids x :=
    Code.throughout_function hparams (hn.inside (.defined name params b))
  refine ⟨hagree.bind name _, havoids.bind name ?_⟩
  intro v heq
  cases heq
  exact hfunction

end Overlooking

section Compiling

/-- The tree itself reads, defines, assigns to or calls `x`, is a function of that name, or
has it for a parameter. -/
def Tree.mentions (x : Name) (tree : Tree) : Bool :=
  match tree.form? with
  | some .read | some .declare | some .store => tree.attribute? "name" == some x
  | some .function => tree.attribute? "name" == some x ||
      (parameters ((tree.attribute? "args").getD "")).contains x
  | some .call => tree.attribute? "fun" == some x
  | _ => false

def Tree.avoids (x : Name) (tree : Tree) : Bool := tree.everywhere fun t => !t.mentions x

variable {scope scope' : Scope}

/-- Compilation depends on the names that are called, and on no others. -/
theorem compile_congr {p : Tree → Bool} (hpolicy : scope.policy = scope'.policy)
    (htarget : ∀ (t : Tree) (name : Name), p t → t.form? = some .call →
      t.attribute? "fun" = some name → scope.target name = scope'.target name)
    {tree : Tree} (htree : tree.everywhere p) : compile scope tree = compile scope' tree := by
  induction tree using Tree.induction with
  | h tree ih =>
    obtain ⟨hself, hchildren⟩ := Tree.everywhere_iff.1 htree
    have hparts : tree.children.map (compile scope) = tree.children.map (compile scope') :=
      List.map_congr_left fun child hmem => ih child hmem (hchildren child hmem)
    rw [compile_eq, compile_eq, hparts]
    cases hform : tree.form? with
    | none => simp only [assemble, show Tag.ofSpelling? tree.tag = none from hform, hpolicy]
    | some form =>
      simp only [assemble, show Tag.ofSpelling? tree.tag = some form from hform]
      cases form with
      | call =>
        cases hfun : tree.attributes.get? "fun" with
        | none => rfl
        | some name =>
          dsimp only
          rw [htarget tree name hself hform hfun]
      | _ => rfl

theorem compile_avoiding (hpolicy : scope.policy = scope'.policy)
    (htarget : ∀ name, name ≠ x → scope.target name = scope'.target name) {tree : Tree}
    (htree : tree.avoids x) : compile scope tree = compile scope' tree := by
  refine compile_congr hpolicy ?_ htree
  intro t name ht hform hfun
  refine htarget name ?_
  rintro rfl
  simp [Tree.mentions, hform, hfun] at ht

/-- Code mentions `x` only if its tree does. -/
theorem not_mentions_of_compile {tree : Tree} {n : Code} (htree : !tree.mentions x)
    (h : compile scope tree = .ok n) : ¬ n.Mentions x := by
  simp only [Tree.mentions, Bool.not_eq_true'] at htree
  cases compiled_of_compile h with
  | read hform hname | declare hform hname | store hform hname =>
    simp only [hform, hname] at htree
    simpa [Code.Mentions] using htree
  | function hform hname hchildren hbody =>
    simp only [hform, hname, Bool.or_eq_false_iff] at htree
    simpa [Code.Mentions] using htree.2
  | _ => exact fun h => h

/-- A tree that avoids `x` compiles to code that does, if the names it can call stand for
values that do. -/
theorem avoids_of_compile (htarget : ∀ name, name ≠ x → (scope.target name).Avoids x)
    {tree : Tree} (htree : tree.avoids x) {n : Code} (h : compile scope tree = .ok n) :
    n.Avoids x := by
  -- What `x` stands for is of no account, so it may as well stand for nothing.
  let other : Scope := ⟨scope.policy, fun name => if name = x then .absent else scope.target name⟩
  have hother : compile other tree = .ok n := by
    rw [← h]
    refine compile_avoiding (show other.policy = scope.policy from rfl) ?_ htree
    intro name hname
    exact if_neg hname
  refine throughout_of_compile (fun t m ht hm => not_mentions_of_compile ht hm) ?_ htree hother
  intro name
  by_cases hname : name = x
  · simp only [other, if_pos hname]
    exact Value.avoids_of_not_isFunction fun h => h
  · simp only [other, if_neg hname]
    exact htarget name hname

end Compiling

namespace Interpreter

structure SameBut (x : Name) (it it' : Interpreter η) : Prop where
  globals : it.globals.AgreeBut x it'.globals
  world : it.world = it'.world
  policy : it.policy = it'.policy
  nextId : it.nextId = it'.nextId

variable {host : Host η} {held : η → Value → Prop}

theorem target_avoids {it : Interpreter η} (hglobals : it.globals.AvoidsBut x)
    (hworld : it.world.AvoidsIn held x) {name : Name} (hname : name ≠ x) :
    (it.scope.target name).Avoids x := by
  simp only [scope, lookup?]
  cases hlookup : it.globals.lookup? it.world.cells name with
  | none => exact Value.avoids_of_not_isFunction fun h => h
  | some v => exact Environment.lookup?_avoids hglobals hworld hname hlookup

/-- Trees that avoid `x` are accepted over globals that differ there. -/
theorem overlooking_accepts (hback : host.HandsBack held) (policy : Policy) {tree : Tree}
    (htree : tree.avoids x) :
    (overlooking hback x).correspondence.Accepts policy policy tree tree where
  compile := by
    intro it it' hit
    obtain ⟨hagree, havoids⟩ := hit.globals
    obtain ⟨hworld, heq⟩ := hit.world
    have htarget : ∀ name, name ≠ x → it.scope.target name = it'.scope.target name := by
      intro name hname
      simp only [scope, lookup?, Environment.lookup?, hagree name hname, heq]
    rw [← compile_avoiding (hit.left.trans hit.right.symm) htarget htree]
    cases hcompile : Treewalk.compile it.scope tree with
    | error e => exact .error e
    | ok n =>
      have hn : n.Avoids x :=
        avoids_of_compile (fun name hname => target_avoids havoids hworld hname) htree hcompile
      exact .ok (overlooking_formPair hback hn)
  tag _ _ _ := rfl

/-- Interpreters that differ at `x` alone, the globals and the world of which avoid it. -/
theorem overlooking_aligned (hback : host.HandsBack held) {it it' : Interpreter η}
    (h : it.SameBut x it') (hglobals : it.globals.AvoidsBut x) (hworld : it.world.AvoidsIn held x) :
    (overlooking hback x).correspondence.Aligned it.policy it.policy it it' :=
  ⟨⟨h.globals, hglobals⟩, ⟨hworld, h.world⟩, h.nextId, rfl, h.policy.symm⟩

theorem sameBut_of_aligned {hback : host.HandsBack held} {policy : Policy}
    {it it' : Interpreter η}
    (h : (overlooking hback x).correspondence.Aligned policy policy it it') : it.SameBut x it' :=
  ⟨h.globals.1, h.world.2, h.left.trans h.right.symm, h.nextId⟩

theorem sameBut_bind (it : Interpreter η) (x : Name) (slot : Slot) :
    it.SameBut x { it with globals := it.globals.bind x slot } := by
  refine ⟨?_, rfl, rfl, rfl⟩
  intro name hname
  exact (Environment.slot?_bind_of_ne hname it.globals slot).symm

end Interpreter

/-- Code, and environments for it over one world, that differ at `x` alone and mention it
nowhere. No other name is bound to a cell of `x`. -/
structure Unmentioned (held : η → Value → Prop) (x : Name) (n : Code) (e e' : Environment)
    (w : World η) : Prop where
  code : n.Avoids x
  agree : e.AgreeBut x e'
  env : e.AvoidsBut x
  world : w.AvoidsIn held x
  apart : ∀ name cell, name ≠ x →
    e.slot? x = some (.cell cell) ∨ e'.slot? x = some (.cell cell) →
      e.slot? name ≠ some (.cell cell)

/-- How two runs from `start` and `start'` end if they differ at `x` alone: in one world and
with the same slots under all other names, the slot of `x` is on both sides what it was,
and so are the contents of its cell, unless it is one that natives set. -/
structure Config.InStep (x : Name) (sets : CellId → Prop) (start start' c c' : Config η) :
    Prop where
  world : c.world = c'.world
  agree : c.env.AgreeBut x c'.env
  left : c.env.slot? x = start.env.slot? x
  right : c'.env.slot? x = start'.env.slot? x
  contents : ∀ cell < start.world.cells.size, ¬ sets cell →
    start.env.slot? x = some (.cell cell) ∨ start'.env.slot? x = some (.cell cell) →
      c.world.cells.get cell = start.world.cells.get cell

/-- Code that avoids a name does not define it. -/
theorem slot?_of_unmentioned {host : Host η} {fuel : Nat} {n : Code} (hn : n.Avoids x)
    {c c' : Config η} (h : (run host fuel n c).state? = some c') :
    c'.env.slot? x = c.env.slot? x := by
  rcases (evolves_of_run h).slots x with hsame | ⟨hdefines, -⟩
  · exact hsame
  · exact absurd rfl (hn.within hdefines).self

open Interpreter in
/-- Unmentioned names do not matter. Let two environments over one store differ at `x`
alone, let no code, no value under another name and no value in the store mention `x`, and
let natives give functions back only, also to the cells they hold. Then, from the same
state of the natives, code ends in the same way in both, with the same result or error, in
the same world and with the same slots elsewhere; the slot of `x` is left alone, and so is
its cell unless natives set that. In particular a compiled form does the same after the
name it calls is bound anew, and a program does the same with a native registered that it
does not mention. -/
theorem unmentioned_names_do_not_matter {host : Host η} {held : η → Value → Prop}
    (hback : host.HandsBack held) {sets : CellId → Prop} (hsets : host.SetsOnly sets)
    (x : Name) :
    (∀ (fuel : Nat) (n : Code) (e e' : Environment) (w : World η),
      Unmentioned held x n e e' w →
      (run host fuel n ⟨e, w⟩).Rel (Config.InStep x sets ⟨e, w⟩ ⟨e', w⟩)
        (run host fuel n ⟨e', w⟩)) ∧
    (∀ (fuel : Nat) (it it₁ : Interpreter η) (tree : Tree) (form : Form) (slot : Slot),
      it.globals.AvoidsBut x → it.world.AvoidsIn held x → it.compile tree = .ok (form, it₁) →
      form.code.Avoids x →
      (runForm (run host fuel) form it₁).Rel (SameBut x)
        (runForm (run host fuel) form { it₁ with globals := it₁.globals.bind x slot })) ∧
    ∀ (it : Interpreter η) (f : Native) (root : Tree), f.name = x →
      it.globals.AvoidsBut x → it.world.AvoidsIn held x →
      (∀ form ∈ root.children, form.avoids x) →
      EndAlike host Eq (SameBut x) root it root (it.register f) := by
  refine ⟨?_, ?_, ?_⟩
  · rintro fuel n e e' w ⟨hn, hagree, havoids, hw, hapart⟩
    have hrel := Lockstep.run_rel (L := overlooking hback x) fuel hn
      (show (overlooking hback x).correspondence.Holds ⟨e, w⟩ ⟨e', w⟩ from
        ⟨⟨hagree, havoids⟩, hw, rfl⟩)
    have havoids' : e'.AvoidsBut x := by
      intro name v hname hslot
      exact havoids name v hname ((hagree name hname).trans hslot)
    refine hrel.imp ?_
    rintro c c' hc hc' ⟨⟨hslots, -⟩, -, hworld⟩
    refine ⟨hworld, hslots, slot?_of_unmentioned hn hc, slot?_of_unmentioned hn hc', ?_⟩
    rintro cell hcell hunset (hslot | hslot)
    · exact get_of_unmentioned hback hsets hn havoids hw hslot
        (fun name hname => hapart name cell hname (.inl hslot)) hcell hunset hc
    · -- The cell is the other side's, so the other run is the one to look at.
      have hother : ∀ name, name ≠ x → e'.slot? name ≠ some (.cell cell) := by
        intro name hname hbound
        exact hapart name cell hname (.inr hslot) ((hagree name hname).trans hbound)
      have hkept : c'.world.cells.get cell = w.cells.get cell :=
        get_of_unmentioned hback hsets hn havoids' hw hslot hother hcell hunset hc'
      rw [hworld, hkept]
  · intro fuel it it₁ tree form slot hglobals hworld hcompile hform
    have hglobals₁ : it₁.globals.AvoidsBut x := by
      rw [eq_of_compile hcompile]
      exact hglobals
    have hworld₁ : it₁.world.AvoidsIn held x := by
      rw [eq_of_compile hcompile]
      exact hworld
    have haligned := overlooking_aligned hback (it₁.sameBut_bind x slot) hglobals₁ hworld₁
    refine (Lockstep.runForm_rel fuel (overlooking_formPair hback hform) haligned).imp ?_
    exact fun _ _ _ _ h => sameBut_of_aligned h
  · rintro it f root rfl hglobals hworld hroot
    have haligned := overlooking_aligned hback
      (it.sameBut_bind f.name (.plain (.native f))) hglobals hworld
    have hforms := List.forall₂_same.2 fun form hform =>
      overlooking_accepts hback it.policy (hroot form hform)
    refine (Correspondence.endAlike hforms haligned).imp (fun v w h => h.2) ?_
    exact fun _ _ h => sameBut_of_aligned h

theorem Code.avoids_var {name : Name} (h : name ≠ x) : (Code.var name).Avoids x := by
  refine .all h ?_
  intro m hm
  cases hm with
  | part hpart => cases hpart

theorem Code.avoids_call {callee : Code} {args : List Code} (hcallee : callee.Avoids x)
    (hargs : ∀ arg ∈ args, arg.Avoids x) : (Code.call callee args).Avoids x := by
  refine .all (fun h => h) ?_
  intro m hm
  cases hm with
  | part hpart =>
    cases hpart with
    | callee => exact hcallee
    | arg _ hmem => exact hargs m hmem

theorem Code.avoids_block {children : List Code} (h : ∀ child ∈ children, child.Avoids x) :
    (Code.block children).Avoids x := by
  refine .all (fun h => h) ?_
  intro m hm
  cases hm with
  | part hpart =>
    cases hpart with
    | child hmem => exact h m hmem

/-- A new interpreter has nothing but natives. -/
theorem Interpreter.new_avoids (conf : Configuration) (host : η) :
    (new conf host).globals.AvoidsBut x := by
  intro name v _ hslot
  have hlookup : (new conf host).lookup? name = some v := by
    simp [lookup?, Environment.lookup?, hslot, Slot.value]
  obtain ⟨f, rfl⟩ := lookup?_new hlookup
  exact Value.avoids_of_not_isFunction fun h => h

def telling : Value :=
  .function 6 "tell" ["y"]
    (.call (.const (.native ⟨0, "print", some .print⟩)) [.var "y"])

theorem telling_avoids : telling.Avoids "tell" := by
  have hprint : (Value.native ⟨0, "print", some .print⟩).Avoids "tell" :=
    Value.avoids_of_not_isFunction fun h => h
  refine Code.throughout_function (by simp [Code.Mentions]) (Code.avoids_call hprint ?_)
  intro arg harg
  rw [List.mem_singleton.1 harg]
  exact Code.avoids_var (by decide)

def informed : Interpreter Unit := (Interpreter.new {} ()).define "tell" telling

theorem informed_globals_avoid : informed.globals.AvoidsBut "tell" := by
  intro name v hname hslot
  refine Interpreter.new_avoids {} () name v hname ?_
  rwa [← Environment.slot?_bind_of_ne hname _ (.plain telling)]

theorem informed_world_avoids : informed.world.AvoidsIn (fun _ _ => False) "tell" := by
  refine ⟨⟨?_, fun _ _ => trivial⟩, fun v hv => absurd hv fun h => h⟩
  intro cell _
  rw [Cells.get_of_size_le (Nat.zero_le cell)]
  exact Value.avoids_of_not_isFunction fun h => h

/-- There is no cell among the globals. -/
theorem informed_plain (name : Name) (cell : CellId) (hname : name ≠ "tell") :
    informed.globals.slot? name ≠ some (.cell cell) := by
  intro hslot
  have hnew : (Interpreter.new {} ()).globals.slot? name = some (.cell cell) := by
    rwa [← Environment.slot?_bind_of_ne hname _ (.plain telling)]
  have hlookup : (Interpreter.new {} ()).lookup? name = some .absent := by
    have hempty : (Interpreter.new {} ()).world.cells.get cell = .absent :=
      Cells.get_of_size_le (Nat.zero_le cell)
    simp only [Interpreter.lookup?, Environment.lookup?, hnew, Option.map_some, Slot.value, hempty]
  obtain ⟨f, hf⟩ := Interpreter.lookup?_new hlookup
  cases hf

def news : Tree where
  tag := "call"
  attributes := .ofList [("fun", "tell")]
  children := [{ tag := "string", attributes := .ofList [("value", "news")] }]

def newsCode : Code := .call (.const telling) [.const (.text "news")]

theorem newsCode_avoids : newsCode.Avoids "tell" := by
  refine Code.avoids_call telling_avoids ?_
  intro arg harg
  rw [List.mem_singleton.1 harg]
  exact Value.avoids_of_not_isFunction fun h => h

def otherNews : Tree where
  tag := "program"
  children := [{ news with attributes := .ofList [("fun", "print")] }]

/-- The call compiled where `tell` prints does the same over a cell for `tell`, which keeps
its contents. After `tell` is bound to a text, and so cannot be called any more, it still
prints. And a native under that name makes no difference to a program without it. -/
theorem news_still_told :
    (run echoing 8 newsCode
        ⟨informed.globals, (informed.defineCell "tell" (.text "kept")).world⟩).Rel
        (Config.InStep "tell" (fun _ => False)
          ⟨informed.globals, (informed.defineCell "tell" (.text "kept")).world⟩
          (informed.defineCell "tell" (.text "kept")).config)
        (run echoing 8 newsCode (informed.defineCell "tell" (.text "kept")).config) ∧
    (news.CallsByName "tell" ∧
      ∃ form it₁, informed.compile news = .ok (form, it₁) ∧ form.code = newsCode ∧
        (∃ it₂, Interpreter.runForm (run echoing 8) form
            { it₁ with globals := it₁.globals.bind "tell" (.plain (.text "gone")) } =
              .done (some .absent) it₂ ∧ it₂.world.printer.pending = "news\n") ∧
        (Interpreter.runForm (run echoing 8) form it₁).Rel (Interpreter.SameBut "tell")
          (Interpreter.runForm (run echoing 8) form
            { it₁ with globals := it₁.globals.bind "tell" (.plain (.text "gone")) })) ∧
    Interpreter.EndAlike echoing Eq (Interpreter.SameBut "tell") otherNews informed otherNews
      (informed.register ⟨9, "tell", none⟩) := by
  obtain ⟨hruns, hforms, hprograms⟩ :=
    unmentioned_names_do_not_matter echoing_handsBack echoing_setsNoCells "tell"
  refine ⟨?_, ⟨by decide, _, _, rfl, rfl, ⟨_, rfl, rfl⟩, ?_⟩, ?_⟩
  · have hworld : (informed.defineCell "tell" (.text "kept")).world.AvoidsIn (fun _ _ => False)
        "tell" :=
      ⟨informed_world_avoids.cells.alloc (Value.avoids_of_not_isFunction fun h => h),
        informed_world_avoids.held⟩
    refine hruns 8 newsCode informed.globals _ _
      ⟨newsCode_avoids, ?_, informed_globals_avoid, hworld, ?_⟩
    · exact (informed.sameBut_bind "tell" (.cell 0)).globals
    · exact fun name cell hname _ => informed_plain name cell hname
  · exact hforms 8 informed _ news _ (.plain (.text "gone")) informed_globals_avoid
      informed_world_avoids rfl newsCode_avoids
  · exact hprograms informed ⟨9, "tell", none⟩ otherNews rfl informed_globals_avoid
      informed_world_avoids (by decide)

def markCode : Code := .call (.const (.native ⟨0, "mark", none⟩)) []

theorem markCode_avoids : markCode.Avoids x := by
  refine Code.avoids_call (Value.avoids_of_not_isFunction fun h => h) ?_
  intro arg harg
  cases harg

def followCode : Code := .block [markCode, .call (.var "y") []]

theorem followCode_avoids : followCode.Avoids "x" := by
  refine Code.avoids_block ?_
  intro child hchild
  rcases List.mem_pair.1 hchild with rfl | rfl
  · exact markCode_avoids
  · exact Code.avoids_call (Code.avoids_var (by decide)) fun arg harg => by cases harg

def tattling : Value := .function 0 "tattle" [] (.var "x")

def oneCell (host : η) : World η :=
  { cells := (({} : Cells).alloc .absent).2, printer := { sink := .silent }, host }

theorem oneCell_avoids (host : η) : (oneCell host).AvoidsIn (fun _ _ => False) x := by
  have habsent : Value.absent.Avoids x := Value.avoids_of_not_isFunction fun h => h
  refine ⟨Cells.Carry.alloc ⟨?_, fun _ _ => trivial⟩ habsent, fun v hv => absurd hv fun h => h⟩
  intro cell _
  rw [Cells.get_of_size_le (Nat.zero_le cell)]
  exact habsent

def bystander (text : String) : Environment :=
  (Environment.empty.bind "y" (.cell 0)).bind "x" (.plain (.text text))

theorem bystander_slot? {text : String} {name : Name} (hname : name ≠ "x") :
    (bystander text).slot? name = (Environment.empty.bind "y" (.cell 0)).slot? name :=
  Environment.slot?_bind_of_ne hname _ _

theorem bystander_unmentioned {n : Code} (hn : n.Avoids "x") (host : η) :
    Unmentioned (fun _ _ => False) "x" n (bystander "here") (bystander "there")
      (oneCell host) where
  code := hn
  agree name hname := by rw [bystander_slot? hname, bystander_slot? hname]
  env name v hname hslot := by
    rw [bystander_slot? hname, Environment.slot?_bind] at hslot
    split at hslot <;> cases hslot
  world := oneCell_avoids host
  apart name cell hname hslot := by
    rcases hslot with hslot | hslot <;> cases hslot

def holder : Environment := Environment.empty.bind "x" (.cell 0)

theorem holder_unmentioned {n : Code} (hn : n.Avoids "x") (host : η) :
    Unmentioned (fun _ _ => False) "x" n holder holder (oneCell host) where
  code := hn
  agree _ _ := rfl
  env name v hname hslot := by
    rw [holder, Environment.slot?_bind_of_ne hname] at hslot
    cases hslot
  world := oneCell_avoids host
  apart name cell hname _ hslot := by
    rw [holder, Environment.slot?_bind_of_ne hname] at hslot
    cases hslot

/-- It is not enough that natives return no function that they were not given. One that
holds the cell of `x` changes it, one that puts `tattling` into its cell lets code read `x`
that does not mention it, and one that changes with each call tells the first run from the
second. -/
theorem natives_reach_unmentioned_names :
    ((∀ f, (writing (.text "seen")).ReturnsArguments f) ∧
      Unmentioned (fun _ _ => False) "x" markCode holder holder (oneCell ()) ∧
      ∃ c, run (writing (.text "seen")) 4 markCode ⟨holder, oneCell ()⟩ =
          .done (.value .absent) c ∧
        c.world.cells.get 0 ≠ (oneCell ()).cells.get 0) ∧
    ((∀ f, (writing tattling).ReturnsArguments f) ∧
      Unmentioned (fun _ _ => False) "x" followCode (bystander "here") (bystander "there")
        (oneCell ()) ∧
      (∃ c, run (writing tattling) 4 followCode ⟨bystander "here", oneCell ()⟩ =
        .done (.value (.text "here")) c) ∧
      ∃ c, run (writing tattling) 4 followCode ⟨bystander "there", oneCell ()⟩ =
        .done (.value (.text "there")) c) ∧
    (∀ f, turning.ReturnsArguments f) ∧
      Unmentioned (fun _ _ => False) "x" markCode (bystander "here") (bystander "there")
        (oneCell false) ∧
      ∃ c c', run turning 4 markCode ⟨bystander "here", oneCell false⟩ =
          .done (.value (.bool false)) c ∧
        c.world.cells = (oneCell false).cells ∧
        run turning 4 markCode ⟨bystander "there", c.world⟩ = .done (.value (.bool true)) c' := by
  refine ⟨⟨writing_returnsArguments _, holder_unmentioned markCode_avoids (), _, rfl, ?_⟩,
    ⟨writing_returnsArguments _, bystander_unmentioned followCode_avoids (), ⟨_, rfl⟩, _, rfl⟩,
    turning_returnsArguments, bystander_unmentioned markCode_avoids false, _, _, rfl, rfl, rfl⟩
  intro heq
  cases heq

end Treewalk
