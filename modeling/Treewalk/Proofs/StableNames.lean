import Treewalk.Proofs.AlikePrograms
import Treewalk.Proofs.StockNatives

/-!
Early and late binding. A call by name has its target from the time it is compiled; a
call of what a variable holds finds it when it is run. The two agree for a name that
is bound to a plain value and stays so: if nothing in a program defines the name,
installs a function under it or has it for a parameter, then the program may as well
look the name up at each call. The invariant behind this is that every environment
of the run still has the first slot of the name.
-/
namespace Treewalk

variable {η : Type}

namespace Attributes

def erase (attributes : Attributes) (key : String) : Attributes where
  entries := attributes.entries.filter fun entry => entry.1 != key
  sorted := attributes.sorted.filter _

theorem get?_erase_self (attributes : Attributes) (key : String) :
    (attributes.erase key).get? key = none := by
  rw [get?, List.lookup_eq_none_iff]
  intro entry hentry
  have hne : entry.1 ≠ key := by simpa using (List.mem_filter.1 hentry).2
  simpa using hne.symm

end Attributes

namespace Tree

def readOf (name : Name) : Tree := (leaf "var").withAttribute "name" name

def CallsByName (f : Name) (tree : Tree) : Prop :=
  tree.form? = some .call ∧ tree.attribute? "fun" = some f

instance (f : Name) (tree : Tree) : Decidable (tree.CallsByName f) :=
  inferInstanceAs (Decidable (_ ∧ _))

/-- A call of `f` by name becomes a call of what the variable `f` holds. -/
def orLate (f : Name) (tree : Tree) : Tree :=
  if tree.CallsByName f then
    { tree with
      attributes := tree.attributes.erase "fun"
      children := readOf f :: tree.children }
  else tree

def late (f : Name) : Tree → Tree := rebuild (orLate f)

theorem late_eq (f : Name) (tree : Tree) :
    tree.late f = if tree.CallsByName f then
        { tree with
          attributes := tree.attributes.erase "fun"
          children := readOf f :: tree.children.map (late f) }
      else { tree with children := tree.children.map (late f) } := by
  rw [late, rebuild_eq]
  rfl

theorem late_tag (f : Name) (tree : Tree) : (tree.late f).tag = tree.tag := by
  rw [late_eq]
  split <;> rfl

def lateForms (f : Name) (root : Tree) : Tree :=
  { root with children := root.children.map (late f) }

/-- The tree itself defines `f`, is a function of that name, or has it for a parameter. -/
def rebinds (f : Name) (tree : Tree) : Bool :=
  match tree.form? with
  | some .declare => tree.attribute? "name" == some f
  | some .function => tree.attribute? "name" == some f ||
      (parameters ((tree.attribute? "args").getD "")).contains f
  | _ => false

def leaves (f : Name) (tree : Tree) : Bool := tree.everywhere fun t => !t.rebinds f

end Tree

namespace Code

/-- Running or installing the code, or entering the function it holds, binds `f`. -/
def Rebinds (f : Name) : Code → Prop
  | .define name => name = f
  | .definition name params _ => name = f ∨ f ∈ params
  | .const (.function _ _ params _) => f ∈ params
  | _ => False

def Defers (f : Name) (v : Value) (n m : Code) : Prop := n = .const v ∧ m = .var f

end Code

theorem Environment.slot?_bindAll_of_notMem {f : Name} {params : List Name} (h : f ∉ params)
    (e : Environment) (args : List Value) : (e.bindAll params args).slot? f = e.slot? f := by
  induction params generalizing e args with
  | nil => rfl
  | cons name params ih =>
    cases args with
    | nil => rfl
    | cons v args =>
      have hne : f ≠ name := fun heq => h (by simp [heq])
      have hrest : f ∉ params := fun hmem => h (by simp [hmem])
      rw [Environment.bindAll, ih hrest, Environment.bindValue,
        Environment.slot?_bind_of_ne hne]

/-- The value `v` for the variable `f`, as long as every environment has it there. -/
def deferring (f : Name) (v : Value) : Exchange where
  swap := Code.Defers f v
  fit n := ¬ n.Rebinds f
  env e := e.slot? f = some (.plain v)
  data := by
    intro u hu
    cases u with
    | function => exact absurd trivial hu
    | _ => exact fun h => h
  define cell hfit he := by
    rwa [Environment.slot?_bind_of_ne (Ne.symm hfit)]
  enter args hfit he := by
    rwa [Environment.slot?_bindAll_of_notMem hfit]
  install id hfit := by
    obtain ⟨hname, hparams⟩ := not_or.1 hfit
    refine ⟨hparams, ?_⟩
    intro e u he
    rwa [Environment.bindValue, Environment.slot?_bind_of_ne (Ne.symm hname)]
  label := by
    rintro n m ⟨rfl, rfl⟩
    rfl
  other := by
    rintro n m ⟨rfl, rfl⟩ name params body
    exact ⟨fun heq => (by cases heq), fun heq => (by cases heq)⟩

/-- The constant and the variable give values that are alike, and do nothing else. -/
theorem deferring_settles (f : Name) (v : Value) (state : η → η → Prop)
    (inPlay : CellId → Prop) (host : Host η) :
    (deferring f v).Settles state inPlay host 0 := by
  rintro n m c c' ⟨rfl, rfl⟩ henv -
  have hslot : c.env.slot? f = some (.plain v) := henv.env
  have hrel := henv.rel f
  rw [hslot] at hrel
  generalize hslot' : c'.env.slot? f = slot' at hrel
  cases hrel with
  | some hrel =>
    cases hrel with
    | @plain _ w hvw =>
      refine ⟨v, w, ⟨hvw, henv.carries.plain f v hslot⟩, ?_⟩
      intro fuel hfuel
      obtain ⟨fuel, rfl⟩ : ∃ k, fuel = k + 1 := ⟨fuel - 1, by omega⟩
      have hget : c'.get f = .ok w := by
        simp [Config.get, Environment.get, Environment.lookup?, hslot', Slot.value]
      refine ⟨rfl, ?_⟩
      rw [run_succ, step, hget]
      rfl

section Compiling

variable {f : Name} {v : Value} {scope scope' : Scope}

theorem compile_readOf (scope : Scope) (name : Name) :
    compile scope (.readOf name) = .ok (.var name) := by
  have hname : (Tree.readOf name).attributes.get? "name" = some name := by
    rw [Tree.readOf, Tree.withAttribute, Attributes.get?_insert, if_pos rfl]
  rw [compile_eq]
  simp only [assemble, show Tag.ofSpelling? (Tree.readOf name).tag = some .read from rfl,
    Attributes.require, hname]
  rfl

theorem compile_late (hpolicy : scope.policy = scope'.policy) (hv : scope.target f = v)
    (htarget : ∀ name, (scope.target name).Alike (Code.Defers f v) (scope'.target name))
    (tree : Tree) :
    SameAnswer (Code.Alike (Code.Defers f v)) (compile scope tree)
      (compile scope' (tree.late f)) := by
  induction tree using Tree.induction with
  | h tree ih =>
    have hparts : List.Forall₂ (SameAnswer (Code.Alike (Code.Defers f v)))
        (tree.children.map (compile scope))
        ((tree.children.map (Tree.late f)).map (compile scope')) := by
      rw [List.map_map, List.forall₂_map_left_iff, List.forall₂_map_right_iff,
        List.forall₂_same]
      exact ih
    rw [Tree.late_eq]
    split
    · next hcalls =>
      have htag : Tag.ofSpelling? tree.tag = some .call := hcalls.1
      have hfun : tree.attributes.get? "fun" = some f := hcalls.2
      have hnone := tree.attributes.get?_erase_self "fun"
      rw [compile_eq, compile_eq, List.map_cons, compile_readOf]
      simp only [assemble, htag, hfun, hnone, hv]
      refine (sequence_alike hparts).bind ?_
      intro args args' hargs
      exact .ok (.paired (.call (.swap ⟨rfl, rfl⟩) hargs))
    · rw [compile_eq, compile_eq]
      exact assemble_alike (deferring f v).label (fun _ => hpolicy) htarget hparts

/-- Code binds `f` only if its tree does. -/
theorem not_rebinds_of_compile {tree : Tree} {n : Code} (htree : !tree.rebinds f)
    (h : compile scope tree = .ok n) : ¬ n.Rebinds f := by
  simp only [Tree.rebinds, Bool.not_eq_true'] at htree
  cases compiled_of_compile h with
  | declare hform hname =>
    simp only [hform, hname] at htree
    simpa [Code.Rebinds] using htree
  | function hform hname hchildren hbody =>
    simp only [hform, hname] at htree
    simpa [Code.Rebinds] using htree
  | _ => exact fun h => h

end Compiling

theorem deferring_accepts {f : Name} {v : Value} {host : Host η} {state : η → η → Prop}
    {inPlay : CellId → Prop}
    {hhost : host.RespectsOver (deferring f v).value (Value.Alike (Code.Defers f v)) state}
    {policy : Policy} {tree : Tree} (htree : tree.leaves f) :
    ((deferring f v).correspondence hhost (deferring_settles f v state inPlay host)).Accepts
      policy policy tree (tree.late f) := by
  refine Exchange.accepts ?_ ?_ (.inl (tree.late_tag f).symm)
  · intro it it' hit
    have hv : it.scope.target f = v := by
      have hslot : it.globals.slot? f = some (.plain v) := hit.globals.env
      simp [Interpreter.scope, Interpreter.lookup?, Environment.lookup?, hslot, Slot.value]
    refine compile_late (hit.left.trans hit.right.symm) hv ?_ tree
    exact fun name => (Exchange.target_alike hit name).1
  · intro it it' n hit hcompile
    refine throughout_of_compile ?_ ?_ htree hcompile
    · exact fun t m ht hm => not_rebinds_of_compile ht hm
    · exact fun name => (Exchange.target_alike hit name).2

/-- Early and late binding agree on a stable name. Let `f` be bound to a plain value in
globals without user functions, and let nothing in a program bind it anew. Let natives give
functions back only, also to the cells they hold, and not tell them apart by such calls
of `f` in their bodies. Then, from the same state of the natives, the program ends alike
if its calls of `f` by name look `f` up when they are run: in the same way, with the same
text printed, and with results, globals and cells that are the same up to this change in
the bodies of functions. -/
theorem early_and_late_binding_agree {host : Host η} {held : η → Value → Prop}
    (hback : host.HandsBack held) {f : Name} {v : Value} {state : η → η → Prop}
    (hhost : host.Respects (Value.Alike (Code.Defers f v)) state) {it : Interpreter η}
    (hstate : state it.world.host it.world.host)
    (hheld : ∀ u, held it.world.host u → ¬ u.IsFunction)
    (hglobals : ∀ name u, it.lookup? name = some u → ¬ u.IsFunction)
    (hf : it.globals.slot? f = some (.plain v)) {root : Tree}
    (hroot : ∀ form ∈ root.children, form.leaves f) :
    Interpreter.EndAlike host (Value.Alike (Code.Defers f v))
      (Interpreter.Rel (Value.Alike (Code.Defers f v)) state)
      root it (root.lateForms f) it := by
  have hdata : ∀ u : Value, ¬ u.IsFunction → (deferring f v).Sound u :=
    fun u hu => Exchange.sound_of_not_isFunction hu
  obtain ⟨hcarries, hcarry⟩ := Interpreter.carries_of_data hdata hglobals
  have hrespects : host.RespectsOver (deferring f v).value _ _ := Exchange.respects hback hhost
  have haccepts : ∀ form ∈ root.children, ((deferring f v).correspondence hrespects
      (deferring_settles f v _ it.InPlay host)).Accepts it.policy it.policy form (form.late f) :=
    fun form hform => deferring_accepts (hroot form hform)
  have hends := Exchange.endAlike haccepts hcarries hcarry hf
    ⟨hstate, fun u hu => hdata u (hheld u hu)⟩
  refine hends.imp (fun u w h => h) ?_
  intro s s' h
  exact ⟨h.globals, ⟨h.world.cells, h.world.printer, h.world.host.1⟩, h.nextId⟩

def announcing : Tree where
  tag := "program"
  children := [
    { tag := "function", attributes := .ofList [("name", "shout"), ("args", "x")], children := [
      { tag := "call", attributes := .ofList [("fun", "print")], children := [
        { tag := "var", attributes := .ofList [("name", "x")] }] }] },
    { tag := "call", attributes := .ofList [("fun", "shout")], children := [
      { tag := "string", attributes := .ofList [("value", "first")] }] },
    { tag := "call", children := [
      { tag := "call", attributes := .ofList [("fun", "echo")], children := [
        { tag := "var", attributes := .ofList [("name", "shout")] }] },
      { tag := "string", attributes := .ofList [("value", "second")] }] }]

/-- In `announcing`, `print` may be bound early or late. -/
theorem announcing_binds_early_or_late :
    withEcho.globals.slot? "print" = some (.plain (.native ⟨0, "print", some .print⟩)) ∧
    (∀ form ∈ announcing.children, form.leaves "print") ∧
    announcing.lateForms "print" ≠ announcing ∧
    (∃ it', withEcho.EndsWith Stock.host announcing (.done .absent it') ∧
      it'.world.printer.pending = "first\nsecond\n") ∧
    Interpreter.EndAlike Stock.host
      (Value.Alike (Code.Defers "print" (.native ⟨0, "print", some .print⟩)))
      (Interpreter.Rel (Value.Alike (Code.Defers "print" (.native ⟨0, "print", some .print⟩)))
        (Stock.Rel (Value.Alike (Code.Defers "print" (.native ⟨0, "print", some .print⟩)))))
      announcing withEcho (announcing.lateForms "print") withEcho := by
  have hforms : ∀ form ∈ announcing.children, form.leaves "print" := by decide
  have hstate := Stock.Rel.refl
    (Value.Alike.refl (Code.Defers "print" (.native ⟨0, "print", some .print⟩)))
    withEcho.world.host
  refine ⟨rfl, hforms, by decide, ⟨_, ⟨by simp, 12, rfl⟩, rfl⟩, ?_⟩
  exact early_and_late_binding_agree Stock.handsBack
    (Stock.respects (fun _ _ h => h) fun _ h => .data h) hstate
    (fun u hu => absurd hu withEcho_holds) (fun name u hu => withEcho_lookup? hu) rfl hforms

def consulting : Tree where
  tag := "program"
  children := [
    { tag := "function", attributes := .ofList [("name", "consult")], children := [
      { tag := "call", attributes := .ofList [("fun", "ask")] }] },
    { tag := "call", attributes := .ofList [("fun", "ask")], children := [
      { tag := "var", attributes := .ofList [("name", "consult")] }] }]

def watchful : Host Unit := peeking (· matches .call (.const _) _)

def shadowing : Value := .function 1 "shadow" ["ask"] (.call (.var "consult") [])

def continuing : Tree where
  tag := "program"
  children := consulting.children ++ [
    { tag := "call", attributes := .ofList [("fun", "x")], children := [
      { tag := "string", attributes := .ofList [("value", "nobody")] }] }]

/-- It is not enough that natives return no function that they were not given. One that
looks into the body of a function tells a call by name from the lookup of a variable, one
that changes with each call tells the first run from the second, although the globals are
the same, and one that puts `shadowing` into the cell of `x` has `ask` bound anew. -/
theorem natives_tell_binding_times :
    ((∀ f, watchful.ReturnsArguments f) ∧
      (∀ name v, (withNative .reject ()).lookup? name = some v → ¬ v.IsFunction) ∧
      (∀ form ∈ consulting.children, form.leaves "ask") ∧
      (∃ it₁, (withNative .reject ()).EndsWith watchful consulting (.done (.bool true) it₁)) ∧
      (∃ it₂, (withNative .reject ()).EndsWith watchful (consulting.lateForms "ask")
        (.done (.bool false) it₂)) ∧
      ¬ Interpreter.EndAlike watchful (Value.Alike (Code.Defers "ask" (.native ⟨0, "ask", none⟩)))
        (fun _ _ => True) consulting (withNative .reject ()) (consulting.lateForms "ask")
        (withNative .reject ())) ∧
    ((∀ f, turning.ReturnsArguments f) ∧
      ∃ it₁ it₂, (withNative .reject false).EndsWith turning asked (.done (.bool false) it₁) ∧
        it₁.globals = (withNative .reject false).globals ∧
        it₁.EndsWith turning (asked.lateForms "ask") (.done (.bool true) it₂)) ∧
    (∀ f, (writing shadowing).ReturnsArguments f) ∧
      (∀ form ∈ continuing.children, form.leaves "ask") ∧
      (∃ it₁, ((withNative .reject ()).defineCell "x" .absent).EndsWith (writing shadowing)
        continuing (.done .absent it₁)) ∧
      ∃ e it₂, ((withNative .reject ()).defineCell "x" .absent).EndsWith (writing shadowing)
        (continuing.lateForms "ask") (.failed e it₂) ∧ e.kind = .notCallable "string" := by
  have hearly : ∃ it₁, (withNative .reject ()).EndsWith watchful consulting
      (.done (.bool true) it₁) := ⟨_, by simp, 8, rfl⟩
  have hlate : ∃ it₂, (withNative .reject ()).EndsWith watchful (consulting.lateForms "ask")
      (.done (.bool false) it₂) := ⟨_, by simp, 8, rfl⟩
  refine ⟨⟨peeking_returnsArguments _, fun name v => withNative_lookup?, by decide, hearly,
    hlate, ?_⟩, ⟨turning_returnsArguments, _, _, ⟨by simp, 8, rfl⟩, rfl, by simp, 8, rfl⟩,
    writing_returnsArguments shadowing, by decide, ⟨_, by simp, 8, rfl⟩,
    _, _, ⟨by simp, 8, rfl⟩, rfl⟩
  obtain ⟨it₁, hearly⟩ := hearly
  obtain ⟨it₂, hlate⟩ := hlate
  intro halike
  cases halike.related hearly hlate

end Treewalk
