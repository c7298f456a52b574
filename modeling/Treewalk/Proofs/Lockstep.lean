import Treewalk.Proofs.SideBySide
import Treewalk.Proofs.Simulation

/-!
The same code run from two states. If what a node does on its own cannot tell two
states apart, then the two runs stay in step: they take the same values, and end in the
same way under the same bound, in states that are related again. Main statements: this
holds of code, of forms and programs, and of calls by name.
-/
namespace Treewalk

variable {η σ τ α : Type}

/-- Computations that follow each other end in the same way under the same bound. -/
theorem Outcome.rel_of_followedBy {value value' : α → α → Prop} {state : σ → τ → Prop}
    {state' : τ → σ → Prop} {o : Outcome σ α} {o' : Outcome τ α}
    (hvalue : ∀ a b, value a b → a = b) (h : o.FollowedBy value state o')
    (hback : o'.FollowedBy value' state' o) : o.Rel state o' := by
  cases h with
  | done hab hs =>
    obtain rfl := hvalue _ _ hab
    exact .done _ hs
  | failed e hs => exact .failed e hs
  | outOfFuel o' =>
    by_cases hends : o' = .outOfFuel
    · rw [hends]
      exact .outOfFuel
    · exact absurd rfl (hback.ne_outOfFuel hends)

/-- What is known of the states that two computations leave may be used to relate them. -/
theorem Outcome.Rel.imp {R R' : σ → τ → Prop} {o : Outcome σ α} {o' : Outcome τ α}
    (h : o.Rel R o')
    (himp : ∀ s t, o.state? = some s → o'.state? = some t → R s t → R' s t) : o.Rel R' o' := by
  cases h with
  | done a hst => exact .done a (himp _ _ rfl rfl hst)
  | failed e hst => exact .failed e (himp _ _ rfl rfl hst)
  | outOfFuel => exact .outOfFuel

theorem Flow.Rel.eq {value : α → α → Prop} (hvalue : ∀ a b, value a b → a = b) {f g : Flow α}
    (h : Flow.Rel value f g) : f = g := by
  cases h with
  | value h => rw [hvalue _ _ h]
  | jump label => rfl

theorem Slot.sameKind_refl (slot : Option Slot) : Option.Rel Slot.SameKind slot slot := by
  rcases slot with _ | v | cell
  · exact .none
  · exact .some (.plain v v)
  · exact .some (.cell cell)

/-- States that code cannot tell apart as long as all of it passes a test. -/
structure Lockstep (host : Host η) where
  fit : Code → Prop
  env : Environment → Environment → Prop
  world : World η → World η → Prop
  data {v : Value} : ¬ v.IsFunction → fit (.const v)
  read {name : Name} {e e' : Environment} {w w' : World η} :
    fit (.var name) → env e e' → world w w' →
      e.lookup? w.cells name = e'.lookup? w'.cells name ∧
        ∀ v, e.lookup? w.cells name = some v → (Code.const v).Throughout fit
  define {name : Name} {c c' : Config η} : fit (.define name) →
    env c.env c'.env → world c.world c'.world →
      env (c.define name).env (c'.define name).env ∧
        world (c.define name).world (c'.define name).world
  target {name : Name} {n : Code} {e e' : Environment} :
    fit (.assign name n) → env e e' → Option.Rel Slot.SameKind (e.slot? name) (e'.slot? name)
  store {c c' : Config η} {v : Value} (cell : CellId) : world c.world c'.world →
    (Code.const v).Throughout fit → world (c.store cell v).world (c'.store cell v).world
  enter {id : Nat} {name : Name} {params : List Name} {b : Code} {e e' : Environment}
    {args : List Value} : fit (.const (.function id name params b)) → env e e' →
      (∀ a ∈ args, (Code.const a).Throughout fit) →
        env (e.bindAll params args) (e'.bindAll params args)
  native (f : Native) {args : List Value} {w w' : World η} :
    (∀ a ∈ args, (Code.const a).Throughout fit) → world w w' →
      (host.apply f args w).1 = (host.apply f args w').1 ∧
        (∀ v, (host.apply f args w).1 = .ok v → (Code.const v).Throughout fit) ∧
          world (host.apply f args w).2 (host.apply f args w').2

namespace Lockstep

variable {host : Host η} (L : Lockstep host)

def Sound (v : Value) : Prop := (Code.const v).Throughout L.fit

theorem sound_of_not_isFunction {v : Value} (h : ¬ v.IsFunction) : L.Sound v :=
  Value.throughout_const (L.data h) h

theorem forall₂_iff {vs ws : List Value} :
    List.Forall₂ (fun v w => L.Sound v ∧ v = w) vs ws ↔ (∀ v ∈ vs, L.Sound v) ∧ vs = ws := by
  rw [List.forall₂_and_left, List.forall₂_eq_eq_eq]

theorem code_cases {n : Code} (h : n.Throughout L.fit) :
    n.Paired (fun v w => L.Sound v ∧ v = w) (fun n m => n.Throughout L.fit ∧ n = m) n := by
  have hlist : ∀ ns : List Code, (∀ n ∈ ns, n.Throughout L.fit) →
      List.Forall₂ (fun n m => n.Throughout L.fit ∧ n = m) ns ns :=
    fun ns hns => List.forall₂_same.2 fun n hn => ⟨hns n hn, rfl⟩
  cases n with
  | const v => exact .const ⟨h, rfl⟩
  | var name => exact .var name
  | define name => exact .define name
  | assign name n => exact .assign name ⟨h.part (.expr name n), rfl⟩
  | label name => exact .label name
  | goto label => exact .goto label
  | block ns => exact .block (hlist ns fun n hn => h.part (.child hn))
  | when test body =>
    exact .when ⟨h.part (.whenTest test body), rfl⟩ ⟨h.part (.whenBody test body), rfl⟩
  | choose test yes no =>
    exact .choose ⟨h.part (.test test yes no), rfl⟩ ⟨h.part (.yes test yes no), rfl⟩
      ⟨h.part (.no test yes no), rfl⟩
  | call callee args =>
    exact .call ⟨h.part (.callee callee args), rfl⟩ (hlist args fun n hn => h.part (.arg callee hn))
  | definition name params body =>
    exact .definition name params ⟨h.inside (.defined name params body), rfl⟩

def correspondence : Correspondence host where
  env := L.env
  world := L.world
  value v w := L.Sound v ∧ v = w
  code n m := n.Throughout L.fit ∧ n = m
  lag := 0
  absent := ⟨L.sound_of_not_isFunction fun h => h, rfl⟩
  value_cases := by
    rintro v _ ⟨hv, rfl⟩
    cases v with
    | function id name params body =>
      exact .function id name params ⟨hv.inside (.held id name params body), rfl⟩
    | _ => exact .data fun h => h
  label := by
    rintro n _ ⟨-, rfl⟩
    rfl
  code_cases := by
    rintro n _ ⟨hn, rfl⟩
    exact .inl (L.code_cases hn)
  read := by
    intro name e e' w w' hcode he hw
    obtain ⟨heq, hsound⟩ := L.read hcode.1.self he hw
    rw [← heq]
    cases hlookup : e.lookup? w.cells name with
    | none => exact .none
    | some v => exact .some ⟨hsound v hlookup, rfl⟩
  define hcode he hw := L.define hcode.1.self he hw
  target hcode he := L.target hcode.1.self he
  store := by
    rintro c c' v _ cell hw ⟨hv, rfl⟩
    exact L.store cell hw hv
  enter := by
    intro id name params b b' e e' args args' hf he hargs
    obtain ⟨hsound, rfl⟩ := L.forall₂_iff.1 hargs
    exact L.enter hf.1.self he hsound
  native := by
    intro f args args' w w' hargs hw
    obtain ⟨hsound, rfl⟩ := L.forall₂_iff.1 hargs
    obtain ⟨heq, hvalue, hworld⟩ := L.native f hsound hw
    refine ⟨?_, hworld⟩
    rw [← heq]
    cases hanswer : (host.apply f args w).1 with
    | error e => exact .error e
    | ok v => exact .ok ⟨hvalue v hanswer, rfl⟩

variable {L} {policy : Policy}

theorem value_eq (v w : Value) (h : L.correspondence.value v w) : v = w := h.2

/-- Code that passes the test runs in step. -/
theorem run_rel (fuel : Nat) {n : Code} (hn : n.Throughout L.fit) {c c' : Config η}
    (hc : L.correspondence.Holds c c') :
    (run host fuel n c).Rel L.correspondence.Holds (run host fuel n c') := by
  have hforth := L.correspondence.run_ends fuel ⟨hn, rfl⟩ hc
  have hback : L.correspondence.flip.Ends L.correspondence.flip.Holds (run host fuel n c')
      (run host fuel n c) := L.correspondence.flip.run_ends fuel ⟨hn, rfl⟩ hc
  exact Outcome.rel_of_followedBy (fun _ _ h => h.eq value_eq) hforth hback

/-- A call of a value runs in step. -/
theorem callValue_rel (fuel : Nat) {e e' : Environment} (he : L.env e e') {f : Value}
    (hf : L.Sound f) {args : List Value} (hargs : ∀ a ∈ args, L.Sound a) {w w' : World η}
    (hw : L.world w w') :
    (callValue host (run host fuel) e f args w).Rel L.world
      (callValue host (run host fuel) e' f args w') := by
  have hpairs := L.forall₂_iff.2 ⟨hargs, rfl⟩
  have hforth := Correspondence.callValue_ends (R := L.correspondence)
    (L.correspondence.run_ends fuel) he ⟨hf, rfl⟩ hpairs hw
  have hback := Correspondence.callValue_ends (R := L.correspondence.flip)
    (L.correspondence.flip.run_ends fuel) he ⟨hf, rfl⟩ hpairs.flip hw
  exact Outcome.rel_of_followedBy (fun _ _ h => h.eq value_eq) hforth hback

/-- Code that passes the test can stand as a form on both sides, if installing the function
it may define keeps the globals related. -/
theorem formPair {n : Code} (hn : n.Throughout L.fit)
    (hinstall : ∀ (id : Nat) (name : Name) (params : List Name) (b : Code) (e e' : Environment),
      n = .definition name params b → L.env e e' →
        L.env (e.bindValue name (.function id name params b))
          (e'.bindValue name (.function id name params b))) :
    L.correspondence.FormPair n n := by
  cases n with
  | definition name params b =>
    exact .definition fun id e e' he => hinstall id name params b e e' rfl he
  | _ => exact .other (fun _ _ _ heq => by cases heq) (fun _ _ _ heq => by cases heq) ⟨hn, rfl⟩

/-- Forms that can stand on both sides run in step. -/
theorem runForm_rel (fuel : Nat) {form : Form}
    (hform : L.correspondence.FormPair form.code form.code) {it it' : Interpreter η}
    (hit : L.correspondence.Aligned policy policy it it') :
    (Interpreter.runForm (run host fuel) form it).Rel (L.correspondence.Aligned policy policy)
      (Interpreter.runForm (run host fuel) form it') := by
  have hforth := Correspondence.runForm_ends fuel hform form.id hit
  have hback := Correspondence.runForm_ends fuel hform.flip form.id hit.flip
  refine Outcome.rel_of_followedBy ?_ hforth hback
  intro r r' hr
  cases hr with
  | some h => rw [value_eq _ _ h]
  | none => rfl

/-- Programs whose forms are accepted run in step. -/
theorem runForms_rel (fuel : Nat) {trees : List Tree}
    (htrees : ∀ tree ∈ trees, L.correspondence.Accepts policy policy tree tree) (index : Nat)
    {it it' : Interpreter η} (hit : L.correspondence.Aligned policy policy it it') :
    (Interpreter.runForms (run host fuel) index trees .absent it).Rel
      (L.correspondence.Aligned policy policy)
      (Interpreter.runForms (run host fuel) index trees .absent it') := by
  have hforms := List.forall₂_same.2 htrees
  have hflipped := List.forall₂_same.2 fun tree htree => (htrees tree htree).flip
  have hforth := Correspondence.runForms_ends fuel hforms index L.correspondence.absent hit
  have hback := Correspondence.runForms_ends fuel hflipped index L.correspondence.absent hit.flip
  exact Outcome.rel_of_followedBy value_eq hforth hback

end Lockstep

end Treewalk
