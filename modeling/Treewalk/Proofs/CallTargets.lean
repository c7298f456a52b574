import Treewalk.Proofs.StableNames

/-!
What compilation asks of the globals. Whether a tree compiles, how it fails and what
its code looks like do not depend on them; the globals give calls by name their targets
and nothing else. Main statement: under any two globals a tree fails with the same
error, or has codes that differ in those targets only.
-/
namespace Treewalk

/-- What a call by name gets for its target: the value of the name, read through its cell
if it has one, and nothing if it is not bound. -/
def Environment.target (env : Environment) (cells : Cells) (name : Name) : Value :=
  (env.lookup? cells name).getD .absent

def Environment.scope (env : Environment) (cells : Cells) (policy : Policy) : Scope where
  policy := policy
  target := env.target cells

/-- This is what an interpreter compiles against. -/
theorem Interpreter.scope_eq {η : Type} (it : Interpreter η) :
    it.scope = it.globals.scope it.world.cells it.policy := rfl

namespace Code

/-- The code that stands directly in a node, from left to right, and the body of a function
that is defined there. -/
def pieces : Code → List Code
  | .assign _ expr => [expr]
  | .block children => children
  | .when test body => [test, body]
  | .choose test yes no => [test, yes, no]
  | .call callee args => callee :: args
  | .definition _ _ body => [body]
  | _ => []

/-- The same kind of node, with the same names, labels, parameters or constant and with as
many pieces, whatever these are. -/
def SameKind (n m : Code) : Prop := n.Paired Eq (fun _ _ => True) m

theorem SameKind.label?_eq {n m : Code} (h : n.SameKind m) : n.label? = m.label? := by
  cases h <;> rfl

theorem SameKind.eq_of_pieces {n m : Code} (h : n.SameKind m) (hpieces : n.pieces = m.pieces) :
    n = m := by
  cases h <;> simp_all [pieces]

end Code

namespace Tree

inductive Calls (name : Name) : Tree → Prop
  | self {tree : Tree} (h : tree.CallsByName name) : Calls name tree
  | child {tree child : Tree} (hmem : child ∈ tree.children) (h : child.Calls name) :
      Calls name tree

/-- A name that is called is called by one of the nodes, each of which passes the test. -/
theorem Calls.exists_of_everywhere {p : Tree → Bool} {name : Name} {tree : Tree}
    (h : tree.Calls name) (htree : tree.everywhere p) :
    ∃ t : Tree, p t ∧ t.CallsByName name := by
  induction h with
  | @self tree h => exact ⟨tree, (everywhere_iff.1 htree).1, h⟩
  | child hmem h ih => exact ih ((everywhere_iff.1 htree).2 _ hmem)

mutual

/-- Two codes of one tree, for two ways to give names their targets. A call by name has on
each side the target of its own name. Any other node is of the same kind on both sides,
and the pieces of the two are codes of the tree's children, one by one. -/
inductive Twins (target target' : Name → Value) : Tree → Code → Code → Prop
  | named {tree : Tree} {name : Name} {args args' : List Code} (h : tree.CallsByName name)
      (hargs : EachTwins target target' tree.children args args') :
      Twins target target' tree (.call (.const (target name)) args)
        (.call (.const (target' name)) args')
  | leaf {tree : Tree} {n : Code} (hother : ∀ name, ¬ tree.CallsByName name)
      (h : n.pieces = []) : Twins target target' tree n n
  | node {tree : Tree} {n m : Code} (hother : ∀ name, ¬ tree.CallsByName name)
      (h : n.SameKind m)
      (hpieces : EachTwins target target' tree.children n.pieces m.pieces) :
      Twins target target' tree n m

inductive EachTwins (target target' : Name → Value) :
    List Tree → List Code → List Code → Prop
  | nil : EachTwins target target' [] [] []
  | cons {tree : Tree} {trees : List Tree} {n m : Code} {ns ms : List Code}
      (h : Twins target target' tree n m) (hs : EachTwins target target' trees ns ms) :
      EachTwins target target' (tree :: trees) (n :: ns) (m :: ms)

end

variable {target target' : Name → Value}

theorem Twins.label?_eq {tree : Tree} {n m : Code} (h : tree.Twins target target' n m) :
    n.label? = m.label? := by
  cases h with
  | named h hargs => rfl
  | leaf hother h => rfl
  | node hother h hpieces => exact h.label?_eq

theorem EachTwins.labels_eq {trees : List Tree} {ns ms : List Code}
    (h : EachTwins target target' trees ns ms) : Block.labels ns = Block.labels ms := by
  induction trees generalizing ns ms with
  | nil =>
    cases h with
    | nil => rfl
  | cons tree trees ih =>
    cases h with
    | cons h hs =>
      have hrest := ih hs
      unfold Block.labels at hrest ⊢
      rw [List.filterMap_cons, List.filterMap_cons, h.label?_eq, hrest]

/-- There are as many codes on one side as on the other. -/
theorem EachTwins.forall₂_true {trees : List Tree} {ns ms : List Code}
    (h : EachTwins target target' trees ns ms) : List.Forall₂ (fun _ _ => True) ns ms := by
  induction trees generalizing ns ms with
  | nil =>
    cases h with
    | nil => exact .nil
  | cons tree trees ih =>
    cases h with
    | cons h hs => exact .cons trivial (ih hs)

theorem EachTwins.eq_of_forall {trees : List Tree}
    (heq : ∀ tree ∈ trees, ∀ n m, tree.Twins target target' n m → n = m) {ns ms : List Code}
    (h : EachTwins target target' trees ns ms) : ns = ms := by
  induction trees generalizing ns ms with
  | nil =>
    cases h with
    | nil => rfl
  | cons tree trees ih =>
    cases h with
    | cons h hs =>
      have hfirst := heq tree (by simp) _ _ h
      have hrest := ih (fun t ht => heq t (by simp [ht])) hs
      rw [hfirst, hrest]

/-- The targets are all that two codes of a tree can differ in. -/
theorem Twins.eq_of_agree {tree : Tree} {n m : Code} (h : tree.Twins target target' n m)
    (hagree : ∀ name, tree.Calls name → target name = target' name) : n = m := by
  induction tree using Tree.induction generalizing n m with
  | h tree ih =>
    have hchildren : ∀ child ∈ tree.children, ∀ n m, child.Twins target target' n m → n = m :=
      fun child hmem n m h => ih child hmem h fun name hcalls => hagree name (.child hmem hcalls)
    cases h with
    | named h hargs => rw [hargs.eq_of_forall hchildren, hagree _ (.self h)]
    | leaf hother h => rfl
    | node hother h hpieces => exact h.eq_of_pieces (hpieces.eq_of_forall hchildren)

end Tree

section Compiling

variable {scope scope' : Scope}

theorem sequence_twins {trees : List Tree}
    (h : ∀ tree ∈ trees, SameAnswer (tree.Twins scope.target scope'.target)
      (compile scope tree) (compile scope' tree)) :
    SameAnswer (Tree.EachTwins scope.target scope'.target trees)
      (sequence (trees.map (compile scope))) (sequence (trees.map (compile scope'))) := by
  induction trees with
  | nil => exact .ok .nil
  | cons tree trees ih =>
    refine (h tree (by simp)).bind ?_
    intro n m hnm
    refine (ih fun t ht => h t (by simp [ht])).bind ?_
    intro ns ms hnms
    exact .ok (.cons hnm hnms)

/-- A tree compiles to twins or fails with the same error, whatever its names are called
for. -/
theorem compile_twins (hpolicy : scope.policy = scope'.policy) (tree : Tree) :
    SameAnswer (tree.Twins scope.target scope'.target) (compile scope tree)
      (compile scope' tree) := by
  induction tree using Tree.induction with
  | h tree ih =>
    rw [compile_eq, compile_eq]
    cases hform : tree.form? with
    | none =>
      simp only [assemble, show Tag.ofSpelling? tree.tag = none from hform, ← hpolicy]
      cases scope.policy with
      | reject => exact .error _
      | ignore => exact .ok (.leaf (fun name hcalls => by cases hform.symm.trans hcalls.1) rfl)
    | some form =>
      have hother : form ≠ .call → ∀ name, ¬ tree.CallsByName name :=
        fun hne name hcalls => hne (Option.some.inj (hform.symm.trans hcalls.1))
      simp only [assemble, show Tag.ofSpelling? tree.tag = some form from hform, List.length_map]
      cases form with
      | block =>
        refine (sequence_twins ih).bind fun ns ms h => ?_
        simp only [Block.make, Block.repeatedLabel?, h.labels_eq]
        split
        · exact .error _
        · exact .ok (.node (hother (by decide)) (.block h.forall₂_true) h)
      | read | declare | label | goto | text =>
        exact .bind_same _ fun name => .ok (.leaf (hother (by decide)) rfl)
      | number =>
        exact .bind_same _ fun raw => .bind_same _ fun x => .ok (.leaf (hother (by decide)) rfl)
      | store =>
        refine .bind_same _ fun name => ?_
        rcases hchildren : tree.children with _ | ⟨child, _ | ⟨next, rest⟩⟩
        · exact .error _
        · refine (ih child (by simp [hchildren])).bind fun n m h => ?_
          exact .ok (.node (hother (by decide)) (.assign name trivial) (hchildren ▸ .cons h .nil))
        · exact .error _
      | branch =>
        rcases hchildren : tree.children with _ | ⟨test, _ | ⟨yes, _ | ⟨no, _ | ⟨next, rest⟩⟩⟩⟩
        · exact .error _
        · exact .error _
        · refine (ih test (by simp [hchildren])).bind fun _ _ h => ?_
          refine (ih yes (by simp [hchildren])).bind fun _ _ h' => ?_
          exact .ok (.node (hother (by decide)) (.when trivial trivial)
            (hchildren ▸ .cons h (.cons h' .nil)))
        · refine (ih test (by simp [hchildren])).bind fun _ _ h => ?_
          refine (ih yes (by simp [hchildren])).bind fun _ _ h' => ?_
          refine (ih no (by simp [hchildren])).bind fun _ _ h'' => ?_
          exact .ok (.node (hother (by decide)) (.choose trivial trivial trivial)
            (hchildren ▸ .cons h (.cons h' (.cons h'' .nil))))
        · exact .error _
      | function =>
        refine .bind_same _ fun name => ?_
        rcases hchildren : tree.children with _ | ⟨child, _ | ⟨next, rest⟩⟩
        · exact .error _
        · refine (ih child (by simp [hchildren])).bind fun n m h => ?_
          exact .ok (.node (hother (by decide)) (.definition name _ trivial)
            (hchildren ▸ .cons h .nil))
        · exact .error _
      | call =>
        cases hfun : tree.attributes.get? "fun" with
        | some name =>
          refine (sequence_twins ih).bind fun args args' h => ?_
          exact .ok (.named ⟨hform, hfun⟩ h)
        | none =>
          rcases hchildren : tree.children with _ | ⟨callee, rest⟩
          · exact .error _
          · rw [hchildren] at ih
            refine (ih callee (by simp)).bind fun _ _ h => ?_
            refine (sequence_twins fun t ht => ih t (by simp [ht])).bind fun args args' h' => ?_
            have hnone : ∀ name, ¬ tree.CallsByName name :=
              fun name hcalls => by cases hfun.symm.trans hcalls.2
            exact .ok (.node hnone (.call trivial h'.forall₂_true) (hchildren ▸ .cons h h'))

end Compiling

/-- Compilation asks the globals for the targets of calls by name and for nothing else.
Against any two environments, each with its own store, a tree fails with the same error
or has two codes that are the same but for those targets; and each target is what its
name has in its own environment. So environments in which the names that are called have
the same values give the same code. -/
theorem compile_reads_targets_only (policy : Policy) (tree : Tree)
    (globals globals' : Environment) (cells cells' : Cells) :
    SameAnswer (tree.Twins (globals.target cells) (globals'.target cells'))
      (compile (globals.scope cells policy) tree) (compile (globals'.scope cells' policy) tree) ∧
    ((∀ name, tree.Calls name → globals.lookup? cells name = globals'.lookup? cells' name) →
      compile (globals.scope cells policy) tree =
        compile (globals'.scope cells' policy) tree) := by
  have htwins : SameAnswer (tree.Twins (globals.target cells) (globals'.target cells'))
      (compile (globals.scope cells policy) tree)
      (compile (globals'.scope cells' policy) tree) :=
    compile_twins (show (globals.scope cells policy).policy =
      (globals'.scope cells' policy).policy from rfl) tree
  refine ⟨htwins, ?_⟩
  intro hlookup
  have hagree : ∀ name, tree.Calls name →
      globals.target cells name = globals'.target cells' name := by
    intro name hcalls
    rw [Environment.target, Environment.target, hlookup name hcalls]
  generalize compile (globals.scope cells policy) tree = x at htwins
  generalize compile (globals'.scope cells' policy) tree = y at htwins
  cases htwins with
  | ok h => rw [h.eq_of_agree hagree]
  | error e => rfl

def dispatching : Tree where
  tag := "function"
  attributes := .ofList [("name", "dispatch"), ("args", "x")]
  children := [
    { tag := "begin", children := [
      { tag := "label", attributes := .ofList [("name", "again")] },
      { tag := "call", attributes := .ofList [("fun", "send")], children := [
        { tag := "call", children := [
          { tag := "var", attributes := .ofList [("name", "pack")] },
          { tag := "var", attributes := .ofList [("name", "x")] }] }] },
      { tag := "goto", attributes := .ofList [("label", "again")] }] }]

def sender : Value := .native ⟨0, "print", some .print⟩

def plainly : Environment := Environment.empty.bindValue "send" sender

def sharedly : Environment := (Environment.empty.bindValue "pack" .absent).bind "send" (.cell 0)

def dispatchCode (v : Value) : Code :=
  .definition "dispatch" ["x"] (.block
    [.label "again", .call (.const v) [.call (.var "pack") [.var "x"]], .goto "again"])

/-- The code is the same whether `send` has its value plainly or in a cell, and `pack` makes
no difference. Where `send` is not bound the code differs in the target alone. -/
theorem dispatching_reads_send_only :
    (∀ name, dispatching.Calls name →
      plainly.lookup? {} name = sharedly.lookup? ⟨#[sender]⟩ name) ∧
    compile (plainly.scope {} .reject) dispatching = .ok (dispatchCode sender) ∧
    compile (sharedly.scope ⟨#[sender]⟩ .reject) dispatching = .ok (dispatchCode sender) ∧
    compile (Environment.empty.scope {} .reject) dispatching = .ok (dispatchCode .absent) ∧
    dispatching.Twins (plainly.target {}) (Environment.empty.target {}) (dispatchCode sender)
      (dispatchCode .absent) := by
  have hcalls : ∀ name, dispatching.Calls name → name = "send" := by
    intro name hname
    have htree : dispatching.everywhere (fun t => t.form? != some .call ||
        t.attribute? "fun" == none || t.attribute? "fun" == some "send") := by
      decide
    obtain ⟨t, ht, hform, hfun⟩ := hname.exists_of_everywhere htree
    simpa [hform, hfun] using ht
  have hlookup : ∀ name, dispatching.Calls name →
      plainly.lookup? {} name = sharedly.lookup? ⟨#[sender]⟩ name := by
    intro name hname
    rw [hcalls name hname]
    rfl
  have hplain : compile (plainly.scope {} .reject) dispatching = .ok (dispatchCode sender) := rfl
  have hnone : compile (Environment.empty.scope {} .reject) dispatching =
      .ok (dispatchCode .absent) := rfl
  have hsame := (compile_reads_targets_only .reject dispatching _ _ _ _).2 hlookup
  have htwins := (compile_reads_targets_only .reject dispatching plainly .empty {} {}).1
  rw [hplain, hnone] at htwins
  refine ⟨hlookup, hplain, hsame.symm.trans hplain, hnone, ?_⟩
  cases htwins with
  | ok h => exact h

end Treewalk
