import Treewalk.Proofs.AlikePrograms
import Treewalk.Proofs.StockNatives

/-!
Tags outside the grammar. To ignore a tree with such a tag is to have an empty block
in its place: a program run with unknown tags ignored and the program with empty
blocks for them, run with unknown tags rejected, end alike. The code of the two
differs, an absent constant here and an empty block there, also in the functions
that the programs define and pass around.
-/
namespace Treewalk

variable {η : Type}

namespace Tree

def orBlank (tree : Tree) : Tree := if tree.form? = none then leaf "begin" else tree

/-- The tree with an empty block for each topmost node whose tag is outside the grammar. -/
def blanked : Tree → Tree := rebuild orBlank

theorem blanked_eq (tree : Tree) :
    tree.blanked = if tree.form? = none then leaf "begin" else
      { tree with children := tree.children.map blanked } := by
  rw [blanked, rebuild_eq]
  rfl

/-- The program with its forms blanked. The tag of the root is not looked at. -/
def blankedForms (root : Tree) : Tree := { root with children := root.children.map blanked }

def known (tree : Tree) : Bool := tree.form?.isSome

end Tree

/-- The code of an ignored tree, and that of an empty block. -/
def Code.Blanks (n m : Code) : Prop := n = .const .absent ∧ m = .block []

def blanking : Exchange where
  swap := Code.Blanks
  fit _ := True
  env _ := True
  data _ := trivial
  define _ _ _ := trivial
  enter _ _ _ := trivial
  install _ _ := ⟨trivial, fun _ _ _ => trivial⟩
  label := by
    rintro n m ⟨rfl, rfl⟩
    rfl
  other := by
    rintro n m ⟨rfl, rfl⟩ name params body
    exact ⟨fun heq => (by cases heq), fun heq => (by cases heq)⟩

theorem blanking_sound (v : Value) : blanking.Sound v :=
  Code.throughout_of_forall (fun _ => trivial) _

theorem blanking_value : blanking.value = Value.Alike Code.Blanks := by
  funext v w
  exact propext ⟨fun h => h.1, fun h => ⟨h, blanking_sound v⟩⟩

/-- Both sides of the exchange give the absent value; the block needs a step for itself. -/
theorem blanking_settles (state : η → η → Prop) (inPlay : CellId → Prop) (host : Host η) :
    blanking.Settles state inPlay host 1 := by
  rintro n m c c' ⟨rfl, rfl⟩ - -
  refine ⟨.absent, .absent, Exchange.value_of_not_isFunction fun h => h, ?_⟩
  intro fuel hfuel
  obtain ⟨fuel, rfl⟩ : ∃ k, fuel = k + 2 := ⟨fuel - 2, by omega⟩
  exact ⟨rfl, rfl⟩

section Compiling

variable {scope scope' : Scope}

theorem compile_blanked (hpolicy : scope.policy = .ignore)
    (htarget : ∀ name, (scope.target name).Alike Code.Blanks (scope'.target name)) (tree : Tree) :
    SameAnswer (Code.Alike Code.Blanks) (compile scope tree) (compile scope' tree.blanked) := by
  induction tree using Tree.induction with
  | h tree ih =>
    rw [Tree.blanked_eq]
    split
    · next hform =>
      have hblock : compile scope' (.leaf "begin") = .ok (.block []) := by
        rw [compile_eq]
        rfl
      rw [compile_ignored hform hpolicy, hblock]
      exact .ok (.swap ⟨rfl, rfl⟩)
    · next hform =>
      rw [compile_eq, compile_eq, List.map_map]
      refine assemble_alike blanking.label (fun htag => absurd htag hform) htarget ?_
      rw [List.forall₂_map_left_iff, List.forall₂_map_right_iff, List.forall₂_same]
      exact ih

/-- Policies differ on unknown tags only. -/
theorem compile_eq_of_known (policy policy' : Policy) (target : Name → Value) {tree : Tree}
    (h : tree.everywhere Tree.known) :
    compile ⟨policy, target⟩ tree = compile ⟨policy', target⟩ tree := by
  induction tree using Tree.induction with
  | h tree ih =>
    obtain ⟨hknown, hchildren⟩ := Tree.everywhere_iff.1 h
    obtain ⟨form, hform⟩ := Option.isSome_iff_exists.1 hknown
    have htag : Tag.ofSpelling? tree.tag = some form := hform
    have hparts : tree.children.map (compile ⟨policy, target⟩) =
        tree.children.map (compile ⟨policy', target⟩) :=
      List.map_congr_left fun child hmem => ih child hmem (hchildren child hmem)
    rw [compile_eq, compile_eq, hparts]
    simp only [assemble, htag]
    cases form <;> rfl

end Compiling

/-- An ignored form does not fail, so that its tag shows in no note. -/
theorem runTree_ignored {host : Host η} {tree : Tree} (hform : tree.form? = none)
    {it : Interpreter η} (hpolicy : it.policy = .ignore) (fuel : Nat) (e : Error)
    (it₁ : Interpreter η) : Interpreter.runTree (run host fuel) tree it ≠ .failed e it₁ := by
  have hcompile : compile it.scope tree = .ok (.const .absent) := compile_ignored hform hpolicy
  unfold Interpreter.runTree Interpreter.compile
  rw [hcompile]
  cases fuel with
  | zero => exact fun heq => by cases heq
  | succ fuel => exact fun heq => by cases heq

theorem blanking_accepts {host : Host η} {state : η → η → Prop} {inPlay : CellId → Prop}
    {hhost : host.RespectsOver blanking.value (Value.Alike Code.Blanks) state} (tree : Tree) :
    (blanking.correspondence hhost (blanking_settles state inPlay host)).Accepts .ignore .reject
      tree tree.blanked := by
  refine Exchange.accepts ?_ ?_ ?_
  · intro it it' hit
    exact compile_blanked hit.left (fun name => (Exchange.target_alike hit name).1) tree
  · intro it it' n _ _
    exact Code.throughout_of_forall (fun _ => trivial) n
  · by_cases hform : tree.form? = none
    · exact .inr fun it fuel e it₁ hpolicy => runTree_ignored hform hpolicy fuel e it₁
    · left
      rw [Tree.blanked_eq, if_neg hform]

/-- Ignored trees are empty blocks. Let natives not tell functions apart that differ in
absent constants for empty blocks in their bodies. From the same globals and the same state
of the natives, a program with unknown tags ignored and the program with empty blocks in
their place and unknown tags rejected end alike: in the same way, with the same text
printed, and with results, globals and cells that are the same up to absent constants for
empty blocks in the bodies of functions. A tree without unknown tags has the same code
under both policies. -/
theorem ignored_trees_are_empty_blocks {host : Host η} {state : η → η → Prop}
    (hhost : host.Respects (Value.Alike Code.Blanks) state) {it : Interpreter η}
    (hstate : state it.world.host it.world.host) (root : Tree) :
    Interpreter.EndAlike host (Value.Alike Code.Blanks)
      (Interpreter.Rel (Value.Alike Code.Blanks) state)
      root { it with policy := .ignore } root.blankedForms { it with policy := .reject } ∧
    ∀ (target : Name → Value) (tree : Tree), tree.everywhere Tree.known →
      compile ⟨.ignore, target⟩ tree = compile ⟨.reject, target⟩ tree := by
  refine ⟨?_, fun target tree htree => compile_eq_of_known .ignore .reject target htree⟩
  have hrespects : host.RespectsOver blanking.value (Value.Alike Code.Blanks) state := by
    rw [blanking_value]
    exact hhost
  have haccepts : ∀ form ∈ root.children, (blanking.correspondence hrespects
      (blanking_settles state (fun _ => True) host)).Accepts .ignore .reject form form.blanked :=
    fun form _ => blanking_accepts form
  have hcarries : it.globals.Carries blanking.Sound fun _ => True :=
    ⟨fun _ v _ => blanking_sound v, fun _ _ _ => trivial⟩
  have hcarry : it.world.cells.Carry blanking.Sound fun _ => True :=
    ⟨fun _ _ => blanking_sound _, fun _ _ => trivial⟩
  exact Exchange.endAlike haccepts hcarries hcarry trivial hstate

/-- A function with an unknown tag in its body, which is handed around by a native before
it is called, and unknown tags as a form and as an argument. -/
def annotated : Tree where
  tag := "program"
  children := [
    { tag := "comment", children := [
      { tag := "string", attributes := .ofList [("value", "draft")] }] },
    { tag := "function", attributes := .ofList [("name", "keep"), ("args", "x")], children := [
      { tag := "begin", children := [
        { tag := "comment" },
        { tag := "var", attributes := .ofList [("name", "x")] }] }] },
    { tag := "call", attributes := .ofList [("fun", "print")], children := [
      { tag := "comment" }] },
    { tag := "call", children := [
      { tag := "call", attributes := .ofList [("fun", "echo")], children := [
        { tag := "var", attributes := .ofList [("name", "keep")] }] },
      { tag := "string", attributes := .ofList [("value", "kept")] }] }]

/-- The unknown tags of `annotated` are empty blocks to a run that ignores them, and to
one that rejects them it is malformed. -/
theorem annotated_ends_alike :
    (∃ it', withEcho.EndsWith Stock.host annotated (.failed
      ((Error.malformed (.unknownTag "comment")).withNote
        (Interpreter.formNote 0 "comment")) it')) ∧
    (∃ it', { withEcho with policy := .ignore }.EndsWith Stock.host annotated
      (.done (.text "kept") it')) ∧
    Interpreter.EndAlike Stock.host (Value.Alike Code.Blanks)
      (Interpreter.Rel (Value.Alike Code.Blanks) (Stock.Rel (Value.Alike Code.Blanks)))
      annotated { withEcho with policy := .ignore }
      annotated.blankedForms { withEcho with policy := .reject } := by
  have hhost : Stock.host.Respects (Value.Alike Code.Blanks)
      (Stock.Rel (Value.Alike Code.Blanks)) :=
    Stock.respects (fun _ _ h => h) fun _ h => .data h
  have hstate := Stock.Rel.refl (Value.Alike.refl Code.Blanks) withEcho.world.host
  refine ⟨⟨_, by simp, 12, rfl⟩, ⟨_, by simp, 12, rfl⟩, ?_⟩
  exact (ignored_trees_are_empty_blocks hhost hstate annotated).1

def shown : Tree where
  tag := "program"
  children := [
    { tag := "function", attributes := .ofList [("name", "blank")], children := [
      { tag := "comment" }] },
    { tag := "call", attributes := .ofList [("fun", "ask")], children := [
      { tag := "var", attributes := .ofList [("name", "blank")] }] }]

def observant : Host Unit := peeking (· matches .block [])

/-- A native that looks into the body of a function tells an ignored tree from an empty
block. And one that changes with each call tells the first run from the second, although
the globals are the same. -/
theorem natives_tell_ignored_trees :
    ((∃ it₁, (withNative .ignore ()).EndsWith observant shown (.done (.bool false) it₁)) ∧
      (∃ it₂, (withNative .reject ()).EndsWith observant shown.blankedForms
        (.done (.bool true) it₂)) ∧
      ¬ Interpreter.EndAlike observant (Value.Alike Code.Blanks) (fun _ _ => True) shown
        (withNative .ignore ()) shown.blankedForms (withNative .reject ())) ∧
    ∃ it₁ it₂, (withNative .ignore false).EndsWith turning asked (.done (.bool false) it₁) ∧
      it₁.globals = (withNative .ignore false).globals ∧
      { it₁ with policy := .reject }.EndsWith turning asked.blankedForms
        (.done (.bool true) it₂) := by
  have hignored : ∃ it₁, (withNative .ignore ()).EndsWith observant shown
      (.done (.bool false) it₁) := ⟨_, by simp, 8, rfl⟩
  have hblanked : ∃ it₂, (withNative .reject ()).EndsWith observant shown.blankedForms
      (.done (.bool true) it₂) := ⟨_, by simp, 8, rfl⟩
  refine ⟨⟨hignored, hblanked, ?_⟩, _, _, ⟨by simp, 8, rfl⟩, rfl, by simp, 8, rfl⟩
  obtain ⟨it₁, hignored⟩ := hignored
  obtain ⟨it₂, hblanked⟩ := hblanked
  intro halike
  cases halike.related hignored hblanked

end Treewalk
