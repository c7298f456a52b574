import Treewalk.Proofs.Compilation
import Treewalk.Proofs.Endings
import Treewalk.Proofs.Natives

/-!
Programs in parts. Running the forms of one program and then those of another, on what
the first leaves, is running them as one program. The second program counts its forms
from zero, and starts without a result: that is all the whole program can differ in,
and it shows in the number that the last note of an error gives, and in the result if
the second program only installs functions.
-/
namespace Treewalk

variable {η : Type}

def Outcome.andThen {σ α β : Type} (o : Outcome σ α) (k : α → σ → Outcome σ β) : Outcome σ β :=
  match o with
  | done a s => k a s
  | failed e s => failed e s
  | outOfFuel => outOfFuel

namespace Tree

theorem form?_eq_function_iff {tree : Tree} :
    tree.form? = some .function ↔ tree.tag = "function" := by
  constructor
  · intro hform
    exact (Tag.spelling_of_ofSpelling? hform).symm
  · intro htag
    rw [form?, htag]
    exact Tag.ofSpelling?_spelling .function

end Tree

/-- The trees that compile to a definition of a function are the functions. -/
theorem definition_iff_of_compile {scope : Scope} {tree : Tree} {code : Code}
    (h : compile scope tree = .ok code) :
    (∃ name params body, code = .definition name params body) ↔ tree.tag = "function" := by
  rw [← Tree.form?_eq_function_iff]
  cases compiled_of_compile h with
  | function hform hname hchildren hbody => exact ⟨fun _ => hform, fun _ => ⟨_, _, _, rfl⟩⟩
  | ignored hform | block hform | read hform | declare hform | label hform | goto hform
  | store hform | number hform | text hform | when hform | choose hform | callName hform
  | call hform =>
    constructor
    · rintro ⟨name, params, body, heq⟩
      cases heq
    · intro hfunction
      rw [hform] at hfunction
      cases hfunction

namespace Interpreter

variable {runner : Runner (Config η)}

theorem runForm_none_iff {form : Form} {it it' : Interpreter η} {r : Option Value}
    (h : runForm runner form it = .done r it') :
    r = none ↔ ∃ name params body, form.code = .definition name params body := by
  unfold runForm at h
  split at h
  · next name params body hcode =>
    cases h
    exact ⟨fun _ => ⟨name, params, body, hcode⟩, fun _ => rfl⟩
  · next hother =>
    split at h
    · cases h
      constructor
      · intro hnone
        cases hnone
      · rintro ⟨name, params, body, hcode⟩
        exact absurd hcode (hother name params body)
    · cases h
    · cases h

/-- A form that ends without a value is one with the tag of functions. -/
theorem runTree_none_iff {tree : Tree} {it it' : Interpreter η} {r : Option Value}
    (h : runTree runner tree it = .done r it') : r = none ↔ tree.tag = "function" := by
  unfold runTree compile at h
  cases hcompile : Treewalk.compile it.scope tree with
  | error e =>
    rw [hcompile] at h
    cases h
  | ok code =>
    rw [hcompile] at h
    rw [← definition_iff_of_compile hcompile]
    exact runForm_none_iff h

/-- The forms that a program comes to, each with the interpreter it is compiled on. -/
def formsReached (runner : Runner (Config η)) :
    List Tree → Interpreter η → List (Tree × Interpreter η)
  | [], _ => []
  | tree :: trees, it =>
    (tree, it) ::
      match runTree runner tree it with
      | .done _ it => formsReached runner trees it
      | _ => []

/-- Forms are run in order: the first list to its end, and then the second. -/
theorem runForms_append (index : Nat) (trees trees' : List Tree) (result : Value)
    (it : Interpreter η) :
    runForms runner index (trees ++ trees') result it =
      (runForms runner index trees result it).andThen fun v it' =>
        runForms runner (index + trees.length) trees' v it' := by
  induction trees generalizing index result it with
  | nil => rfl
  | cons tree trees ih =>
    have hindex : index + (tree :: trees).length = index + 1 + trees.length := by
      rw [List.length_cons]
      omega
    rw [hindex, List.cons_append, runForms, runForms]
    cases runTree runner tree it with
    | done r it' => exact ih (index + 1) (r.getD result) it'
    | failed e it' => rfl
    | outOfFuel => rfl

/-- If the forms of the first list do not all succeed, none of the second is come to. -/
theorem formsReached_append {index : Nat} {trees : List Tree} (trees' : List Tree)
    {result : Value} {it : Interpreter η}
    (h : ∀ v it', runForms runner index trees result it ≠ .done v it') :
    formsReached runner (trees ++ trees') it = formsReached runner trees it := by
  induction trees generalizing index result it with
  | nil => exact absurd rfl (h result it)
  | cons tree trees ih =>
    rw [runForms] at h
    rw [List.cons_append, formsReached, formsReached]
    cases hfirst : runTree runner tree it with
    | done r it' =>
      rw [hfirst] at h
      exact congrArg _ (ih h)
    | failed e it' => rfl
    | outOfFuel => rfl

/-- Forms that succeed do so from any number and with any result before them, which stays
the result if all of them are functions. -/
theorem runForms_done {index : Nat} {trees : List Tree} {result : Value} {it it' : Interpreter η}
    {v : Value} (h : runForms runner index trees result it = .done v it') (index' : Nat)
    (result' : Value) :
    runForms runner index' trees result' it =
      .done (if ∃ tree ∈ trees, tree.tag ≠ "function" then v else result') it' := by
  induction trees generalizing index index' result result' it with
  | nil =>
    cases h
    simp [runForms]
  | cons tree trees ih =>
    rw [runForms] at h ⊢
    cases hfirst : runTree runner tree it with
    | failed e it₁ =>
      rw [hfirst] at h
      cases h
    | outOfFuel =>
      rw [hfirst] at h
      cases h
    | done r it₁ =>
      rw [hfirst] at h
      have hrest := ih h (index' + 1) (r.getD result')
      have hnone := runTree_none_iff hfirst
      cases r with
      | none =>
        have htag : tree.tag = "function" := hnone.1 rfl
        simpa [htag] using hrest
      | some u =>
        have htag : tree.tag ≠ "function" := fun htag => by
          cases hnone.2 htag
        -- Whatever stood before the form, its own value is the result from here on.
        have hsame := ih h (index + 1) u
        dsimp only [Option.getD_some] at h hrest hsame ⊢
        rw [h] at hsame
        have hv : v = if ∃ tree ∈ trees, tree.tag ≠ "function" then v else u :=
          (Outcome.done.inj hsame).1
        rw [← hv] at hrest
        simpa [htag] using hrest

/-- Forms that fail do so from any number and with any result before them; the last note
counts from the number they start with. -/
theorem runForms_failed {index : Nat} {trees : List Tree} {result : Value}
    {it it' : Interpreter η} {e : Error}
    (h : runForms runner index trees result it = .failed e it') :
    ∃ (i : Nat) (form : Tree) (e₀ : Error), trees[i]? = some form ∧
      e = e₀.withNote (formNote (index + i) form.tag) ∧
      ∀ index' result', runForms runner index' trees result' it =
        .failed (e₀.withNote (formNote (index' + i) form.tag)) it' := by
  induction trees generalizing index result it with
  | nil => cases h
  | cons tree trees ih =>
    rw [runForms] at h
    cases hfirst : runTree runner tree it with
    | done r it₁ =>
      rw [hfirst] at h
      obtain ⟨i, form, e₀, hform, he, hruns⟩ := ih h
      have hshift : ∀ k : Nat, k + (i + 1) = k + 1 + i := fun k => by omega
      refine ⟨i + 1, form, e₀, by simpa using hform, ?_, ?_⟩
      · rw [hshift]
        exact he
      · intro index' result'
        rw [runForms, hfirst, hshift]
        exact hruns (index' + 1) (r.getD result')
    | failed e₁ it₁ =>
      rw [hfirst] at h
      cases h
      refine ⟨0, tree, e₁, rfl, rfl, ?_⟩
      intro index' result'
      rw [runForms, hfirst]
      rfl
    | outOfFuel =>
      rw [hfirst] at h
      cases h

/-- Forms that do not end under a bound do not do so from any number and with any result
before them. -/
theorem runForms_outOfFuel {index : Nat} {trees : List Tree} {result : Value}
    {it : Interpreter η} (h : runForms runner index trees result it = .outOfFuel) (index' : Nat)
    (result' : Value) : runForms runner index' trees result' it = .outOfFuel := by
  cases hother : runForms runner index' trees result' it with
  | done v it' =>
    rw [runForms_done hother index result] at h
    cases h
  | failed e it' =>
    obtain ⟨i, form, e₀, -, -, hruns⟩ := runForms_failed hother
    rw [hruns index result] at h
    cases h
  | outOfFuel => rfl

/-- Two programs, one after the other, that both end do so under one bound. -/
theorem EndsWith.both {host : Host η} {first second : Tree} {it it₁ : Interpreter η}
    {o o' : Outcome (Interpreter η) Value} (h : it.EndsWith host first o)
    (h' : it₁.EndsWith host second o') :
    ∃ fuel, it.runProgram (run host fuel) first = o ∧
      it₁.runProgram (run host fuel) second = o' := by
  obtain ⟨fuel, hfuel⟩ := h.eq_of_le
  obtain ⟨fuel', hfuel'⟩ := h'.eq_of_le
  exact ⟨max fuel fuel', hfuel _ (by omega), hfuel' _ (by omega)⟩

/-- A program that ends with an error succeeds under no bound. -/
theorem EndsWith.ne_done {host : Host η} {root : Tree} {it it₁ : Interpreter η} {e : Error}
    (h : it.EndsWith host root (.failed e it₁)) (fuel : Nat) (v : Value) (it₂ : Interpreter η) :
    it.runProgram (run host fuel) root ≠ .done v it₂ := by
  intro hdone
  have hends : it.EndsWith host root (.done v it₂) := ⟨fun heq => (by cases heq), fuel, hdone⟩
  cases h.unique hends

end Interpreter

open Interpreter in
/-- Programs compose. Let the forms of a program be those of a first and then those of a
second. If the first fails, the whole fails with the same error in the same state, and
comes to no form beyond those the first comes to. If the first succeeds and the second
then fails, the whole fails in the same state with the same error, but for the number in
the last note, which counts the forms of the first too. If both succeed, so does the
whole, in the same state and with the result of the second, or with that of the first if
the second has functions only. The whole ends in no other case. And where a form does not
compile, the state is the one that the forms before it left. -/
theorem programs_compose (host : Host η) (it : Interpreter η) {whole first second : Tree}
    (h : whole.children = first.children ++ second.children) :
    (∀ e it₁, it.EndsWith host first (.failed e it₁) →
      it.EndsWith host whole (.failed e it₁) ∧
      ∀ fuel, formsReached (run host fuel) whole.children it =
        formsReached (run host fuel) first.children it) ∧
    (∀ v it₁ e it₂, it.EndsWith host first (.done v it₁) →
      it₁.EndsWith host second (.failed e it₂) →
      ∃ (i : Nat) (form : Tree) (e₀ : Error), second.children[i]? = some form ∧
        e = ⟨e₀.kind, e₀.notes.push (formNote i form.tag)⟩ ∧
        it.EndsWith host whole (.failed
          ⟨e₀.kind, e₀.notes.push (formNote (first.children.length + i) form.tag)⟩ it₂)) ∧
    (∀ v it₁ u it₂, it.EndsWith host first (.done v it₁) →
      it₁.EndsWith host second (.done u it₂) →
      it.EndsWith host whole
        (.done (if ∃ form ∈ second.children, form.tag ≠ "function" then u else v) it₂)) ∧
    (∀ o, it.EndsWith host whole o →
      (∃ e it₁, it.EndsWith host first (.failed e it₁)) ∨
      ∃ v it₁ o', it.EndsWith host first (.done v it₁) ∧ it₁.EndsWith host second o') ∧
    ∀ v it₁ form rest e, second.children = form :: rest →
      it.EndsWith host first (.done v it₁) → compile it₁.scope form = .error e →
      it.EndsWith host whole
        (.failed ⟨e.kind, e.notes.push (formNote first.children.length form.tag)⟩ it₁) := by
  have hwhole : ∀ fuel, it.runProgram (run host fuel) whole =
      (it.runProgram (run host fuel) first).andThen fun v it₁ =>
        runForms (run host fuel) first.children.length second.children v it₁ := by
    intro fuel
    unfold runProgram
    rw [h, runForms_append, Nat.zero_add]
  refine ⟨?_, ?_, ?_, ?_, ?_⟩
  · intro e it₁ hfirst
    constructor
    · obtain ⟨hne, fuel, hrun⟩ := hfirst
      refine ⟨hne, fuel, ?_⟩
      rw [hwhole, hrun]
      rfl
    · intro fuel
      rw [h]
      exact formsReached_append second.children (hfirst.ne_done fuel)
  · intro v it₁ e it₂ hfirst hsecond
    obtain ⟨fuel, hrun, hrun'⟩ := hfirst.both hsecond
    obtain ⟨i, form, e₀, hform, he, hruns⟩ := runForms_failed hrun'
    rw [Nat.zero_add] at he
    refine ⟨i, form, e₀, hform, he, fun heq => (by cases heq), fuel, ?_⟩
    rw [hwhole, hrun]
    exact hruns first.children.length v
  · intro v it₁ u it₂ hfirst hsecond
    obtain ⟨fuel, hrun, hrun'⟩ := hfirst.both hsecond
    refine ⟨fun heq => (by cases heq), fuel, ?_⟩
    rw [hwhole, hrun]
    exact runForms_done hrun' first.children.length v
  · rintro o ⟨hne, fuel, rfl⟩
    rw [hwhole] at hne
    cases hrun : it.runProgram (run host fuel) first with
    | failed e it₁ => exact .inl ⟨e, it₁, fun heq => (by cases heq), fuel, hrun⟩
    | outOfFuel =>
      rw [hrun] at hne
      exact absurd rfl hne
    | done v it₁ =>
      rw [hrun] at hne
      refine .inr ⟨v, it₁, _, ⟨fun heq => (by cases heq), fuel, hrun⟩, ?_, fuel, rfl⟩
      exact fun hsecond => hne (runForms_outOfFuel hsecond first.children.length v)
  · intro v it₁ form rest e hsecond hfirst hcompile
    obtain ⟨hne, fuel, hrun⟩ := hfirst
    refine ⟨fun heq => (by cases heq), fuel, ?_⟩
    have htree : runTree (run host fuel) form it₁ = .failed e it₁ := by
      unfold runTree Interpreter.compile
      rw [hcompile]
      rfl
    rw [hwhole, hrun, hsecond]
    simp only [Outcome.andThen, runForms, htree, Error.withNote]

def preparing : Tree where
  tag := "program"
  children := [
    { tag := "def", attributes := .ofList [("name", "x")] },
    { tag := "set", attributes := .ofList [("name", "x")], children := [
      { tag := "string", attributes := .ofList [("value", "ready")] }] }]

def stumbling : Tree where
  tag := "program"
  children := [
    { tag := "function", attributes := .ofList [("name", "tell")], children := [
      { tag := "call", attributes := .ofList [("fun", "print")], children := [
        { tag := "var", attributes := .ofList [("name", "x")] }] }] },
    { tag := "call", attributes := .ofList [("fun", "tell")] },
    { tag := "var", attributes := .ofList [("name", "y")] },
    { tag := "call", attributes := .ofList [("fun", "tell")] }]

def reporting : Tree where
  tag := "report"
  children := preparing.children ++ stumbling.children

/-- As one program, `preparing` and `stumbling` fail where `stumbling` does, with the form
counted from the start of `preparing`. -/
theorem reporting_composes :
    ∃ it₁ it₂ e,
      (Interpreter.new {} ()).EndsWith echoing preparing (.done (.text "ready") it₁) ∧
      it₁.EndsWith echoing stumbling (.failed e it₂) ∧ it₂.world.printer.pending = "ready\n" ∧
      ∃ (i : Nat) (form : Tree) (e₀ : Error), stumbling.children[i]? = some form ∧
        e = ⟨e₀.kind, e₀.notes.push (Interpreter.formNote i form.tag)⟩ ∧
        (Interpreter.new {} ()).EndsWith echoing reporting (.failed ⟨e₀.kind,
          e₀.notes.push (Interpreter.formNote (preparing.children.length + i) form.tag)⟩ it₂) := by
  refine ⟨_, _, _, ⟨by simp, 12, rfl⟩, ⟨by simp, 12, rfl⟩, rfl, ?_⟩
  have hcompose := programs_compose echoing (Interpreter.new {} ())
    (show reporting.children = preparing.children ++ stumbling.children from rfl)
  exact hcompose.2.1 (.text "ready") _ _ _ ⟨by simp, 12, rfl⟩ ⟨by simp, 12, rfl⟩

end Treewalk
