import Treewalk.Proofs.Programs

/-!
What a host asks of an interpreter, one operation after another. An operation that
fails keeps the effects it had, and the next one goes on from there; after one that does
not end there is none. Main statement: what every operation keeps, every sequence of
operations keeps.
-/
namespace Treewalk

variable {η σ : Type}

def Outcome.map {α β : Type} (f : α → β) : Outcome σ α → Outcome σ β
  | done a s => done (f a) s
  | failed e s => failed e s
  | outOfFuel => outOfFuel

@[simp] theorem Outcome.state?_map {α β : Type} (f : α → β) (o : Outcome σ α) :
    (o.map f).state? = o.state? := by
  cases o <;> rfl

theorem Outcome.Meets.map {α β : Type} {value : α → Prop} {value' : β → Prop}
    {error : Error → Prop} {state : σ → Prop} {o : Outcome σ α} {f : α → β}
    (h : o.Meets value error state) (hf : ∀ a, value a → value' (f a)) :
    (o.map f).Meets value' error state := by
  cases o with
  | done a s => exact ⟨hf a h.1, h.2⟩
  | failed e s => exact h
  | outOfFuel => trivial

inductive Operation where
  | program (root : Tree)
  | compile (tree : Tree)
  | form (form : Form)
  | call (name : Name) (args : List Value)
  | register (f : Native)
  | define (name : Name) (v : Value)
  | defineCell (name : Name) (v : Value)
  | clearOutput

def Operation.isClear : Operation → Bool
  | .clearOutput => true
  | _ => false

theorem Operation.eq_of_isClear {operation : Operation} (h : operation.isClear) :
    operation = .clearOutput := by
  cases operation with
  | clearOutput => rfl
  | _ => cases h

inductive Answer where
  | nothing
  | value (v : Value)
  | compiled (form : Form)

structure Record (η : Type) where
  before : Interpreter η
  operation : Operation
  outcome : Outcome (Interpreter η) Answer

namespace Interpreter

def build (conf : Configuration) (natives : List Native) (state : η) : Interpreter η :=
  natives.foldl register (new conf state)

def perform (host : Host η) (fuel : Nat) (it : Interpreter η) :
    Operation → Outcome (Interpreter η) Answer
  | .program root => (runProgram (run host fuel) root it).map .value
  | .compile tree =>
    match it.compile tree with
    | .ok (form, it) => .done (.compiled form) it
    | .error e => .failed e it
  | .form form => (runForm (run host fuel) form it).map fun r => r.elim .nothing .value
  | .call name args => (it.call host fuel name args).map .value
  | .register f => .done .nothing (it.register f)
  | .define name v => .done .nothing (it.define name v)
  | .defineCell name v => .done .nothing (it.defineCell name v)
  | .clearOutput => .done .nothing it.clearOutput

def after (host : Host η) (fuel : Nat) : List Operation → Interpreter η → Option (Interpreter η)
  | [], it => some it
  | operation :: operations, it =>
    (it.perform host fuel operation).state?.bind (after host fuel operations)

/-- Each operation with the interpreter it starts on and how it ends, up to the first that
does not end. -/
def history (host : Host η) (fuel : Nat) : List Operation → Interpreter η → List (Record η)
  | [], _ => []
  | operation :: operations, it =>
    ⟨it, operation, it.perform host fuel operation⟩ ::
      match (it.perform host fuel operation).state? with
      | some it => history host fuel operations it
      | none => []

/-- The points that an evaluator comes by in an operation; `start` is the state it starts
in. -/
def points (host : Host η) (M : Machine σ) (start : Config η → σ) (fuel : Nat)
    (it : Interpreter η) : Operation → List (Event σ)
  | .program root =>
    formPoints (run host fuel) (fun n c => M.trace fuel n (start c)) root.children it
  | .form form =>
    match form.code with
    | .definition .. => []
    | code => M.trace fuel code (start it.config)
  | .call name args =>
    match it.lookup? name with
    | none => []
    | some f => M.callTrace fuel f args (start it.config)
  | _ => []

variable {host : Host η} {fuel : Nat} {P : Interpreter η → Prop}

/-- What every operation keeps holds of every interpreter reached. -/
theorem after_keeps
    (hkeeps : ∀ operation it it', P it → (perform host fuel it operation).state? = some it' → P it')
    {operations : List Operation} {it it' : Interpreter η} (hit : P it)
    (h : it.after host fuel operations = some it') : P it' := by
  induction operations generalizing it with
  | nil =>
    cases h
    exact hit
  | cons operation operations ih =>
    obtain ⟨it₁, hfirst, hrest⟩ := Option.bind_eq_some_iff.1 h
    exact ih (hkeeps operation it it₁ hit hfirst) hrest

/-- What every form of a program keeps, the program keeps. -/
theorem runForms_keeps {runner : Runner (Config η)}
    (hkeeps : ∀ tree it it', P it → (runTree runner tree it).state? = some it' → P it')
    (index : Nat) {trees : List Tree} {result : Value} {it it' : Interpreter η} (hit : P it)
    (h : (runForms runner index trees result it).state? = some it') : P it' := by
  induction trees generalizing index result it with
  | nil =>
    cases h
    exact hit
  | cons tree trees ih =>
    have hfirst := hkeeps tree it
    simp only [runForms] at h
    split at h
    · next v it₁ ho =>
      rw [ho] at hfirst
      exact ih (index + 1) (hfirst it₁ hit rfl) h
    · next e it₁ ho =>
      rw [ho] at hfirst
      cases h
      exact hfirst _ hit rfl
    · cases h

end Interpreter

end Treewalk
