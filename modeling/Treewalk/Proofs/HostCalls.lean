import Treewalk.Proofs.BindingFrame
import Treewalk.Proofs.Operations
import Treewalk.Proofs.StableNames

/-!
Calls from the host and calls in the language. The host calls a global by name on values
that it has; code calls what a variable holds, or what a name stood for when the code
was compiled, on arguments that it runs first. Main statement: on the same values the
three end alike, in outcome and in the state they leave, and none rebinds a global.
-/
namespace Treewalk

variable {η σ : Type}

/-- Constants as arguments give their values and do nothing else. -/
theorem runArgs_const {runner : Runner σ}
    (hconst : ∀ v s, runner (.const v) s = .done (.value v) s) (args taken : List Value) (s : σ) :
    runArgs runner (args.map .const) taken s = .done (.value (taken.reverse ++ args)) s := by
  induction args generalizing taken with
  | nil => simp [runArgs]
  | cons a args ih => simp [runArgs, hconst, Outcome.onValue, ih]

/-- A call on constants is the call of what its callee gives, made on their values. -/
theorem run_call_const {host : Host η} {fuel : Nat} {callee : Code} {f : Value} {c : Config η}
    (hcallee : run host (fuel + 1) callee c = .done (.value f) c) (args : List Value) :
    run host (fuel + 2) (.call callee (args.map .const)) c =
      (callValue host (run host (fuel + 1)) c.env f args c.world).mapState (Config.mk c.env) := by
  have hargs : runArgs (run host (fuel + 1)) (args.map .const) [] c = .done (.value args) c :=
    runArgs_const (fun _ _ => rfl) args [] c
  simp [run_succ host (fuel + 1), step, hcallee, hargs, Outcome.onValue]

namespace Interpreter

theorem runForm_call (runner : Runner (Config η)) (id : Nat) (callee : Code) (args : List Code)
    (it : Interpreter η) :
    it.runForm runner ⟨id, .call callee args⟩ =
      (settle ((runner (.call callee args) it.config).mapState it.withConfig)).map some := by
  rw [runForm_eq fun _ _ _ h => by cases h]
  cases settle ((runner (.call callee args) it.config).mapState it.withConfig) <;> rfl

def FormEndsWith (host : Host η) (form : Form) (it : Interpreter η)
    (o : Outcome (Interpreter η) (Option Value)) : Prop :=
  o ≠ .outOfFuel ∧ ∃ fuel, it.runForm (run host fuel) form = o

def CallEndsWith (host : Host η) (name : Name) (args : List Value) (it : Interpreter η)
    (o : Outcome (Interpreter η) Value) : Prop :=
  o ≠ .outOfFuel ∧ ∃ fuel, it.call host fuel name args = o

/-- The form ends just as the call by name does, in outcome and in state, and leaves the
globals as they are. -/
structure AnswersAs (host : Host η) (form : Form) (name : Name) (args : List Value)
    (it : Interpreter η) : Prop where
  ends : ∀ o, it.FormEndsWith host form o ↔
    ∃ o', it.CallEndsWith host name args o' ∧ o = o'.map some
  globals : ∀ o it', it.FormEndsWith host form o → o.state? = some it' → it'.globals = it.globals

theorem call_below (host : Host η) {fuel fuel' : Nat} (h : fuel ≤ fuel') (name : Name)
    (args : List Value) (it : Interpreter η) :
    (it.call host fuel name args).Below (it.call host fuel' name args) := by
  unfold call
  split
  · exact .refl _
  · exact settle_below ((callValue_below (run_below host h) host _ _ _ _).mapState _)

variable {host : Host η} {it : Interpreter η} {name : Name} {args : List Value}

theorem CallEndsWith.globals {o : Outcome (Interpreter η) Value} {it' : Interpreter η}
    (h : it.CallEndsWith host name args o) (hstate : o.state? = some it') :
    it'.globals = it.globals := by
  obtain ⟨-, fuel, rfl⟩ := h
  exact globals_of_call hstate

/-- It is enough that the form does with some more fuel what the call does. -/
theorem AnswersAs.of_runForm {form : Form}
    (h : ∀ fuel, it.runForm (run host (fuel + 2)) form =
      (it.call host (fuel + 1) name args).map some) : it.AnswersAs host form name args := by
  have hends : ∀ o, it.FormEndsWith host form o ↔
      ∃ o', it.CallEndsWith host name args o' ∧ o = o'.map some := by
    intro o
    -- Either side is given more fuel than it ended with, until the two bounds fit.
    constructor
    · rintro ⟨hne, fuel, rfl⟩
      have hmore := (runForm_below (run_below host (Nat.le_add_right fuel 2)) form it).eq hne
      rw [← hmore, h fuel] at hne ⊢
      refine ⟨_, ⟨?_, fuel + 1, rfl⟩, rfl⟩
      intro heq
      rw [heq] at hne
      exact hne rfl
    · rintro ⟨_, ⟨hne, fuel, rfl⟩, rfl⟩
      have hmore := (call_below host (Nat.le_succ fuel) name args it).eq hne
      refine ⟨?_, fuel + 2, by rw [h fuel, hmore]⟩
      cases ho : it.call host fuel name args with
      | outOfFuel => exact absurd ho hne
      | _ => exact fun heq => by cases heq
  refine ⟨hends, ?_⟩
  intro o it' ho hstate
  obtain ⟨o', ho', rfl⟩ := (hends o).1 ho
  exact ho'.globals ((Outcome.state?_map some o').symm.trans hstate)

/-- Whatever gives what the name is bound to can be the callee. -/
theorem runForm_eq_call {fuel : Nat} {callee : Code} {f : Value} (hf : it.lookup? name = some f)
    (hcallee : run host (fuel + 1) callee it.config = .done (.value f) it.config) (id : Nat) :
    it.runForm (run host (fuel + 2)) ⟨id, .call callee (args.map .const)⟩ =
      (it.call host (fuel + 1) name args).map some := by
  rw [runForm_call, run_call_const hcallee, call, hf]
  simp only [config]
  cases callValue host (run host (fuel + 1)) it.globals f args it.world <;> rfl

theorem answersAs_const {f : Value} (hf : it.lookup? name = some f) (id : Nat) :
    it.AnswersAs host ⟨id, .call (.const f) (args.map .const)⟩ name args :=
  .of_runForm fun _ => runForm_eq_call hf rfl id

theorem answersAs_var (id : Nat) :
    it.AnswersAs host ⟨id, .call (.var name) (args.map .const)⟩ name args := by
  refine .of_runForm fun fuel => ?_
  have hvar : run host (fuel + 1) (.var name) it.config =
      Outcome.ofExcept it.config ((it.get name).map .value) := rfl
  cases hf : it.lookup? name with
  | some f =>
    refine runForm_eq_call hf ?_ id
    have hget : it.get name = .ok f := by
      simp [get, Environment.get, show it.globals.lookup? it.world.cells name = some f from hf]
    rw [hvar, hget]
    rfl
  | none =>
    have hget : it.get name = .error (.unboundVariable name) := by
      simp [get, Environment.get, show it.globals.lookup? it.world.cells name = none from hf]
    rw [runForm_call, run_succ, step, hvar, hget, call, hf]
    rfl

/-- A tree that calls the name compiles to a call of what the name is bound to. -/
theorem compile_callName {tree : Tree} {f : Value} {codes : List Code}
    (htree : tree.CallsByName name) (hf : it.lookup? name = some f)
    (hcodes : tree.children.map (Treewalk.compile it.scope) = codes.map .ok) :
    it.compile tree =
      .ok (⟨it.nextId, .call (.const f) codes⟩, { it with nextId := it.nextId + 1 }) := by
  have hsequence := sequence_eq_ok_iff.2 hcodes
  have htarget : it.scope.target name = f := by simp [scope, hf]
  have hcode : Treewalk.compile it.scope tree = .ok (.call (.const f) codes) := by
    rw [compile_eq]
    simp only [assemble, show Tag.ofSpelling? tree.tag = some .call from htree.1,
      show tree.attributes.get? "fun" = some name from htree.2, hsequence, htarget]
    rfl
  rw [compile, hcode]
  rfl

end Interpreter

/-- Calls from the host agree with calls in the language. For every interpreter, name and
values, the call by name and the form that calls the variable on these values as
constants end alike: with the same value or the same error and notes, and in the same
state, with the same output and the same contents of cells. If the name is bound, so does
the form that calls what it is bound to, which is what a tree that calls the name
compiles to. None of them changes a binding of the globals. -/
theorem host_calls_agree_with_forms (host : Host η) (name : Name) (args : List Value)
    (it : Interpreter η) :
    (∀ id, it.AnswersAs host ⟨id, .call (.var name) (args.map .const)⟩ name args) ∧
    (∀ f, it.lookup? name = some f →
      (∀ id, it.AnswersAs host ⟨id, .call (.const f) (args.map .const)⟩ name args) ∧
      ∀ tree : Tree, tree.CallsByName name →
        tree.children.map (compile it.scope) = (args.map .const).map .ok →
        ∃ form it', it.compile tree = .ok (form, it') ∧
          form.code = .call (.const f) (args.map .const) ∧
          it.AnswersAs host form name args ∧ it'.AnswersAs host form name args) ∧
    ∀ o it', it.CallEndsWith host name args o → o.state? = some it' →
      it'.globals = it.globals := by
  refine ⟨Interpreter.answersAs_var, ?_, fun o it' ho hstate => ho.globals hstate⟩
  intro f hf
  refine ⟨Interpreter.answersAs_const hf, ?_⟩
  intro tree htree hchildren
  have hf' : ({ it with nextId := it.nextId + 1 } : Interpreter η).lookup? name = some f := hf
  exact ⟨_, _, Interpreter.compile_callName htree hf hchildren, rfl,
    Interpreter.answersAs_const hf _, Interpreter.answersAs_const hf' _⟩

def marking : Value :=
  .function 6 "mark" ["x"] (.block [.assign "seen" (.var "x"), .goto "away"])

def unmarked : Interpreter Unit :=
  ((Interpreter.new { prelude := false } ()).defineCell "seen" .absent).define "mark" marking

def markHere : Tree where
  tag := "call"
  attributes := .ofList [("fun", "mark")]
  children := [{ tag := "string", attributes := .ofList [("value", "here")] }]

/-- All three calls end with the error for the jump, after the cell was stored into. -/
theorem marking_calls_agree :
    ∃ it', it'.lookup? "seen" = some (.text "here") ∧ it'.globals = unmarked.globals ∧
      unmarked.CallEndsWith echoing "mark" [.text "here"]
        (.failed (.malformed (.unresolvedGoto "away")) it') ∧
      unmarked.FormEndsWith echoing ⟨0, .call (.var "mark") [.const (.text "here")]⟩
        (.failed (.malformed (.unresolvedGoto "away")) it') ∧
      ∃ form it₁, unmarked.compile markHere = .ok (form, it₁) ∧
        unmarked.FormEndsWith echoing form (.failed (.malformed (.unresolvedGoto "away")) it') := by
  obtain ⟨hvar, hbound, hglobals⟩ :=
    host_calls_agree_with_forms echoing "mark" [.text "here"] unmarked
  obtain ⟨-, htree⟩ := hbound marking rfl
  obtain ⟨form, it₁, hcompile, -, hanswers, -⟩ := htree markHere (by decide) rfl
  have hcall : ∃ it', it'.lookup? "seen" = some (.text "here") ∧
      unmarked.CallEndsWith echoing "mark" [.text "here"]
        (.failed (.malformed (.unresolvedGoto "away")) it') :=
    ⟨_, rfl, by simp, 8, rfl⟩
  obtain ⟨it', hseen, hends⟩ := hcall
  exact ⟨it', hseen, hglobals _ it' hends rfl, hends, ((hvar 0).ends _).2 ⟨_, hends, rfl⟩,
    form, it₁, hcompile, (hanswers.ends _).2 ⟨_, hends, rfl⟩⟩

end Treewalk
