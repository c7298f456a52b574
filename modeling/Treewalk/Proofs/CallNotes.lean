import Treewalk.Native.Stock
import Treewalk.Proofs.Compilation
import Treewalk.Proofs.Nesting

/-!
Where errors come from, and what their notes say. An error is raised at one site of a run,
by a native that is called there or by the interpreter itself, while some calls wait for
the bodies of their functions. Main statement: the notes of an error are those that the
native put on it, then one for each call that waits, the innermost first, and for a
program one more that says which form has failed.
-/
namespace Treewalk

variable {η σ α β : Type}

/-- The call of a value is turned down: by the native that is called, or because of the
number of arguments, or because nothing can be called. -/
inductive Value.Refuses (host : Host η) (args : List Value) (w : World η) :
    Value → Option Native → Error → Prop
  | native {f : Native} {e : Error} : (host.apply f args w).1 = .error e →
      Refuses host args w (.native f) (some f) e
  | count {id : Nat} {name : Name} {params : List Name} {body : Code} :
      args.length ≠ params.length → Refuses host args w (.function id name params body) none
        (.arityMismatch name params.length args.length)
  | uncallable {v : Value} : ¬ v.IsFunction → (∀ f, v ≠ .native f) →
      Refuses host args w v none (.notCallable v.typeName)

/-- The site raises an error, and none of its parts does. If a native raises it, that is
the one given. -/
inductive Raises (host : Host η) : Site η → Option Native → Error → Prop
  | unbound {fuel : Nat} {name : Name} {c : Config η} : c.env.slot? name = none →
      Raises host ⟨fuel + 1, .var name, c⟩ none (.unboundVariable name)
  | noTarget {fuel : Nat} {name : Name} {expr : Code} {c : Config η} :
      c.env.slot? name = none →
      Raises host ⟨fuel + 1, .assign name expr, c⟩ none (.unboundVariable name)
  | plainTarget {fuel : Nat} {name : Name} {expr : Code} {c : Config η} {v : Value} :
      c.env.slot? name = some (.plain v) →
      Raises host ⟨fuel + 1, .assign name expr, c⟩ none (.invalidAssignment name)
  | call {fuel : Nat} {callee : Code} {args : List Code} {c c₁ d : Config η} {f : Value}
      {vs : List Value} {native? : Option Native} {e : Error} :
      run host fuel callee c = .done (.value f) c₁ →
      runArgs (run host fuel) args [] c₁ = .done (.value vs) d →
      f.Refuses host vs d.world native? e →
      Raises host ⟨fuel + 1, .call callee args, c⟩ native? e

/-- In the run from a site an error is raised, while calls of these functions wait for
their bodies, the innermost first. -/
def RaisedIn (host : Host η) (outer : Site η) (native? : Option Native) (names : List Name)
    (e : Error) : Prop :=
  ∃ inner calls labels, Nesting host outer inner calls labels ∧
    Raises host inner native? e ∧ names = calls.map Activation.name

/-- The error is as the native has given it, or without a native it has no notes. -/
def Error.RaisedBy (host : Host η) (e : Error) : Option Native → Prop
  | some f => ∃ args w, (host.apply f args w).1 = .error e
  | none => e.notes = #[]

namespace Error

@[simp] theorem kind_inCalls (names : List Name) (e : Error) :
    (e.inCalls names).kind = e.kind := by
  induction names generalizing e with
  | nil => rfl
  | cons name names ih => exact ih (e.withNote (callNote name))

@[simp] theorem notes_inCalls (names : List Name) (e : Error) :
    (e.inCalls names).notes.toList = e.notes.toList ++ names.map callNote := by
  induction names generalizing e with
  | nil => simp [inCalls]
  | cons name names ih =>
    refine (ih (e.withNote (callNote name))).trans ?_
    simp

theorem inCalls_append (names names' : List Name) (e : Error) :
    e.inCalls (names ++ names') = (e.inCalls names).inCalls names' :=
  List.foldl_append

end Error

namespace Outcome

theorem onValue_failed {o : Outcome σ (Flow α)} {k : α → σ → Outcome σ (Flow β)} {e : Error}
    {s : σ} (h : o.onValue k = .failed e s) :
    o = .failed e s ∨ ∃ a s', o = .done (.value a) s' ∧ k a s' = .failed e s := by
  rcases o with ⟨v | label, s'⟩ | ⟨e', s'⟩ | _
  · exact .inr ⟨v, s', rfl, h⟩
  · cases h
  · cases h
    exact .inl rfl
  · cases h

theorem mapState_failed {τ : Type} {o : Outcome σ α} {f : σ → τ} {e : Error} {t : τ}
    (h : o.mapState f = .failed e t) : ∃ s, o = .failed e s := by
  rcases o with ⟨a, s⟩ | ⟨e', s⟩ | _
  · cases h
  · cases h
    exact ⟨s, rfl⟩
  · cases h

end Outcome

/-- Arguments fail where one of them does, and those before it have given values. -/
theorem runArgs_failed {runner : Runner σ} {args : List Code} {taken : List Value} {s d : σ}
    {e : Error} (h : runArgs runner args taken s = .failed e d) :
    ∃ earlier arg later vs s', args = earlier ++ arg :: later ∧
      runArgs runner earlier taken s = .done (.value vs) s' ∧
      runner arg s' = .failed e d := by
  induction args generalizing taken s with
  | nil => cases h
  | cons arg args ih =>
    rcases Outcome.onValue_failed h with harg | ⟨v, s', harg, hrest⟩
    · exact ⟨[], arg, args, taken.reverse, s, rfl, rfl, harg⟩
    · obtain ⟨earlier, next, later, vs, s'', rfl, hearlier, hnext⟩ := ih hrest
      refine ⟨arg :: earlier, next, later, vs, s'', rfl, ?_, hnext⟩
      rw [runArgs, harg]
      exact hearlier

section Calls

variable {host : Host η} {runner : Runner (Config η)} {env : Environment} {f : Value}
  {args : List Value} {w w' : World η} {native? : Option Native} {e : Error}

/-- A call that fails is turned down, or the body of its function fails. -/
theorem callValue_failed (h : callValue host runner env f args w = .failed e w') :
    (∃ native?, f.Refuses host args w native? e) ∨
    ∃ id name params body e₀ c, f = .function id name params body ∧
      args.length = params.length ∧
      runner body ⟨env.bindAll params args, w⟩ = .failed e₀ c ∧
      e = e₀.withNote (callNote name) := by
  cases f with
  | native f =>
    simp only [callValue] at h
    split at h
    · cases h
    · next e' w'' happly =>
      cases h
      exact .inl ⟨some f, .native (by rw [happly])⟩
  | function id name params body =>
    simp only [callValue] at h
    split at h
    · next hlength =>
      rcases hbody : runner body ⟨env.bindAll params args, w⟩ with ⟨flow, c⟩ | ⟨e₀, c⟩ | _ <;>
        rw [hbody] at h <;> cases h
      exact .inr ⟨id, name, params, body, e₀, c, rfl, hlength, hbody, rfl⟩
    · next hlength =>
      cases h
      exact .inl ⟨none, .count hlength⟩
  | _ =>
    cases h
    exact .inl ⟨none, .uncallable (fun hf => hf) (fun g hg => by cases hg)⟩

theorem Value.Refuses.callValue_eq (h : f.Refuses host args w native? e)
    (runner : Runner (Config η)) (env : Environment) :
    ∃ w', callValue host runner env f args w = .failed e w' := by
  cases h with
  | @native f e happly =>
    simp only [callValue]
    rcases hresult : host.apply f args w with ⟨_ | _, w'⟩ <;> rw [hresult] at happly <;>
      cases happly
    exact ⟨w', rfl⟩
  | count hlength => exact ⟨w, by rw [callValue, if_neg hlength]⟩
  | uncallable hfunction hnative =>
    cases f with
    | native f => exact absurd rfl (hnative f)
    | function => exact absurd trivial hfunction
    | _ => exact ⟨w, rfl⟩

theorem Value.Refuses.raisedBy (h : f.Refuses host args w native? e) : e.RaisedBy host native? := by
  cases h with
  | native happly => exact ⟨args, w, happly⟩
  | count => rfl
  | uncallable => rfl

end Calls

section Sites

variable {host : Host η} {outer next : Site η} {native? : Option Native} {names : List Name}
  {e : Error}

theorem Raises.run_failed (h : Raises host outer native? e) :
    ∃ c, outer.run host = .failed e c := by
  cases h with
  | @unbound fuel name c hslot =>
    refine ⟨c, ?_⟩
    simp only [Site.run, run_succ, step, Config.get, Environment.get, Environment.lookup?, hslot]
    rfl
  | @noTarget fuel name expr c hslot =>
    exact ⟨c, by simp only [Site.run, run_succ, step, hslot]⟩
  | @plainTarget fuel name expr c v hslot =>
    exact ⟨c, by simp only [Site.run, run_succ, step, hslot]⟩
  | @call fuel callee args c c₁ d f vs native? e hcallee hargs hrefuses =>
    obtain ⟨w, hcall⟩ := hrefuses.callValue_eq (run host fuel) d.env
    refine ⟨⟨d.env, w⟩, ?_⟩
    simp only [Site.run, run_succ, step, hcallee, hargs, Outcome.onValue, hcall]
    rfl

theorem Raises.raisedBy (h : Raises host outer native? e) : e.RaisedBy host native? := by
  cases h with
  | call hcallee hargs hrefuses => exact hrefuses.raisedBy
  | _ => rfl

theorem RaisedIn.raisedBy (h : RaisedIn host outer native? names e) : e.RaisedBy host native? := by
  obtain ⟨inner, calls, labels, hnesting, hraises, -⟩ := h
  exact hraises.raisedBy

theorem Raises.raisedIn (h : Raises host outer native? e) : RaisedIn host outer native? [] e :=
  ⟨outer, [], [], .here outer, h, rfl⟩

theorem RaisedIn.part (h : RaisedIn host next native? names e)
    (hposition : Position host outer next) : RaisedIn host outer native? names e := by
  obtain ⟨inner, calls, labels, hnesting, hraises, rfl⟩ := h
  exact ⟨inner, calls, _, .part hposition hnesting, hraises, rfl⟩

theorem RaisedIn.body {call : Activation} (h : RaisedIn host next native? names e)
    (hentry : Entry host outer call next) :
    RaisedIn host outer native? (names ++ [call.name]) e := by
  obtain ⟨inner, calls, labels, hnesting, hraises, rfl⟩ := h
  exact ⟨inner, calls ++ [call], labels, .body hentry hnesting, hraises, by simp⟩

/-- An error that is raised ends the run, with a note for each call that waits. -/
theorem RaisedIn.run_failed (h : RaisedIn host outer native? names e) :
    ∃ c, outer.run host = .failed (e.inCalls names) c := by
  obtain ⟨inner, calls, labels, hnesting, hraises, rfl⟩ := h
  obtain ⟨c, hrun⟩ := hraises.run_failed
  have hbreaks : (inner.run host).Breaks labels := by
    rw [hrun]
    trivial
  refine ⟨c.outside calls, ?_⟩
  rw [hnesting.run_eq hbreaks, hrun, Outcome.unwind_failed]

/-- A run that fails does so by an error that is raised in it. -/
theorem exists_raisedIn {fuel : Nat} {n : Code} {c c' : Config η}
    (h : run host fuel n c = .failed e c') :
    ∃ native? names e₀, RaisedIn host ⟨fuel, n, c⟩ native? names e₀ ∧ e = e₀.inCalls names := by
  induction fuel generalizing n c c' e with
  | zero => cases h
  | succ fuel ih =>
    -- What fails in a part fails in the node.
    have hpart : ∀ {p : Code} {d d' : Config η}, run host fuel p d = .failed e d' →
        Position host ⟨fuel + 1, n, c⟩ ⟨fuel, p, d⟩ →
        ∃ native? names e₀, RaisedIn host ⟨fuel + 1, n, c⟩ native? names e₀ ∧
          e = e₀.inCalls names := by
      intro p d d' hrun hposition
      obtain ⟨native?, names, e₀, hraised, he⟩ := ih hrun
      exact ⟨native?, names, e₀, hraised.part hposition, he⟩
    have hhere : ∀ {native? : Option Native}, Raises host ⟨fuel + 1, n, c⟩ native? e →
        ∃ native? names e₀, RaisedIn host ⟨fuel + 1, n, c⟩ native? names e₀ ∧
          e = e₀.inCalls names :=
      fun hraises => ⟨_, [], e, hraises.raisedIn, rfl⟩
    cases n with
    | const v | define name | label name | goto label | definition name params body => cases h
    | var name =>
      simp only [run_succ, step, Config.get, Environment.get, Environment.lookup?] at h
      cases hslot : c.env.slot? name with
      | some slot =>
        rw [hslot] at h
        cases h
      | none =>
        rw [hslot] at h
        cases h
        exact hhere (.unbound hslot)
    | assign name expr =>
      simp only [run_succ, step] at h
      split at h
      · next hslot =>
        cases h
        exact hhere (.noTarget hslot)
      · next v hslot =>
        cases h
        exact hhere (.plainTarget hslot)
      · next cell hslot =>
        rcases Outcome.onValue_failed h with hexpr | ⟨v, d, hexpr, hstore⟩
        · exact hpart hexpr (.expr hslot)
        · cases hstore
    | block children =>
      have hlength : 0 < children.length := by
        rcases children with _ | ⟨child, children⟩
        · cases fuel <;> cases h
        · simp
      obtain ⟨t, ht, hrun, -⟩ := Block.exists_last_turn hlength h (fun heq => by cases heq)
      exact hpart hrun (.child (List.mem_of_getLast? ht))
    | when test body =>
      rcases Outcome.onValue_failed h with htest | ⟨v, d, htest, hbody⟩
      · exact hpart htest (.whenTest ..)
      · by_cases hv : v.truthy = true
        · rw [if_pos hv] at hbody
          exact hpart hbody (.whenBody htest hv)
        · rw [if_neg hv] at hbody
          cases hbody
    | choose test yes no =>
      rcases Outcome.onValue_failed h with htest | ⟨v, d, htest, hbranch⟩
      · exact hpart htest (.test ..)
      · by_cases hv : v.truthy = true
        · rw [if_pos hv] at hbranch
          exact hpart hbranch (.yes htest hv)
        · rw [if_neg hv] at hbranch
          exact hpart hbranch (.no htest (Bool.eq_false_iff.2 hv))
    | call callee args =>
      rcases Outcome.onValue_failed h with hcallee | ⟨f, c₁, hcallee, hrest⟩
      · exact hpart hcallee (.callee ..)
      · rcases Outcome.onValue_failed hrest with hargs | ⟨vs, d, hargs, hcall⟩
        · obtain ⟨earlier, arg, later, vs, d, rfl, hearlier, harg⟩ := runArgs_failed hargs
          exact hpart harg (.arg hcallee hearlier)
        · obtain ⟨w, hcall⟩ := Outcome.mapState_failed hcall
          rcases callValue_failed hcall with ⟨native?, hrefuses⟩ |
            ⟨id, name, params, body, e₁, d', rfl, hlength, hbody, rfl⟩
          · exact hhere (.call hcallee hargs hrefuses)
          · obtain ⟨native?, names, e₀, hraised, rfl⟩ := ih hbody
            have hentry := Entry.body hcallee hargs hlength
            refine ⟨native?, names ++ [name], e₀, hraised.body hentry, ?_⟩
            rw [Error.inCalls_append]
            rfl

end Sites

namespace Interpreter

/-- An error is raised when a form is run: while it is compiled, or by code of the form
while these functions are called, the innermost first, or in the end for a jump that no
block has taken up. -/
inductive FormRaises (host : Host η) (fuel : Nat) (it : Interpreter η) (tree : Tree) :
    Option Native → List Name → Error → Prop
  | compiling {e : Error} : Treewalk.compile it.scope tree = .error e →
      FormRaises host fuel it tree none [] e
  | running {code : Code} {native? : Option Native} {names : List Name} {e : Error} :
      Treewalk.compile it.scope tree = .ok code →
      RaisedIn host ⟨fuel, code, it.config⟩ native? names e →
      FormRaises host fuel it tree native? names e
  | unresolved {code : Code} {label : Name} {c : Config η} :
      Treewalk.compile it.scope tree = .ok code →
      run host fuel code it.config = .done (.jump label) c →
      FormRaises host fuel it tree none [] (.malformed (.unresolvedGoto label))

/-- An error is raised when a global name is called: because it is not bound, or its value
turns the call down, or by the body of a function, the call of which waits outermost, or
in the end for a jump that leaves the function. -/
inductive CallRaises (host : Host η) (fuel : Nat) (it : Interpreter η) (name : Name)
    (args : List Value) : Option Native → List Name → Error → Prop
  | unbound : it.lookup? name = none →
      CallRaises host fuel it name args none [] (.unboundVariable name)
  | refused {f : Value} {native? : Option Native} {e : Error} : it.lookup? name = some f →
      f.Refuses host args it.world native? e → CallRaises host fuel it name args native? [] e
  | running {id : Nat} {called : Name} {params : List Name} {body : Code}
      {native? : Option Native} {names : List Name} {e : Error} :
      it.lookup? name = some (.function id called params body) → args.length = params.length →
      RaisedIn host ⟨fuel, body, ⟨it.globals.bindAll params args, it.world⟩⟩ native? names e →
      CallRaises host fuel it name args native? (names ++ [called]) e
  | unresolved {f : Value} {label : Name} {w : World η} : it.lookup? name = some f →
      callValue host (run host fuel) it.globals f args it.world = .done (.jump label) w →
      CallRaises host fuel it name args none [] (.malformed (.unresolvedGoto label))

variable {host : Host η} {fuel : Nat} {it it' : Interpreter η} {e : Error}

/-- At the top a computation fails by its own error or for a jump. -/
theorem settle_failed_iff (e : Error) (o : Outcome σ (Flow Value)) (f : σ → Interpreter η) :
    (∃ it', settle (o.mapState f) = .failed e it') ↔
      (∃ s, o = .failed e s) ∨
      ∃ label s, o = .done (.jump label) s ∧ e = .malformed (.unresolvedGoto label) := by
  rcases o with ⟨v | label, s⟩ | ⟨e', s⟩ | _ <;>
    simp [settle, Outcome.mapState, eq_comm]

/-- A form fails where its code fails or ends with a jump. -/
theorem runForm_failed_iff {form : Form} :
    (∃ it', runForm (run host fuel) form it = .failed e it') ↔
      (∃ c, run host fuel form.code it.config = .failed e c) ∨
      ∃ label c, run host fuel form.code it.config = .done (.jump label) c ∧
        e = .malformed (.unresolvedGoto label) := by
  unfold runForm
  split
  · next name params body hcode =>
    -- A definition has no run of its own that could fail.
    rw [hcode]
    cases fuel <;> simp [run_succ, step, nothing]
  · rw [← settle_failed_iff e (run host fuel form.code it.config) it.withConfig]
    split <;> simp_all

/-- A form fails exactly with an error that is raised, and with the notes of the calls
that wait. -/
theorem runTree_failed_iff {tree : Tree} :
    (∃ it', runTree (run host fuel) tree it = .failed e it') ↔
      ∃ native? names e₀, it.FormRaises host fuel tree native? names e₀ ∧
        e = e₀.inCalls names := by
  unfold runTree compile
  cases hcompile : Treewalk.compile it.scope tree with
  | error e' =>
    constructor
    · rintro ⟨it', h⟩
      cases h
      exact ⟨none, [], e, .compiling hcompile, rfl⟩
    · rintro ⟨native?, names, e₀, hraises, rfl⟩
      cases hraises with
      | compiling h =>
        obtain rfl := Except.error.inj (hcompile.symm.trans h)
        exact ⟨it, rfl⟩
      | running h hraised => cases hcompile.symm.trans h
      | unresolved h hrun => cases hcompile.symm.trans h
  | ok code =>
    refine runForm_failed_iff.trans ?_
    constructor
    · rintro (⟨c, hrun⟩ | ⟨label, c, hrun, rfl⟩)
      · obtain ⟨native?, names, e₀, hraised, he⟩ := exists_raisedIn hrun
        exact ⟨native?, names, e₀, .running hcompile hraised, he⟩
      · exact ⟨none, [], _, .unresolved hcompile hrun, rfl⟩
    · rintro ⟨native?, names, e₀, hraises, rfl⟩
      cases hraises with
      | compiling h => cases hcompile.symm.trans h
      | running h hraised =>
        obtain rfl := Except.ok.inj (hcompile.symm.trans h)
        exact .inl hraised.run_failed
      | unresolved h hrun =>
        obtain rfl := Except.ok.inj (hcompile.symm.trans h)
        exact .inr ⟨_, _, hrun, rfl⟩

/-- A call by name fails exactly with an error that is raised, and with the notes of the
calls that wait. -/
theorem call_failed_iff {name : Name} {args : List Value} :
    (∃ it', it.call host fuel name args = .failed e it') ↔
      ∃ native? names e₀, it.CallRaises host fuel name args native? names e₀ ∧
        e = e₀.inCalls names := by
  unfold call
  cases hlookup : it.lookup? name with
  | none =>
    constructor
    · rintro ⟨it', h⟩
      cases h
      exact ⟨none, [], _, .unbound hlookup, rfl⟩
    · rintro ⟨native?, names, e₀, hraises, rfl⟩
      cases hraises with
      | unbound => exact ⟨it, rfl⟩
      | refused h | running h | unresolved h => cases hlookup.symm.trans h
  | some f =>
    refine (settle_failed_iff e _ _).trans ?_
    constructor
    · rintro (⟨w, hcall⟩ | ⟨label, w, hcall, rfl⟩)
      · rcases callValue_failed hcall with ⟨native?, hrefuses⟩ |
          ⟨id, called, params, body, e₁, d, rfl, hlength, hbody, rfl⟩
        · exact ⟨native?, [], e, .refused hlookup hrefuses, rfl⟩
        · obtain ⟨native?, names, e₀, hraised, rfl⟩ := exists_raisedIn hbody
          refine ⟨native?, names ++ [called], e₀, .running hlookup hlength hraised, ?_⟩
          rw [Error.inCalls_append]
          rfl
      · exact ⟨none, [], _, .unresolved hlookup hcall, rfl⟩
    · rintro ⟨native?, names, e₀, hraises, rfl⟩
      cases hraises with
      | unbound h => cases hlookup.symm.trans h
      | refused h hrefuses =>
        obtain rfl := Option.some.inj (hlookup.symm.trans h)
        exact .inl (hrefuses.callValue_eq _ _)
      | @running id called params body native? names e₀ h hlength hraised =>
        obtain rfl := Option.some.inj (hlookup.symm.trans h)
        obtain ⟨c, hrun⟩ := hraised.run_failed
        refine .inl ⟨c.world, ?_⟩
        rw [callValue_eq host fuel id it.globals called body hlength it.world]
        simp only [Site.run] at hrun
        rw [hrun, Error.inCalls_append]
        rfl
      | unresolved h hcall =>
        obtain rfl := Option.some.inj (hlookup.symm.trans h)
        exact .inr ⟨_, _, hcall, rfl⟩

/-- Forms fail at one of them, after those before it have succeeded. -/
theorem exists_failed_form {runner : Runner (Config η)} {index : Nat} {trees : List Tree}
    {result : Value} (h : runForms runner index trees result it = .failed e it') :
    ∃ i form it₁ r e₁, trees[i]? = some form ∧
      runForms runner index (trees.take i) result it = .done r it₁ ∧
      runTree runner form it₁ = .failed e₁ it' ∧
      e = e₁.withNote (formNote (index + i) form.tag) := by
  induction trees generalizing index result it with
  | nil => cases h
  | cons tree trees ih =>
    rw [runForms] at h
    rcases hfirst : runTree runner tree it with ⟨v, it₁⟩ | ⟨e₁, it₁⟩ | _
    · rw [hfirst] at h
      obtain ⟨i, form, it₂, r, e₁, hform, hbefore, hrun, he⟩ := ih h
      refine ⟨i + 1, form, it₂, r, e₁, hform, ?_, hrun, ?_⟩
      · rw [List.take_succ_cons, runForms, hfirst]
        exact hbefore
      · rw [he, show index + 1 + i = index + (i + 1) by omega]
    · rw [hfirst] at h
      cases h
      exact ⟨0, tree, it, result, e₁, rfl, rfl, hfirst, rfl⟩
    · rw [hfirst] at h
      cases h

theorem FormRaises.raisedBy {tree : Tree} {native? : Option Native} {names : List Name}
    (h : it.FormRaises host fuel tree native? names e) : e.RaisedBy host native? := by
  cases h with
  | compiling hcompile =>
    obtain ⟨cause, rfl, -⟩ := isViolation_of_compile hcompile
    rfl
  | running hcompile hraised => exact hraised.raisedBy
  | unresolved => rfl

theorem CallRaises.raisedBy {name : Name} {args : List Value} {native? : Option Native}
    {names : List Name} (h : it.CallRaises host fuel name args native? names e) :
    e.RaisedBy host native? := by
  cases h with
  | unbound => rfl
  | refused hlookup hrefuses => exact hrefuses.raisedBy
  | running hlookup hlength hraised => exact hraised.raisedBy
  | unresolved => rfl

end Interpreter

open Interpreter in
/-- The notes of an error are the calls that wait when it is raised. A program fails at one
of its forms, and in running that form an error is raised. Whatever error that is, the
program fails with one of the same kind. Its notes are those of the native that raised
it, or none, then one for each function whose body is being run, the innermost first,
and at last one with the number and the tag of the form. A call by name fails in the
same way, without the last note. -/
theorem notes_are_waiting_calls (host : Host η) (fuel : Nat) (it : Interpreter η) :
    (∀ root e it', it.runProgram (run host fuel) root = .failed e it' →
      ∃ i form it₁ r, root.children[i]? = some form ∧
        runForms (run host fuel) 0 (root.children.take i) .absent it = .done r it₁ ∧
        (∃ native? names e₀, it₁.FormRaises host fuel form native? names e₀) ∧
        ∀ native? names e₀, it₁.FormRaises host fuel form native? names e₀ →
          e₀.RaisedBy host native? ∧ e.kind = e₀.kind ∧
          e.notes.toList =
            e₀.notes.toList ++ names.map callNote ++ [formNote i form.tag]) ∧
    ∀ name args e it', it.call host fuel name args = .failed e it' →
      (∃ native? names e₀, it.CallRaises host fuel name args native? names e₀) ∧
      ∀ native? names e₀, it.CallRaises host fuel name args native? names e₀ →
        e₀.RaisedBy host native? ∧ e.kind = e₀.kind ∧
        e.notes.toList = e₀.notes.toList ++ names.map callNote := by
  refine ⟨?_, ?_⟩
  · intro root e it' h
    obtain ⟨i, form, it₁, r, e₁, hform, hbefore, hrun, rfl⟩ := exists_failed_form h
    obtain ⟨native?, names, e₀, hraises, -⟩ := runTree_failed_iff.1 ⟨it', hrun⟩
    refine ⟨i, form, it₁, r, hform, hbefore, ⟨native?, names, e₀, hraises⟩, ?_⟩
    intro native? names e₀ hraises
    obtain ⟨it₂, hrun'⟩ := runTree_failed_iff.2 ⟨native?, names, e₀, hraises, rfl⟩
    rw [hrun] at hrun'
    cases hrun'
    exact ⟨hraises.raisedBy, by simp, by simp⟩
  · intro name args e it' h
    obtain ⟨native?, names, e₀, hraises, -⟩ := call_failed_iff.1 ⟨it', h⟩
    refine ⟨⟨native?, names, e₀, hraises⟩, ?_⟩
    intro native? names e₀ hraises
    obtain ⟨it₂, h'⟩ := call_failed_iff.2 ⟨native?, names, e₀, hraises, rfl⟩
    rw [h] at h'
    cases h'
    exact ⟨hraises.raisedBy, by simp, by simp⟩

def parsing : Native := ⟨6, "parse", none⟩

def misread : Error where
  kind := .typeMismatch "number" "string"
  notes := #["while reading a word"]

def misreading : Interpreter Stock :=
  let it := Interpreter.new {} [(parsing.id, .fail misread)]
  { it with nextId := parsing.id + 1 }.register parsing

def asking : Tree where
  tag := "program"
  children := [
    { tag := "function", attributes := .ofList [("name", "read"), ("args", "x")], children := [
      { tag := "call", attributes := .ofList [("fun", "parse")], children := [
        { tag := "var", attributes := .ofList [("name", "x")] }] }] },
    { tag := "function", attributes := .ofList [("name", "ask"), ("args", "y")], children := [
      { tag := "call", attributes := .ofList [("fun", "read")], children := [
        { tag := "var", attributes := .ofList [("name", "y")] }] }] },
    { tag := "call", attributes := .ofList [("fun", "ask")], children := [
      { tag := "string", attributes := .ofList [("value", "word")] }] }]

/-- The notes of the failing native come first, then those of the two calls around it, then
that of the form. -/
theorem asking_notes : ∃ e it',
    misreading.runProgram (run Stock.host 12) asking = .failed e it' ∧
    e.notes.toList = ["while reading a word", "in call to `read`", "in call to `ask`",
      "in top-level form 2 <call>"] ∧
    (∃ (i : Nat) (form : Tree) (names : List Name) (e₀ : Error),
      asking.children[i]? = some form ∧ e.kind = e₀.kind ∧ e.notes.toList =
        e₀.notes.toList ++ names.map callNote ++ [Interpreter.formNote i form.tag]) ∧
    it'.CallRaises Stock.host 12 "ask" [.text "word"] (some parsing) ["read", "ask"] misread ∧
    ∃ e' it'', it'.call Stock.host 12 "ask" [.text "word"] = .failed e' it'' ∧
      e'.kind = misread.kind ∧
      e'.notes.toList = misread.notes.toList ++ ["read", "ask"].map callNote := by
  have hnotes := notes_are_waiting_calls Stock.host 12
  refine ⟨_, _, rfl, rfl, ?_, ?_⟩
  · obtain ⟨i, form, it₁, r, hform, -, ⟨native?, names, e₀, hraises⟩, hall⟩ :=
      (hnotes misreading).1 asking _ _ rfl
    exact ⟨i, form, names, e₀, hform, (hall native? names e₀ hraises).2⟩
  · suffices hraised : Interpreter.CallRaises Stock.host 12 _ "ask" [.text "word"]
        (some parsing) ["read", "ask"] misread from
      ⟨hraised, _, _, rfl, (((hnotes _).2 "ask" _ _ _ rfl).2 _ _ _ hraised).2⟩
    refine @Interpreter.CallRaises.running _ _ _ _ _ _ 8 "ask" ["y"] _ _ ["read"] _ rfl rfl ?_
    exact ⟨_, _, _, .body (.body rfl rfl rfl) (.here _), .call rfl rfl (.native rfl), rfl⟩

end Treewalk
