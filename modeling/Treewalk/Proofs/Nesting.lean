import Treewalk.Proofs.Turns

/-!
Evaluation in nested positions. While a part of a node runs, the node waits, and so does
all that the node is part of; a call waits for the body of its function. Main statement:
a part that gives no value, but a jump to a label of none of the blocks that wait or an
error, ends all that waits. Nothing is run after it, and the world is as it was left.
-/
namespace Treewalk

variable {η σ α β : Type}

structure Site (η : Type) where
  fuel : Nat
  code : Code
  config : Config η

namespace Site

def run (host : Host η) (site : Site η) : Outcome (Config η) (Flow Value) :=
  Treewalk.run host site.fuel site.code site.config

def trace (host : Host η) (site : Site η) : List (Event (Config η)) :=
  (copying host).trace site.fuel site.code site.config

end Site

/-- The second site is one that the first comes to and waits for, in the same activation:
what stands before it in the node has given its values. -/
inductive Position (host : Host η) : Site η → Site η → Prop
  | expr {fuel : Nat} {name : Name} {expr : Code} {c : Config η} {cell : CellId} :
      c.env.slot? name = some (.cell cell) →
      Position host ⟨fuel + 1, .assign name expr, c⟩ ⟨fuel, expr, c⟩
  | whenTest (fuel : Nat) (test body : Code) (c : Config η) :
      Position host ⟨fuel + 1, .when test body, c⟩ ⟨fuel, test, c⟩
  | whenBody {fuel : Nat} {test body : Code} {c d : Config η} {v : Value} :
      run host fuel test c = .done (.value v) d → v.truthy = true →
      Position host ⟨fuel + 1, .when test body, c⟩ ⟨fuel, body, d⟩
  | test (fuel : Nat) (test yes no : Code) (c : Config η) :
      Position host ⟨fuel + 1, .choose test yes no, c⟩ ⟨fuel, test, c⟩
  | yes {fuel : Nat} {test yes no : Code} {c d : Config η} {v : Value} :
      run host fuel test c = .done (.value v) d → v.truthy = true →
      Position host ⟨fuel + 1, .choose test yes no, c⟩ ⟨fuel, yes, d⟩
  | no {fuel : Nat} {test yes no : Code} {c d : Config η} {v : Value} :
      run host fuel test c = .done (.value v) d → v.truthy = false →
      Position host ⟨fuel + 1, .choose test yes no, c⟩ ⟨fuel, no, d⟩
  | callee (fuel : Nat) (callee : Code) (args : List Code) (c : Config η) :
      Position host ⟨fuel + 1, .call callee args, c⟩ ⟨fuel, callee, c⟩
  | arg {fuel : Nat} {callee arg : Code} {earlier later : List Code} {c c₁ d : Config η}
      {f : Value} {vs : List Value} :
      run host fuel callee c = .done (.value f) c₁ →
      runArgs (run host fuel) earlier [] c₁ = .done (.value vs) d →
      Position host ⟨fuel + 1, .call callee (earlier ++ arg :: later), c⟩ ⟨fuel, arg, d⟩
  | child {fuel : Nat} {children : List Code} {c : Config η} {t : Block.Turn (Config η)} :
      t ∈ Block.turnsOf host fuel children c →
      Position host ⟨fuel + 1, .block children, c⟩ ⟨fuel, t.child, t.state⟩

/-- A call that waits for the body of its function, with the environment it goes on in. -/
structure Activation where
  name : Name
  caller : Environment

/-- The second site is the body of a function that the first calls with as many
arguments as it has parameters. -/
inductive Entry (host : Host η) : Site η → Activation → Site η → Prop
  | body {fuel id : Nat} {name : Name} {params : List Name} {callee body : Code}
      {args : List Code} {vs : List Value} {c c₁ d : Config η} :
      run host fuel callee c = .done (.value (.function id name params body)) c₁ →
      runArgs (run host fuel) args [] c₁ = .done (.value vs) d →
      vs.length = params.length →
      Entry host ⟨fuel + 1, .call callee args, c⟩ ⟨name, d.env⟩
        ⟨fuel, body, ⟨d.env.bindAll params vs, d.world⟩⟩

/-- The first site waits for the second: through calls, the innermost first, and through
blocks with these labels. -/
inductive Nesting (host : Host η) : Site η → Site η → List Activation → List Name → Prop
  | here (site : Site η) : Nesting host site site [] []
  | part {outer next inner : Site η} {calls : List Activation} {labels : List Name} :
      Position host outer next → Nesting host next inner calls labels →
      Nesting host outer inner calls (outer.code.scope labels)
  | body {outer next inner : Site η} {call : Activation} {calls : List Activation}
      {labels : List Name} :
      Entry host outer call next → Nesting host next inner calls labels →
      Nesting host outer inner (calls ++ [call]) labels

def Error.inCalls (names : List Name) (e : Error) : Error :=
  names.foldl (fun e name => e.withNote (callNote name)) e

/-- What is left after the calls: the environment of the outermost caller, and the world. -/
def Config.outside (calls : List Activation) (c : Config η) : Config η :=
  ⟨(calls.getLast?.map Activation.caller).getD c.env, c.world⟩

namespace Outcome

def leave (call : Activation) (o : Outcome (Config η) (Flow Value)) :
    Outcome (Config η) (Flow Value) :=
  (o.mapState fun c => ⟨call.caller, c.world⟩).mapError (Error.withNote (callNote call.name))

def unwind (calls : List Activation) (o : Outcome (Config η) (Flow Value)) :
    Outcome (Config η) (Flow Value) :=
  calls.foldl (fun o call => o.leave call) o

theorem breaks_leave (call : Activation) (labels : List Name)
    (o : Outcome (Config η) (Flow Value)) : (o.leave call).Breaks labels ↔ o.Breaks labels := by
  rcases o with ⟨v | label, c⟩ | ⟨e, c⟩ | _ <;> rfl

theorem breaks_unwind (calls : List Activation) (labels : List Name)
    (o : Outcome (Config η) (Flow Value)) :
    (o.unwind calls).Breaks labels ↔ o.Breaks labels := by
  induction calls generalizing o with
  | nil => rfl
  | cons call calls ih => exact (ih (o.leave call)).trans (breaks_leave call labels o)

theorem unwind_jump (calls : List Activation) (label : Name) (c : Config η) :
    (done (.jump label) c).unwind calls = done (.jump label) (c.outside calls) := by
  induction calls generalizing c with
  | nil => rfl
  | cons call calls ih =>
    refine (ih ⟨call.caller, c.world⟩).trans ?_
    simp only [Config.outside, List.getLast?_cons]
    cases calls.getLast? <;> rfl

theorem unwind_failed (calls : List Activation) (e : Error) (c : Config η) :
    (failed e c).unwind calls =
      failed (e.inCalls (calls.map Activation.name)) (c.outside calls) := by
  induction calls generalizing e c with
  | nil => rfl
  | cons call calls ih =>
    refine (ih (e.withNote (callNote call.name)) ⟨call.caller, c.world⟩).trans ?_
    simp only [Config.outside, List.getLast?_cons]
    cases calls.getLast? <;> rfl

theorem breaks_append {labels labels' : List Name} {o : Outcome σ (Flow α)} :
    o.Breaks (labels ++ labels') ↔ o.Breaks labels ∧ o.Breaks labels' := by
  rcases o with ⟨v | label, s⟩ | ⟨e, s⟩ | _ <;> simp [Breaks, not_or]

/-- What gives no value is not gone on with. -/
theorem Breaks.onValue {labels : List Name} {o : Outcome σ (Flow α)} (h : o.Breaks labels)
    (k : α → σ → Outcome σ (Flow α)) : o.onValue k = o := by
  rcases breaks_cases h with ⟨label, s, rfl, -⟩ | ⟨e, s, rfl⟩ | rfl
  · rfl
  · rfl
  · rfl

theorem Breaks.pointsAfter {labels : List Name} {o : Outcome σ (Flow α)} (h : o.Breaks labels)
    (k : α → σ → List (Event σ)) : o.pointsAfter k = [] := by
  rcases breaks_cases h with ⟨label, s, rfl, -⟩ | ⟨e, s, rfl⟩ | rfl
  · rfl
  · rfl
  · rfl

theorem onValue_onValue {γ : Type} (o : Outcome σ (Flow α)) (k : α → σ → Outcome σ (Flow β))
    (k' : β → σ → Outcome σ (Flow γ)) :
    (o.onValue k).onValue k' = o.onValue fun a s => (k a s).onValue k' := by
  rcases o with ⟨v | label, s⟩ | ⟨e, s⟩ | _ <;> rfl

theorem pointsAfter_onValue (o : Outcome σ (Flow α)) (k : α → σ → Outcome σ (Flow β))
    (points : β → σ → List (Event σ)) :
    (o.onValue k).pointsAfter points = o.pointsAfter fun a s => (k a s).pointsAfter points := by
  rcases o with ⟨v | label, s⟩ | ⟨e, s⟩ | _ <;> rfl

end Outcome

theorem runArgs_append (runner : Runner σ) (args args' : List Code) (taken : List Value) (s : σ) :
    runArgs runner (args ++ args') taken s =
      (runArgs runner args taken s).onValue fun vs s => runArgs runner args' vs.reverse s := by
  induction args generalizing taken s with
  | nil => simp [runArgs, Outcome.onValue]
  | cons arg args ih =>
    simp only [List.cons_append, runArgs, ih]
    rw [Outcome.onValue_onValue]

theorem argPoints_append (runner : Runner σ) (points : Code → σ → List (Event σ))
    (args args' : List Code) (taken : List Value) (s : σ) :
    Machine.argPoints runner points (args ++ args') s =
      Machine.argPoints runner points args s ++
        (runArgs runner args taken s).pointsAfter fun _ s =>
          Machine.argPoints runner points args' s := by
  induction args generalizing taken s with
  | nil => rfl
  | cons arg args ih =>
    simp only [List.cons_append, Machine.argPoints, runArgs, Outcome.pointsAfter_onValue,
      List.append_assoc]
    congr 1
    rcases runner arg s with ⟨v | label, s'⟩ | ⟨e, s'⟩ | _
    · exact ih (v :: taken) s'
    · rfl
    · rfl
    · rfl

/-- The labels that a node adds to those around it. -/
theorem Code.scope_eq (labels : List Name) (n : Code) : n.scope labels = labels ++ n.scope [] := by
  cases n <;> simp [Code.scope]

section Arguments

variable {runner : Runner σ} {earlier later : List Code} {arg : Code} {vs : List Value}
  {labels : List Name} {s d : σ}

theorem runArgs_at (hearlier : runArgs runner earlier [] s = .done (.value vs) d) :
    runArgs runner (earlier ++ arg :: later) [] s =
      (runner arg d).onValue fun v s => runArgs runner later (v :: vs.reverse) s := by
  rw [runArgs_append, hearlier]
  rfl

/-- The last argument to be run is the one that gives no value. -/
theorem runArgs_break (hearlier : runArgs runner earlier [] s = .done (.value vs) d)
    (harg : (runner arg d).Breaks labels) (k : List Value → σ → Outcome σ (Flow Value)) :
    (runArgs runner (earlier ++ arg :: later) [] s).onValue k = runner arg d := by
  rw [runArgs_at hearlier, Outcome.onValue_onValue]
  exact harg.onValue _

theorem argPoints_break (hearlier : runArgs runner earlier [] s = .done (.value vs) d)
    (harg : (runner arg d).Breaks labels) (points : Code → σ → List (Event σ))
    (k : List Value → σ → List (Event σ)) :
    Machine.argPoints runner points (earlier ++ arg :: later) s ++
        (runArgs runner (earlier ++ arg :: later) [] s).pointsAfter k =
      Machine.argPoints runner points earlier s ++ points arg d := by
  have hpoints : Machine.argPoints runner points (arg :: later) d = points arg d := by
    rw [Machine.argPoints, harg.pointsAfter, List.append_nil]
  rw [runArgs_at hearlier, Outcome.pointsAfter_onValue, harg.pointsAfter, List.append_nil,
    argPoints_append runner points earlier (arg :: later) [] s, hearlier]
  exact congrArg _ hpoints

end Arguments

namespace Position

variable {host : Host η} {outer next : Site η}

/-- A node ends as the part it waits for, if that gives no value and no jump to a label
of the node. -/
theorem run_eq (h : Position host outer next)
    (hbreaks : (next.run host).Breaks (outer.code.scope [])) :
    outer.run host = next.run host := by
  cases h with
  | expr hslot =>
    simp only [Site.run, run_succ, step, hslot]
    exact hbreaks.onValue _
  | whenTest | test => exact hbreaks.onValue _
  | whenBody htest hv | yes htest hv =>
    simp only [Site.run, run_succ, step, htest, Outcome.onValue, hv, if_true]
  | no htest hv => simp [Site.run, run_succ, step, htest, Outcome.onValue, hv]
  | callee => exact hbreaks.onValue _
  | arg hcallee hearlier =>
    simp only [Site.run, run_succ, step, hcallee]
    exact runArgs_break hearlier hbreaks _
  | @child fuel children c t ht =>
    have hchild := (Block.course_turns fuel 0 c).child t ht
    obtain ⟨earlier, left, last, -, hrun⟩ := Block.turns_of_mem ht .absent
    exact hrun.trans (Block.runBlock_break hchild hbreaks)

/-- After such a part, a node runs nothing. -/
theorem trace_suffix (h : Position host outer next)
    (hbreaks : (next.run host).Breaks (outer.code.scope [])) :
    next.trace host <:+ outer.trace host := by
  have hstop : ∀ k, next.trace host <:+ next.trace host ++ (next.run host).pointsAfter k := by
    intro k
    simp [hbreaks.pointsAfter]
  cases h with
  | @expr fuel name expr c cell hslot =>
    have hpoints : (copying host).partPoints fuel ((copying host).trace fuel)
        (.assign name expr) c = (copying host).trace fuel expr c := by
      simp only [Machine.partPoints, copying, hslot]
    simp only [Site.trace, Machine.trace, hpoints]
    exact List.suffix_cons _ _
  | whenTest | test | callee => exact (hstop _).trans (List.suffix_cons _ _)
  | whenBody htest hv | yes htest hv | no htest hv =>
    refine List.IsSuffix.trans ?_ (List.suffix_cons _ _)
    simp only [Machine.partPoints, copying, htest, Outcome.pointsAfter, hv]
    exact List.suffix_append _ _
  | @arg fuel callee arg earlier later c c₁ d f vs hcallee hearlier =>
    have hpoints : (copying host).partPoints fuel ((copying host).trace fuel)
        (.call callee (earlier ++ arg :: later)) c = (copying host).trace fuel callee c ++
          (Machine.argPoints (run host fuel) ((copying host).trace fuel) earlier c₁ ++
            (copying host).trace fuel arg d) := by
      simp only [Machine.partPoints, copying, hcallee]
      exact congrArg _ (argPoints_break hearlier hbreaks _ _)
    simp only [Site.trace, Machine.trace, hpoints, ← List.append_assoc]
    exact (List.suffix_append _ _).trans (List.suffix_cons _ _)
  | @child fuel children c t ht =>
    have hchild := (Block.course_turns fuel 0 c).child t ht
    obtain ⟨earlier, left, last, hturns, -⟩ := Block.turns_of_mem ht .absent
    have hpoints : (copying host).partPoints fuel ((copying host).trace fuel)
        (.block children) c =
          earlier.flatMap (fun t => (copying host).trace fuel t.child t.state) ++
            (copying host).trace fuel t.child t.state := by
      calc
        _ = (Block.turns (run host fuel) children fuel 0 c).flatMap
            fun t => (copying host).trace fuel t.child t.state := Block.blockPoints_eq _ fuel 0 c
        _ = _ := by
          rw [hturns, Block.turns_break hchild hbreaks, List.flatMap_append,
            List.flatMap_singleton]
    simp only [Site.trace, Machine.trace, hpoints]
    exact (List.suffix_append _ _).trans (List.suffix_cons _ _)

end Position

namespace Entry

variable {host : Host η} {outer next : Site η} {call : Activation}

/-- A call ends as the body of its function does, in the caller's environment. -/
theorem run_eq (h : Entry host outer call next) :
    outer.run host = (next.run host).leave call := by
  cases h with
  | body hcallee hargs hlength =>
    simp only [Site.run, run_succ, step, hcallee, hargs, Outcome.onValue, callValue, hlength,
      if_true]
    rcases run host _ _ _ with ⟨v | label, c⟩ | ⟨e, c⟩ | _ <;> rfl

/-- After the body of its function, a call runs nothing. -/
theorem trace_suffix (h : Entry host outer call next) :
    next.trace host <:+ outer.trace host := by
  cases h with
  | @body fuel id name params callee body args vs c c₁ d hcallee hargs hlength =>
    have hpoints : (copying host).partPoints fuel ((copying host).trace fuel)
        (.call callee args) c = (copying host).trace fuel callee c ++
          (Machine.argPoints (run host fuel) ((copying host).trace fuel) args c₁ ++
            .call fuel (.function id name params body) vs d ::
              (copying host).trace fuel body ⟨d.env.bindAll params vs, d.world⟩) := by
      simp only [Machine.partPoints, copying, hcallee, Outcome.pointsAfter, hargs,
        Machine.callPoints, hlength, if_true]
    simp only [Site.trace, Machine.trace, hpoints]
    refine List.IsSuffix.trans ?_ (List.suffix_cons _ _)
    exact (List.suffix_cons _ _).trans ((List.suffix_append _ _).trans (List.suffix_append _ _))

end Entry

namespace Nesting

variable {host : Host η} {outer inner : Site η} {calls : List Activation} {labels : List Name}

/-- All that waits ends as the innermost site does, if that gives no value and no jump to
a label of a block that waits. -/
theorem run_eq (h : Nesting host outer inner calls labels)
    (hbreaks : (inner.run host).Breaks labels) :
    outer.run host = (inner.run host).unwind calls := by
  induction h with
  | here site => rfl
  | @part outer next inner calls labels hposition hnesting ih =>
    rw [Code.scope_eq, Outcome.breaks_append] at hbreaks
    have hnext := ih hbreaks.1
    rw [← hnext]
    refine hposition.run_eq ?_
    rw [hnext, Outcome.breaks_unwind]
    exact hbreaks.2
  | @body outer next inner call calls labels hentry hnesting ih =>
    rw [hentry.run_eq, ih hbreaks, Outcome.unwind, Outcome.unwind, List.foldl_append]
    rfl

/-- After that site nothing is run. -/
theorem trace_suffix (h : Nesting host outer inner calls labels)
    (hbreaks : (inner.run host).Breaks labels) :
    inner.trace host <:+ outer.trace host := by
  induction h with
  | here site => exact List.suffix_refl _
  | @part outer next inner calls labels hposition hnesting ih =>
    rw [Code.scope_eq, Outcome.breaks_append] at hbreaks
    refine (ih hbreaks.1).trans (hposition.trace_suffix ?_)
    rw [hnesting.run_eq hbreaks.1, Outcome.breaks_unwind]
    exact hbreaks.2
  | body hentry hnesting ih => exact (ih hbreaks).trans hentry.trace_suffix

end Nesting

/-- A call from outside ends as the body of its function does. -/
theorem callValue_eq (host : Host η) (fuel id : Nat) (env : Environment) (name : Name)
    {params : List Name} (body : Code) {args : List Value} (hlength : args.length = params.length)
    (w : World η) :
    callValue host (run host fuel) env (.function id name params body) args w =
      ((run host fuel body ⟨env.bindAll params args, w⟩).leave ⟨name, env⟩).mapState
        Config.world := by
  simp only [callValue, hlength, if_true]
  rcases run host fuel body ⟨env.bindAll params args, w⟩ with ⟨v | label, c⟩ | ⟨e, c⟩ | _ <;> rfl

/-- What gives no value ends all that waits for it. A jump to a label of no block that waits
is what the outermost site ends with too, and so is an error, with a note for each call on
the way. Either way the world is the one that the innermost site left, the environment is
the one that the outermost site has at that time, and nothing is run after the
innermost site. The same holds of a call from outside, of a function whose body waits. -/
theorem breaks_end_nesting (host : Host η) {outer inner : Site η} {calls : List Activation}
    {labels : List Name} (h : Nesting host outer inner calls labels) :
    (∀ label c, label ∉ labels → inner.run host = .done (.jump label) c →
      outer.run host = .done (.jump label) (c.outside calls) ∧
      inner.trace host <:+ outer.trace host) ∧
    (∀ e c, inner.run host = .failed e c →
      outer.run host = .failed (e.inCalls (calls.map Activation.name)) (c.outside calls) ∧
      inner.trace host <:+ outer.trace host) ∧
    ∀ id env name params args w, outer.config = ⟨env.bindAll params args, w⟩ →
      args.length = params.length → (inner.run host).Breaks labels →
      callValue host (run host outer.fuel) env (.function id name params outer.code) args w =
        ((inner.run host).unwind (calls ++ [⟨name, env⟩])).mapState Config.world ∧
      inner.trace host <:+
        (copying host).callTrace outer.fuel (.function id name params outer.code) args
          ⟨env, w⟩ := by
  refine ⟨?_, ?_, ?_⟩
  · intro label c hlabel hrun
    have hbreaks : (inner.run host).Breaks labels := by
      rw [hrun]
      exact hlabel
    refine ⟨?_, h.trace_suffix hbreaks⟩
    rw [h.run_eq hbreaks, hrun, Outcome.unwind_jump]
  · intro e c hrun
    have hbreaks : (inner.run host).Breaks labels := by
      rw [hrun]
      trivial
    refine ⟨?_, h.trace_suffix hbreaks⟩
    rw [h.run_eq hbreaks, hrun, Outcome.unwind_failed]
  · intro id env name params args w hconfig hlength hbreaks
    have hbody : run host outer.fuel outer.code ⟨env.bindAll params args, w⟩ =
        (inner.run host).unwind calls := by
      rw [← hconfig]
      exact h.run_eq hbreaks
    refine ⟨?_, ?_⟩
    · rw [callValue_eq host outer.fuel id env name outer.code hlength w, hbody, Outcome.unwind,
        Outcome.unwind, List.foldl_append]
      rfl
    · have hpoints : (copying host).callTrace outer.fuel (.function id name params outer.code) args
          ⟨env, w⟩ = .call outer.fuel (.function id name params outer.code) args ⟨env, w⟩ ::
            outer.trace host := by
        simp only [Machine.callTrace, Machine.callPoints, hlength, if_true, Site.trace, hconfig]
        rfl
      rw [hpoints]
      exact (h.trace_suffix hbreaks).trans (List.suffix_cons _ _)

def printing : Code := .const (.native ⟨0, "print", some .print⟩)

def fleeing : Value :=
  .function 7 "flee" ["y"] (.call printing [.call printing [.var "y"], .goto "away", .var "z"])

def fleeingFrom : List Code := [
  .define "x",
  .assign "x" (.call (.const fleeing) [.const (.text "going")]),
  .call printing [.const (.text "back")],
  .label "here"]

/-- The jump out of `fleeing` leaves the call of `print`, the call of the function, the
assignment and the block behind: one line is printed, and nothing is stored. -/
theorem fleeing_ends_nesting : ∃ (inner : Site Unit) (calls : List Activation) (c : Config Unit),
    Nesting echoing ⟨9, .block fleeingFrom, (Interpreter.new {} ()).config⟩ inner calls ["here"] ∧
    inner.code = .goto "away" ∧ calls.map Activation.name = ["flee"] ∧
    inner.run echoing = .done (.jump "away") c ∧
    run echoing 9 (.block fleeingFrom) (Interpreter.new {} ()).config =
      .done (.jump "away") (c.outside calls) ∧
    c.world.printer.pending = "going\n" ∧ (c.outside calls).get "x" = .ok .absent := by
  have hnesting : Nesting echoing ⟨9, .block fleeingFrom, (Interpreter.new {} ()).config⟩ _ _ _ :=
    .part (.child (.tail _ (.head _))) <| .part (.expr rfl) <| .body (.body rfl rfl rfl) <|
      .part (@Position.arg _ _ _ _ _ [.call printing [.var "y"]] _ _ _ _ _ _ rfl rfl) <| .here _
  have hends := (breaks_end_nesting echoing hnesting).1 "away" _ (by decide) rfl
  exact ⟨_, _, _, hnesting, rfl, rfl, rfl, hends.1, rfl, rfl⟩

end Treewalk
