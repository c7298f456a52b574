import Treewalk.Program
import Treewalk.Proofs.Invariant

/-!
The points of a run in the order in which it comes by them: each node when it
starts, and each call of a value when callee and arguments are known. A run that
does not end has points too, as far as its fuel goes. Main statements: a step
depends on its parts at these points only, and an invariant of running holds at
every point.
-/
namespace Treewalk

variable {η σ α : Type}

/-- A point of a run, with the state there and the fuel of the parts. -/
inductive Event (σ : Type) where
  | node (fuel : Nat) (code : Code) (s : σ)
  | call (fuel : Nat) (f : Value) (args : List Value) (s : σ)

/-- An evaluator: how it runs code, which slot it sees under a name, and the state it
starts the body of a function in. -/
structure Machine (σ : Type) where
  run : Nat → Runner σ
  slot? : σ → Name → Option Slot
  enter : σ → List Name → List Value → σ

def copying (host : Host η) : Machine (Config η) where
  run := run host
  slot? c name := c.env.slot? name
  enter c params args := ⟨c.env.bindAll params args, c.world⟩

def Outcome.pointsAfter (o : Outcome σ (Flow α)) (k : α → σ → List (Event σ)) :
    List (Event σ) :=
  match o with
  | .done (.value a) s => k a s
  | _ => []

namespace Machine

section

variable (runner : Runner σ) (points : Code → σ → List (Event σ))

def blockPoints (children : List Code) : Nat → List Code → σ → List (Event σ)
  | 0, _, _ => []
  | _ + 1, [], _ => []
  | fuel + 1, child :: rest, s =>
    points child s ++
      match runner child s with
      | .done (.value _) s => blockPoints children fuel rest s
      | .done (.jump name) s =>
        match Block.position? children name with
        | some i => blockPoints children fuel (children.drop i) s
        | none => []
      | _ => []

def argPoints : List Code → σ → List (Event σ)
  | [], _ => []
  | arg :: args, s =>
    points arg s ++ (runner arg s).pointsAfter fun _ s => argPoints args s

end

variable (M : Machine σ)

def callPoints (fuel : Nat) (points : Code → σ → List (Event σ)) (f : Value)
    (args : List Value) (s : σ) : List (Event σ) :=
  .call fuel f args s ::
    match f with
    | .function _ _ params body =>
      if args.length = params.length then points body (M.enter s params args) else []
    | _ => []

/-- The points of the parts of a node, given those of code. -/
def partPoints (fuel : Nat) (points : Code → σ → List (Event σ)) : Code → σ → List (Event σ)
  | .assign name expr, s =>
    match M.slot? s name with
    | some (.cell _) => points expr s
    | _ => []
  | .block children, s => blockPoints (M.run fuel) points children fuel children s
  | .when test body, s =>
    points test s ++ (M.run fuel test s).pointsAfter fun v s =>
      if v.truthy then points body s else []
  | .choose test yes no, s =>
    points test s ++ (M.run fuel test s).pointsAfter fun v s =>
      if v.truthy then points yes s else points no s
  | .call callee args, s =>
    points callee s ++ (M.run fuel callee s).pointsAfter fun f s =>
      argPoints (M.run fuel) points args s ++
        (runArgs (M.run fuel) args [] s).pointsAfter fun vs s => M.callPoints fuel points f vs s
  | _, _ => []

def trace : Nat → Code → σ → List (Event σ)
  | 0, _, _ => []
  | fuel + 1, code, s => .node fuel code s :: M.partPoints fuel (trace fuel) code s

def callTrace (fuel : Nat) (f : Value) (args : List Value) (s : σ) : List (Event σ) :=
  M.callPoints fuel (M.trace fuel) f args s

end Machine

section Agreement

def Agree (runner runner' : Runner σ) (points : List (Event σ)) : Prop :=
  ∀ event ∈ points, ∀ fuel n s, event = .node fuel n s → runner n s = runner' n s

def Event.start (fuel : Nat) (n : Code) (s : σ) : List (Event σ) := [.node fuel n s]

variable {runner runner' : Runner σ} {fuel : Nat}

theorem Agree.start {n : Code} {s : σ} (h : Agree runner runner' (Event.start fuel n s)) :
    runner n s = runner' n s :=
  h _ (List.mem_singleton_self _) fuel n s rfl

theorem agree_append {xs ys : List (Event σ)} :
    Agree runner runner' (xs ++ ys) ↔ Agree runner runner' xs ∧ Agree runner runner' ys := by
  simp only [Agree, List.mem_append, or_imp, forall_and]

theorem onValue_congr {β : Type} {o : Outcome σ (Flow α)} {k k' : α → σ → Outcome σ (Flow β)}
    {points : α → σ → List (Event σ)} (h : Agree runner runner' (o.pointsAfter points))
    (hk : ∀ a s, Agree runner runner' (points a s) → k a s = k' a s) :
    o.onValue k = o.onValue k' := by
  cases o with
  | done flow s =>
    cases flow with
    | value a => exact hk a s h
    | jump label => rfl
  | failed e s => rfl
  | outOfFuel => rfl

theorem runBlock_congr (children : List Code) (steps : Nat) (rest : List Code) (last : Value)
    (s : σ) (h : Agree runner runner'
      (Machine.blockPoints runner' (Event.start fuel) children steps rest s)) :
    runBlock runner children steps rest last s = runBlock runner' children steps rest last s := by
  induction steps generalizing rest last s with
  | zero => rfl
  | succ steps ih =>
    cases rest with
    | nil => rfl
    | cons child rest =>
      obtain ⟨hchild, hrest⟩ := agree_append.1 h
      simp only [runBlock]
      rw [hchild.start]
      rcases ho : runner' child s with ⟨v | label, s'⟩ | ⟨e, s'⟩ | _
      · rw [ho] at hrest
        exact ih rest v s' hrest
      · rw [ho] at hrest
        dsimp only at hrest ⊢
        cases hposition : Block.position? children label with
        | none => rfl
        | some i =>
          rw [hposition] at hrest
          exact ih _ last s' hrest
      · rfl
      · rfl

theorem runArgs_congr (args : List Code) (taken : List Value) (s : σ)
    (h : Agree runner runner' (Machine.argPoints runner' (Event.start fuel) args s)) :
    runArgs runner args taken s = runArgs runner' args taken s := by
  induction args generalizing taken s with
  | nil => rfl
  | cons arg args ih =>
    obtain ⟨harg, hargs⟩ := agree_append.1 h
    simp only [runArgs]
    rw [harg.start]
    exact onValue_congr hargs fun v s' h' => ih (v :: taken) s' h'

end Agreement

theorem callValue_congr {host : Host η} {runner runner' : Runner (Config η)} {fuel : Nat}
    (f : Value) (args : List Value) (c : Config η)
    (h : Agree runner runner' ((copying host).callPoints fuel (Event.start fuel) f args c)) :
    callValue host runner c.env f args c.world = callValue host runner' c.env f args c.world := by
  cases f with
  | function id name params body =>
    simp only [callValue]
    split
    · next hlength =>
      have hbody : runner body ⟨c.env.bindAll params args, c.world⟩ =
          runner' body ⟨c.env.bindAll params args, c.world⟩ := by
        refine h (.node fuel body _) ?_ fuel body _ rfl
        simp [Machine.callPoints, hlength, Event.start, copying]
      rw [hbody]
    · rfl
  | _ => rfl

/-- A step asks its runner at the points of its parts and nowhere else: a runner that
agrees there gives the same outcome. -/
theorem step_eq_of_agree {host : Host η} {runner : Runner (Config η)} {fuel : Nat} (n : Code)
    (c : Config η)
    (h : Agree runner (run host fuel) ((copying host).partPoints fuel (Event.start fuel) n c)) :
    step host runner fuel n c = run host (fuel + 1) n c := by
  rw [run_succ]
  cases n with
  | assign name expr =>
    simp only [Machine.partPoints, copying] at h
    simp only [step]
    split
    · rfl
    · rfl
    · next cell hslot =>
      rw [hslot] at h
      rw [h.start]
  | block children => exact runBlock_congr children fuel children .absent c h
  | when test body =>
    obtain ⟨htest, hbody⟩ := agree_append.1 h
    simp only [step]
    rw [htest.start]
    refine onValue_congr hbody ?_
    intro v c' h'
    split at h'
    · next hv => rw [if_pos hv, if_pos hv, h'.start]
    · next hv => rw [if_neg hv, if_neg hv]
  | choose test yes no =>
    obtain ⟨htest, hbranch⟩ := agree_append.1 h
    simp only [step]
    rw [htest.start]
    refine onValue_congr hbranch ?_
    intro v c' h'
    split at h'
    · next hv => rw [if_pos hv, if_pos hv, h'.start]
    · next hv => rw [if_neg hv, if_neg hv, h'.start]
  | call callee args =>
    obtain ⟨hcallee, hrest⟩ := agree_append.1 h
    simp only [step]
    rw [hcallee.start]
    refine onValue_congr hrest ?_
    intro f c₁ h₁
    obtain ⟨hargs, hcall⟩ := agree_append.1 h₁
    rw [runArgs_congr args [] c₁ hargs]
    refine onValue_congr hcall ?_
    intro vs c₂ h₂
    rw [callValue_congr f vs c₂ h₂]
  | _ => rfl

namespace Interpreter

def formPoints (runner : Runner (Config η)) (points : Code → Config η → List (Event σ)) :
    List Tree → Interpreter η → List (Event σ)
  | [], _ => []
  | tree :: trees, it =>
    match it.compile tree with
    | .error _ => []
    | .ok (form, it) =>
      (match form.code with
      | .definition .. => []
      | code => points code it.config) ++
        match runForm runner form it with
        | .done _ it => formPoints runner points trees it
        | _ => []

def programTrace (host : Host η) (fuel : Nat) (root : Tree) (it : Interpreter η) :
    List (Event (Config η)) :=
  formPoints (Treewalk.run host fuel) ((copying host).trace fuel) root.children it

def callTrace (host : Host η) (fuel : Nat) (name : Name) (args : List Value)
    (it : Interpreter η) : List (Event (Config η)) :=
  match it.lookup? name with
  | none => []
  | some f => (copying host).callTrace fuel f args it.config

end Interpreter

namespace Invariant

variable {host : Host η} (I : Invariant host)

def At : Event (Config η) → Prop
  | .node _ n c => (∃ labels, I.code labels n) ∧ I.Holds c
  | .call _ f args c => I.value f ∧ (∀ a ∈ args, I.value a) ∧ I.Holds c

/-- Points that satisfy the invariant wherever their code does. -/
def AtAll (points : Code → Config η → List (Event (Config η))) : Prop :=
  ∀ {labels : List Name} {n : Code} {c : Config η}, I.code labels n → I.Holds c →
    ∀ event ∈ points n c, I.At event

variable {I} {runner : Runner (Config η)} {points : Code → Config η → List (Event (Config η))}

theorem at_pointsAfter {value : α → Prop} {jump : Name → Prop} {error : Error → Prop}
    {o : Outcome (Config η) (Flow α)} {k : α → Config η → List (Event (Config η))}
    (ho : o.Obeys value jump error I.Holds)
    (hk : ∀ a c, value a → I.Holds c → ∀ event ∈ k a c, I.At event) :
    ∀ event ∈ o.pointsAfter k, I.At event := by
  cases o with
  | done flow c =>
    cases flow with
    | value a => exact hk a c ho.1 ho.2
    | jump label => simp [Outcome.pointsAfter]
  | failed e c => simp [Outcome.pointsAfter]
  | outOfFuel => simp [Outcome.pointsAfter]

theorem at_append {xs ys : List (Event (Config η))} (hxs : ∀ event ∈ xs, I.At event)
    (hys : ∀ event ∈ ys, I.At event) : ∀ event ∈ xs ++ ys, I.At event := by
  intro event hevent
  rcases List.mem_append.1 hevent with h | h
  · exact hxs event h
  · exact hys event h

theorem at_blockPoints (hr : I.KeptBy runner) (hp : I.AtAll points) {labels : List Name}
    {children : List Code} (hcode : I.code labels (.block children)) (fuel : Nat)
    {rest : List Code} (hrest : ∀ child ∈ rest, child ∈ children) {c : Config η}
    (hc : I.Holds c) :
    ∀ event ∈ Machine.blockPoints runner points children fuel rest c, I.At event := by
  induction fuel generalizing rest c with
  | zero => simp [Machine.blockPoints]
  | succ fuel ih =>
    cases rest with
    | nil => simp [Machine.blockPoints]
    | cons child rest =>
      have hpart := I.part hcode (.child (hrest child (by simp)))
      have hchild := hr hpart hc
      refine at_append (hp hpart hc) ?_
      cases ho : runner child c with
      | done flow c' =>
        rw [ho] at hchild
        cases flow with
        | value v => exact ih (fun n hn => hrest n (by simp [hn])) hchild.2
        | jump label =>
          cases hposition : Block.position? children label with
          | some i =>
            simp only [hposition]
            exact ih (fun n hn => List.mem_of_mem_drop hn) hchild.2
          | none => simp [hposition]
      | failed e c' => simp
      | outOfFuel => simp

theorem at_argPoints (hr : I.KeptBy runner) (hp : I.AtAll points) {labels : List Name}
    {args : List Code} (hcode : ∀ arg ∈ args, I.code labels arg) {c : Config η}
    (hc : I.Holds c) : ∀ event ∈ Machine.argPoints runner points args c, I.At event := by
  induction args generalizing c with
  | nil => simp [Machine.argPoints]
  | cons arg args ih =>
    have harg := hcode arg (by simp)
    refine at_append (hp harg hc) (at_pointsAfter (hr harg hc) ?_)
    intro v c' hv hc'
    exact ih (fun n hn => hcode n (by simp [hn])) hc'

theorem at_callPoints (hp : I.AtAll points) (fuel : Nat) {f : Value} (hf : I.value f)
    {args : List Value} (hargs : ∀ a ∈ args, I.value a) {c : Config η} (hc : I.Holds c) :
    ∀ event ∈ (copying host).callPoints fuel points f args c, I.At event := by
  refine List.forall_mem_cons.2 ⟨⟨hf, hargs, hc⟩, ?_⟩
  cases f with
  | function id name params body =>
    dsimp only
    split
    · exact hp (I.body hf) ⟨bindAll hc.1 params hargs, hc.2⟩
    · simp
  | _ => simp

theorem at_partPoints {fuel : Nat} (hr : I.KeptBy (run host fuel)) (hp : I.AtAll points) :
    I.AtAll ((copying host).partPoints fuel points) := by
  intro labels n c hn hc
  cases n with
  | assign name expr =>
    simp only [Machine.partPoints]
    split
    · exact hp (I.part hn (.expr name expr)) hc
    · simp
  | block children => exact at_blockPoints hr hp hn fuel (fun child h => h) hc
  | when test body =>
    have htest := I.part hn (.whenTest test body)
    refine at_append (hp htest hc) (at_pointsAfter (hr htest hc) ?_)
    intro v c' hv hc'
    split
    · exact hp (I.part hn (.whenBody test body)) hc'
    · simp
  | choose test yes no =>
    have htest := I.part hn (.test test yes no)
    refine at_append (hp htest hc) (at_pointsAfter (hr htest hc) ?_)
    intro v c' hv hc'
    split
    · exact hp (I.part hn (.yes test yes no)) hc'
    · exact hp (I.part hn (.no test yes no)) hc'
  | call callee args =>
    have hcallee := I.part hn (.callee callee args)
    have hargs : ∀ arg ∈ args, I.code labels arg := fun arg h => I.part hn (.arg callee h)
    refine at_append (hp hcallee hc) (at_pointsAfter (hr hcallee hc) ?_)
    intro f c' hf hc'
    refine at_append (at_argPoints hr hp hargs hc') ?_
    refine at_pointsAfter (runArgs_ends hr hargs hc') ?_
    intro vs c'' hvs hc''
    exact at_callPoints hp fuel hf hvs hc''
  | _ => simp [Machine.partPoints]

/-- An invariant holds at every point of a run. -/
theorem at_trace (I : Invariant host) (fuel : Nat) : I.AtAll ((copying host).trace fuel) := by
  induction fuel with
  | zero =>
    intro labels n c hn hc
    simp [Machine.trace]
  | succ fuel ih =>
    intro labels n c hn hc
    refine List.forall_mem_cons.2 ⟨⟨⟨labels, hn⟩, hc⟩, ?_⟩
    exact at_partPoints (I.run_keeps fuel) ih hn hc

end Invariant

end Treewalk
