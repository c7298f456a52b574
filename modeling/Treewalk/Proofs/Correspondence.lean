import Mathlib.Data.List.Forall2
import Treewalk.Proofs.Labels
import Treewalk.Proofs.Parts
import Treewalk.Run.Basic

/-!
Two runs side by side. A correspondence relates the environments, worlds, values
and code of two runs, and is kept by each thing that a node can do on its own.
Code of the same kind is related by its parts; beyond that, a correspondence may
relate code of different kinds if it ends alike. Main statement: related code run
from related states ends alike, with related values and states, and if one of the
runs ends then so does the other.
-/
namespace Treewalk

variable {η : Type}

inductive Flow.Rel {α β : Type} (value : α → β → Prop) : Flow α → Flow β → Prop
  | value {a : α} {b : β} (h : value a b) : Rel value (.value a) (.value b)
  | jump (label : Name) : Rel value (.jump label) (.jump label)

inductive SameAnswer {α β : Type} (value : α → β → Prop) :
    Except Error α → Except Error β → Prop
  | ok {a : α} {b : β} (h : value a b) : SameAnswer value (.ok a) (.ok b)
  | error (e : Error) : SameAnswer value (.error e) (.error e)

theorem SameAnswer.flip {α β : Type} {value : α → β → Prop} {x : Except Error α}
    {y : Except Error β} (h : SameAnswer value x y) : SameAnswer (fun b a => value a b) y x := by
  cases h with
  | ok h => exact .ok h
  | error e => exact .error e

namespace Outcome

variable {σ τ σ' τ' α β α' β' : Type} {value : α → β → Prop} {state : σ → τ → Prop}

/-- If the first computation ends, the second ends in the same way: with related
results or the same error, and in related states. -/
inductive FollowedBy (value : α → β → Prop) (state : σ → τ → Prop) :
    Outcome σ α → Outcome τ β → Prop
  | done {a : α} {b : β} {s : σ} {t : τ} (h : value a b) (hs : state s t) :
      FollowedBy value state (.done a s) (.done b t)
  | failed (e : Error) {s : σ} {t : τ} (hs : state s t) :
      FollowedBy value state (.failed e s) (.failed e t)
  | outOfFuel (o : Outcome τ β) : FollowedBy value state .outOfFuel o

theorem FollowedBy.onValue {value' : α' → β' → Prop} {o : Outcome σ (Flow α)}
    {o' : Outcome τ (Flow β)} {k : α → σ → Outcome σ (Flow α')}
    {k' : β → τ → Outcome τ (Flow β')} (h : o.FollowedBy (Flow.Rel value) state o')
    (hk : ∀ a b s t, value a b → state s t →
      (k a s).FollowedBy (Flow.Rel value') state (k' b t)) :
    (o.onValue k).FollowedBy (Flow.Rel value') state (o'.onValue k') := by
  cases h with
  | done h hs =>
    cases h with
    | value h => exact hk _ _ _ _ h hs
    | jump label => exact .done (.jump label) hs
  | failed e hs => exact .failed e hs
  | outOfFuel o' => exact .outOfFuel _

theorem FollowedBy.mapState {state' : σ' → τ' → Prop} {o : Outcome σ α} {o' : Outcome τ β}
    {f : σ → σ'} {g : τ → τ'} (h : o.FollowedBy value state o')
    (hfg : ∀ s t, state s t → state' (f s) (g t)) :
    (o.mapState f).FollowedBy value state' (o'.mapState g) := by
  cases h with
  | done h hs => exact .done h (hfg _ _ hs)
  | failed e hs => exact .failed e (hfg _ _ hs)
  | outOfFuel o' => exact .outOfFuel _

theorem FollowedBy.mapError {o : Outcome σ α} {o' : Outcome τ β}
    (h : o.FollowedBy value state o') (f : Error → Error) :
    (o.mapError f).FollowedBy value state (o'.mapError f) := by
  cases h with
  | done h hs => exact .done h hs
  | failed e hs => exact .failed (f e) hs
  | outOfFuel o' => exact .outOfFuel _

theorem FollowedBy.imp {value' : α → β → Prop} {state' : σ → τ → Prop} {o : Outcome σ α}
    {o' : Outcome τ β} (h : o.FollowedBy value state o')
    (hvalue : ∀ a b, value a b → value' a b) (hstate : ∀ s t, state s t → state' s t) :
    o.FollowedBy value' state' o' := by
  cases h with
  | done h hs => exact .done (hvalue _ _ h) (hstate _ _ hs)
  | failed e hs => exact .failed e (hstate _ _ hs)
  | outOfFuel o' => exact .outOfFuel _

theorem FollowedBy.ne_outOfFuel {o : Outcome σ α} {o' : Outcome τ β}
    (h : o.FollowedBy value state o') (hne : o ≠ .outOfFuel) : o' ≠ .outOfFuel := by
  cases h with
  | done h hs => exact fun heq => by cases heq
  | failed e hs => exact fun heq => by cases heq
  | outOfFuel o' => exact absurd rfl hne

end Outcome

inductive Slot.SameKind : Slot → Slot → Prop
  | plain (v w : Value) : SameKind (.plain v) (.plain w)
  | cell (c : CellId) : SameKind (.cell c) (.cell c)

theorem Slot.SameKind.symm {s t : Slot} (h : s.SameKind t) : t.SameKind s := by
  cases h with
  | plain v w => exact .plain w v
  | cell c => exact .cell c

/-- Code of the same kind, with the same names and related parts. -/
inductive Code.Paired (value : Value → Value → Prop) (code : Code → Code → Prop) :
    Code → Code → Prop
  | const {v w : Value} (h : value v w) : Paired value code (.const v) (.const w)
  | var (name : Name) : Paired value code (.var name) (.var name)
  | define (name : Name) : Paired value code (.define name) (.define name)
  | assign (name : Name) {n m : Code} (h : code n m) :
      Paired value code (.assign name n) (.assign name m)
  | label (name : Name) : Paired value code (.label name) (.label name)
  | goto (label : Name) : Paired value code (.goto label) (.goto label)
  | block {ns ms : List Code} (h : List.Forall₂ code ns ms) :
      Paired value code (.block ns) (.block ms)
  | when {test test' body body' : Code} (htest : code test test') (hbody : code body body') :
      Paired value code (.when test body) (.when test' body')
  | choose {test test' yes yes' no no' : Code} (htest : code test test') (hyes : code yes yes')
      (hno : code no no') : Paired value code (.choose test yes no) (.choose test' yes' no')
  | call {callee callee' : Code} {args args' : List Code} (hcallee : code callee callee')
      (hargs : List.Forall₂ code args args') :
      Paired value code (.call callee args) (.call callee' args')
  | definition (name : Name) (params : List Name) {body body' : Code} (h : code body body') :
      Paired value code (.definition name params body) (.definition name params body')

inductive Value.Paired (code : Code → Code → Prop) : Value → Value → Prop
  | data {v : Value} (h : ¬ v.IsFunction) : Paired code v v
  | function (id : Nat) (name : Name) (params : List Name) {body body' : Code}
      (h : code body body') :
      Paired code (.function id name params body) (.function id name params body')

theorem Code.Paired.flip {value : Value → Value → Prop} {code : Code → Code → Prop}
    {n m : Code} (h : n.Paired value code m) :
    m.Paired (fun v w => value w v) (fun n m => code m n) n := by
  cases h with
  | const h => exact .const h
  | var name => exact .var name
  | define name => exact .define name
  | assign name h => exact .assign name h
  | label name => exact .label name
  | goto label => exact .goto label
  | block h => exact .block h.flip
  | when htest hbody => exact .when htest hbody
  | choose htest hyes hno => exact .choose htest hyes hno
  | call hcallee hargs => exact .call hcallee hargs.flip
  | definition name params h => exact .definition name params h

theorem Value.Paired.flip {code : Code → Code → Prop} {v w : Value} (h : v.Paired code w) :
    w.Paired (fun n m => code m n) v := by
  cases h with
  | data h => exact .data h
  | function id name params h => exact .function id name params h

theorem Value.Paired.truthy_eq {code : Code → Code → Prop} {v w : Value}
    (h : v.Paired code w) : v.truthy = w.truthy := by
  cases h with
  | data h => rfl
  | function id name params h => rfl

/-- What relates two runs, and how it is kept. -/
structure Correspondence (host : Host η) where
  env : Environment → Environment → Prop
  world : World η → World η → Prop
  value : Value → Value → Prop
  code : Code → Code → Prop
  /-- How much fuel code may need beyond the code of another kind it is related to. -/
  lag : Nat
  absent : value .absent .absent
  value_cases {v w : Value} : value v w → v.Paired code w
  label {n m : Code} : code n m → n.label? = m.label?
  /-- Related code is of the same kind, or ends alike whichever of the two is run first. -/
  code_cases {n m : Code} : code n m → n.Paired value code m ∨
    ∀ (fuel : Nat) (c c' : Config η), env c.env c'.env → world c.world c'.world →
      (run host fuel n c).FollowedBy (Flow.Rel value)
        (fun c c' => env c.env c'.env ∧ world c.world c'.world) (run host (fuel + lag) m c') ∧
      (run host fuel m c').FollowedBy (Flow.Rel fun w v => value v w)
        (fun c' c => env c.env c'.env ∧ world c.world c'.world) (run host (fuel + lag) n c)
  read {name : Name} {e e' : Environment} {w w' : World η} :
    code (.var name) (.var name) → env e e' → world w w' →
      Option.Rel value (e.lookup? w.cells name) (e'.lookup? w'.cells name)
  define {name : Name} {c c' : Config η} : code (.define name) (.define name) →
    env c.env c'.env → world c.world c'.world →
      env (c.define name).env (c'.define name).env ∧
        world (c.define name).world (c'.define name).world
  target {name : Name} {n m : Code} {e e' : Environment} :
    code (.assign name n) (.assign name m) → env e e' →
      Option.Rel Slot.SameKind (e.slot? name) (e'.slot? name)
  store {c c' : Config η} {v v' : Value} (cell : CellId) : world c.world c'.world → value v v' →
    world (c.store cell v).world (c'.store cell v').world
  enter {id : Nat} {name : Name} {params : List Name} {b b' : Code} {e e' : Environment}
    {args args' : List Value} :
    value (.function id name params b) (.function id name params b') → env e e' →
      List.Forall₂ value args args' → env (e.bindAll params args) (e'.bindAll params args')
  native {f : Native} {args args' : List Value} {w w' : World η} :
    List.Forall₂ value args args' → world w w' →
      SameAnswer value (host.apply f args w).1 (host.apply f args' w').1 ∧
        world (host.apply f args w).2 (host.apply f args' w').2

theorem optionRel_flip {α β : Type} {r : α → β → Prop} {r' : β → α → Prop} {x : Option α}
    {y : Option β} (h : Option.Rel r x y) (hr : ∀ a b, r a b → r' b a) : Option.Rel r' y x := by
  cases h with
  | some h => exact .some (hr _ _ h)
  | none => exact .none

namespace Correspondence

variable {host : Host η} (R : Correspondence host)

def Holds (c c' : Config η) : Prop := R.env c.env c'.env ∧ R.world c.world c'.world

def flip : Correspondence host where
  env e e' := R.env e' e
  world w w' := R.world w' w
  value v w := R.value w v
  code n m := R.code m n
  lag := R.lag
  absent := R.absent
  value_cases h := (R.value_cases h).flip
  label h := (R.label h).symm
  code_cases h := by
    rcases R.code_cases h with hpaired | hends
    · exact .inl hpaired.flip
    · refine .inr ?_
      intro fuel c c' henv hworld
      obtain ⟨hfirst, hsecond⟩ := hends fuel c' c henv hworld
      exact ⟨hsecond, hfirst⟩
  read h he hw := optionRel_flip (R.read h he hw) fun _ _ h => h
  define h he hw := R.define h he hw
  target h he := optionRel_flip (R.target h he) fun _ _ h => h.symm
  store cell hw hv := R.store cell hw hv
  enter hf he hargs := R.enter hf he hargs.flip
  native hargs hw := by
    obtain ⟨hanswer, hworld⟩ := R.native hargs.flip hw
    exact ⟨hanswer.flip, hworld⟩

def Ends {σ τ : Type} (state : σ → τ → Prop) (o : Outcome σ (Flow Value))
    (o' : Outcome τ (Flow Value)) : Prop :=
  o.FollowedBy (Flow.Rel R.value) state o'

def KeptBy (runner runner' : Runner (Config η)) : Prop :=
  ∀ {n m : Code} {c c' : Config η}, R.code n m → R.Holds c c' →
    R.Ends R.Holds (runner n c) (runner' m c')

variable {R} {runner runner' : Runner (Config η)}

theorem position?_eq {children children' : List Code}
    (h : List.Forall₂ R.code children children') :
    Block.position? children = Block.position? children' := by
  refine Block.position?_congr ?_
  induction h with
  | nil => rfl
  | cons h hs ih => rw [List.map_cons, List.map_cons, R.label h, ih]

theorem runBlock_ends (hr : R.KeptBy runner runner') {children children' : List Code}
    (hchildren : List.Forall₂ R.code children children') {fuel fuel' : Nat} (hfuel : fuel ≤ fuel')
    {rest rest' : List Code} (hrest : List.Forall₂ R.code rest rest') {last last' : Value}
    (hlast : R.value last last') {c c' : Config η} (hc : R.Holds c c') :
    R.Ends R.Holds (runBlock runner children fuel rest last c)
      (runBlock runner' children' fuel' rest' last' c') := by
  induction fuel generalizing fuel' rest rest' last last' c c' with
  | zero => exact .outOfFuel _
  | succ fuel ih =>
    obtain ⟨fuel', rfl⟩ : ∃ k, fuel' = k + 1 := ⟨fuel' - 1, by omega⟩
    have hless : fuel ≤ fuel' := by omega
    cases hrest with
    | nil => exact .done (.value hlast) hc
    | @cons child child' rest rest' hchild hrest =>
      have hfirst := hr hchild hc
      simp only [runBlock, ← position?_eq hchildren]
      generalize runner child c = o at hfirst
      generalize runner' child' c' = o' at hfirst
      cases hfirst with
      | done hflow hc₁ =>
        cases hflow with
        | value hv => exact ih hless hrest hv hc₁
        | jump label =>
          dsimp only
          split
          · next i hposition => exact ih hless (List.forall₂_drop i hchildren) hlast hc₁
          · exact .done (.jump label) hc₁
      | failed e hc₁ => exact .failed e hc₁
      | outOfFuel o' => exact .outOfFuel _

theorem runArgs_ends (hr : R.KeptBy runner runner') {args args' : List Code}
    (hargs : List.Forall₂ R.code args args') {taken taken' : List Value}
    (htaken : List.Forall₂ R.value taken taken') {c c' : Config η} (hc : R.Holds c c') :
    (runArgs runner args taken c).FollowedBy (Flow.Rel (List.Forall₂ R.value)) R.Holds
      (runArgs runner' args' taken' c') := by
  induction hargs generalizing taken taken' c c' with
  | nil => exact .done (.value (List.rel_reverse htaken)) hc
  | cons harg hargs ih =>
    refine (hr harg hc).onValue ?_
    intro v v' c₁ c₁' hv hc₁
    exact ih (.cons hv htaken) hc₁

theorem callValue_ends (hr : R.KeptBy runner runner') {e e' : Environment} (he : R.env e e')
    {f f' : Value} (hf : R.value f f') {args args' : List Value}
    (hargs : List.Forall₂ R.value args args') {w w' : World η} (hw : R.world w w') :
    R.Ends R.world (callValue host runner e f args w) (callValue host runner' e' f' args' w') := by
  cases R.value_cases hf with
  | data hdata =>
    cases f with
    | native k =>
      obtain ⟨hanswer, hworld⟩ := R.native hargs hw (f := k)
      simp only [callValue]
      generalize host.apply k args w = r at hanswer hworld
      generalize host.apply k args' w' = r' at hanswer hworld
      obtain ⟨x, w₁⟩ := r
      obtain ⟨x', w₁'⟩ := r'
      cases hanswer with
      | ok hv => exact .done (.value hv) hworld
      | error e => exact .failed e hworld
    | function id name params body => exact absurd trivial hdata
    | absent => exact .failed _ hw
    | bool b => exact .failed _ hw
    | number x => exact .failed _ hw
    | text s => exact .failed _ hw
  | function id name params hbody =>
    have hlength : args.length = args'.length := hargs.length_eq
    simp only [callValue, ← hlength]
    split
    · have hstart : R.Holds ⟨e.bindAll params args, w⟩ ⟨e'.bindAll params args', w'⟩ :=
        ⟨R.enter hf he hargs, hw⟩
      have hrun := hr hbody hstart
      exact (hrun.mapState fun c c' hc => hc.2).mapError _
    · exact .failed _ hw

/-- Code of the same kind ends alike if its parts do. -/
theorem step_ends (hr : R.KeptBy runner runner') {fuel fuel' : Nat} (hfuel : fuel ≤ fuel')
    {n m : Code} (hcode : R.code n m) (hpaired : n.Paired R.value R.code m) {c c' : Config η}
    (hc : R.Holds c c') :
    R.Ends R.Holds (step host runner fuel n c) (step host runner' fuel' m c') := by
  cases hpaired with
  | const hv => exact .done (.value hv) hc
  | var name =>
    have hread := R.read hcode hc.1 hc.2
    simp only [step, Config.get, Environment.get]
    generalize c.env.lookup? c.world.cells name = r at hread
    generalize c'.env.lookup? c'.world.cells name = r' at hread
    cases hread with
    | some hv => exact .done (.value hv) hc
    | none => exact .failed _ hc
  | define name => exact .done (.value R.absent) (R.define hcode hc.1 hc.2)
  | assign name hexpr =>
    have htarget := R.target hcode hc.1
    simp only [step]
    generalize c.env.slot? name = slot at htarget
    generalize c'.env.slot? name = slot' at htarget
    cases htarget with
    | none => exact .failed _ hc
    | some hkind =>
      cases hkind with
      | plain v w => exact .failed _ hc
      | cell cell =>
        refine (hr hexpr hc).onValue ?_
        intro v v' c₁ c₁' hv hc₁
        exact .done (.value hv) ⟨hc₁.1, R.store cell hc₁.2 hv⟩
  | label name => exact .done (.value R.absent) hc
  | goto label => exact .done (.jump label) hc
  | block hchildren => exact runBlock_ends hr hchildren hfuel hchildren R.absent hc
  | when htest hbody =>
    refine (hr htest hc).onValue ?_
    intro v v' c₁ c₁' hv hc₁
    rw [(R.value_cases hv).truthy_eq]
    split
    · exact hr hbody hc₁
    · exact .done (.value R.absent) hc₁
  | choose htest hyes hno =>
    refine (hr htest hc).onValue ?_
    intro v v' c₁ c₁' hv hc₁
    rw [(R.value_cases hv).truthy_eq]
    split
    · exact hr hyes hc₁
    · exact hr hno hc₁
  | call hcallee hargs =>
    refine (hr hcallee hc).onValue ?_
    intro f f' c₁ c₁' hf hc₁
    refine (runArgs_ends hr hargs .nil hc₁).onValue ?_
    intro vs vs' c₂ c₂' hvs hc₂
    have hcall := callValue_ends hr hc₂.1 hf hvs hc₂.2
    exact hcall.mapState fun w w' hw => ⟨hc₂.1, hw⟩
  | definition name params h => exact .done (.value R.absent) hc

/-- Related code run from related states ends alike, given the lag. -/
theorem run_ends (R : Correspondence host) (fuel : Nat) :
    R.KeptBy (run host fuel) (run host (fuel + R.lag)) := by
  induction fuel with
  | zero =>
    intro n m c c' hcode hc
    exact .outOfFuel _
  | succ fuel ih =>
    intro n m c c' hcode hc
    rcases R.code_cases hcode with hpaired | hends
    · rw [Nat.add_right_comm]
      exact step_ends ih (Nat.le_add_right fuel R.lag) hcode hpaired hc
    · exact (hends (fuel + 1) c c' hc.1 hc.2).1

end Correspondence

end Treewalk
