import Treewalk.Proofs.Related
import Treewalk.Proofs.SideBySide
import Treewalk.Proofs.Values

/-!
Code alike up to an exchange. Two pieces of code are alike if one becomes the
other by exchanging some of its parts, also in the bodies of functions it holds;
functions are alike if they have the same identity, name and parameters, and
bodies that are alike. Main statement: code that is alike runs alike if what is
exchanged does.
-/
namespace Treewalk

variable {η : Type}

namespace Code

/-- The least relation that has the exchanges, and relates code of the same kind whose
parts are related. -/
inductive Alike (swap : Code → Code → Prop) : Code → Code → Prop
  | swap {n m : Code} (h : swap n m) : Alike swap n m
  | paired {n m : Code} (h : n.Paired (Value.Paired (Alike swap)) (Alike swap) m) :
      Alike swap n m

end Code

abbrev Value.Alike (swap : Code → Code → Prop) : Value → Value → Prop :=
  Value.Paired (Code.Alike swap)

mutual

theorem Code.Alike.refl (swap : Code → Code → Prop) : (n : Code) → n.Alike swap n
  | .const v => .paired (.const (Value.Alike.refl swap v))
  | .var name => .paired (.var name)
  | .define name => .paired (.define name)
  | .assign name n => .paired (.assign name (Code.Alike.refl swap n))
  | .label name => .paired (.label name)
  | .goto label => .paired (.goto label)
  | .block ns => .paired (.block (Code.Alike.reflEach swap ns))
  | .when test body => .paired (.when (Code.Alike.refl swap test) (Code.Alike.refl swap body))
  | .choose test yes no => .paired (.choose (Code.Alike.refl swap test)
      (Code.Alike.refl swap yes) (Code.Alike.refl swap no))
  | .call callee args => .paired (.call (Code.Alike.refl swap callee)
      (Code.Alike.reflEach swap args))
  | .definition name params body => .paired (.definition name params (Code.Alike.refl swap body))

theorem Code.Alike.reflEach (swap : Code → Code → Prop) :
    (ns : List Code) → List.Forall₂ (Code.Alike swap) ns ns
  | [] => .nil
  | n :: ns => .cons (Code.Alike.refl swap n) (Code.Alike.reflEach swap ns)

theorem Value.Alike.refl (swap : Code → Code → Prop) : (v : Value) → v.Alike swap v
  | .absent => .data fun h => h
  | .bool _ => .data fun h => h
  | .number _ => .data fun h => h
  | .text _ => .data fun h => h
  | .native _ => .data fun h => h
  | .function id name params body => .function id name params (Code.Alike.refl swap body)

end

theorem Code.Alike.label?_eq {swap : Code → Code → Prop}
    (hlabel : ∀ n m, swap n m → n.label? = m.label?) {n m : Code} (h : n.Alike swap m) :
    n.label? = m.label? := by
  cases h with
  | swap h => exact hlabel n m h
  | paired h => cases h <;> rfl

/-- What is exchanged, and what is known of the first of the two runs: a test that all
of its code passes, and a predicate that its environments satisfy. -/
structure Exchange where
  swap : Code → Code → Prop
  fit : Code → Prop
  env : Environment → Prop
  data {v : Value} : ¬ v.IsFunction → fit (.const v)
  define {name : Name} {e : Environment} (cell : CellId) :
    fit (.define name) → env e → env (e.bind name (.cell cell))
  enter {id : Nat} {name : Name} {params : List Name} {body : Code} {e : Environment}
    (args : List Value) : fit (.const (.function id name params body)) → env e →
      env (e.bindAll params args)
  install {name : Name} {params : List Name} {body : Code} (id : Nat) :
    fit (.definition name params body) → fit (.const (.function id name params body)) ∧
      ∀ (e : Environment) (v : Value), env e → env (e.bindValue name v)
  label (n m : Code) : swap n m → n.label? = m.label?
  other (n m : Code) : swap n m → ∀ name params body,
    n ≠ .definition name params body ∧ m ≠ .definition name params body

namespace Exchange

variable (X : Exchange)

def Sound (v : Value) : Prop := (Code.const v).Throughout X.fit

def value (v w : Value) : Prop := v.Alike X.swap w ∧ X.Sound v

def code (n m : Code) : Prop := n.Alike X.swap m ∧ n.Throughout X.fit

variable {X}

theorem sound_of_not_isFunction {v : Value} (h : ¬ v.IsFunction) : X.Sound v :=
  Value.throughout_const (X.data h) h

theorem value_of_not_isFunction {v : Value} (h : ¬ v.IsFunction) : X.value v v :=
  ⟨.data h, sound_of_not_isFunction h⟩

theorem code_of_forall₂ {ns ms : List Code} (h : List.Forall₂ (Code.Alike X.swap) ns ms)
    (hns : ∀ n ∈ ns, n.Throughout X.fit) : List.Forall₂ X.code ns ms := by
  induction h with
  | nil => exact .nil
  | cons h hs ih =>
    exact .cons ⟨h, hns _ (by simp)⟩ (ih fun n hn => hns n (by simp [hn]))

theorem value_paired {v w : Value} (h : X.value v w) : v.Paired X.code w := by
  obtain ⟨halike, hsound⟩ := h
  cases halike with
  | data h => exact .data h
  | function id name params h =>
    exact .function id name params ⟨h, hsound.inside (.held id name params _)⟩

/-- Code that is alike is exchanged, or of the same kind. -/
theorem code_cases {n m : Code} (h : X.code n m) : X.swap n m ∨ n.Paired X.value X.code m := by
  obtain ⟨halike, hfit⟩ := h
  cases halike with
  | swap h => exact .inl h
  | paired h =>
    refine .inr ?_
    cases h with
    | const h => exact .const ⟨h, hfit⟩
    | var name => exact .var name
    | define name => exact .define name
    | assign name h => exact .assign name ⟨h, hfit.part (.expr name _)⟩
    | label name => exact .label name
    | goto label => exact .goto label
    | block h => exact .block (code_of_forall₂ h fun n hn => hfit.part (.child hn))
    | when htest hbody =>
      exact .when ⟨htest, hfit.part (.whenTest _ _)⟩ ⟨hbody, hfit.part (.whenBody _ _)⟩
    | choose htest hyes hno =>
      exact .choose ⟨htest, hfit.part (.test _ _ _)⟩ ⟨hyes, hfit.part (.yes _ _ _)⟩
        ⟨hno, hfit.part (.no _ _ _)⟩
    | call hcallee hargs =>
      exact .call ⟨hcallee, hfit.part (.callee _ _)⟩
        (code_of_forall₂ hargs fun n hn => hfit.part (.arg _ hn))
    | definition name params h =>
      exact .definition name params ⟨h, hfit.inside (.defined name params _)⟩

variable (X) (state : η → η → Prop) (inPlay : CellId → Prop)

structure Environments (e e' : Environment) : Prop where
  rel : e.Rel (Value.Alike X.swap) e'
  carries : e.Carries X.Sound inPlay
  env : X.env e

/-- Worlds alike, the first of which holds sound values in the cells in play. -/
structure Worlds (w w' : World η) : Prop where
  rel : w.Rel (Value.Alike X.swap) state w'
  carry : w.cells.Carry X.Sound inPlay

/-- Code that is exchanged does nothing but give a value, given more fuel than `lag`. -/
def Settles (host : Host η) (lag : Nat) : Prop :=
  ∀ ⦃n m : Code⦄ ⦃c c' : Config η⦄, X.swap n m → X.Environments inPlay c.env c'.env →
    X.Worlds state inPlay c.world c'.world →
    ∃ v w, X.value v w ∧ ∀ fuel, lag < fuel →
      run host fuel n c = .done (.value v) c ∧ run host fuel m c' = .done (.value w) c'

variable {X state inPlay}

/-- A run that is bound to settle, from whichever fuel it is seen. -/
theorem followedBy_of_settled {host : Host η} {lag : Nat} {n m : Code} {c c' : Config η}
    {v w : Value} {value : Value → Value → Prop} {holds : Config η → Config η → Prop}
    (hv : value v w) (hc : holds c c')
    (hn : ∀ fuel, lag < fuel → run host fuel n c = .done (.value v) c)
    (hm : ∀ fuel, lag < fuel → run host fuel m c' = .done (.value w) c') (fuel : Nat) :
    (run host fuel n c).FollowedBy (Flow.Rel value) holds (run host (fuel + lag) m c') := by
  by_cases hend : run host fuel n c = .outOfFuel
  · rw [hend]
    exact .outOfFuel _
  · have hpos : fuel ≠ 0 := by
      rintro rfl
      exact hend rfl
    have hlarge : lag < fuel + lag := by omega
    have hrun := run_eq_of_le (Nat.le_add_right fuel lag) hend
    rw [← hrun, hn (fuel + lag) hlarge, hm (fuel + lag) hlarge]
    exact .done (.value hv) hc

theorem Environments.bindAll {e e' : Environment} (h : X.Environments inPlay e e')
    {id : Nat} {name : Name} {params : List Name} {body : Code}
    (hf : X.Sound (.function id name params body)) {args args' : List Value}
    (hargs : List.Forall₂ X.value args args') :
    X.Environments inPlay (e.bindAll params args) (e'.bindAll params args') := by
  refine ⟨h.rel.bindAll params (hargs.imp fun _ _ h => h.1), ?_, X.enter args hf.self h.env⟩
  refine h.carries.bindAll params ?_
  intro a ha
  obtain ⟨i, hi, rfl⟩ := List.getElem_of_mem ha
  exact (hargs.get hi (hargs.length_eq ▸ hi)).2

theorem Environments.read {e e' : Environment} (he : X.Environments inPlay e e')
    {w w' : World η} (hw : X.Worlds state inPlay w w') (name : Name) :
    Option.Rel X.value (e.lookup? w.cells name) (e'.lookup? w'.cells name) := by
  have hrel := he.rel.lookup? hw.rel.cells name
  have hsound : ∀ v, e.lookup? w.cells name = some v → X.Sound v :=
    fun v h => he.carries.lookup? hw.carry h
  generalize e.lookup? w.cells name = r at hrel hsound
  generalize e'.lookup? w'.cells name = r' at hrel
  cases hrel with
  | some hv => exact .some ⟨hv, hsound _ rfl⟩
  | none => exact .none

theorem define_alike {name : Name} (h : X.fit (.define name)) {c c' : Config η}
    (he : X.Environments inPlay c.env c'.env) (hw : X.Worlds state inPlay c.world c'.world) :
    X.Environments inPlay (c.define name).env (c'.define name).env ∧
      X.Worlds state inPlay (c.define name).world (c'.define name).world := by
  have habsent : X.Sound .absent := sound_of_not_isFunction fun h => h
  have hcarries := Config.define_carries habsent he.carries hw.carry name
  have hrel := Config.define_rel (Value.Alike.refl X.swap .absent) he.rel hw.rel name
  exact ⟨⟨hrel.1, hcarries.1, X.define _ h he.env⟩, hrel.2, hcarries.2⟩

theorem native_alike {host : Host η}
    (hhost : host.RespectsOver X.value (Value.Alike X.swap) state) (f : Native)
    {args args' : List Value} (hargs : List.Forall₂ X.value args args') {w w' : World η}
    (hw : X.Worlds state inPlay w w') :
    SameAnswer X.value (host.apply f args w).1 (host.apply f args' w').1 ∧
      X.Worlds state inPlay (host.apply f args w).2 (host.apply f args' w').2 := by
  obtain ⟨hanswer, hrel⟩ := Host.apply_rel (fun _ _ h => value_paired h)
    (fun _ h => value_of_not_isFunction h) (fun _ _ h => h.1) hhost hargs hw.rel
  have happly : host.apply f args w = ((host.apply f args w).1, (host.apply f args w).2) := rfl
  refine ⟨hanswer, hrel, ?_⟩
  rcases Host.apply_cases happly with ⟨b, -, hcells, -⟩ | ⟨-, -, hafter⟩
  · rw [hcells]
    exact hw.carry
  · rw [hafter]
    refine hw.carry.setAll ?_
    have hcall := hhost f args args' w.host w'.host w.cells.get w'.cells.get hargs hw.rel.host
      hw.rel.cells.contents
    intro write hwrite
    obtain ⟨i, hi, rfl⟩ := List.getElem_of_mem hwrite
    exact (hcall.writes.get hi (hcall.writes.length_eq ▸ hi)).2.2

/-- A host that cannot tell values apart that are alike, and hands back only functions it
was given, respects the exchange as long as the functions it holds are sound. -/
theorem respects {host : Host η} {held : η → Value → Prop} (hback : host.HandsBack held)
    (hhost : host.Respects (Value.Alike X.swap) state) :
    host.RespectsOver X.value (Value.Alike X.swap)
      fun s s' => state s s' ∧ ∀ v, held s v → X.Sound v := by
  intro f args args' s s' get get' hargs hstate hget
  have hgiven : ∀ v, v ∈ args ∨ held s v → X.Sound v := by
    rintro v (hmem | hheld)
    · obtain ⟨i, hi, rfl⟩ := List.getElem_of_mem hmem
      exact (hargs.get hi (hargs.length_eq ▸ hi)).2
    · exact hstate.2 v hheld
  have hsound : ∀ v, (v.IsFunction → v ∈ args ∨ held s v) → X.Sound v := by
    intro v hv
    by_cases hfunction : v.IsFunction
    · exact hgiven v (hv hfunction)
    · exact sound_of_not_isFunction hfunction
  obtain ⟨hanswer, hafter, hwrites⟩ :=
    hhost f args args' s s' get get' (hargs.imp fun _ _ h => h.1) hstate.1 hget
  refine ⟨?_, ⟨hafter, fun v hv => hgiven v (hback.kept hv)⟩, ?_⟩
  · have hreturned : ∀ v, (host.call f args s get).answer = .ok v → X.Sound v :=
      fun v hv => hsound v (hback.returned hv)
    generalize (host.call f args s get).answer = r at hanswer hreturned
    generalize (host.call f args' s' get').answer = r' at hanswer
    cases hanswer with
    | ok h => exact .ok ⟨h, hreturned _ rfl⟩
    | error e => exact .error e
  · rw [List.forall₂_iff_get] at hwrites ⊢
    refine ⟨hwrites.1, ?_⟩
    intro i hi hi'
    obtain ⟨hcell, hv⟩ := hwrites.2 i hi hi'
    have hmem := List.get_mem (host.call f args s get).writes ⟨i, hi⟩
    exact ⟨hcell, hv, hsound _ (hback.written hmem)⟩

variable (X)

def correspondence {host : Host η}
    (hhost : host.RespectsOver X.value (Value.Alike X.swap) state) {lag : Nat}
    (hsettles : X.Settles state inPlay host lag) : Correspondence host where
  env := X.Environments inPlay
  world := X.Worlds state inPlay
  value := X.value
  code := X.code
  lag := lag
  absent := value_of_not_isFunction fun h => h
  value_cases h := value_paired h
  label h := h.1.label?_eq X.label
  code_cases h := by
    rcases code_cases h with hswap | hpaired
    · refine .inr ?_
      intro fuel c c' henv hworld
      obtain ⟨v, w, hv, hruns⟩ := hsettles hswap henv hworld
      have hn := fun fuel hfuel => (hruns fuel hfuel).1
      have hm := fun fuel hfuel => (hruns fuel hfuel).2
      refine ⟨?_, ?_⟩
      · exact followedBy_of_settled hv ⟨henv, hworld⟩ hn hm fuel
      · refine followedBy_of_settled ?_ ?_ hm hn fuel
        · exact hv
        · exact ⟨henv, hworld⟩
    · exact .inl hpaired
  read _ he hw := he.read hw _
  define h he hw := define_alike h.2.self he hw
  target _ he := he.rel.sameKind _
  store cell hw hv := ⟨Config.store_rel hw.rel cell hv.1, hw.carry.set cell hv.2⟩
  enter hf he hargs := he.bindAll hf.2 hargs
  native hargs hw := native_alike hhost _ hargs hw

end Exchange

end Treewalk
