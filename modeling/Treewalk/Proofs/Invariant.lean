import Treewalk.Proofs.Parts
import Treewalk.Run.Basic

/-!
Invariants of running. An invariant says what may hold of environments, worlds,
values and code, and of the jumps and errors that come out of code; it is kept
by each thing that a node can do on its own. Then it is kept by every run,
however the run ends, and by every call of a value.
-/
namespace Treewalk

variable {η : Type}

namespace Outcome

variable {σ τ α β : Type}

/-- What a computation ends with satisfies a predicate of its kind, and the state it
leaves satisfies `state`. -/
def Obeys (value : α → Prop) (jump : Name → Prop) (error : Error → Prop) (state : σ → Prop) :
    Outcome σ (Flow α) → Prop
  | done (.value a) s => value a ∧ state s
  | done (.jump label) s => jump label ∧ state s
  | failed e s => error e ∧ state s
  | outOfFuel => True

variable {value : α → Prop} {jump : Name → Prop} {error : Error → Prop} {state : σ → Prop}

theorem Obeys.onValue {value' : β → Prop} {o : Outcome σ (Flow α)}
    {k : α → σ → Outcome σ (Flow β)} (h : o.Obeys value jump error state)
    (hk : ∀ a s, value a → state s → (k a s).Obeys value' jump error state) :
    (o.onValue k).Obeys value' jump error state := by
  cases o with
  | done flow s =>
    cases flow with
    | value a => exact hk a s h.1 h.2
    | jump label => exact h
  | failed e s => exact h
  | outOfFuel => trivial

theorem Obeys.mapState {state' : τ → Prop} {o : Outcome σ (Flow α)} {f : σ → τ}
    (h : o.Obeys value jump error state) (hf : ∀ s, state s → state' (f s)) :
    (o.mapState f).Obeys value jump error state' := by
  cases o with
  | done flow s =>
    cases flow with
    | value a => exact ⟨h.1, hf s h.2⟩
    | jump label => exact ⟨h.1, hf s h.2⟩
  | failed e s => exact ⟨h.1, hf s h.2⟩
  | outOfFuel => trivial

theorem Obeys.mapError {o : Outcome σ (Flow α)} {f : Error → Error}
    (h : o.Obeys value jump error state) (hf : ∀ e, error e → error (f e)) :
    (o.mapError f).Obeys value jump error state := by
  cases o with
  | done flow s => exact h
  | failed e s => exact ⟨hf e h.1, h.2⟩
  | outOfFuel => trivial

theorem Obeys.imp {value' : α → Prop} {jump' : Name → Prop} {error' : Error → Prop}
    {state' : σ → Prop} {o : Outcome σ (Flow α)} (h : o.Obeys value jump error state)
    (hv : ∀ a, value a → value' a) (hj : ∀ l, jump l → jump' l) (he : ∀ e, error e → error' e)
    (hs : ∀ s, state s → state' s) : o.Obeys value' jump' error' state' := by
  cases o with
  | done flow s =>
    cases flow with
    | value a => exact ⟨hv a h.1, hs s h.2⟩
    | jump label => exact ⟨hj label h.1, hs s h.2⟩
  | failed e s => exact ⟨he e h.1, hs s h.2⟩
  | outOfFuel => trivial

def state? : Outcome σ α → Option σ
  | done _ s => some s
  | failed _ s => some s
  | outOfFuel => none

theorem state?_mapState (o : Outcome σ α) (f : σ → τ) :
    (o.mapState f).state? = o.state?.map f := by
  cases o <;> rfl

theorem Obeys.of_state? {o : Outcome σ (Flow α)} {s : σ} (h : o.Obeys value jump error state)
    (hs : o.state? = some s) : state s := by
  cases o with
  | done flow t =>
    cases hs
    cases flow with
    | value a => exact h.2
    | jump label => exact h.2
  | failed e t =>
    cases hs
    exact h.2
  | outOfFuel => cases hs

def Leaves (state : σ → Prop) (o : Outcome σ (Flow α)) : Prop :=
  o.Obeys (fun _ => True) (fun _ => True) (fun _ => True) state

theorem Leaves.imp {state' : σ → Prop} {o : Outcome σ (Flow α)} (h : o.Leaves state)
    (hs : ∀ s, state s → state' s) : o.Leaves state' :=
  Obeys.imp h (fun _ h => h) (fun _ h => h) (fun _ h => h) hs

theorem Leaves.onValue {o : Outcome σ (Flow α)} {k : α → σ → Outcome σ (Flow β)}
    (h : o.Leaves state) (hk : ∀ a s, state s → (k a s).Leaves state) :
    (o.onValue k).Leaves state :=
  Obeys.onValue h fun a s _ hs => hk a s hs

theorem Leaves.mapState {state' : τ → Prop} {o : Outcome σ (Flow α)} {f : σ → τ}
    (h : o.Leaves state) (hf : ∀ s, state s → state' (f s)) : (o.mapState f).Leaves state' :=
  Obeys.mapState h hf

theorem Leaves.mapError {o : Outcome σ (Flow α)} (h : o.Leaves state) (f : Error → Error) :
    (o.mapError f).Leaves state :=
  Obeys.mapError h fun _ _ => trivial

end Outcome

section Parts

variable {σ : Type} {runner : Runner σ} {value : Value → Prop} {jump : Name → Prop}
  {error : Error → Prop} {state : σ → Prop}

/-- What each child of a block keeps, the block keeps; the jumps that leave it are those
out of a child to labels that the block does not have. -/
theorem runBlock_obeys {children : List Code} {outer : Name → Prop}
    (hchildren : ∀ child ∈ children, ∀ s, state s →
      (runner child s).Obeys value jump error state)
    (hpass : ∀ label, jump label → Block.position? children label = none → outer label)
    (fuel : Nat) {rest : List Code} (hrest : ∀ child ∈ rest, child ∈ children) {last : Value}
    (hlast : value last) {s : σ} (hs : state s) :
    (runBlock runner children fuel rest last s).Obeys value outer error state := by
  induction fuel generalizing rest last s with
  | zero => trivial
  | succ fuel ih =>
    cases rest with
    | nil => exact ⟨hlast, hs⟩
    | cons child rest =>
      have hchild := hchildren child (hrest child (by simp)) s hs
      have htail : ∀ n ∈ rest, n ∈ children := fun n hn => hrest n (by simp [hn])
      simp only [runBlock]
      split
      · next v s' ho =>
        rw [ho] at hchild
        exact ih htail hchild.1 hchild.2
      · next label s' ho =>
        rw [ho] at hchild
        obtain ⟨hjump, hs'⟩ := hchild
        split
        · exact ih (fun n hn => List.mem_of_mem_drop hn) hlast hs'
        · next hposition => exact ⟨hpass label hjump hposition, hs'⟩
      · next e s' ho =>
        rw [ho] at hchild
        exact hchild
      · trivial

theorem runArgs_obeys {args : List Code}
    (hargs : ∀ arg ∈ args, ∀ s, state s → (runner arg s).Obeys value jump error state)
    {taken : List Value} (htaken : ∀ v ∈ taken, value v) {s : σ} (hs : state s) :
    (runArgs runner args taken s).Obeys (fun vs => ∀ v ∈ vs, value v) jump error state := by
  induction args generalizing taken s with
  | nil => exact ⟨by simpa using htaken, hs⟩
  | cons arg args ih =>
    refine (hargs arg (by simp) s hs).onValue ?_
    intro v s' hv hs'
    refine ih (fun n hn => hargs n (by simp [hn])) ?_ hs'
    intro u hu
    rcases List.mem_cons.1 hu with rfl | hu
    · exact hv
    · exact htaken u hu

/-- A predicate on states that each child of a block keeps is kept by the block. -/
theorem runBlock_leaves {children : List Code}
    (hchildren : ∀ child ∈ children, ∀ s, state s → (runner child s).Leaves state)
    (fuel : Nat) (last : Value) {s : σ} (hs : state s) :
    (runBlock runner children fuel children last s).Leaves state :=
  runBlock_obeys hchildren (fun _ _ _ => trivial) fuel (fun _ h => h) trivial hs

theorem runArgs_leaves {args : List Code}
    (hargs : ∀ arg ∈ args, ∀ s, state s → (runner arg s).Leaves state) {s : σ}
    (hs : state s) : (runArgs runner args [] s).Leaves state := by
  have hnone : ∀ v ∈ ([] : List Value), True := fun _ _ => trivial
  exact (runArgs_obeys hargs hnone hs).imp (fun _ _ => trivial) (fun _ h => h) (fun _ h => h)
    (fun _ h => h)

end Parts

/-- What running keeps. Code is looked at with the labels that blocks around it declare
in the same body, and a jump out of code with the labels around that code. -/
structure Invariant (host : Host η) where
  env : Environment → Prop
  world : World η → Prop
  value : Value → Prop
  /-- Cells that may be stored into. -/
  cell : CellId → Prop
  code : List Name → Code → Prop
  jump : List Name → Name → Prop := fun _ _ => True
  error : Error → Prop := fun _ => True
  absent : value .absent
  part {labels : List Name} {n p : Code} :
    code labels n → Code.Part p n → code (n.scope labels) p
  const {labels : List Name} {v : Value} : code labels (.const v) → value v
  body {id : Nat} {name : Name} {params : List Name} {b : Code} :
    value (.function id name params b) → code [] b
  read {e : Environment} {w : World η} {name : Name} {v : Value} :
    env e → world w → e.lookup? w.cells name = some v → value v
  bind {e : Environment} {v : Value} (name : Name) : env e → value v → env (e.bindValue name v)
  define {labels : List Name} {name : Name} {c : Config η} : code labels (.define name) →
    env c.env → world c.world → env (c.define name).env ∧ world (c.define name).world
  target {labels : List Name} {name : Name} {n : Code} {e : Environment} {cell' : CellId} :
    code labels (.assign name n) → env e → e.slot? name = some (.cell cell') → cell cell'
  store {c : Config η} {cell' : CellId} {v : Value} :
    world c.world → cell cell' → value v → world (c.store cell' v).world
  native {f : Native} {args : List Value} {w w' : World η} {r : Except Error Value} :
    value (.native f) → (∀ a ∈ args, value a) → world w → host.apply f args w = (r, w') →
      world w' ∧ (∀ v, r = .ok v → value v) ∧ ∀ e, r = .error e → error e
  goto {labels : List Name} {label : Name} :
    code labels (.goto label) → jump labels label := by intros; trivial
  /-- A jump that a block does not take up goes on to the labels around the block. -/
  pass {labels : List Name} {children : List Code} {label : Name} :
    jump (labels ++ Block.labels children) label → Block.position? children label = none →
      jump labels label := by intros; trivial
  /-- A jump out of a function body goes on at the call. -/
  leave {labels : List Name} {label : Name} :
    jump [] label → jump labels label := by intros; trivial
  unbound {labels : List Name} {name : Name} :
    code labels (.var name) → error (.unboundVariable name) := by intros; trivial
  unassignable {labels : List Name} {name : Name} {n : Code} : code labels (.assign name n) →
    error (.unboundVariable name) ∧ error (.invalidAssignment name) := by
      intros; exact ⟨trivial, trivial⟩
  arity {id : Nat} {name : Name} {params : List Name} {b : Code} {count : Nat} :
    value (.function id name params b) → count ≠ params.length →
      error (.arityMismatch name params.length count) := by intros; trivial
  uncallable {v : Value} : value v → ¬ v.IsFunction → (∀ f, v ≠ .native f) →
    error (.notCallable v.typeName) := by intros; trivial
  note {e : Error} (note : String) : error e → error (e.withNote note) := by intros; trivial

namespace Invariant

variable {host : Host η} (I : Invariant host)

def Holds (c : Config η) : Prop := I.env c.env ∧ I.world c.world

/-- What the invariant says of how a run from code under `labels` ends. -/
def Ends {σ : Type} (labels : List Name) (state : σ → Prop) (o : Outcome σ (Flow Value)) : Prop :=
  o.Obeys I.value (I.jump labels) I.error state

def KeptBy (runner : Runner (Config η)) : Prop :=
  ∀ {labels : List Name} {n : Code} {c : Config η}, I.code labels n → I.Holds c →
    I.Ends labels I.Holds (runner n c)

variable {I} {runner : Runner (Config η)}

theorem bindAll {e : Environment} (he : I.env e) (params : List Name) {args : List Value}
    (hargs : ∀ a ∈ args, I.value a) : I.env (e.bindAll params args) := by
  induction params generalizing e args with
  | nil => exact he
  | cons name params ih =>
    cases args with
    | nil => exact he
    | cons v args =>
      have hv : I.value v := hargs v (by simp)
      have hrest : ∀ a ∈ args, I.value a := fun a ha => hargs a (by simp [ha])
      exact ih (I.bind name he hv) hrest

theorem runBlock_ends (hr : I.KeptBy runner) {labels : List Name} {children : List Code}
    (hcode : I.code labels (.block children)) (fuel : Nat) {c : Config η} (hc : I.Holds c) :
    I.Ends labels I.Holds (runBlock runner children fuel children .absent c) := by
  have hchildren : ∀ child ∈ children, ∀ c, I.Holds c →
      I.Ends (labels ++ Block.labels children) I.Holds (runner child c) :=
    fun child hchild c hc => hr (I.part hcode (.child hchild)) hc
  refine runBlock_obeys hchildren ?_ fuel (fun _ h => h) I.absent hc
  intro label hjump hposition
  exact I.pass hjump hposition

theorem runArgs_ends (hr : I.KeptBy runner) {labels : List Name} {args : List Code}
    (hcode : ∀ arg ∈ args, I.code labels arg) {c : Config η} (hc : I.Holds c) :
    (runArgs runner args [] c).Obeys (fun vs => ∀ v ∈ vs, I.value v) (I.jump labels) I.error
      I.Holds :=
  runArgs_obeys (fun arg harg _ hc => hr (hcode arg harg) hc) (by simp) hc

/-- A call keeps the invariant of the world. A jump that leaves it is one that may
leave a function body. -/
theorem callValue_ends (hr : I.KeptBy runner) {e : Environment} (he : I.env e) {f : Value}
    (hf : I.value f) {args : List Value} (hargs : ∀ a ∈ args, I.value a) {w : World η}
    (hw : I.world w) : I.Ends [] I.world (callValue host runner e f args w) := by
  cases f with
  | native f =>
    simp only [callValue]
    split
    · next v w' happly =>
      obtain ⟨hw', hvalue, herror⟩ := I.native hf hargs hw happly
      exact ⟨hvalue v rfl, hw'⟩
    · next e w' happly =>
      obtain ⟨hw', hvalue, herror⟩ := I.native hf hargs hw happly
      exact ⟨herror e rfl, hw'⟩
  | function id name params body =>
    simp only [callValue]
    split
    · have hstart : I.Holds ⟨e.bindAll params args, w⟩ := ⟨bindAll he params hargs, hw⟩
      have hbody := hr (I.body hf) hstart
      exact (hbody.mapState fun c hc => hc.2).mapError fun e he => I.note _ he
    · next hne => exact ⟨I.arity hf hne, hw⟩
  | absent => exact ⟨I.uncallable hf (fun h => h) (fun f h => by cases h), hw⟩
  | bool b => exact ⟨I.uncallable hf (fun h => h) (fun f h => by cases h), hw⟩
  | number x => exact ⟨I.uncallable hf (fun h => h) (fun f h => by cases h), hw⟩
  | text s => exact ⟨I.uncallable hf (fun h => h) (fun f h => by cases h), hw⟩

theorem step_keeps (hr : I.KeptBy runner) (fuel : Nat) : I.KeptBy (step host runner fuel) := by
  intro labels n c hn hc
  cases n with
  | const v => exact ⟨I.const hn, hc⟩
  | var name =>
    simp only [step, Config.get, Environment.get]
    cases hlookup : c.env.lookup? c.world.cells name with
    | some v => exact ⟨I.read hc.1 hc.2 hlookup, hc⟩
    | none => exact ⟨I.unbound hn, hc⟩
  | define name => exact ⟨I.absent, I.define hn hc.1 hc.2⟩
  | assign name expr =>
    simp only [step]
    split
    · exact ⟨(I.unassignable hn).1, hc⟩
    · exact ⟨(I.unassignable hn).2, hc⟩
    · next cell hslot =>
      refine (hr (I.part hn (.expr name expr)) hc).onValue ?_
      intro v c' hv hc'
      exact ⟨hv, hc'.1, I.store hc'.2 (I.target hn hc.1 hslot) hv⟩
  | label name => exact ⟨I.absent, hc⟩
  | goto label => exact ⟨I.goto hn, hc⟩
  | block children => exact runBlock_ends hr hn fuel hc
  | when test body =>
    refine (hr (I.part hn (.whenTest test body)) hc).onValue ?_
    intro v c' hv hc'
    split
    · exact hr (I.part hn (.whenBody test body)) hc'
    · exact ⟨I.absent, hc'⟩
  | choose test yes no =>
    refine (hr (I.part hn (.test test yes no)) hc).onValue ?_
    intro v c' hv hc'
    split
    · exact hr (I.part hn (.yes test yes no)) hc'
    · exact hr (I.part hn (.no test yes no)) hc'
  | call callee args =>
    refine (hr (I.part hn (.callee callee args)) hc).onValue ?_
    intro f c' hf hc'
    have hargs : ∀ arg ∈ args, I.code labels arg := fun arg h => I.part hn (.arg callee h)
    refine (runArgs_ends hr hargs hc').onValue ?_
    intro vs c'' hvs hc''
    have hcall : I.Ends [] I.Holds
        ((callValue host runner c''.env f vs c''.world).mapState (Config.mk c''.env)) :=
      (callValue_ends hr hc''.1 hf hvs hc''.2).mapState fun w hw => ⟨hc''.1, hw⟩
    exact hcall.imp (fun v hv => hv) (fun label hlabel => I.leave hlabel) (fun e he => he)
      (fun s hs => hs)
  | definition name params body => exact ⟨I.absent, hc⟩

/-- Every run keeps the invariant, however it ends. -/
theorem run_keeps (I : Invariant host) (fuel : Nat) : I.KeptBy (run host fuel) := by
  induction fuel with
  | zero =>
    intro labels n c hn hc
    trivial
  | succ fuel ih => exact step_keeps ih fuel

end Invariant

end Treewalk
