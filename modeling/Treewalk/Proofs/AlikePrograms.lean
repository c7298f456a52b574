import Treewalk.Proofs.Alike
import Treewalk.Proofs.Compilation
import Treewalk.Proofs.Trees

/-!
Programs whose code is alike. Trees with the same tag and attributes compile alike
if their children do, and what is inside compiled code comes from the children or
from the values that calls by name have. Main statement: programs whose forms
compile alike, to code that passes the test of the exchange, end alike.
-/
namespace Treewalk

variable {η : Type}

namespace SameAnswer

variable {α β α' β' : Type} {value : α → β → Prop} {value' : α' → β' → Prop}

theorem same (x : Except Error α) : SameAnswer Eq x x := by
  cases x with
  | ok a => exact .ok rfl
  | error e => exact .error e

theorem bind {x : Except Error α} {y : Except Error β} {f : α → Except Error α'}
    {g : β → Except Error β'} (h : SameAnswer value x y)
    (hfg : ∀ a b, value a b → SameAnswer value' (f a) (g b)) :
    SameAnswer value' (x >>= f) (y >>= g) := by
  cases h with
  | ok h => exact hfg _ _ h
  | error e => exact .error e

/-- The same computation goes first on both sides. -/
theorem bind_same (x : Except Error α) {f : α → Except Error α'} {g : α → Except Error β'}
    (hfg : ∀ a, SameAnswer value' (f a) (g a)) : SameAnswer value' (x >>= f) (x >>= g) := by
  refine (same x).bind ?_
  rintro a _ rfl
  exact hfg a

end SameAnswer

section Compiling

variable {swap : Code → Code → Prop} {scope scope' : Scope}

theorem sequence_alike {parts parts' : List (Except Error Code)}
    (h : List.Forall₂ (SameAnswer (Code.Alike swap)) parts parts') :
    SameAnswer (List.Forall₂ (Code.Alike swap)) (sequence parts) (sequence parts') := by
  induction h with
  | nil => exact .ok .nil
  | cons hpart hparts ih =>
    refine hpart.bind ?_
    intro n m hnm
    refine ih.bind ?_
    intro ns ms hnms
    exact .ok (.cons hnm hnms)

theorem labels_alike (hlabel : ∀ n m, swap n m → n.label? = m.label?) {ns ms : List Code}
    (h : List.Forall₂ (Code.Alike swap) ns ms) : Block.labels ns = Block.labels ms := by
  induction h with
  | nil => rfl
  | cons hnm hnms ih =>
    unfold Block.labels at ih ⊢
    rw [List.filterMap_cons, List.filterMap_cons, hnm.label?_eq hlabel, ih]

theorem make_alike (hlabel : ∀ n m, swap n m → n.label? = m.label?) {ns ms : List Code}
    (h : List.Forall₂ (Code.Alike swap) ns ms) :
    SameAnswer (Code.Alike swap) (Block.make ns) (Block.make ms) := by
  simp only [Block.make, Block.repeatedLabel?, labels_alike hlabel h]
  split
  · exact .error _
  · exact .ok (.paired (.block h))

/-- Trees with the same tag and attributes are put together alike from parts that are
alike. The policy matters for unknown tags only. -/
theorem assemble_alike (hlabel : ∀ n m, swap n m → n.label? = m.label?) {tag : String}
    {attributes : Attributes}
    (hpolicy : Tag.ofSpelling? tag = none → scope.policy = scope'.policy)
    (htarget : ∀ name, (scope.target name).Alike swap (scope'.target name))
    {parts parts' : List (Except Error Code)}
    (hparts : List.Forall₂ (SameAnswer (Code.Alike swap)) parts parts') :
    SameAnswer (Code.Alike swap) (assemble scope tag attributes parts)
      (assemble scope' tag attributes parts') := by
  cases htag : Tag.ofSpelling? tag with
  | none =>
    simp only [assemble, htag, ← hpolicy htag]
    cases scope.policy with
    | reject => exact .error _
    | ignore => exact .ok (Code.Alike.refl swap _)
  | some form =>
    simp only [assemble, htag, ← hparts.length_eq]
    cases form with
    | block => exact (sequence_alike hparts).bind fun ns ms h => make_alike hlabel h
    | read | declare | label | goto | text =>
      exact .bind_same _ fun name => .ok (Code.Alike.refl swap _)
    | number =>
      exact .bind_same _ fun raw => .bind_same _ fun x => .ok (Code.Alike.refl swap _)
    | store =>
      refine .bind_same _ fun name => ?_
      rcases hparts with _ | ⟨hexpr, _ | ⟨hnext, hrest⟩⟩
      · exact .error _
      · exact hexpr.bind fun n m h => .ok (.paired (.assign name h))
      · exact .error _
    | branch =>
      rcases hparts with _ | ⟨htest, _ | ⟨hyes, _ | ⟨hno, _ | ⟨hnext, hrest⟩⟩⟩⟩
      · exact .error _
      · exact .error _
      · exact htest.bind fun _ _ h => hyes.bind fun _ _ h' => .ok (.paired (.when h h'))
      · exact htest.bind fun _ _ h => hyes.bind fun _ _ h' => hno.bind fun _ _ h'' =>
          .ok (.paired (.choose h h' h''))
      · exact .error _
    | function =>
      refine .bind_same _ fun name => ?_
      rcases hparts with _ | ⟨hbody, _ | ⟨hnext, hrest⟩⟩
      · exact .error _
      · exact hbody.bind fun n m h => .ok (.paired (.definition name _ h))
      · exact .error _
    | call =>
      cases attributes.get? "fun" with
      | some name =>
        refine (sequence_alike hparts).bind fun ns ms h => ?_
        exact .ok (.paired (.call (.paired (.const (htarget name))) h))
      | none =>
        cases hparts with
        | nil => exact .error _
        | cons hcallee hargs =>
          exact hcallee.bind fun _ _ h => (sequence_alike hargs).bind fun _ _ h' =>
            .ok (.paired (.call h h'))

end Compiling

/-- What is inside compiled code is the code of a child, or a value called by name. -/
theorem inside_of_compile {scope : Scope} {tree : Tree} {m n : Code}
    (h : compile scope tree = .ok n) (hm : Code.Inside m n) :
    (∃ child ∈ tree.children, compile scope child = .ok m) ∨
      ∃ name, m = .const (scope.target name) := by
  cases compiled_of_compile h with
  | ignored | number | text | read | declare | label | goto =>
    cases hm with
    | part hpart => cases hpart
  | block hform hcodes hlabels =>
    cases hm with
    | part hpart =>
      cases hpart with
      | child hmem => exact .inl (exists_of_mem_compiled hcodes hmem)
  | store hform hname hchildren hexpr =>
    cases hm with
    | part hpart =>
      cases hpart with
      | expr => exact .inl ⟨_, by simp [hchildren], hexpr⟩
  | when hform hchildren htest hbody =>
    cases hm with
    | part hpart =>
      cases hpart with
      | whenTest => exact .inl ⟨_, by simp [hchildren], htest⟩
      | whenBody => exact .inl ⟨_, by simp [hchildren], hbody⟩
  | choose hform hchildren htest hyes hno =>
    cases hm with
    | part hpart =>
      cases hpart with
      | test => exact .inl ⟨_, by simp [hchildren], htest⟩
      | yes => exact .inl ⟨_, by simp [hchildren], hyes⟩
      | no => exact .inl ⟨_, by simp [hchildren], hno⟩
  | function hform hname hchildren hbody =>
    cases hm with
    | part hpart => cases hpart
    | defined => exact .inl ⟨_, by simp [hchildren], hbody⟩
  | callName hform hfun hargs =>
    cases hm with
    | part hpart =>
      cases hpart with
      | callee => exact .inr ⟨_, rfl⟩
      | arg _ hmem => exact .inl (exists_of_mem_compiled hargs hmem)
  | call hform hfun hchildren hcallee hargs =>
    cases hm with
    | part hpart =>
      cases hpart with
      | callee => exact .inl ⟨_, by simp [hchildren], hcallee⟩
      | arg _ hmem =>
        obtain ⟨child, hchild, hcode⟩ := exists_of_mem_compiled hargs hmem
        exact .inl ⟨child, by simp [hchildren, hchild], hcode⟩

/-- Code passes a test throughout if each node of its tree sees to it, and if the values
called by name do. -/
theorem throughout_of_compile {fit : Code → Prop} {scope : Scope} {p : Tree → Bool}
    (hfit : ∀ tree n, p tree → compile scope tree = .ok n → fit n)
    (htarget : ∀ name, (Code.const (scope.target name)).Throughout fit) {tree : Tree}
    (htree : tree.everywhere p) {n : Code} (h : compile scope tree = .ok n) :
    n.Throughout fit := by
  induction tree using Tree.induction generalizing n with
  | h tree ih =>
    obtain ⟨hself, hchildren⟩ := Tree.everywhere_iff.1 htree
    refine .all (hfit tree n hself h) ?_
    intro m hm
    rcases inside_of_compile h hm with ⟨child, hmem, hcode⟩ | ⟨name, rfl⟩
    · exact ih child hmem (hchildren child hmem) hcode
    · exact htarget name

namespace Interpreter

structure Rel (value : Value → Value → Prop) (state : η → η → Prop) (it it' : Interpreter η) :
    Prop where
  globals : it.globals.Rel value it'.globals
  world : it.world.Rel value state it'.world
  nextId : it.nextId = it'.nextId

theorem EndAlike.imp {host : Host η} {value value' : Value → Value → Prop}
    {state state' : Interpreter η → Interpreter η → Prop} {root root' : Tree}
    {it it' : Interpreter η} (h : EndAlike host value state root it root' it')
    (hvalue : ∀ v w, value v w → value' v w) (hstate : ∀ s s', state s s' → state' s s') :
    EndAlike host value' state' root it root' it' where
  forth o ho := by
    obtain ⟨o', ho', hfollowed⟩ := h.forth o ho
    exact ⟨o', ho', hfollowed.imp hvalue hstate⟩
  back o' ho' := by
    obtain ⟨o, ho, hfollowed⟩ := h.back o' ho'
    exact ⟨o, ho, hfollowed.imp hvalue hstate⟩

end Interpreter

namespace Exchange

variable {X : Exchange} {host : Host η} {state : η → η → Prop} {inPlay : CellId → Prop}
  {lag : Nat} {hhost : host.RespectsOver X.value (Value.Alike X.swap) state}
  {hsettles : X.Settles state inPlay host lag} {policy policy' : Policy}

/-- Names that are called stand for values that are alike. -/
theorem target_alike {it it' : Interpreter η}
    (h : (X.correspondence hhost hsettles).Aligned policy policy' it it') (name : Name) :
    X.value (it.scope.target name) (it'.scope.target name) := by
  have hread := h.globals.read h.world name
  simp only [Interpreter.scope, Interpreter.lookup?]
  generalize it.globals.lookup? it.world.cells name = r at hread
  generalize it'.globals.lookup? it'.world.cells name = r' at hread
  cases hread with
  | some hv => exact hv
  | none => exact value_of_not_isFunction fun h => h

/-- Code that is alike can stand as a form in the two programs. -/
theorem formPair {n m : Code} (h : X.code n m) :
    (X.correspondence hhost hsettles).FormPair n m := by
  rcases code_cases h with hswap | hpaired
  · have hother := X.other n m hswap
    exact .other (fun name params b => (hother name params b).1)
      (fun name params b => (hother name params b).2) h
  · cases hpaired with
    | @definition name params body body' hbody =>
      refine .definition fun id e e' he => ?_
      obtain ⟨hfit, hinstall⟩ := X.install id h.2.self
      have hsound : X.Sound (.function id name params body) :=
        Code.throughout_function hfit hbody.2
      exact ⟨he.rel.bind name (.plain (.function id name params hbody.1)),
        he.carries.bindValue name hsound, hinstall _ _ he.env⟩
    | _ => exact .other (fun _ _ _ heq => by cases heq) (fun _ _ _ heq => by cases heq) h

/-- Trees are accepted if they compile alike, to code that passes the test. -/
theorem accepts {tree tree' : Tree}
    (halike : ∀ it it', (X.correspondence hhost hsettles).Aligned policy policy' it it' →
      SameAnswer (Code.Alike X.swap) (compile it.scope tree) (compile it'.scope tree'))
    (hfit : ∀ it it' n, (X.correspondence hhost hsettles).Aligned policy policy' it it' →
      compile it.scope tree = .ok n → n.Throughout X.fit)
    (htag : tree.tag = tree'.tag ∨ ∀ it fuel e it₁, it.policy = policy →
      Interpreter.runTree (run host fuel) tree it ≠ .failed e it₁) :
    (X.correspondence hhost hsettles).Accepts policy policy' tree tree' where
  compile hit := by
    have hanswer := halike _ _ hit
    have hthroughout := fun n => hfit _ _ n hit
    generalize Treewalk.compile _ tree = x at hanswer hthroughout
    generalize Treewalk.compile _ tree' = y at hanswer
    cases hanswer with
    | ok h => exact .ok (formPair ⟨h, hthroughout _ rfl⟩)
    | error e => exact .error e
  tag hit hfailed _ := by
    rcases htag with htag | hnever
    · exact htag
    · exact absurd hfailed (hnever _ _ _ _ hit.left)

/-- A program and the program with each form changed end alike on the same interpreter, but
for its policy, if each form and what it is changed to are accepted. -/
theorem endAlike {root : Tree} {change : Tree → Tree}
    (hforms : ∀ form ∈ root.children,
      (X.correspondence hhost hsettles).Accepts policy policy' form (change form))
    {it : Interpreter η} (hcarries : it.globals.Carries X.Sound inPlay)
    (hcarry : it.world.cells.Carry X.Sound inPlay) (henv : X.env it.globals)
    (hstate : state it.world.host it.world.host) :
    Interpreter.EndAlike host (Value.Alike X.swap) (Interpreter.Rel (Value.Alike X.swap) state)
      root { it with policy := policy }
      { root with children := root.children.map change } { it with policy := policy' } := by
  have hsame := Value.Alike.refl X.swap
  have hglobals : X.Environments inPlay it.globals it.globals :=
    ⟨.refl hsame it.globals, hcarries, henv⟩
  have hworld : X.Worlds state inPlay it.world it.world :=
    ⟨⟨.refl hsame it.world.cells, rfl, hstate⟩, hcarry⟩
  have hstart : (X.correspondence hhost hsettles).Aligned policy policy'
      { it with policy := policy } { it with policy := policy' } :=
    ⟨hglobals, hworld, rfl, rfl, rfl⟩
  have hpairs : List.Forall₂ ((X.correspondence hhost hsettles).Accepts policy policy')
      root.children (root.children.map change) := by
    rw [List.forall₂_map_right_iff, List.forall₂_same]
    exact hforms
  refine (Correspondence.endAlike hpairs hstart).imp (fun v w h => h.1) ?_
  exact fun s s' h => ⟨h.globals.rel, h.world.rel, h.nextId⟩

end Exchange

end Treewalk
