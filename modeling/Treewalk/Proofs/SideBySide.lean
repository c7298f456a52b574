import Treewalk.Proofs.Correspondence
import Treewalk.Proofs.Endings

/-!
Two programs side by side. If the forms of two programs compile alike, form by
form, to code that corresponds, then the programs end alike on interpreters that
correspond: with related values or the same error and notes, in related states.
-/
namespace Treewalk

variable {η : Type}

namespace Interpreter

/-- If one of the programs ends then so does the other, with related results or the same
error, and in related states. -/
structure EndAlike (host : Host η) (value : Value → Value → Prop)
    (state : Interpreter η → Interpreter η → Prop) (root : Tree) (it : Interpreter η)
    (root' : Tree) (it' : Interpreter η) : Prop where
  forth : ∀ o, it.EndsWith host root o →
    ∃ o', it'.EndsWith host root' o' ∧ o.FollowedBy value state o'
  back : ∀ o', it'.EndsWith host root' o' →
    ∃ o, it.EndsWith host root o ∧ o.FollowedBy value state o'

theorem EndAlike.related {host : Host η} {value : Value → Value → Prop}
    {state : Interpreter η → Interpreter η → Prop} {root root' : Tree}
    {it it' it₁ it₁' : Interpreter η} (h : EndAlike host value state root it root' it')
    {v w : Value} (hv : it.EndsWith host root (.done v it₁))
    (hw : it'.EndsWith host root' (.done w it₁')) : value v w := by
  obtain ⟨o', ho', hfollowed⟩ := h.forth _ hv
  cases ho'.unique hw
  cases hfollowed with
  | done hvalue _ => exact hvalue

/-- A form that does not define a function is run. -/
theorem runForm_eq {runner : Runner (Config η)} {id : Nat} {code : Code}
    (h : ∀ name params b, code ≠ .definition name params b) (it : Interpreter η) :
    runForm runner ⟨id, code⟩ it =
      match settle ((runner code it.config).mapState it.withConfig) with
      | .done v it => .done (some v) it
      | .failed e it => .failed e it
      | .outOfFuel => .outOfFuel := by
  unfold runForm
  split
  · next name params b heq => exact absurd heq (h name params b)
  · rfl

end Interpreter

theorem Outcome.FollowedBy.flip {σ τ α β : Type} {value : α → β → Prop} {state : σ → τ → Prop}
    {o : Outcome σ α} {o' : Outcome τ β} (h : o.FollowedBy value state o')
    (hne : o ≠ .outOfFuel) : o'.FollowedBy (fun b a => value a b) (fun t s => state s t) o := by
  cases h with
  | done h hs => exact .done h hs
  | failed e hs => exact .failed e hs
  | outOfFuel o' => exact absurd rfl hne

namespace Correspondence

variable {host : Host η} (R : Correspondence host) {policy policy' : Policy}

structure Aligned (policy policy' : Policy) (it it' : Interpreter η) : Prop where
  globals : R.env it.globals it'.globals
  world : R.world it.world it'.world
  nextId : it.nextId = it'.nextId
  left : it.policy = policy
  right : it'.policy = policy'

/-- Code that can stand as a form in the two programs: a definition that keeps globals
related when it is installed, or related code. -/
inductive FormPair : Code → Code → Prop
  | definition {name : Name} {params : List Name} {b b' : Code}
      (h : ∀ (id : Nat) (e e' : Environment), R.env e e' →
        R.env (e.bindValue name (.function id name params b))
          (e'.bindValue name (.function id name params b'))) :
      FormPair (.definition name params b) (.definition name params b')
  | other {n m : Code} (hn : ∀ name params b, n ≠ .definition name params b)
      (hm : ∀ name params b, m ≠ .definition name params b) (h : R.code n m) : FormPair n m

/-- Trees that compile alike on interpreters that are aligned, and have the same tag if
running them fails. -/
structure Accepts (policy policy' : Policy) (tree tree' : Tree) : Prop where
  compile {it it' : Interpreter η} : R.Aligned policy policy' it it' →
    SameAnswer R.FormPair (compile it.scope tree) (compile it'.scope tree')
  tag {it it' it₁ it₁' : Interpreter η} {fuel fuel' : Nat} {e : Error} :
    R.Aligned policy policy' it it' →
    Interpreter.runTree (run host fuel) tree it = .failed e it₁ →
    Interpreter.runTree (run host fuel') tree' it' = .failed e it₁' → tree.tag = tree'.tag

variable {R}

theorem FormPair.flip {n m : Code} (h : R.FormPair n m) : R.flip.FormPair m n := by
  cases h with
  | definition h => exact .definition fun id e e' he => h id e' e he
  | other hn hm h => exact .other hm hn h

theorem Aligned.flip {it it' : Interpreter η} (h : R.Aligned policy policy' it it') :
    R.flip.Aligned policy' policy it' it :=
  ⟨h.globals, h.world, h.nextId.symm, h.right, h.left⟩

theorem Aligned.unflip {it it' : Interpreter η} (h : R.flip.Aligned policy' policy it' it) :
    R.Aligned policy policy' it it' :=
  ⟨h.globals, h.world, h.nextId.symm, h.right, h.left⟩

theorem Accepts.flip {tree tree' : Tree} (h : R.Accepts policy policy' tree tree') :
    R.flip.Accepts policy' policy tree' tree where
  compile hit := by
    have hanswer := h.compile hit.unflip
    generalize Treewalk.compile _ tree = x at hanswer ⊢
    generalize Treewalk.compile _ tree' = y at hanswer ⊢
    cases hanswer with
    | ok h => exact .ok h.flip
    | error e => exact .error e
  tag hit hfailed hfailed' := (h.tag hit.unflip hfailed' hfailed).symm

theorem settle_ends {it it' : Interpreter η} (hit : R.Aligned policy policy' it it')
    {o o' : Outcome (Config η) (Flow Value)} (h : R.Ends R.Holds o o') :
    (Interpreter.settle (o.mapState it.withConfig)).FollowedBy R.value
      (R.Aligned policy policy') (Interpreter.settle (o'.mapState it'.withConfig)) := by
  have hwith : ∀ c c', R.Holds c c' →
      R.Aligned policy policy' (it.withConfig c) (it'.withConfig c') :=
    fun c c' hc => ⟨hc.1, hc.2, hit.nextId, hit.left, hit.right⟩
  cases h with
  | done hflow hc =>
    cases hflow with
    | value hv => exact .done hv (hwith _ _ hc)
    | jump label => exact .failed _ (hwith _ _ hc)
  | failed e hc => exact .failed e (hwith _ _ hc)
  | outOfFuel o' => exact .outOfFuel _

theorem runForm_ends (fuel : Nat) {n m : Code} (hcode : R.FormPair n m) (id : Nat)
    {it it' : Interpreter η} (hit : R.Aligned policy policy' it it') :
    (Interpreter.runForm (run host fuel) ⟨id, n⟩ it).FollowedBy (Option.Rel R.value)
      (R.Aligned policy policy')
      (Interpreter.runForm (run host (fuel + R.lag)) ⟨id, m⟩ it') := by
  cases hcode with
  | definition h =>
    exact .done .none ⟨h id _ _ hit.globals, hit.world, hit.nextId, hit.left, hit.right⟩
  | other hn hm hcode =>
    have hholds : R.Holds it.config it'.config := ⟨hit.globals, hit.world⟩
    have hruns := settle_ends hit (R.run_ends fuel hcode hholds)
    rw [Interpreter.runForm_eq hn, Interpreter.runForm_eq hm]
    generalize Interpreter.settle ((run host fuel n it.config).mapState it.withConfig) = o at hruns
    generalize Interpreter.settle
      ((run host (fuel + R.lag) m it'.config).mapState it'.withConfig) = o' at hruns
    cases hruns with
    | done hv hs => exact .done (.some hv) hs
    | failed e hs => exact .failed e hs
    | outOfFuel o' => exact .outOfFuel _

theorem runTree_ends (fuel : Nat) {tree tree' : Tree}
    (htree : R.Accepts policy policy' tree tree') {it it' : Interpreter η}
    (hit : R.Aligned policy policy' it it') :
    (Interpreter.runTree (run host fuel) tree it).FollowedBy (Option.Rel R.value)
      (R.Aligned policy policy')
      (Interpreter.runTree (run host (fuel + R.lag)) tree' it') := by
  have hanswer := htree.compile hit
  unfold Interpreter.runTree Interpreter.compile
  generalize compile it.scope tree = x at hanswer
  generalize compile it'.scope tree' = y at hanswer
  cases hanswer with
  | error e => exact .failed e hit
  | ok hcode =>
    have hnext : R.Aligned policy policy' { it with nextId := it.nextId + 1 }
        { it' with nextId := it'.nextId + 1 } :=
      ⟨hit.globals, hit.world, congrArg (· + 1) hit.nextId, hit.left, hit.right⟩
    have hform := runForm_ends fuel hcode it.nextId hnext
    simp only [Except.map]
    rwa [← hit.nextId] at hform ⊢

theorem runForms_ends (fuel : Nat) {trees trees' : List Tree}
    (htrees : List.Forall₂ (R.Accepts policy policy') trees trees') (index : Nat)
    {result result' : Value} (hresult : R.value result result') {it it' : Interpreter η}
    (hit : R.Aligned policy policy' it it') :
    (Interpreter.runForms (run host fuel) index trees result it).FollowedBy R.value
      (R.Aligned policy policy')
      (Interpreter.runForms (run host (fuel + R.lag)) index trees' result' it') := by
  induction htrees generalizing index result result' it it' with
  | nil => exact .done hresult hit
  | @cons tree tree' trees trees' htree htrees ih =>
    have hfirst := runTree_ends fuel htree hit
    have htag : ∀ e it₁ it₁', Interpreter.runTree (run host fuel) tree it = .failed e it₁ →
        Interpreter.runTree (run host (fuel + R.lag)) tree' it' = .failed e it₁' →
          tree.tag = tree'.tag := fun e it₁ it₁' => htree.tag hit
    simp only [Interpreter.runForms]
    generalize Interpreter.runTree (run host fuel) tree it = o at hfirst htag
    generalize Interpreter.runTree (run host (fuel + R.lag)) tree' it' = o' at hfirst htag
    cases hfirst with
    | done hv hs =>
      refine ih (index + 1) ?_ hs
      cases hv with
      | some hv => exact hv
      | none => exact hresult
    | failed e hs =>
      dsimp only
      rw [htag e _ _ rfl rfl]
      exact .failed _ hs
    | outOfFuel o' => exact .outOfFuel _

theorem exists_endsWith {root root' : Tree}
    (hforms : List.Forall₂ (R.Accepts policy policy') root.children root'.children)
    {it it' : Interpreter η} (hit : R.Aligned policy policy' it it')
    {o : Outcome (Interpreter η) Value} (h : it.EndsWith host root o) :
    ∃ o', it'.EndsWith host root' o' ∧ o.FollowedBy R.value (R.Aligned policy policy') o' := by
  obtain ⟨hne, fuel, rfl⟩ := h
  have hends := runForms_ends fuel hforms 0 R.absent hit
  exact ⟨_, ⟨hends.ne_outOfFuel hne, fuel + R.lag, rfl⟩, hends⟩

/-- Programs whose forms are accepted pairwise end alike. -/
theorem endAlike {root root' : Tree}
    (hforms : List.Forall₂ (R.Accepts policy policy') root.children root'.children)
    {it it' : Interpreter η} (hit : R.Aligned policy policy' it it') :
    Interpreter.EndAlike host R.value (R.Aligned policy policy') root it root' it' where
  forth o h := exists_endsWith hforms hit h
  back o' h := by
    have hflipped : List.Forall₂ (R.flip.Accepts policy' policy) root'.children root.children :=
      (hforms.imp fun _ _ h => h.flip).flip
    obtain ⟨o, hends, hfollowed⟩ := exists_endsWith hflipped hit.flip h
    exact ⟨o, hends, (hfollowed.flip h.1).imp (fun _ _ h => h) fun _ _ h => h.unflip⟩

end Correspondence

end Treewalk
