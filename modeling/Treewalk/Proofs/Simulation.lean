import Mathlib.Data.List.Forall2
import Treewalk.Proofs.Trace

/-!
Simulations between evaluators. Two evaluators that treat related states alike
end alike from related states, and come by the same points in the same order,
with related states at each. Main statement: this follows for whole traces from
what the evaluators do with code, names and calls.
-/
namespace Treewalk

variable {σ τ σ' τ' α β : Type}

namespace Outcome

inductive Rel (R : σ → τ → Prop) : Outcome σ α → Outcome τ α → Prop
  | done (a : α) {s : σ} {t : τ} (h : R s t) : Rel R (.done a s) (.done a t)
  | failed (e : Error) {s : σ} {t : τ} (h : R s t) : Rel R (.failed e s) (.failed e t)
  | outOfFuel : Rel R .outOfFuel .outOfFuel

variable {R : σ → τ → Prop}

theorem Rel.onValue {o : Outcome σ (Flow α)} {o' : Outcome τ (Flow α)}
    {k : α → σ → Outcome σ (Flow β)} {k' : α → τ → Outcome τ (Flow β)} (h : o.Rel R o')
    (hk : ∀ a s t, R s t → (k a s).Rel R (k' a t)) : (o.onValue k).Rel R (o'.onValue k') := by
  cases h with
  | done flow hst =>
    cases flow with
    | value a => exact hk a _ _ hst
    | jump label => exact .done _ hst
  | failed e hst => exact .failed e hst
  | outOfFuel => exact .outOfFuel

theorem Rel.ofExcept {s : σ} {t : τ} (h : R s t) (r : Except Error α) :
    (Outcome.ofExcept s r).Rel R (Outcome.ofExcept t r) := by
  cases r with
  | error e => exact .failed e h
  | ok a => exact .done a h

theorem Rel.mapError {o : Outcome σ α} {o' : Outcome τ α} (h : o.Rel R o')
    (f : Error → Error) : (o.mapError f).Rel R (o'.mapError f) := by
  cases h with
  | done a hst => exact .done a hst
  | failed e hst => exact .failed (f e) hst
  | outOfFuel => exact .outOfFuel

/-- What is known of the second state may be used to relate what becomes of the two. -/
theorem Rel.mapState {R' : σ' → τ' → Prop} {state : τ → Prop} {o : Outcome σ (Flow α)}
    {o' : Outcome τ (Flow α)} {f : σ → σ'} {g : τ → τ'} (h : o.Rel R o')
    (hleaves : o'.Leaves state) (hfg : ∀ s t, R s t → state t → R' (f s) (g t)) :
    (o.mapState f).Rel R' (o'.mapState g) := by
  cases h with
  | done flow hst =>
    cases flow with
    | value a => exact .done _ (hfg _ _ hst hleaves.2)
    | jump label => exact .done _ (hfg _ _ hst hleaves.2)
  | failed e hst => exact .failed e (hfg _ _ hst hleaves.2)
  | outOfFuel => exact .outOfFuel

theorem Rel.mapBoth {R' : σ' → τ' → Prop} {o : Outcome σ α} {o' : Outcome τ α}
    {f : σ → σ'} {g : τ → τ'} (h : o.Rel R o') (hfg : ∀ s t, R s t → R' (f s) (g t)) :
    (o.mapState f).Rel R' (o'.mapState g) := by
  cases h with
  | done a hst => exact .done a (hfg _ _ hst)
  | failed e hst => exact .failed e (hfg _ _ hst)
  | outOfFuel => exact .outOfFuel

theorem Rel.state? {o : Outcome σ α} {o' : Outcome τ α} (h : o.Rel R o') :
    Option.Rel R o.state? o'.state? := by
  cases h with
  | done a hst => exact .some hst
  | failed e hst => exact .some hst
  | outOfFuel => exact .none

theorem Rel.mapLeft {R' : σ' → τ → Prop} {o : Outcome σ α} {o' : Outcome τ α} {f : σ → σ'}
    (h : o.Rel R o') (hf : ∀ s t, R s t → R' (f s) t) : (o.mapState f).Rel R' o' := by
  cases h with
  | done a hst => exact .done a (hf _ _ hst)
  | failed e hst => exact .failed e (hf _ _ hst)
  | outOfFuel => exact .outOfFuel

theorem mapState_id (o : Outcome σ α) : o.mapState id = o := by
  cases o <;> rfl

theorem Rel.eq {o o' : Outcome σ α} (h : o.Rel Eq o') : o = o' := by
  cases h with
  | done a hst => rw [hst]
  | failed e hst => rw [hst]
  | outOfFuel => rfl

theorem rel_of_leaves {state : σ → Prop} {o : Outcome σ (Flow α)} (h : o.Leaves state) :
    o.Rel (fun s t => state s ∧ s = t) o := by
  cases o with
  | done flow s =>
    cases flow with
    | value a => exact .done _ ⟨h.2, rfl⟩
    | jump label => exact .done _ ⟨h.2, rfl⟩
  | failed e s => exact .failed e ⟨h.2, rfl⟩
  | outOfFuel => exact .outOfFuel

end Outcome

def Runner.Simulates (R : σ → τ → Prop) (runner : Runner σ) (runner' : Runner τ) : Prop :=
  ∀ (n : Code) (s : σ) (t : τ), R s t → (runner n s).Rel R (runner' n t)

section Parts

variable {R : σ → τ → Prop} {runner : Runner σ} {runner' : Runner τ}

theorem runBlock_rel (hr : Runner.Simulates R runner runner') (children : List Code)
    (fuel : Nat) (rest : List Code) (last : Value) {s : σ} {t : τ} (hst : R s t) :
    (runBlock runner children fuel rest last s).Rel R
      (runBlock runner' children fuel rest last t) := by
  induction fuel generalizing rest last s t with
  | zero => exact .outOfFuel
  | succ fuel ih =>
    cases rest with
    | nil => exact .done _ hst
    | cons child rest =>
      simp only [runBlock]
      have hchild := hr child s t hst
      generalize runner child s = o at hchild
      generalize runner' child t = o' at hchild
      cases hchild with
      | done flow h =>
        cases flow with
        | value v => exact ih rest v h
        | jump label =>
          dsimp only
          split
          · exact ih _ last h
          · exact .done _ h
      | failed e h => exact .failed e h
      | outOfFuel => exact .outOfFuel

theorem runArgs_rel (hr : Runner.Simulates R runner runner') (args : List Code)
    (taken : List Value) {s : σ} {t : τ} (hst : R s t) :
    (runArgs runner args taken s).Rel R (runArgs runner' args taken t) := by
  induction args generalizing taken s t with
  | nil => exact .done _ hst
  | cons arg args ih =>
    refine (hr arg s t hst).onValue ?_
    intro v s' t' hst'
    exact ih (v :: taken) hst'

end Parts

def Event.state : Event σ → σ
  | .node _ _ s | .call _ _ _ s => s

inductive Event.Rel (R : σ → τ → Prop) : Event σ → Event τ → Prop
  | node (fuel : Nat) (code : Code) {s : σ} {t : τ} (h : R s t) :
      Rel R (.node fuel code s) (.node fuel code t)
  | call (fuel : Nat) (f : Value) (args : List Value) {s : σ} {t : τ} (h : R s t) :
      Rel R (.call fuel f args s) (.call fuel f args t)

/-- The traces have the same points in the same order, at related states. -/
abbrev PointsMatch (R : σ → τ → Prop) : List (Event σ) → List (Event τ) → Prop :=
  List.Forall₂ (Event.Rel R)

namespace Machine

/-- Two evaluators treat related states alike: they run code alike, see the same slots,
and start calls in related states. -/
structure Simulates (R : σ → τ → Prop) (M : Machine σ) (N : Machine τ) : Prop where
  run (fuel : Nat) : Runner.Simulates R (M.run fuel) (N.run fuel)
  slot? {s : σ} {t : τ} (name : Name) : R s t → M.slot? s name = N.slot? t name
  enter {s : σ} {t : τ} (params : List Name) (args : List Value) :
    R s t → R (M.enter s params args) (N.enter t params args)

variable {R : σ → τ → Prop} {runner : Runner σ} {runner' : Runner τ}
  {points : Code → σ → List (Event σ)} {points' : Code → τ → List (Event τ)}

theorem pointsMatch_after {o : Outcome σ (Flow α)} {o' : Outcome τ (Flow α)}
    {k : α → σ → List (Event σ)} {k' : α → τ → List (Event τ)} (h : o.Rel R o')
    (hk : ∀ a s t, R s t → PointsMatch R (k a s) (k' a t)) :
    PointsMatch R (o.pointsAfter k) (o'.pointsAfter k') := by
  cases h with
  | done flow hst =>
    cases flow with
    | value a => exact hk a _ _ hst
    | jump label => exact .nil
  | failed e hst => exact .nil
  | outOfFuel => exact .nil

theorem blockPoints_match (hr : Runner.Simulates R runner runner')
    (hp : ∀ n s t, R s t → PointsMatch R (points n s) (points' n t)) (children : List Code)
    (fuel : Nat) (rest : List Code) {s : σ} {t : τ} (hst : R s t) :
    PointsMatch R (blockPoints runner points children fuel rest s)
      (blockPoints runner' points' children fuel rest t) := by
  induction fuel generalizing rest s t with
  | zero => exact .nil
  | succ fuel ih =>
    cases rest with
    | nil => exact .nil
    | cons child rest =>
      simp only [blockPoints]
      refine List.rel_append (hp child s t hst) ?_
      have hchild := hr child s t hst
      generalize runner child s = o at hchild
      generalize runner' child t = o' at hchild
      cases hchild with
      | done flow h =>
        cases flow with
        | value v => exact ih rest h
        | jump label =>
          dsimp only
          split
          · exact ih _ h
          · exact .nil
      | failed e h => exact .nil
      | outOfFuel => exact .nil

theorem argPoints_match (hr : Runner.Simulates R runner runner')
    (hp : ∀ n s t, R s t → PointsMatch R (points n s) (points' n t)) (args : List Code)
    {s : σ} {t : τ} (hst : R s t) :
    PointsMatch R (argPoints runner points args s) (argPoints runner' points' args t) := by
  induction args generalizing s t with
  | nil => exact .nil
  | cons arg args ih =>
    refine List.rel_append (hp arg s t hst) (pointsMatch_after (hr arg s t hst) ?_)
    intro v s' t' hst'
    exact ih hst'

namespace Simulates

variable {M : Machine σ} {N : Machine τ}

theorem callPoints (hM : M.Simulates R N)
    (hp : ∀ n s t, R s t → PointsMatch R (points n s) (points' n t)) (fuel : Nat) (f : Value)
    (args : List Value) {s : σ} {t : τ} (hst : R s t) :
    PointsMatch R (M.callPoints fuel points f args s) (N.callPoints fuel points' f args t) := by
  refine .cons (.call fuel f args hst) ?_
  cases f with
  | function id name params body =>
    dsimp only
    split
    · exact hp body _ _ (hM.enter params args hst)
    · exact .nil
  | _ => exact .nil

theorem partPoints (hM : M.Simulates R N)
    (hp : ∀ n s t, R s t → PointsMatch R (points n s) (points' n t)) (fuel : Nat) (n : Code)
    {s : σ} {t : τ} (hst : R s t) :
    PointsMatch R (M.partPoints fuel points n s) (N.partPoints fuel points' n t) := by
  have hr := hM.run fuel
  cases n with
  | assign name expr =>
    simp only [Machine.partPoints, hM.slot? name hst]
    split
    · exact hp expr s t hst
    · exact .nil
  | block children => exact blockPoints_match hr hp children fuel children hst
  | when test body =>
    refine List.rel_append (hp test s t hst) (pointsMatch_after (hr test s t hst) ?_)
    intro v s' t' hst'
    split
    · exact hp body s' t' hst'
    · exact .nil
  | choose test yes no =>
    refine List.rel_append (hp test s t hst) (pointsMatch_after (hr test s t hst) ?_)
    intro v s' t' hst'
    split
    · exact hp yes s' t' hst'
    · exact hp no s' t' hst'
  | call callee args =>
    refine List.rel_append (hp callee s t hst) (pointsMatch_after (hr callee s t hst) ?_)
    intro f s₁ t₁ h₁
    refine List.rel_append (argPoints_match hr hp args h₁) ?_
    refine pointsMatch_after (runArgs_rel hr args [] h₁) ?_
    intro vs s₂ t₂ h₂
    exact hM.callPoints hp fuel f vs h₂
  | _ => exact .nil

/-- The traces of two such evaluators match from related states on. -/
theorem trace (hM : M.Simulates R N) (fuel : Nat) (n : Code) (s : σ) (t : τ) (hst : R s t) :
    PointsMatch R (M.trace fuel n s) (N.trace fuel n t) := by
  induction fuel generalizing n s t with
  | zero => exact .nil
  | succ fuel ih => exact .cons (.node fuel n hst) (hM.partPoints ih fuel n hst)

theorem callTrace (hM : M.Simulates R N) (fuel : Nat) (f : Value) (args : List Value) {s : σ}
    {t : τ} (hst : R s t) :
    PointsMatch R (M.callTrace fuel f args s) (N.callTrace fuel f args t) :=
  hM.callPoints (hM.trace fuel) fuel f args hst

end Simulates

structure Keeps (M : Machine σ) (P : σ → Prop) : Prop where
  run (fuel : Nat) (n : Code) {s : σ} : P s → (M.run fuel n s).Leaves P
  enter (params : List Name) (args : List Value) {s : σ} : P s → P (M.enter s params args)

namespace Keeps

variable {M : Machine σ} {P : σ → Prop}

/-- To keep a predicate is to go along with oneself where it holds. -/
theorem simulates (h : M.Keeps P) : M.Simulates (fun s t => P s ∧ s = t) M where
  run := by
    rintro fuel n s _ ⟨hs, rfl⟩
    exact Outcome.rel_of_leaves (h.run fuel n hs)
  slot? := by
    rintro s _ name ⟨-, rfl⟩
    rfl
  enter := by
    rintro s _ params args ⟨hs, rfl⟩
    exact ⟨h.enter params args hs, rfl⟩

theorem state_of_match {events : List (Event σ)}
    (h : PointsMatch (fun s t => P s ∧ s = t) events events) :
    ∀ event ∈ events, P event.state := by
  intro event hevent
  cases List.forall₂_same.1 h event hevent with
  | node fuel n h => exact h.1
  | call fuel f args h => exact h.1

/-- The predicate holds at every point. -/
theorem trace (h : M.Keeps P) (fuel : Nat) (n : Code) {s : σ} (hs : P s) :
    ∀ event ∈ M.trace fuel n s, P event.state :=
  state_of_match (h.simulates.trace fuel n s s ⟨hs, rfl⟩)

theorem callTrace (h : M.Keeps P) (fuel : Nat) (f : Value) (args : List Value) {s : σ}
    (hs : P s) : ∀ event ∈ M.callTrace fuel f args s, P event.state :=
  state_of_match (h.simulates.callTrace fuel f args ⟨hs, rfl⟩)

end Keeps

end Machine

/-- The points of a program match if those of code do. -/
theorem Interpreter.formPoints_match {R : σ → τ → Prop} {η : Type}
    (runner : Runner (Config η)) {points : Code → Config η → List (Event σ)}
    {points' : Code → Config η → List (Event τ)}
    (hp : ∀ n c, PointsMatch R (points n c) (points' n c)) (trees : List Tree)
    (it : Interpreter η) :
    PointsMatch R (formPoints runner points trees it) (formPoints runner points' trees it) := by
  induction trees generalizing it with
  | nil => exact .nil
  | cons tree trees ih =>
    unfold formPoints
    split
    · exact .nil
    · next form it' hcompile =>
      refine List.rel_append ?_ ?_
      · split
        · exact .nil
        · exact hp _ _
      · split
        · next r it'' hrun => exact ih it''
        · exact .nil

end Treewalk
