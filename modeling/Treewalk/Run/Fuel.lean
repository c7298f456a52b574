import Treewalk.Run.Basic

/-!
Fuel only bounds a run. Whatever a run ends with, it ends with the same under
any larger bound.
-/
namespace Treewalk

variable {η : Type}

namespace Outcome

variable {σ τ α β : Type}

/-- The second outcome is what the first would be with more fuel. -/
def Below (o o' : Outcome σ α) : Prop := o = outOfFuel ∨ o = o'

theorem Below.refl (o : Outcome σ α) : Below o o := .inr rfl

theorem Below.of_outOfFuel (o : Outcome σ α) : Below outOfFuel o := .inl rfl

theorem Below.trans {o o' o'' : Outcome σ α} (h : Below o o') (h' : Below o' o'') :
    Below o o'' := by
  rcases h with rfl | rfl
  · exact of_outOfFuel _
  · exact h'

theorem Below.eq {o o' : Outcome σ α} (h : Below o o') (hne : o ≠ outOfFuel) : o' = o :=
  (h.resolve_left hne).symm

theorem Below.mapState {o o' : Outcome σ α} (h : Below o o') (f : σ → τ) :
    Below (o.mapState f) (o'.mapState f) := by
  rcases h with rfl | rfl
  · exact of_outOfFuel _
  · exact refl _

theorem Below.mapError {o o' : Outcome σ α} (h : Below o o') (f : Error → Error) :
    Below (o.mapError f) (o'.mapError f) := by
  rcases h with rfl | rfl
  · exact of_outOfFuel _
  · exact refl _

theorem Below.onValue {o o' : Outcome σ (Flow α)} {k k' : α → σ → Outcome σ (Flow β)}
    (h : Below o o') (hk : ∀ a s, Below (k a s) (k' a s)) :
    Below (o.onValue k) (o'.onValue k') := by
  rcases h with rfl | rfl
  · exact of_outOfFuel _
  · cases o with
    | done flow s =>
      cases flow with
      | value a => exact hk a s
      | jump label => exact refl _
    | failed e s => exact refl _
    | outOfFuel => exact refl _

end Outcome

open Outcome

def Runner.Below (r r' : Runner (Config η)) : Prop := ∀ code c, (r code c).Below (r' code c)

theorem runBlock_below {r r' : Runner (Config η)} (h : r.Below r') (children : List Code)
    {fuel fuel' : Nat} (hf : fuel ≤ fuel') (rest : List Code) (last : Value) (c : Config η) :
    (runBlock r children fuel rest last c).Below (runBlock r' children fuel' rest last c) := by
  induction fuel generalizing fuel' rest last c with
  | zero => exact .of_outOfFuel _
  | succ fuel ih =>
    obtain ⟨fuel', rfl⟩ : ∃ n, fuel' = n + 1 := ⟨fuel' - 1, by omega⟩
    have hf' : fuel ≤ fuel' := by omega
    cases rest with
    | nil => exact .refl _
    | cons child rest =>
      simp only [runBlock]
      rcases h child c with ho | ho
      · simp only [ho]
        exact .of_outOfFuel _
      · rw [← ho]
        split
        · exact ih hf' ..
        · split
          · exact ih hf' ..
          · exact .refl _
        · exact .refl _
        · exact .refl _

theorem runArgs_below {r r' : Runner (Config η)} (h : r.Below r') (args : List Code)
    (taken : List Value) (c : Config η) :
    (runArgs r args taken c).Below (runArgs r' args taken c) := by
  induction args generalizing taken c with
  | nil => exact .refl _
  | cons arg args ih => exact (h arg c).onValue fun v c => ih ..

theorem callValue_below {r r' : Runner (Config η)} (h : r.Below r') (host : Host η)
    (env : Environment) (f : Value) (args : List Value) (w : World η) :
    (callValue host r env f args w).Below (callValue host r' env f args w) := by
  cases f with
  | function id name params body =>
    simp only [callValue]
    split
    · exact ((h body _).mapState _).mapError _
    · exact .refl _
  | _ => exact .refl _

theorem step_below {r r' : Runner (Config η)} (h : r.Below r') (host : Host η) {fuel fuel' : Nat}
    (hf : fuel ≤ fuel') : (step host r fuel).Below (step host r' fuel') := by
  intro code c
  cases code with
  | assign name expr =>
    simp only [step]
    split
    · exact .refl _
    · exact .refl _
    · exact (h expr c).onValue fun v c => .refl _
  | block children => exact runBlock_below h children hf ..
  | when test body =>
    refine (h test c).onValue fun v c => ?_
    split
    · exact h body c
    · exact .refl _
  | choose test yes no =>
    refine (h test c).onValue fun v c => ?_
    split
    · exact h yes c
    · exact h no c
  | call callee args =>
    exact (h callee c).onValue fun f c => (runArgs_below h args [] c).onValue fun vs c =>
      (callValue_below h host c.env f vs c.world).mapState _
  | _ => exact .refl _

theorem run_below (host : Host η) {fuel fuel' : Nat} (hf : fuel ≤ fuel') :
    (run host fuel).Below (run host fuel') := by
  induction fuel generalizing fuel' with
  | zero => exact fun _ _ => .of_outOfFuel _
  | succ fuel ih =>
    obtain ⟨fuel', rfl⟩ : ∃ n, fuel' = n + 1 := ⟨fuel' - 1, by omega⟩
    have hf' : fuel ≤ fuel' := by omega
    exact step_below (ih hf') host hf'

/-- More fuel keeps the answer of a run that ended. -/
theorem run_eq_of_le {host : Host η} {fuel fuel' : Nat} (hf : fuel ≤ fuel') {code : Code}
    {c : Config η} (h : run host fuel code c ≠ .outOfFuel) :
    run host fuel' code c = run host fuel code c :=
  (run_below host hf code c).eq h

end Treewalk
